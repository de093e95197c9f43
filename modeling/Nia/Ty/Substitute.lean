import Nia.Ty.Tree

/-! Substitution in types.

A substitution gives types for type parameters, const arguments with their types for const
parameters, and a type for `Self`. It is stated here on trees, with the argument of a const
parameter put in as it is; publishing a pointer to a callable pointee gives the callable view
instead, also when only the substitution made the pointee callable. Two substitutions in a
row are one (`OpenTy.subst_compose`), as long as no array length is left to the second that
the first has an argument for (`LengthArg`). -/
namespace Nia.Ty

variable {M : Type}

/-- The arguments of parameters, with types given as `α`. -/
structure Arguments (M α : Type) where
  typeArg : SymbolId → Option α
  constArg : SymbolId → Option (ConstValue M × α)
  selfTy : Option α

/-- A composite type as the store publishes it. -/
def internNode : TyHead M → Parts M → OpenTy M
  | .pointer isReadonly, .ty (.node .callablePointee signature) .nil => .node (.callable isReadonly) signature
  | head, parts => .node head parts

/-- A length that is a const parameter takes the length its argument stands for, if it does. -/
def ArrayLenTy.substitute {α : Type} (constArg : SymbolId → Option (ConstValue M × α)) : ArrayLenTy M → ArrayLenTy M
  | .genericParam name =>
    ((constArg name).bind fun arg => arrayLenFromConstArg arg.1).getD (.genericParam name)
  | len => len

/-- The part of a substitution that acts on heads. -/
def TyHead.substituteLen {α : Type} (constArg : SymbolId → Option (ConstValue M × α)) : TyHead M → TyHead M
  | .array len => .array (len.substitute constArg)
  | head => head

mutual

/-- Substitution in a type. -/
def OpenTy.subst (σ : Arguments M (OpenTy M)) : OpenTy M → OpenTy M
  | .leaf kind => .leaf kind
  | .genericParam name => (σ.typeArg name).getD (.genericParam name)
  | .selfParam => σ.selfTy.getD .selfParam
  | .node head parts => internNode (head.substituteLen σ.constArg) (parts.subst σ)

def Parts.subst (σ : Arguments M (OpenTy M)) : Parts M → Parts M
  | .nil => .nil
  | .ty t rest => .ty (t.subst σ) (rest.subst σ)
  | .const (.genericParam name) t rest =>
    match σ.constArg name with
    | some (value, u) => .const value u (rest.subst σ)
    | none => .const (.genericParam name) (t.subst σ) (rest.subst σ)
  | .const value t rest => .const value (t.subst σ) (rest.subst σ)

end

/-- Substitution in a const argument. -/
def substConst (σ : Arguments M (OpenTy M)) : ConstValue M × OpenTy M → ConstValue M × OpenTy M
  | (.genericParam name, t) => (σ.constArg name).getD (.genericParam name, t.subst σ)
  | (value, t) => (value, t.subst σ)

theorem Parts.subst_const (σ : Arguments M (OpenTy M)) (value : ConstValue M) (t : OpenTy M) (rest : Parts M) :
    (Parts.const value t rest).subst σ =
      .const (substConst σ (value, t)).1 (substConst σ (value, t)).2 (rest.subst σ) := by
  cases value with
  | genericParam name =>
    rw [Parts.subst, substConst]
    cases σ.constArg name with
    | none => rfl
    | some arg => rfl
  | constExpr | int | bool | char => rfl

/-- One substitution after another: what the first puts in is substituted by the second. -/
def Arguments.compose (s r : Arguments M (OpenTy M)) : Arguments M (OpenTy M) where
  typeArg name := ((s.typeArg name).map (·.subst r)).or (r.typeArg name)
  constArg name := ((s.constArg name).map (substConst r)).or (r.constArg name)
  selfTy := (s.selfTy.map (·.subst r)).or r.selfTy

/-! ### Lengths -/

/-- Of a parameter that stands for a length: when its argument is no length, the second substitution puts no other
length in; when its argument is another parameter, what the second puts in for that is a length. -/
structure LengthArg {α : Type} (s r : SymbolId → Option (ConstValue M × α)) (name : SymbolId) : Prop where
  first : ∀ arg, s name = some arg → arrayLenFromConstArg arg.1 = none → ∀ put, r name = some put →
    ∀ len, arrayLenFromConstArg put.1 = some len → len = .genericParam name
  second : ∀ other t, s name = some (.genericParam other, t) → other ≠ name → ∀ put, r other = some put →
    (arrayLenFromConstArg put.1).isSome

/-- The const parameters that stand for a length in the head. -/
def TyHead.lengthParam : TyHead M → Option SymbolId
  | .array (.genericParam name) => some name
  | _ => none

/-- A length argument that is no parameter stays as it is. -/
theorem substitute_arrayLenFromConstArg {value : ConstValue M} {len : ArrayLenTy M}
    (h : arrayLenFromConstArg value = some len) (hvalue : ∀ name, value ≠ .genericParam name) {α : Type}
    (constArg : SymbolId → Option (ConstValue M × α)) : len.substitute constArg = len := by
  cases value with
  | genericParam name => exact absurd rfl (hvalue name)
  | int value =>
    rw [arrayLenFromConstArg] at h
    split at h <;>
    · obtain ⟨n, -, hn⟩ := Option.bind_eq_some_iff.mp h
      dsimp only at hn
      split at hn
      · obtain rfl := Option.some.inj hn
        rfl
      · cases hn
  | constExpr id =>
    obtain rfl := Option.some.inj h
    rfl
  | bool | char => cases h

theorem substConst_of_value (r : Arguments M (OpenTy M)) {value : ConstValue M}
    (hvalue : ∀ name, value ≠ .genericParam name) (t : OpenTy M) : substConst r (value, t) = (value, t.subst r) := by
  cases value with
  | genericParam name => exact absurd rfl (hvalue name)
  | constExpr | int | bool | char => rfl

variable (s r : Arguments M (OpenTy M))

theorem Arguments.compose_constArg (name : SymbolId) :
    (s.compose r).constArg name = ((s.constArg name).map (substConst r)).or (r.constArg name) := rfl

theorem ArrayLenTy.substitute_compose (len : ArrayLenTy M)
    (h : ∀ name, len = .genericParam name → LengthArg s.constArg r.constArg name) :
    (len.substitute s.constArg).substitute r.constArg = len.substitute (s.compose r).constArg := by
  cases len with
  | infer | constValue | constExpr | builtin => rfl
  | genericParam name =>
    obtain ⟨hfirst, hsecond⟩ := h name rfl
    simp only [ArrayLenTy.substitute, s.compose_constArg r]
    cases hs : s.constArg name with
    | none => rfl
    | some arg =>
      obtain ⟨value, t⟩ := arg
      by_cases hvalue : ∀ other, value ≠ .genericParam other
      · simp only [Option.bind_some, Option.map_some, Option.some_or, substConst_of_value r hvalue]
        cases hlen : arrayLenFromConstArg value with
        | some len => exact substitute_arrayLenFromConstArg hlen hvalue _
        | none =>
          -- The parameter is left to the second substitution.
          simp only [Option.getD_none]
          cases hput : (r.constArg name).bind fun put => arrayLenFromConstArg put.1 with
          | none => rfl
          | some len =>
            obtain ⟨put, hr, hput⟩ := Option.bind_eq_some_iff.mp hput
            rw [hfirst _ hs hlen put hr len hput]
            rfl
      · obtain ⟨other, rfl⟩ : ∃ other, value = .genericParam other := by simpa using hvalue
        have hlen : arrayLenFromConstArg (.genericParam other : ConstValue M) = some (.genericParam other) := rfl
        simp only [Option.bind_some, hlen, Option.getD_some, Option.map_some, Option.some_or, substConst]
        cases hr : r.constArg other with
        | none => rfl
        | some put =>
          by_cases hother : other = name
          · rw [hother]
            rfl
          · obtain ⟨put', hput⟩ := Option.isSome_iff_exists.mp (hsecond other t hs hother put hr)
            simp [hput]

/-! ### Composition -/

mutual

/-- The const parameters that stand for a length in a type. -/
def OpenTy.lengthParams : OpenTy M → List SymbolId
  | .leaf _ | .genericParam _ | .selfParam => []
  | .node head parts => head.lengthParam.toList ++ parts.lengthParams

def Parts.lengthParams : Parts M → List SymbolId
  | .nil => []
  | .ty t rest => t.lengthParams ++ rest.lengthParams
  | .const _ t rest => t.lengthParams ++ rest.lengthParams

end

theorem TyHead.substituteLen_compose (head : TyHead M)
    (h : ∀ name ∈ head.lengthParam, LengthArg s.constArg r.constArg name) :
    (head.substituteLen s.constArg).substituteLen r.constArg = head.substituteLen (s.compose r).constArg := by
  cases head with
  | array len =>
    simp only [TyHead.substituteLen, TyHead.array.injEq]
    refine len.substitute_compose s r fun name hname => h name ?_
    rw [hname]
    rfl
  | _ => rfl

/-- Publishing and substituting commute: a pointer whose pointee is callable is a callable view before and after. -/
theorem subst_internNode (r : Arguments M (OpenTy M)) (head : TyHead M) (parts : Parts M) :
    (internNode head parts).subst r = internNode (head.substituteLen r.constArg) (parts.subst r) := by
  unfold internNode
  split
  · rfl
  · rw [OpenTy.subst]
    rfl

theorem Parts.subst_ty (σ : Arguments M (OpenTy M)) (t : OpenTy M) (rest : Parts M) :
    (Parts.ty t rest).subst σ = .ty (t.subst σ) (rest.subst σ) := by rw [Parts.subst]

/-- A const argument is substituted twice or once, when its type is. -/
theorem substConst_compose {s r : Arguments M (OpenTy M)} (arg : ConstValue M × OpenTy M)
    (ht : (arg.2.subst s).subst r = arg.2.subst (s.compose r)) :
    substConst r (substConst s arg) = substConst (s.compose r) arg := by
  obtain ⟨value, t⟩ := arg
  by_cases hvalue : ∀ name, value ≠ .genericParam name
  · rw [substConst_of_value s hvalue, substConst_of_value r hvalue, substConst_of_value _ hvalue]
    exact Prod.ext rfl ht
  · obtain ⟨name, rfl⟩ : ∃ name, value = .genericParam name := by simpa using hvalue
    simp only [substConst, s.compose_constArg r]
    cases hs : s.constArg name with
    | some put => rfl
    | none =>
      simp only [Option.getD_none, Option.map_none, Option.none_or]
      rw [show (t.subst s).subst r = t.subst (s.compose r) from ht]

/-- **Substituting by one substitution and then by another is substituting once by their composition.** -/
theorem OpenTy.subst_compose (t : OpenTy M) (h : ∀ name ∈ t.lengthParams, LengthArg s.constArg r.constArg name) :
    (t.subst s).subst r = t.subst (s.compose r) := by
  -- The hypothesis on the components goes through the list of components, so the induction is on both.
  refine @OpenTy.rec M
    (fun t => (∀ name ∈ t.lengthParams, LengthArg s.constArg r.constArg name) →
      (t.subst s).subst r = t.subst (s.compose r))
    (fun parts => (∀ name ∈ parts.lengthParams, LengthArg s.constArg r.constArg name) →
      (parts.subst s).subst r = parts.subst (s.compose r)) ?_ ?_ ?_ ?_ ?_ ?_ ?_ t h
  · exact fun kind _ => rfl
  · intro name _
    simp only [OpenTy.subst, Arguments.compose]
    cases s.typeArg name with
    | none => simp [OpenTy.subst]
    | some u => rfl
  · intro _
    simp only [OpenTy.subst, Arguments.compose]
    cases s.selfTy with
    | none => simp [OpenTy.subst]
    | some u => rfl
  · intro head parts ih h
    rw [OpenTy.lengthParams] at h
    rw [OpenTy.subst, subst_internNode, OpenTy.subst, ih fun name hname => h name (List.mem_append_right _ hname),
      head.substituteLen_compose s r fun name hname => h name (List.mem_append_left _ (by simpa using hname))]
  · exact fun _ => rfl
  · intro t rest ht hrest h
    rw [Parts.lengthParams] at h
    rw [Parts.subst_ty, Parts.subst_ty, Parts.subst_ty, ht fun name hname => h name (List.mem_append_left _ hname),
      hrest fun name hname => h name (List.mem_append_right _ hname)]
  · intro value t rest ht hrest h
    rw [Parts.lengthParams] at h
    have htype := ht fun name hname => h name (List.mem_append_left _ hname)
    rw [Parts.subst_const, Parts.subst_const, Parts.subst_const,
      hrest fun name hname => h name (List.mem_append_right _ hname)]
    rw [show ((substConst s (value, t)).1, (substConst s (value, t)).2) = substConst s (value, t) from rfl,
      substConst_compose (value, t) htype]

end Nia.Ty
