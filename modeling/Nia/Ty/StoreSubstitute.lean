import Nia.Ty.Store

/-! `substitute_ty`.

The substitution on handles replaces parameters and publishes every composite type again. It
also substitutes the type of a const argument that it has just put in; as long as that leaves
the type as it is, the handle that comes out stands for the substituted type
(`substituteTy_denotes`). Substituting twice then gives the handle that substituting once by
the composition gives (`substituteTy_compose`). -/
namespace Nia.Ty

open Option

variable {M : Type}

/-! ### Substitution on handles -/

/-- The argument put in for a const parameter; others stay. -/
def putConst (args : Arguments M Nat) : ConstValue M × Nat → ConstValue M × Nat
  | (.genericParam name, ty) => (args.constArg name).getD (.genericParam name, ty)
  | arg => arg

/-- The components of a kind from left to right. -/
def substituteParts (args : Arguments M Nat) (substitute : Nat → TypeStore M → Option (Nat × TypeStore M)) :
    List (Option (ConstValue M) × Nat) → TypeStore M →
      Option (List (Option (ConstValue M) × Nat) × TypeStore M)
  | [], store => some ([], store)
  | (none, ty) :: rest, store => do
      let (ty, store) ← substitute ty store
      let (rest, store) ← substituteParts args substitute rest store
      some ((none, ty) :: rest, store)
  | (some value, ty) :: rest, store => do
      let arg := putConst args (value, ty)
      let (ty, store) ← substitute arg.2 store
      let (rest, store) ← substituteParts args substitute rest store
      some ((some arg.1, ty) :: rest, store)

section Substitute

variable [DecidableEq M]

/-- `substitute_ty`, for a bounded depth of calls. -/
def TypeStore.substituteTy (args : Arguments M Nat) : Nat → Nat → TypeStore M → Option (Nat × TypeStore M)
  | 0, _, _ => none
  | depth + 1, ty, store =>
    match store.get ty with
    | some (.genericParam name) => some ((args.typeArg name).getD ty, store)
    | some .selfParam => some (args.selfTy.getD ty, store)
    | some (.node head slots) => do
        let (slots, store) ← substituteParts args (substituteTy args depth) slots store
        store.intern (.node (head.substituteLen args.constArg) slots)
    | some (.leaf _) | none => some (ty, store)

/-- The substitution of one const argument. -/
def TypeStore.substituteConstArg (args : Arguments M Nat) (depth : Nat) (arg : ConstValue M × Nat)
    (store : TypeStore M) : Option ((ConstValue M × Nat) × TypeStore M) := do
  let arg := putConst args arg
  let (ty, store) ← store.substituteTy args depth arg.2
  some ((arg.1, ty), store)

end Substitute

/-! ### One const argument -/

variable {value : ConstValue M}

/-- A const argument that is no mapped parameter keeps its value. -/
theorem putConst_of_unmapped {args : Arguments M Nat} {ty : Nat}
    (h : ∀ name, value = .genericParam name → args.constArg name = none) : putConst args (value, ty) = (value, ty) := by
  cases value with
  | genericParam name => simp [putConst, h name rfl]
  | constExpr | int | bool | char => rfl

theorem substConst_of_unmapped {σ : Arguments M (OpenTy M)} {t : OpenTy M}
    (h : ∀ name, value = .genericParam name → σ.constArg name = none) :
    substConst σ (value, t) = (value, t.subst σ) := by
  cases value with
  | genericParam name => simp [substConst, h name rfl]
  | constExpr | int | bool | char => rfl

variable {store : TypeStore M} {head : TyHead M} {slots : List (Option (ConstValue M) × Nat)}

theorem substituteTy_node [DecidableEq M] {args : Arguments M Nat} {ty : Nat}
    (h : store[ty]? = some (.node head slots)) (depth : Nat) :
    store.substituteTy args (depth + 1) ty =
      (substituteParts args (TypeStore.substituteTy args depth) slots store).bind fun out =>
        out.2.intern (.node (head.substituteLen args.constArg) out.1) := by
  rw [TypeStore.substituteTy, TypeStore.get, h]
  rfl

/-! ### What the substitution computes -/

/-- The handles of the arguments stand for types. -/
structure ArgumentsDenote (store : TypeStore M) (args : Arguments M Nat) (σ : Arguments M (OpenTy M)) : Prop where
  typeArg : ∀ name, Option.Rel (Denotes store) (args.typeArg name) (σ.typeArg name)
  constArg : ∀ name, Option.Rel (fun arg put => arg.1 = put.1 ∧ Denotes store arg.2 put.2)
    (args.constArg name) (σ.constArg name)
  selfTy : Option.Rel (Denotes store) args.selfTy σ.selfTy

variable {α β : Type} {x : Option α}

theorem optionRel_mono {P Q : α → β → Prop} (h : ∀ a b, P a b → Q a b) {y : Option β}
    (hrel : Option.Rel P x y) : Option.Rel Q x y := by
  cases hrel with
  | some hab => exact .some (h _ _ hab)
  | none => exact .none

theorem ArgumentsDenote.mono {store' : TypeStore M} {args : Arguments M Nat} {σ : Arguments M (OpenTy M)}
    (h : ArgumentsDenote store args σ) (hmono : store <+: store') : ArgumentsDenote store' args σ where
  typeArg name := optionRel_mono (fun _ _ ht => ht.mono hmono) (h.typeArg name)
  constArg name := optionRel_mono (fun _ _ harg => ⟨harg.1, harg.2.mono hmono⟩) (h.constArg name)
  selfTy := optionRel_mono (fun _ _ ht => ht.mono hmono) h.selfTy

/-- The handles of the arguments are in the store. -/
structure Arguments.InStore (args : Arguments M Nat) (store : TypeStore M) : Prop where
  typeArg : ∀ name a, args.typeArg name = some a → a < store.length
  constArg : ∀ name a, args.constArg name = some a → a.2 < store.length
  selfTy : ∀ a, args.selfTy = some a → a < store.length

theorem optionRel_map {R : α → β → Prop} {f : α → β} (h : ∀ a, x = some a → R a (f a)) : Option.Rel R x (x.map f) := by
  cases x with
  | none => exact .none
  | some a => exact .some (h a rfl)

theorem Arguments.InStore.exists_denote {args : Arguments M Nat} (hargs : args.InStore store)
    (hvalid : store.Valid) : ∃ σ, ArgumentsDenote store args σ := by
  have htree : ∀ a, ∃ t, a < store.length → Denotes store a t := by
    intro a
    by_cases h : a < store.length
    · obtain ⟨t, ht⟩ := hvalid.denotes a h
      exact ⟨t, fun _ => ht⟩
    · exact ⟨.selfParam, fun ha => absurd ha h⟩
  choose tree htree using htree
  exact ⟨⟨fun name => (args.typeArg name).map tree, fun name => (args.constArg name).map fun arg => (arg.1, tree arg.2),
    args.selfTy.map tree⟩, fun name => optionRel_map fun a ha => htree a (hargs.typeArg name a ha),
    fun name => optionRel_map fun a ha => ⟨rfl, htree a.2 (hargs.constArg name a ha)⟩,
    optionRel_map fun a ha => htree a (hargs.selfTy a ha)⟩

variable {put : ConstValue M × OpenTy M}

section

variable {args : Arguments M Nat} {σ : Arguments M (OpenTy M)} (h : ArgumentsDenote store args σ)
include h

theorem ArgumentsDenote.constArg_of {name : SymbolId} (hput : σ.constArg name = some put) :
    ∃ a, args.constArg name = some (put.1, a) ∧ Denotes store a put.2 := by
  have hrel := h.constArg name
  rw [hput] at hrel
  cases harg : args.constArg name with
  | none =>
    rw [harg] at hrel
    cases hrel
  | some arg =>
    rw [harg] at hrel
    cases hrel with
    | some hsame => exact ⟨arg.2, by rw [← hsame.1], hsame.2⟩

theorem ArgumentsDenote.constArg_none {name : SymbolId} (hnone : σ.constArg name = none) :
    args.constArg name = none := by
  have hrel := h.constArg name
  rw [hnone] at hrel
  cases harg : args.constArg name with
  | none => rfl
  | some arg =>
    rw [harg] at hrel
    cases hrel

/-- Array lengths see the values of const arguments only. -/
theorem ArgumentsDenote.substituteLen (head : TyHead M) :
    head.substituteLen args.constArg = head.substituteLen σ.constArg := by
  cases head with
  | array len =>
    cases len with
    | genericParam name =>
      simp only [TyHead.substituteLen, ArrayLenTy.substitute]
      cases hσ : σ.constArg name with
      | none =>
        rw [h.constArg_none hσ]
        rfl
      | some put =>
        obtain ⟨a, ha, -⟩ := h.constArg_of hσ
        rw [ha]
        rfl
    | infer | constValue | constExpr | builtin => rfl
  | _ => rfl

end

/-- The substitution leaves the types of its own const arguments as they are. -/
def Arguments.Settled (σ : Arguments M (OpenTy M)) : Prop :=
  ∀ name put, σ.constArg name = some put → put.2.subst σ = put.2

theorem denotes_getD {ty : Nat} {t : OpenTy M} (ht : Denotes store ty t)
    {put : Option Nat} {u : Option (OpenTy M)} (h : Option.Rel (Denotes store) put u) :
    Denotes store (put.getD ty) (u.getD t) := by
  cases h with
  | some hput => exact hput
  | none => exact ht

section Simulation

variable [DecidableEq M] {args : Arguments M Nat} {σ : Arguments M (OpenTy M)}

/-- From some depth on, what the substitution returns for a handle of `t` is a handle of `u`. -/
def Returns (args : Arguments M Nat) (σ : Arguments M (OpenTy M)) (t u : OpenTy M) : Prop :=
  ∃ least, ∀ depth ≥ least, ∀ {store : TypeStore M} {ty : Nat}, store.Valid → ArgumentsDenote store args σ →
    Denotes store ty t → ∃ ty' store', store.substituteTy args depth ty = some (ty', store') ∧
      store <+: store' ∧ store'.Valid ∧ Denotes store' ty' u

def ReturnsParts (args : Arguments M Nat) (σ : Arguments M (OpenTy M)) (parts out : Parts M) : Prop :=
  ∃ least, ∀ depth ≥ least, ∀ {store : TypeStore M} {slots : List (Option (ConstValue M) × Nat)},
    store.Valid → ArgumentsDenote store args σ → DenotesParts store slots parts →
    ∃ slots' store', substituteParts args (TypeStore.substituteTy args depth) slots store = some (slots', store') ∧
      store <+: store' ∧ store'.Valid ∧ DenotesParts store' slots' out

/-- The same for a const argument: first what is put in for it, then the type of that. -/
def ReturnsConst (args : Arguments M Nat) (σ : Arguments M (OpenTy M)) (arg put : ConstValue M × OpenTy M) : Prop :=
  ∃ least, ∀ depth ≥ least, ∀ {store : TypeStore M} {ty : Nat}, store.Valid → ArgumentsDenote store args σ →
    Denotes store ty arg.2 → ∃ ty' store',
      store.substituteTy args depth (putConst args (arg.1, ty)).2 = some (ty', store') ∧ store <+: store' ∧
        store'.Valid ∧ (putConst args (arg.1, ty)).1 = put.1 ∧ Denotes store' ty' put.2

theorem ReturnsConst.of_mapped {name : SymbolId} {t u : OpenTy M}
    (hput : σ.constArg name = some put) (h : Returns args σ put.2 u) :
    ReturnsConst args σ (.genericParam name, t) (put.1, u) := by
  obtain ⟨least, h⟩ := h
  refine ⟨least, fun depth hdepth store ty hvalid hargs _ => ?_⟩
  obtain ⟨a, harg, ha⟩ := hargs.constArg_of hput
  obtain ⟨ty', store', hrun, hmono, hvalid', hty'⟩ := h depth hdepth hvalid hargs ha
  simp only [putConst, harg, getD_some]
  exact ⟨ty', store', hrun, hmono, hvalid', trivial, hty'⟩

theorem ReturnsConst.of_unmapped {t u : OpenTy M}
    (hnone : ∀ name, value = .genericParam name → σ.constArg name = none) (h : Returns args σ t u) :
    ReturnsConst args σ (value, t) (value, u) := by
  obtain ⟨least, h⟩ := h
  refine ⟨least, fun depth hdepth store ty hvalid hargs hty => ?_⟩
  rw [putConst_of_unmapped fun name hname => hargs.constArg_none (hnone name hname)]
  obtain ⟨ty', store', hrun, hmono, hvalid', hty'⟩ := h depth hdepth hvalid hargs hty
  exact ⟨ty', store', hrun, hmono, hvalid', rfl, hty'⟩

omit [DecidableEq M] in
/-- A parameter that is mapped, or an argument that stays. -/
theorem mapped_or_unmapped (σ : Arguments M (OpenTy M)) (value : ConstValue M) :
    (∃ name put, value = .genericParam name ∧ σ.constArg name = some put) ∨
      ∀ name, value = .genericParam name → σ.constArg name = none := by
  by_cases hput : ∃ name put, value = .genericParam name ∧ σ.constArg name = some put
  · exact .inl hput
  · refine .inr fun name hname => ?_
    exact eq_none_iff_forall_ne_some.mpr fun put hσ => hput ⟨name, put, hname, hσ⟩

theorem Returns.leaf (kind : LeafTy) : Returns args σ (.leaf kind) (.leaf kind) := by
  refine ⟨1, fun depth hdepth store ty hvalid hargs ht => ?_⟩
  obtain ⟨depth, rfl⟩ := Nat.exists_eq_add_of_le' hdepth
  cases ht with
  | leaf h => exact ⟨ty, store, by rw [TypeStore.substituteTy, TypeStore.get, h], List.prefix_refl _, hvalid, .leaf h⟩

theorem Returns.genericParam (name : SymbolId) :
    Returns args σ (.genericParam name) ((OpenTy.genericParam name).subst σ) := by
  refine ⟨1, fun depth hdepth store ty hvalid hargs ht => ?_⟩
  obtain ⟨depth, rfl⟩ := Nat.exists_eq_add_of_le' hdepth
  cases ht with
  | genericParam h =>
    refine ⟨(args.typeArg name).getD ty, store, by rw [TypeStore.substituteTy, TypeStore.get, h],
      List.prefix_refl _, hvalid, ?_⟩
    rw [OpenTy.subst]
    exact denotes_getD (.genericParam h) (hargs.typeArg name)

theorem Returns.selfParam : Returns args σ .selfParam (OpenTy.selfParam.subst σ) := by
  refine ⟨1, fun depth hdepth store ty hvalid hargs ht => ?_⟩
  obtain ⟨depth, rfl⟩ := Nat.exists_eq_add_of_le' hdepth
  cases ht with
  | selfParam h =>
    refine ⟨args.selfTy.getD ty, store, by rw [TypeStore.substituteTy, TypeStore.get, h],
      List.prefix_refl _, hvalid, ?_⟩
    rw [OpenTy.subst]
    exact denotes_getD (.selfParam h) hargs.selfTy

theorem Returns.node {parts out : Parts M} (h : ReturnsParts args σ parts out) (head : TyHead M) :
    Returns args σ (.node head parts) (internNode (head.substituteLen σ.constArg) out) := by
  obtain ⟨least, h⟩ := h
  refine ⟨least + 1, fun depth hdepth store ty hvalid hargs ht => ?_⟩
  obtain ⟨depth, rfl⟩ := Nat.exists_eq_add_of_le' (Nat.le_of_add_left_le hdepth)
  cases ht with
  | node hslot hparts =>
    obtain ⟨slots', store₁, hrun, hmono₁, hvalid₁, hparts₁⟩ := h depth (by omega) hvalid hargs hparts
    obtain ⟨ty', store₂, hintern, hmono₂, hvalid₂, hty'⟩ :=
      hvalid₁.intern (head.substituteLen args.constArg) hparts₁
    refine ⟨ty', store₂, ?_, hmono₁.trans hmono₂, hvalid₂, ?_⟩
    · rw [substituteTy_node hslot, hrun, bind_some, hintern]
    · rw [← hargs.substituteLen]
      exact hty'

theorem ReturnsParts.nil : ReturnsParts args σ .nil .nil := by
  refine ⟨0, fun depth _ store slots hvalid _ hparts => ?_⟩
  cases hparts
  exact ⟨[], store, rfl, List.prefix_refl _, hvalid, .nil⟩

theorem ReturnsParts.ty {t u : OpenTy M} {rest out : Parts M} (h : Returns args σ t u)
    (hrest : ReturnsParts args σ rest out) : ReturnsParts args σ (.ty t rest) (.ty u out) := by
  obtain ⟨least, h⟩ := h
  obtain ⟨least', hrest⟩ := hrest
  refine ⟨max least least', fun depth hdepth store slots hvalid hargs hparts => ?_⟩
  cases hparts with
  | ty ht hmore =>
    obtain ⟨ty', store₁, hrun, hmono₁, hvalid₁, hty'⟩ := h depth (by omega) hvalid hargs ht
    obtain ⟨slots', store₂, hrun', hmono₂, hvalid₂, hslots'⟩ :=
      hrest depth (by omega) hvalid₁ (hargs.mono hmono₁) (hmore.mono hmono₁)
    refine ⟨(none, ty') :: slots', store₂, ?_, hmono₁.trans hmono₂, hvalid₂, .ty (hty'.mono hmono₂) hslots'⟩
    simp only [substituteParts, hrun, hrun', bind_eq_bind, bind_some]

theorem ReturnsParts.const {t : OpenTy M} {rest out : Parts M}
    (h : ReturnsConst args σ (value, t) put) (hrest : ReturnsParts args σ rest out) :
    ReturnsParts args σ (.const value t rest) (.const put.1 put.2 out) := by
  obtain ⟨least, h⟩ := h
  obtain ⟨least', hrest⟩ := hrest
  refine ⟨max least least', fun depth hdepth store slots hvalid hargs hparts => ?_⟩
  cases hparts with
  | @const _ ty _ slots _ ht hmore =>
    obtain ⟨ty', store₁, hrun, hmono₁, hvalid₁, hvalue, hty'⟩ := h depth (by omega) hvalid hargs ht
    obtain ⟨slots', store₂, hrun', hmono₂, hvalid₂, hslots'⟩ :=
      hrest depth (by omega) hvalid₁ (hargs.mono hmono₁) (hmore.mono hmono₁)
    refine ⟨(some (putConst args (value, ty)).1, ty') :: slots', store₂, ?_, hmono₁.trans hmono₂, hvalid₂, ?_⟩
    · simp only [substituteParts, hrun, hrun', bind_eq_bind, bind_some]
    · rw [hvalue]
      exact .const (hty'.mono hmono₂) hslots'

omit [DecidableEq M] in
/-- A composite type that comes out as it was had its parts come out as they were. -/
theorem parts_of_internNode {parts : Parts M}
    (h : internNode (head.substituteLen σ.constArg) (parts.subst σ) = .node head parts) : parts.subst σ = parts := by
  unfold internNode at h
  split at h
  · next hpointer _ =>
    -- a pointer that has become a callable view did not come out as it was
    obtain ⟨rfl, -⟩ := OpenTy.node.inj h
    cases hpointer
  · exact (OpenTy.node.inj h).2

/-- A type that the substitution leaves as it is keeps what it stands for, from some depth on. A parameter in it that is
mapped is mapped to itself, so that the induction goes on with the type that stands there. -/
theorem substituteTy_settled (hsettled : σ.Settled) (t : OpenTy M) (hsame : t.subst σ = t) : Returns args σ t t := by
  refine @OpenTy.rec M (fun t => t.subst σ = t → Returns args σ t t)
    (fun parts => parts.subst σ = parts → ReturnsParts args σ parts parts) ?_ ?_ ?_ ?_ ?_ ?_ ?_ t hsame
  · exact fun kind _ => .leaf kind
  · intro name hsame
    have h : Returns args σ _ _ := .genericParam name
    rwa [hsame] at h
  · intro hsame
    have h : Returns args σ _ _ := .selfParam
    rwa [hsame] at h
  · intro head parts ih hsame
    rw [OpenTy.subst] at hsame
    have hparts := parts_of_internNode hsame
    have h := Returns.node (ih hparts) head
    rw [hparts] at hsame
    rwa [hsame] at h
  · exact fun _ => .nil
  · intro t rest iht ihrest hsame
    rw [Parts.subst_ty] at hsame
    obtain ⟨ht, hrest⟩ := Parts.ty.inj hsame
    exact .ty (iht ht) (ihrest hrest)
  · intro value t rest iht ihrest hsame
    rw [Parts.subst_const] at hsame
    obtain ⟨hvalue, ht, hrest⟩ := Parts.const.inj hsame
    have hconst : ReturnsConst args σ (value, t) (value, t) := by
      rcases mapped_or_unmapped σ value with ⟨name, put, rfl, hput⟩ | hnone
      · rw [substConst, hput] at hvalue ht
        obtain rfl : put = (.genericParam name, t) := Prod.ext hvalue ht
        exact .of_mapped hput (iht (hsettled name _ hput))
      · rw [substConst_of_unmapped hnone] at ht
        exact .of_unmapped hnone (iht ht)
    exact .const hconst (ihrest hrest)

/-- A const argument, when its own type is substituted right. -/
theorem substituteConstArg_denotes (hsettled : σ.Settled) (value : ConstValue M) {t : OpenTy M}
    (ht : Returns args σ t (t.subst σ)) : ReturnsConst args σ (value, t) (substConst σ (value, t)) := by
  rcases mapped_or_unmapped σ value with ⟨name, put, rfl, hput⟩ | hnone
  · have hput' : substConst σ (.genericParam name, t) = put := by rw [substConst, hput, getD_some]
    rw [hput']
    exact .of_mapped hput (substituteTy_settled hsettled put.2 (hsettled name put hput))
  · rw [substConst_of_unmapped hnone]
    exact .of_unmapped hnone ht

/-- **The handle that comes out stands for the substituted type**, from some depth on. -/
theorem substituteTy_denotes (hsettled : σ.Settled) (t : OpenTy M) : Returns args σ t (t.subst σ) := by
  refine @OpenTy.rec M (fun t => Returns args σ t (t.subst σ)) (fun parts => ReturnsParts args σ parts (parts.subst σ))
    Returns.leaf Returns.genericParam Returns.selfParam ?_ .nil ?_ ?_ t
  · intro head parts ih
    rw [OpenTy.subst]
    exact Returns.node ih head
  · intro t rest ht hrest
    rw [Parts.subst_ty]
    exact .ty ht hrest
  · intro value t rest ht hrest
    rw [Parts.subst_const]
    exact .const (substituteConstArg_denotes hsettled value ht) hrest

end Simulation

/-! ### One substitution after another -/

theorem substituteParts_of_le {args : Arguments M Nat} {f g : Nat → TypeStore M → Option (Nat × TypeStore M)}
    (h : ∀ {ty store out}, f ty store = some out → g ty store = some out)
    {out : List (Option (ConstValue M) × Nat) × TypeStore M}
    (hrun : substituteParts args f slots store = some out) : substituteParts args g slots store = some out := by
  induction slots generalizing store out with
  | nil => exact hrun
  | cons slot rest ih =>
    obtain ⟨value, ty⟩ := slot
    cases value with
    | none | some value =>
      obtain ⟨first, hfirst, hrest⟩ := bind_eq_some_iff.mp hrun
      obtain ⟨others, hothers, hout⟩ := bind_eq_some_iff.mp hrest
      exact bind_eq_some_iff.mpr ⟨first, h hfirst, bind_eq_some_iff.mpr ⟨others, ih hothers, hout⟩⟩

section Compose

variable [DecidableEq M] {args : Arguments M Nat} {store store' : TypeStore M}

theorem substituteTy_succ {depth ty : Nat} {out : Nat × TypeStore M}
    (hrun : store.substituteTy args depth ty = some out) : store.substituteTy args (depth + 1) ty = some out := by
  induction depth generalizing store ty out with
  | zero => cases hrun
  | succ depth ih =>
    cases hslot : store[ty]? with
    | none =>
      rw [TypeStore.substituteTy, TypeStore.get, hslot] at hrun ⊢
      exact hrun
    | some slot =>
      cases slot with
      | node head slots =>
        rw [substituteTy_node hslot] at hrun ⊢
        obtain ⟨parts, hparts, hintern⟩ := bind_eq_some_iff.mp hrun
        exact bind_eq_some_iff.mpr ⟨parts, substituteParts_of_le ih hparts, hintern⟩
      | leaf | genericParam | selfParam =>
        rw [TypeStore.substituteTy, TypeStore.get, hslot] at hrun ⊢
        exact hrun

/-- What is returned at one depth is returned at every greater one. -/
theorem substituteTy_of_le {depth depth' ty : Nat} {out : Nat × TypeStore M} (hle : depth ≤ depth')
    (hrun : store.substituteTy args depth ty = some out) : store.substituteTy args depth' ty = some out := by
  induction hle with
  | refl => exact hrun
  | step _ ih => exact substituteTy_succ ih

/-- `substitute_ty` returns. -/
def Substitutes (store : TypeStore M) (args : Arguments M Nat) (ty : Nat) (out : Nat × TypeStore M) : Prop :=
  ∃ depth, store.substituteTy args depth ty = some out

theorem Returns.exists {σ : Arguments M (OpenTy M)} {t u : OpenTy M} (h : Returns args σ t u) {ty : Nat}
    (hvalid : store.Valid) (hargs : ArgumentsDenote store args σ) (ht : Denotes store ty t) :
    ∃ ty' store', Substitutes store args ty (ty', store') ∧ store <+: store' ∧ store'.Valid ∧
      Denotes store' ty' u := by
  obtain ⟨least, h⟩ := h
  obtain ⟨ty', store', hrun, hdenotes⟩ := h least (Nat.le_refl _) hvalid hargs ht
  exact ⟨ty', store', ⟨least, hrun⟩, hdenotes⟩

theorem Returns.denotes {σ : Arguments M (OpenTy M)} {t u : OpenTy M} (h : Returns args σ t u) {ty ty' : Nat}
    (hvalid : store.Valid) (hargs : ArgumentsDenote store args σ) (ht : Denotes store ty t)
    (hrun : Substitutes store args ty (ty', store')) : Denotes store' ty' u := by
  obtain ⟨least, h⟩ := h
  obtain ⟨depth, hrun⟩ := hrun
  obtain ⟨out, store'', hout, -, -, hdenotes⟩ := h (max least depth) (by omega) hvalid hargs ht
  cases hout.symm.trans (substituteTy_of_le (show depth ≤ max least depth by omega) hrun)
  exact hdenotes

/-- `b` is what substituting by `r` returned for `a`, in some store between the two. -/
def Image (store store' : TypeStore M) (r : Arguments M Nat) (a b : Nat) : Prop :=
  ∃ before after : TypeStore M, store <+: before ∧ before.Valid ∧ Substitutes before r a (b, after) ∧ after <+: store'

def ConstImage (store store' : TypeStore M) (r : Arguments M Nat) (a b : ConstValue M × Nat) : Prop :=
  ∃ (depth : Nat) (before after : TypeStore M), store <+: before ∧ before.Valid ∧
    before.substituteConstArg r depth a = some (b, after) ∧ after <+: store'

/-- Each parameter of `s` goes to `r` applied to what `s` gives for it, every other one to what `r` gives. -/
structure Composed (store store' : TypeStore M) (s r c : Arguments M Nat) : Prop where
  typeArg : ∀ name a, s.typeArg name = some a → ∃ b, c.typeArg name = some b ∧ Image store store' r a b
  typeArg_other : ∀ name, s.typeArg name = none → c.typeArg name = r.typeArg name
  constArg : ∀ name a, s.constArg name = some a → ∃ b, c.constArg name = some b ∧ ConstImage store store' r a b
  constArg_other : ∀ name, s.constArg name = none → c.constArg name = r.constArg name
  selfTy : ∀ a, s.selfTy = some a → ∃ b, c.selfTy = some b ∧ Image store store' r a b
  selfTy_other : s.selfTy = none → c.selfTy = r.selfTy

variable {s r c : Arguments M Nat} {σ ρ : Arguments M (OpenTy M)}

theorem Image.denotes (hsettled : ρ.Settled) (hr : ArgumentsDenote store r ρ) {a b : Nat}
    (h : Image store store' r a b) {t : OpenTy M} (ht : Denotes store a t) : Denotes store' b (t.subst ρ) := by
  obtain ⟨before, after, hbefore, hvalid, hrun, hafter⟩ := h
  exact ((substituteTy_denotes hsettled t).denotes hvalid (hr.mono hbefore) (ht.mono hbefore) hrun).mono hafter

theorem ConstImage.denotes (hsettled : ρ.Settled) (hr : ArgumentsDenote store r ρ) {a b : ConstValue M × Nat}
    (h : ConstImage store store' r a b) {t : OpenTy M} (ht : Denotes store a.2 t) :
    b.1 = (substConst ρ (a.1, t)).1 ∧ Denotes store' b.2 (substConst ρ (a.1, t)).2 := by
  obtain ⟨depth, before, after, hbefore, hvalid, hrun, hafter⟩ := h
  obtain ⟨⟨ty, out⟩, hty, hout⟩ := bind_eq_some_iff.mp hrun
  cases hout
  obtain ⟨least, hconst⟩ := substituteConstArg_denotes hsettled a.1 (substituteTy_denotes hsettled t)
  obtain ⟨ty', store'', hty', -, -, hvalue, hdenotes⟩ :=
    hconst (max least depth) (by omega) hvalid (hr.mono hbefore) (ht.mono hbefore)
  cases hty'.symm.trans (substituteTy_of_le (show depth ≤ max least depth by omega) hty)
  exact ⟨hvalue, hdenotes.mono hafter⟩

theorem optionRel_compose {R R' : α → β → Prop} {f : β → β} {y z : Option α} {u w : Option β}
    (hx : Option.Rel R x u) (hy : Option.Rel R' y w)
    (hmapped : ∀ a b, R a b → x = some a → ∃ a', z = some a' ∧ R' a' (f b)) (hother : x = none → z = y) :
    Option.Rel R' z ((u.map f).or w) := by
  cases hx with
  | none =>
    rw [hother rfl]
    exact hy
  | some hab =>
    obtain ⟨a', rfl, hrel⟩ := hmapped _ _ hab rfl
    exact .some hrel

/-- The composed arguments stand for the composition. -/
theorem Composed.denotes (h : Composed store store' s r c) (hmono : store <+: store')
    (hs : ArgumentsDenote store s σ) (hr : ArgumentsDenote store r ρ) (hsettled : ρ.Settled) :
    ArgumentsDenote store' c (σ.compose ρ) where
  typeArg name := by
    refine optionRel_compose (hs.typeArg name) ((hr.mono hmono).typeArg name) (fun a t ht ha => ?_)
      (h.typeArg_other name)
    obtain ⟨b, hb, himage⟩ := h.typeArg name a ha
    exact ⟨b, hb, himage.denotes hsettled hr ht⟩
  constArg name := by
    refine optionRel_compose (hs.constArg name) ((hr.mono hmono).constArg name) (fun a put ht ha => ?_)
      (h.constArg_other name)
    obtain ⟨b, hb, himage⟩ := h.constArg name a ha
    have hdenotes := himage.denotes hsettled hr ht.2
    rw [ht.1] at hdenotes
    exact ⟨b, hb, hdenotes⟩
  selfTy := by
    refine optionRel_compose hs.selfTy (hr.mono hmono).selfTy (fun a t ht ha => ?_) h.selfTy_other
    obtain ⟨b, hb, himage⟩ := h.selfTy a ha
    exact ⟨b, hb, himage.denotes hsettled hr ht⟩

omit [DecidableEq M] in
/-- Lengths see the values of const arguments only. -/
theorem LengthArg.denotes (hs : ArgumentsDenote store s σ) (hr : ArgumentsDenote store r ρ) {name : SymbolId}
    (h : LengthArg s.constArg r.constArg name) : LengthArg σ.constArg ρ.constArg name where
  first arg harg hnone put hput len hlen := by
    obtain ⟨a, ha, -⟩ := hs.constArg_of harg
    obtain ⟨b, hb, -⟩ := hr.constArg_of hput
    exact h.first _ ha hnone _ hb len hlen
  second other t ht hne put hput := by
    obtain ⟨a, ha, -⟩ := hs.constArg_of ht
    obtain ⟨b, hb, -⟩ := hr.constArg_of hput
    exact h.second other a ha hne _ hb

/-- Neither substitution, nor their composition, changes the types of its own const arguments. -/
def SettledTypes (store : TypeStore M) (s r : Arguments M Nat) : Prop :=
  ∀ σ ρ, ArgumentsDenote store s σ → ArgumentsDenote store r ρ → σ.Settled ∧ ρ.Settled ∧ (σ.compose ρ).Settled

/-- **Substituting by `s` and then by `r` returns the handle that substituting once by their composition returns.** -/
theorem substituteTy_compose (hvalid : store.Valid) {ty : Nat} (hty : ty < store.length) (hs : s.InStore store)
    (hr : r.InStore store) (htypes : SettledTypes store s r)
    (hlength : ∀ t, Denotes store ty t → ∀ name ∈ t.lengthParams, LengthArg s.constArg r.constArg name) :
    ∃ (u : Nat) (store₁ : TypeStore M) (v : Nat) (store₂ : TypeStore M),
      Substitutes store s ty (u, store₁) ∧ Substitutes store₁ r u (v, store₂) ∧ store <+: store₂ ∧ store₂.Valid ∧
      ∀ {store' : TypeStore M} {c : Arguments M Nat}, store₂ <+: store' → store'.Valid →
        Composed store store' s r c → ∃ store₃, Substitutes store' c ty (v, store₃) := by
  obtain ⟨t, ht⟩ := hvalid.denotes ty hty
  obtain ⟨σ, hσ⟩ := hs.exists_denote hvalid
  obtain ⟨ρ, hρ⟩ := hr.exists_denote hvalid
  obtain ⟨hfirst, hsecond, hboth⟩ := htypes σ ρ hσ hρ
  obtain ⟨u, store₁, hrun₁, hmono₁, hvalid₁, hu⟩ := (substituteTy_denotes hfirst t).exists hvalid hσ ht
  obtain ⟨v, store₂, hrun₂, hmono₂, hvalid₂, hv⟩ :=
    (substituteTy_denotes hsecond (t.subst σ)).exists hvalid₁ (hρ.mono hmono₁) hu
  refine ⟨u, store₁, v, store₂, hrun₁, hrun₂, hmono₁.trans hmono₂, hvalid₂, fun {store' c} hmono hvalid' hc => ?_⟩
  have hmono' : store <+: store' := (hmono₁.trans hmono₂).trans hmono
  obtain ⟨w, store₃, honce, hmono₃, hvalid₃, hw⟩ :=
    (substituteTy_denotes hboth t).exists hvalid' (hc.denotes hmono' hσ hρ hsecond) (ht.mono hmono')
  have hcompose : (t.subst σ).subst ρ = t.subst (σ.compose ρ) :=
    t.subst_compose σ ρ fun name hname => (hlength t ht name hname).denotes hσ hρ
  rw [← hcompose] at hw
  obtain rfl : v = w := (denotes_handle_unique hvalid₃.nodup).1 (hv.mono (hmono.trans hmono₃)) hw
  exact ⟨store₃, honce⟩

end Compose

/-- `i32`, `usize`, the parameters `T` and `U`, `[T; N]`, `i64`, `bool`, a nominal type with the
const argument `N`, whose type is `T`, and an array of that of the length `N`. -/
def arrayStore : TypeStore Nat :=
  [.leaf (.primitive .i32), .leaf (.primitive .usize), .genericParam 1, .genericParam 2,
    .node (.array (.genericParam 3)) [(none, 2)], .leaf (.primitive .i64), .leaf (.primitive .bool),
    .node (.nominal ⟨0, 0⟩) [(some (.genericParam 3), 2)], .node (.array (.genericParam 3)) [(none, 7)]]

theorem valid_arrayStore : arrayStore.Valid where
  nodup := by decide
  denotes ty hty := by
    have hparam : Denotes arrayStore 2 (.genericParam 1) := .genericParam rfl
    match ty, hty with
    | 0, _ | 1, _ | 5, _ | 6, _ => exact ⟨_, .leaf rfl⟩
    | 2, _ | 3, _ => exact ⟨_, .genericParam rfl⟩
    | 4, _ => exact ⟨_, .node rfl (.ty hparam .nil)⟩
    | 7, _ => exact ⟨_, .node rfl (.const hparam .nil)⟩
    | 8, _ => exact ⟨_, .node rfl (.ty (.node rfl (.const hparam .nil)) .nil)⟩
  canonical slot hslot := by
    rintro isReadonly elem signature rfl
    simp [arrayStore] at hslot

/-- The argument of one parameter. -/
def oneArg {α : Type} (name : SymbolId) (arg : α) : SymbolId → Option α :=
  fun other => if other = name then some arg else none

theorem oneArg_eq_some {name other : SymbolId} {arg a : α} (h : oneArg name arg other = some a) :
    other = name ∧ a = arg := by
  unfold oneArg at h
  split at h
  · next hname => exact ⟨hname, (Option.some.inj h).symm⟩
  · cases h

theorem oneArg_none {name other : SymbolId} {arg : α} (h : oneArg name arg other = none) (b : β) :
    oneArg name b other = none := by
  simpa [oneArg] using h

/-- `N` is `K` of the type `T`. -/
def renamed : Arguments Nat Nat := ⟨fun _ => none, oneArg 3 (.genericParam 4, 2), none⟩

/-- `T` is `i64` and `K` is 5 of that type. -/
def valued : Arguments Nat Nat := ⟨oneArg 1 5, oneArg 4 (.int ⟨5, false⟩, 5), none⟩

/-- `T` is `i64`, `N` and `K` are 5 of that type. -/
def renamedValued : Arguments Nat Nat where
  typeArg := oneArg 1 5
  constArg name := (oneArg 3 (.int ⟨5, false⟩, 5) name).or (oneArg 4 (.int ⟨5, false⟩, 5) name)
  selfTy := none

theorem composed_renamed {store' : TypeStore Nat} (hmono : arrayStore <+: store') :
    Composed arrayStore store' renamed valued renamedValued where
  typeArg name a ha := by cases ha
  typeArg_other _ _ := rfl
  constArg name a ha := by
    obtain ⟨rfl, rfl⟩ := oneArg_eq_some ha
    exact ⟨_, rfl, 1, arrayStore, arrayStore, List.prefix_refl _, valid_arrayStore, rfl, hmono⟩
  constArg_other name h := by
    simp only [renamedValued, oneArg_none h (ConstValue.int (M := Nat) ⟨5, false⟩, 5), none_or, valued]
  selfTy a ha := by cases ha
  selfTy_other _ := rfl

theorem settled_renamed : SettledTypes arrayStore renamed valued := by
  intro σ ρ hσ hρ
  have hparam : ∀ name put, σ.constArg name = some put → put = (.genericParam 4, .genericParam 1) := by
    intro name put hput
    obtain ⟨a, ha, ht⟩ := hσ.constArg_of hput
    obtain ⟨-, hpair⟩ := oneArg_eq_some ha
    obtain ⟨hvalue, rfl⟩ := Prod.mk.inj hpair
    exact Prod.ext hvalue (denotes_unique.1 ht (.genericParam rfl))
  have hleaf : ∀ name put, ρ.constArg name = some put → put.2 = .leaf (.primitive .i64) := by
    intro name put hput
    obtain ⟨a, ha, ht⟩ := hρ.constArg_of hput
    obtain ⟨-, hpair⟩ := oneArg_eq_some ha
    obtain ⟨-, rfl⟩ := Prod.mk.inj hpair
    exact denotes_unique.1 ht (.leaf rfl)
  have hunmapped : σ.typeArg 1 = none := by
    have hrel := hσ.typeArg 1
    cases h : σ.typeArg 1 with
    | none => rfl
    | some t =>
      rw [h] at hrel
      cases hrel
  have hfive : ∃ put, ρ.constArg 4 = some put := by
    have hrel := hρ.constArg 4
    cases h : ρ.constArg 4 with
    | none =>
      rw [h] at hrel
      cases hrel
    | some put => exact ⟨put, rfl⟩
  obtain ⟨five, hfive⟩ := hfive
  refine ⟨fun name put hput => ?_, fun name put hput => ?_, fun name put hput => ?_⟩
  · rw [hparam name put hput, OpenTy.subst, hunmapped, getD_none]
  · rw [hleaf name put hput, OpenTy.subst]
  · have hleaf : put.2 = .leaf (.primitive .i64) := by
      rw [Arguments.compose_constArg] at hput
      cases hs : σ.constArg name with
      | none =>
        rw [hs] at hput
        exact hleaf name put hput
      | some first =>
        rw [hs, hparam name first hs, map_some, some_or, substConst, hfive] at hput
        obtain rfl := Option.some.inj hput
        exact hleaf 4 five hfive
    rw [hleaf, OpenTy.subst]

/-- The type of the first substitution's argument mentions a parameter of the second. -/
theorem substituteTy_compose_array : ∃ (u : Nat) (store₁ : TypeStore Nat) (v : Nat) (store₂ store₃ : TypeStore Nat),
    Substitutes arrayStore renamed 8 (u, store₁) ∧ Substitutes store₁ valued u (v, store₂) ∧
      Substitutes store₂ renamedValued 8 (v, store₃) := by
  have hlength : ∀ t, Denotes arrayStore 8 t → ∀ name ∈ t.lengthParams,
      LengthArg renamed.constArg valued.constArg name := by
    intro t _ name _
    refine ⟨fun arg harg hnone => ?_, fun other t h _ put hput => ?_⟩
    · obtain ⟨-, rfl⟩ := oneArg_eq_some harg
      cases hnone
    · obtain ⟨-, rfl⟩ := oneArg_eq_some hput
      decide
  have hs : renamed.InStore arrayStore := by
    refine ⟨fun name a ha => (nomatch ha), fun name a ha => ?_, fun a ha => by cases ha⟩
    obtain ⟨-, rfl⟩ := oneArg_eq_some ha
    decide
  have hr : valued.InStore arrayStore := by
    refine ⟨fun name a ha => ?_, fun name a ha => ?_, fun a ha => by cases ha⟩
    all_goals
      obtain ⟨-, rfl⟩ := oneArg_eq_some ha
      decide
  obtain ⟨u, store₁, v, store₂, hfirst, hsecond, hmono, hvalid, honce⟩ :=
    substituteTy_compose valid_arrayStore (show 8 < arrayStore.length by decide) hs hr settled_renamed hlength
  obtain ⟨store₃, hthird⟩ := honce (List.prefix_refl _) hvalid (composed_renamed hmono)
  exact ⟨u, store₁, v, store₂, store₃, hfirst, hsecond, hthird⟩

/-- `N` is 5 of the type `T`, and `T` is `i32`. -/
def typedValue : Arguments Nat Nat := ⟨oneArg 1 0, oneArg 3 (.int ⟨5, false⟩, 2), none⟩

/-- `T` is `i64`. -/
def wider : Arguments Nat Nat := ⟨oneArg 1 5, fun _ => none, none⟩

/-- `N` is 5 of the type `i64`, and `T` is `i32`. -/
def typedWider : Arguments Nat Nat := ⟨oneArg 1 0, oneArg 3 (.int ⟨5, false⟩, 5), none⟩

/-- `N` is `true`. -/
def truth : Arguments Nat Nat := ⟨fun _ => none, oneArg 3 (.bool true, 6), none⟩

/-- `N` is 5. -/
def five : Arguments Nat Nat := ⟨fun _ => none, oneArg 3 (.int ⟨5, false⟩, 1), none⟩

theorem composed_typedWider {store' : TypeStore Nat} (hmono : arrayStore <+: store') :
    Composed arrayStore store' typedValue wider typedWider where
  typeArg name a ha := by
    obtain ⟨rfl, rfl⟩ := oneArg_eq_some ha
    exact ⟨0, rfl, arrayStore, arrayStore, List.prefix_refl _, valid_arrayStore, ⟨1, rfl⟩, hmono⟩
  typeArg_other name h := (oneArg_none h 0).trans (oneArg_none h 5).symm
  constArg name a ha := by
    obtain ⟨rfl, rfl⟩ := oneArg_eq_some ha
    exact ⟨_, rfl, 1, arrayStore, arrayStore, List.prefix_refl _, valid_arrayStore, rfl, hmono⟩
  constArg_other name h := oneArg_none h _
  selfTy a ha := by cases ha
  selfTy_other _ := rfl

theorem composed_truth {store' : TypeStore Nat} (hmono : arrayStore <+: store') :
    Composed arrayStore store' truth five truth where
  typeArg name a ha := by cases ha
  typeArg_other _ _ := rfl
  constArg name a ha := by
    obtain ⟨rfl, rfl⟩ := oneArg_eq_some ha
    exact ⟨_, rfl, 1, arrayStore, arrayStore, List.prefix_refl _, valid_arrayStore, rfl, hmono⟩
  constArg_other name h := h.trans (oneArg_none h _).symm
  selfTy a ha := by cases ha
  selfTy_other _ := rfl

/-- The type of an argument that was put in is substituted by the first substitution already; and
a const argument that is no length leaves the length to the second. -/
theorem substituteTy_compose_differs :
    (∃ store₁ store₂ store₃ : TypeStore Nat, Composed arrayStore store₂ typedValue wider typedWider ∧
      Substitutes arrayStore typedValue 7 (9, store₁) ∧ Substitutes store₁ wider 9 (9, store₂) ∧
      Substitutes store₂ typedWider 7 (10, store₃)) ∧
    ∃ store₁ store₂ store₃ : TypeStore Nat, Composed arrayStore store₂ truth five truth ∧
      Substitutes arrayStore truth 4 (4, store₁) ∧ Substitutes store₁ five 4 (9, store₂) ∧
      Substitutes store₂ truth 4 (4, store₃) := by
  have hone : Substitutes arrayStore typedValue 7
      (9, arrayStore ++ [.node (.nominal ⟨0, 0⟩) [(some (.int ⟨5, false⟩), 0)]]) := ⟨2, rfl⟩
  have hlen : Substitutes arrayStore five 4
      (9, arrayStore ++ [.node (.array (.constValue 5)) [(none, 2)]]) := ⟨2, rfl⟩
  exact ⟨⟨_, _, _, composed_typedWider (List.prefix_append _ _), hone, ⟨2, rfl⟩, ⟨2, rfl⟩⟩,
    _, _, _, composed_truth (List.prefix_append _ _), ⟨2, rfl⟩, hlen, ⟨2, rfl⟩⟩

end Nia.Ty
