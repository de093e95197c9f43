import Nia.Ty.Substitute

/-! The type store.

The store gives every kind one slot; a kind refers to other types by their slots. It only
grows, and a kind is published only when all it refers to is there, so every handle stands
for a type (`Denotes`). Equal kinds share a slot, and a pointer to a callable pointee is
published as the callable view: handles are equal exactly when the types are
(`denotes_handle_unique`). -/
namespace Nia.Ty

variable {M : Type}

/-! ### Slots -/

/-- A kind, with handles for its component types; a component that is a const argument has
its value beside the handle of its type. -/
inductive Slot (M : Type) where
  | leaf (kind : LeafTy)
  | genericParam (name : SymbolId)
  | selfParam
  | node (head : TyHead M) (parts : List (Option (ConstValue M) × Nat))
  deriving DecidableEq

/-- The handles a kind refers to. -/
def Slot.references : Slot M → List Nat
  | .node _ parts => parts.map Prod.snd
  | _ => []

/-- The kinds in the order of their slots. -/
abbrev TypeStore (M : Type) := List (Slot M)

namespace TypeStore

variable [DecidableEq M]

def get (store : TypeStore M) (ty : Nat) : Option (Slot M) := store[ty]?

/-- `TypeStoreCore::intern`; a reference that is no slot is an internal error. -/
def coreIntern (store : TypeStore M) (kind : Slot M) : Option (Nat × TypeStore M) :=
  if kind.references.all fun ty => ty < store.length then
    match store.idxOf? kind with
    | some ty => some (ty, store)
    | none => some (store.length, store ++ [kind])
  else none

/-- `TypeStoreAppend::intern`: a pointer to a callable pointee becomes a callable view. -/
def intern (store : TypeStore M) : Slot M → Option (Nat × TypeStore M)
  | .node (.pointer isReadonly) [(none, elem)] =>
    match store.get elem with
    | some (.node .callablePointee signature) => store.coreIntern (.node (.callable isReadonly) signature)
    | _ => store.coreIntern (.node (.pointer isReadonly) [(none, elem)])
  | kind => store.coreIntern kind

end TypeStore

/-! ### What handles stand for -/

mutual

/-- The type a handle stands for. -/
inductive Denotes (store : TypeStore M) : Nat → OpenTy M → Prop where
  | leaf {ty : Nat} {kind : LeafTy} (h : store[ty]? = some (.leaf kind)) : Denotes store ty (.leaf kind)
  | genericParam {ty : Nat} {name : SymbolId} (h : store[ty]? = some (.genericParam name)) :
    Denotes store ty (.genericParam name)
  | selfParam {ty : Nat} (h : store[ty]? = some .selfParam) : Denotes store ty .selfParam
  | node {ty : Nat} {head : TyHead M} {slots : List (Option (ConstValue M) × Nat)} {parts : Parts M}
    (h : store[ty]? = some (.node head slots)) (hparts : DenotesParts store slots parts) :
    Denotes store ty (.node head parts)

inductive DenotesParts (store : TypeStore M) : List (Option (ConstValue M) × Nat) → Parts M → Prop where
  | nil : DenotesParts store [] .nil
  | ty {ty : Nat} {t : OpenTy M} {slots : List (Option (ConstValue M) × Nat)} {parts : Parts M}
    (h : Denotes store ty t) (hrest : DenotesParts store slots parts) :
    DenotesParts store ((none, ty) :: slots) (.ty t parts)
  | const {value : ConstValue M} {ty : Nat} {t : OpenTy M} {slots : List (Option (ConstValue M) × Nat)}
    {parts : Parts M} (h : Denotes store ty t) (hrest : DenotesParts store slots parts) :
    DenotesParts store ((some value, ty) :: slots) (.const value t parts)

end

variable {slots : List (Option (ConstValue M) × Nat)} {parts : Parts M}

section Denotes

variable {store store' : TypeStore M}

/-- Induction on what a handle stands for, with the hypothesis for its components. -/
theorem Denotes.mutual_induct {P : Nat → OpenTy M → Prop} {Q : List (Option (ConstValue M) × Nat) → Parts M → Prop}
    (leaf : ∀ {ty kind}, store[ty]? = some (.leaf kind) → P ty (.leaf kind))
    (genericParam : ∀ {ty name}, store[ty]? = some (.genericParam name) → P ty (.genericParam name))
    (selfParam : ∀ {ty}, store[ty]? = some .selfParam → P ty .selfParam)
    (node : ∀ {ty head slots parts}, store[ty]? = some (.node head slots) → DenotesParts store slots parts →
      Q slots parts → P ty (.node head parts))
    (nil : Q [] .nil)
    (ty : ∀ {ty t slots parts}, Denotes store ty t → DenotesParts store slots parts → P ty t → Q slots parts →
      Q ((none, ty) :: slots) (.ty t parts))
    (const : ∀ {value ty t slots parts}, Denotes store ty t → DenotesParts store slots parts → P ty t →
      Q slots parts → Q ((some value, ty) :: slots) (.const value t parts)) :
    (∀ {ty t}, Denotes store ty t → P ty t) ∧ ∀ {slots parts}, DenotesParts store slots parts → Q slots parts := by
  refine ⟨fun h => ?_, fun h => ?_⟩
  · exact @Denotes.rec M store (fun ty t _ => P ty t) (fun slots parts _ => Q slots parts) (fun h => leaf h)
      (fun h => genericParam h) (fun h => selfParam h) (fun h hparts hq => node h hparts hq) nil
      (fun h hrest hp hq => ty h hrest hp hq) (fun h hrest hp hq => const h hrest hp hq) _ _ h
  · exact @DenotesParts.rec M store (fun ty t _ => P ty t) (fun slots parts _ => Q slots parts) (fun h => leaf h)
      (fun h => genericParam h) (fun h => selfParam h) (fun h hparts hq => node h hparts hq) nil
      (fun h hrest hp hq => ty h hrest hp hq) (fun h hrest hp hq => const h hrest hp hq) _ _ h

theorem denotes_mono (hmono : store <+: store') : (∀ {ty t}, Denotes store ty t → Denotes store' ty t) ∧
    ∀ {slots parts}, DenotesParts store slots parts → DenotesParts store' slots parts := by
  have hget : ∀ {ty : Nat} {slot : Slot M}, store[ty]? = some slot → store'[ty]? = some slot := by
    intro ty slot h
    obtain ⟨more, rfl⟩ := hmono
    rw [List.getElem?_append_left (List.getElem?_eq_some_iff.mp h).1, h]
  exact Denotes.mutual_induct (fun h => .leaf (hget h)) (fun h => .genericParam (hget h)) (fun h => .selfParam (hget h))
    (fun h _ hparts => .node (hget h) hparts) .nil (fun _ _ h hrest => .ty h hrest) (fun _ _ h hrest => .const h hrest)

theorem Denotes.mono {ty : Nat} {t : OpenTy M} (h : Denotes store ty t) (hmono : store <+: store') :
    Denotes store' ty t := (denotes_mono hmono).1 h

theorem DenotesParts.mono
    (h : DenotesParts store slots parts) (hmono : store <+: store') : DenotesParts store' slots parts :=
  (denotes_mono hmono).2 h

theorem Denotes.lt {ty : Nat} {t : OpenTy M} (h : Denotes store ty t) : ty < store.length := by
  cases h with
  | leaf h | genericParam h | selfParam h | node h => exact (List.getElem?_eq_some_iff.mp h).1

/-- A handle stands for one type. -/
theorem denotes_unique : (∀ {ty t}, Denotes store ty t → ∀ {u}, Denotes store ty u → t = u) ∧
    ∀ {slots parts}, DenotesParts store slots parts → ∀ {others}, DenotesParts store slots others →
      parts = others := by
  refine Denotes.mutual_induct ?_ ?_ ?_ ?_ ?_ ?_ ?_
  · intro ty kind h u hu
    cases hu <;> simp_all
  · intro ty name h u hu
    cases hu <;> simp_all
  · intro ty h u hu
    cases hu <;> simp_all
  · intro ty head slots parts h _ ih u hu
    cases hu with
    | node hslot hparts =>
      cases h.symm.trans hslot
      rw [ih hparts]
    | leaf hslot | genericParam hslot | selfParam hslot => cases h.symm.trans hslot
  · intro others hothers
    cases hothers
    rfl
  · intro ty t slots parts _ _ ht hrest others hothers
    cases hothers with
    | ty hu hmore => rw [ht hu, hrest hmore]
  · intro value ty t slots parts _ _ ht hrest others hothers
    cases hothers with
    | const hu hmore => rw [ht hu, hrest hmore]

/-- Where equal kinds share a slot, a type has one handle. -/
theorem denotes_handle_unique (hnodup : store.Nodup) :
    (∀ {ty t}, Denotes store ty t → ∀ {other}, Denotes store other t → ty = other) ∧
    ∀ {slots parts}, DenotesParts store slots parts → ∀ {others}, DenotesParts store others parts →
      slots = others := by
  have hslot : ∀ {i j : Nat} {slot : Slot M}, store[i]? = some slot → store[j]? = some slot → i = j := by
    intro i j slot hi hj
    obtain ⟨hilt, hi⟩ := List.getElem?_eq_some_iff.mp hi
    obtain ⟨hjlt, hj⟩ := List.getElem?_eq_some_iff.mp hj
    exact hnodup.getElem_inj_iff.mp (hi.trans hj.symm)
  refine Denotes.mutual_induct ?_ ?_ ?_ ?_ ?_ ?_ ?_
  · intro ty kind h other hother
    cases hother with
    | leaf h' => exact hslot h h'
  · intro ty name h other hother
    cases hother with
    | genericParam h' => exact hslot h h'
  · intro ty h other hother
    cases hother with
    | selfParam h' => exact hslot h h'
  · intro ty head slots parts h _ ih other hother
    cases hother with
    | node h' hparts =>
      obtain rfl := ih hparts
      exact hslot h h'
  · intro others hothers
    cases hothers
    rfl
  · intro ty t slots parts _ _ ht hrest others hothers
    cases hothers with
    | ty hu hmore => rw [ht hu, hrest hmore]
  · intro value ty t slots parts _ _ ht hrest others hothers
    cases hothers with
    | const hu hmore => rw [ht hu, hrest hmore]

end Denotes

/-! ### Publishing -/

/-- No pointer to a callable pointee. -/
def Slot.Canonical (store : TypeStore M) (slot : Slot M) : Prop :=
  ∀ isReadonly elem signature, slot = .node (.pointer isReadonly) [(none, elem)] →
    store[elem]? ≠ some (.node .callablePointee signature)

/-- What publishing keeps: one slot for a kind, a type for every handle, and no pointer to a callable pointee. -/
structure TypeStore.Valid (store : TypeStore M) : Prop where
  nodup : store.Nodup
  denotes : ∀ ty < store.length, ∃ t, Denotes store ty t
  canonical : ∀ slot ∈ store, slot.Canonical store

theorem DenotesParts.references {store : TypeStore M}
    (h : DenotesParts store slots parts) : ∀ ty ∈ slots.map Prod.snd, ty < store.length := by
  induction slots generalizing parts with
  | nil => exact fun ty hty => nomatch hty
  | cons slot rest ih =>
    cases h with
    | ty ht hrest | const ht hrest => exact List.forall_mem_cons.mpr ⟨ht.lt, ih hrest⟩

theorem references_lt_of_all {store : TypeStore M} {head : TyHead M} (h : DenotesParts store slots parts) :
    ((Slot.node head slots).references.all fun ty => ty < store.length) = true := by
  rw [List.all_eq_true]
  exact fun ty hty => decide_eq_true (h.references ty hty)

section Publishing

variable {store store' : TypeStore M} [DecidableEq M]

/-- A kind that refers to handles of the store is in the store after it is published. -/
theorem TypeStore.Valid.coreIntern (hvalid : store.Valid) {head : TyHead M} (hparts : DenotesParts store slots parts)
    (hcanonical : (Slot.node head slots).Canonical store) :
    ∃ ty store', store.coreIntern (.node head slots) = some (ty, store') ∧ store <+: store' ∧ store'.Valid ∧
      Denotes store' ty (.node head parts) := by
  unfold TypeStore.coreIntern
  rw [if_pos (references_lt_of_all hparts)]
  cases hfound : store.idxOf? (.node head slots) with
  | some ty =>
    obtain ⟨hlt, hslot⟩ : ∃ h : ty < store.length, store[ty] = .node head slots := by
      rw [List.idxOf?_eq_some_iff] at hfound
      obtain ⟨hlt, hslot, -⟩ := hfound
      exact ⟨hlt, by simpa using hslot⟩
    exact ⟨ty, store, rfl, List.prefix_refl _, hvalid,
      .node (by rw [List.getElem?_eq_getElem hlt, hslot]) hparts⟩
  | none =>
    have hnew : Slot.node head slots ∉ store := by simpa [List.idxOf?_eq_none_iff] using hfound
    have hmono : store <+: store ++ [.node head slots] := List.prefix_append _ _
    have hlast : Denotes (store ++ [.node head slots]) store.length (.node head parts) :=
      .node List.getElem?_concat_length (hparts.mono hmono)
    refine ⟨store.length, _, rfl, hmono, ⟨?_, fun ty hty => ?_, fun slot hslot => ?_⟩, hlast⟩
    · exact List.nodup_append.mpr ⟨hvalid.nodup, List.nodup_singleton _, fun slot hslot _ hlast' hsame =>
        hnew (List.mem_singleton.mp hlast' ▸ hsame ▸ hslot)⟩
    · rcases Nat.lt_or_ge ty store.length with hlt | hge
      · obtain ⟨t, ht⟩ := hvalid.denotes ty hlt
        exact ⟨t, ht.mono hmono⟩
      · obtain rfl : ty = store.length := by
          rw [List.length_append, List.length_singleton] at hty
          omega
        exact ⟨_, hlast⟩
    · intro isReadonly elem signature hpointer
      -- The pointee is older than the pointer, and old slots stay as they are.
      have hold : slot.Canonical store ∧ ∀ ty ∈ slot.references, ty < store.length := by
        rcases List.mem_append.mp hslot with hmem | hmem
        · refine ⟨hvalid.canonical slot hmem, ?_⟩
          obtain ⟨i, hi, rfl⟩ := List.getElem_of_mem hmem
          obtain ⟨t, ht⟩ := hvalid.denotes i hi
          cases ht with
          | leaf h | genericParam h | selfParam h =>
            rw [(List.getElem?_eq_some_iff.mp h).2]
            exact fun ty hty => nomatch hty
          | node h hinner =>
            rw [(List.getElem?_eq_some_iff.mp h).2]
            exact hinner.references
        · obtain rfl := List.mem_singleton.mp hmem
          exact ⟨hcanonical, hparts.references⟩
      have helem : elem < store.length := by
        refine hold.2 elem ?_
        rw [hpointer]
        exact List.mem_singleton.mpr rfl
      rw [List.getElem?_append_left helem]
      exact hold.1 isReadonly elem signature hpointer

theorem TypeStore.intern_eq_coreIntern {head : TyHead M} (hcanonical : (Slot.node head slots).Canonical store) :
    store.intern (.node head slots) = store.coreIntern (.node head slots) := by
  unfold TypeStore.intern
  split
  · next isReadonly elem hslot =>
    obtain ⟨rfl, rfl⟩ := Slot.node.inj hslot
    split
    · next signature helem => exact absurd helem (hcanonical isReadonly elem signature rfl)
    · rfl
  · rfl

/-- What `intern` publishes. -/
theorem TypeStore.Valid.intern (hvalid : store.Valid) (head : TyHead M) (hparts : DenotesParts store slots parts) :
    ∃ ty store', store.intern (.node head slots) = some (ty, store') ∧ store <+: store' ∧ store'.Valid ∧
      Denotes store' ty (internNode head parts) := by
  by_cases hpointer : ∃ isReadonly elem signature, head = .pointer isReadonly ∧ slots = [(none, elem)] ∧
      store[elem]? = some (.node .callablePointee signature)
  · obtain ⟨isReadonly, elem, signature, rfl, rfl, helem⟩ := hpointer
    cases hparts with
    | ty ht hrest =>
      cases hrest
      cases ht with
      | node hslot hsignature =>
        cases helem.symm.trans hslot
        simp only [TypeStore.intern, TypeStore.get, helem, internNode]
        exact hvalid.coreIntern hsignature fun _ _ _ h => by cases h
      | leaf hslot | genericParam hslot | selfParam hslot => cases helem.symm.trans hslot
  · have hcanonical : (Slot.node head slots).Canonical store := by
      intro isReadonly elem signature hslot helem
      obtain ⟨rfl, rfl⟩ := Slot.node.inj hslot
      exact hpointer ⟨isReadonly, elem, signature, rfl, rfl, helem⟩
    have hnode : internNode head parts = .node head parts := by
      unfold internNode
      split
      · next isReadonly signature =>
        cases hparts with
        | ty ht hrest =>
          cases hrest
          cases ht with
          | node hslot hsignature => exact absurd hslot (hcanonical _ _ _ rfl)
      · rfl
    rw [TypeStore.intern_eq_coreIntern hcanonical, hnode]
    exact hvalid.coreIntern hparts hcanonical

end Publishing

end Nia.Ty
