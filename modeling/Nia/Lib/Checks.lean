import Mathlib

/-! Checks that succeed.

A check fails with an error or succeeds with a value (`Except`). A sequence of checks succeeds when each of
them does (`bind_eq_ok`), and so do the loops over lists; what a loop with an accumulator keeps holds at its
end (`foldlM_invariant`). -/
namespace Nia.Lib.Checks

variable {ε α β : Type}

theorem bind_eq_ok {check : Except ε α} {next : α → Except ε β} {b : β} :
    check >>= next = .ok b ↔ ∃ a, check = .ok a ∧ next a = .ok b := by
  cases check with
  | error e => simp [bind, Except.bind]
  | ok a => simp [bind, Except.bind]

/-- A check that returns nothing. -/
theorem then_eq_ok {check : Except ε Unit} {next : Unit → Except ε β} {b : β} :
    check >>= next = .ok b ↔ check = .ok () ∧ next () = .ok b := by
  cases check with
  | error e => simp [bind, Except.bind]
  | ok u => simp [bind, Except.bind]

theorem pure_eq_ok {a b : α} : (pure a : Except ε α) = .ok b ↔ a = b := by
  simp [pure, Except.pure]

theorem forM_eq_ok {check : α → Except ε Unit} {values : List α} (h : values.forM check = .ok ()) :
    ∀ a ∈ values, check a = .ok () := by
  induction values with
  | nil => simp
  | cons a rest ih =>
    obtain ⟨⟨⟩, ha, hrest⟩ := bind_eq_ok.mp h
    exact List.forall_mem_cons.mpr ⟨ha, ih hrest⟩

/-- What the body keeps of the accumulator and the values passed so far. -/
theorem foldlM_invariant {check : β → α → Except ε β} (inv : List α → β → Prop)
    (hstep : ∀ passed b a b', check b a = .ok b' → inv passed b → inv (passed ++ [a]) b') {values : List α}
    {b b' : β} (h : values.foldlM check b = .ok b') (hinv : inv [] b) : inv values b' := by
  suffices hpassed : ∀ passed, inv passed b → inv (passed ++ values) b' from hpassed [] hinv
  clear hinv
  induction values generalizing b with
  | nil =>
    intro passed hinv
    rw [List.foldlM_nil, pure_eq_ok] at h
    simpa [← h] using hinv
  | cons a rest ih =>
    intro passed hinv
    rw [List.foldlM_cons, bind_eq_ok] at h
    obtain ⟨b₁, hb₁, hrest⟩ := h
    have hpassed := ih hrest (passed ++ [a]) (hstep passed b a b₁ hb₁ hinv)
    rwa [List.append_assoc] at hpassed

end Nia.Lib.Checks
