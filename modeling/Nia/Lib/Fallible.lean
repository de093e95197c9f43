import Nia.Lib.Trapping

/-! Code that changes a state, may fail and may trap.

A failure ends the code with an error and leaves the state as it was then; a trap gives nothing. `Returns` says that
code returns, with a value or an error, and what then holds. Its rules follow the code: a sequence returns what its
second part does, or the error of its first. -/
namespace Nia.Lib

/-- Code over a state that returns a value or an error. -/
abbrev Fallible (S E α : Type) := ExceptT E (StateT S Option) α

namespace Fallible

variable {S E α β : Type} {s s' : S} {Q : Except E α → S → Prop}

/-- A value, or a trap where there is none. -/
def orTrap (value : Option α) : Fallible S E α := ExceptT.lift (StateT.lift value)

/-- A value, or an error where there is none. -/
def okOr (value : Option α) (error : E) : Fallible S E α :=
  match value with
  | some value => pure value
  | none => throw error

/-- The code returns, and then `Q` holds of what it returned and of the state. -/
def Returns (code : Fallible S E α) (s : S) (Q : Except E α → S → Prop) : Prop :=
  ∃ result s', code.run s = some (result, s') ∧ Q result s'

theorem Returns.pure {value : α} (h : Q (.ok value) s) : Returns (Pure.pure value) s Q := ⟨.ok value, s, rfl, h⟩

theorem Returns.throw {error : E} (h : Q (.error error) s) : Returns (MonadExcept.throw error) s Q :=
  ⟨.error error, s, rfl, h⟩

theorem Returns.mono {code : Fallible S E α} {P : Except E α → S → Prop} (h : Returns code s P)
    (himp : ∀ result s', P result s' → Q result s') : Returns code s Q := by
  obtain ⟨result, s', hrun, hP⟩ := h
  exact ⟨result, s', hrun, himp result s' hP⟩

variable {next : β → Fallible S E α}

/-- A sequence, by what its first part returns. -/
theorem Returns.bind {code : Fallible S E β} {P : Except E β → S → Prop}
    (h : Returns code s P) (hok : ∀ value s', P (.ok value) s' → Returns (next value) s' Q)
    (herror : ∀ error s', P (.error error) s' → Q (.error error) s') : Returns (code >>= next) s Q := by
  obtain ⟨result, s₁, hrun, hP⟩ := h
  have hbind : (code >>= next).run s = (ExceptT.bindCont next result) s₁ := Trapping.bind_of_eq hrun
  cases result with
  | error error => exact ⟨.error error, s₁, hbind, herror error s₁ hP⟩
  | ok value =>
    obtain ⟨result, s₂, hnext, hQ⟩ := hok value s₁ hP
    exact ⟨result, s₂, hbind.trans hnext, hQ⟩

theorem Returns.get {next : S → Fallible S E α} (h : Returns (next s) s Q) :
    Returns (MonadState.get >>= next) s Q := h

theorem Returns.update {f : S → S} {next : PUnit → Fallible S E α} (h : Returns (next ⟨⟩) (f s) Q) :
    Returns (modify f >>= next) s Q := h

theorem Returns.orTrap {value : Option β} {found : β} (hvalue : value = some found)
    (h : Returns (next found) s Q) : Returns (Fallible.orTrap value >>= next) s Q := by
  subst hvalue
  exact h

theorem Returns.okOr {value : Option β} {error : E}
    (hsome : ∀ found, value = some found → Returns (next found) s Q) (hnone : value = none → Q (.error error) s) :
    Returns (Fallible.okOr value error >>= next) s Q := by
  cases value with
  | none => exact ⟨.error error, s, rfl, hnone rfl⟩
  | some found => exact hsome found rfl

end Fallible

end Nia.Lib
