import Mathlib

/-! Two pointers on a chain.

From an element a partial function is followed by a slow pointer, one element at a time, and by a fast one, two at
a time, until they meet or the fast one falls off the end (`race`). The loop is run with fuel. A chain that ends is
left without a meeting, since a meeting would make it periodic; on a chain of finitely many elements that does not
end the pointers meet once both are on the cycle and the slow one has made a multiple of its length
(`race_halts`). Checks that halt are put in a row by `Halts.bind` and `Halts.forM`. -/
namespace Nia.Lib.Chase

variable {α ε : Type}

/-! ### Checks that halt -/

/-- A check that is run with fuel has no result when the fuel is used up. -/
abbrev Check (ε : Type) := ExceptT ε Option

/-- With enough fuel there is a result, and it is a success exactly when something holds. -/
def Halts (check : Nat → Check ε Unit) (holds : Prop) : Prop :=
  ∃ steps, ∃ result : Except ε Unit, (∀ fuel, steps ≤ fuel → check fuel = some result) ∧ (result = .ok () ↔ holds)

theorem Halts.congr {check : Nat → Check ε Unit} {p q : Prop} (h : Halts check p) (hpq : p ↔ q) : Halts check q := by
  obtain ⟨steps, result, hresult, hholds⟩ := h
  exact ⟨steps, result, hresult, hholds.trans hpq⟩

theorem Halts.ofExcept (result : Except ε Unit) : Halts (fun _ => (liftM result : Check ε Unit)) (result = .ok ()) := by
  refine ⟨0, result, fun _ _ => ?_, Iff.rfl⟩
  cases result <;> rfl

theorem Halts.bind {first second : Nat → Check ε Unit} {p q : Prop} (hfirst : Halts first p)
    (hsecond : Halts second q) : Halts (fun fuel => do first fuel; second fuel) (p ∧ q) := by
  obtain ⟨n, result, hresult, hp⟩ := hfirst
  obtain ⟨m, result', hresult', hq⟩ := hsecond
  cases result with
  | error e =>
    refine ⟨n, .error e, fun fuel hfuel => ?_, ⟨nofun, fun h => ?_⟩⟩
    · show ExceptT.bind (first fuel) (fun _ => second fuel) = _
      rw [hresult fuel hfuel]
      rfl
    · exact absurd (hp.mpr h.1) nofun
  | ok u =>
    refine ⟨max n m, result', fun fuel hfuel => ?_, ?_⟩
    · show ExceptT.bind (first fuel) (fun _ => second fuel) = _
      rw [hresult fuel (le_of_max_le_left hfuel)]
      exact hresult' fuel (le_of_max_le_right hfuel)
    · rw [hq, and_iff_right (hp.mp rfl)]

theorem Halts.forM {check : Nat → α → Check ε Unit} {holds : α → Prop} {values : List α}
    (h : ∀ a ∈ values, Halts (check · a) (holds a)) :
    Halts (fun fuel => values.forM (check fuel)) (∀ a ∈ values, holds a) := by
  induction values with
  | nil => exact (Halts.ofExcept (.ok ())).congr (by simp)
  | cons a rest ih =>
    obtain ⟨ha, hrest⟩ := List.forall_mem_cons.mp h
    exact (ha.bind (ih hrest)).congr List.forall_mem_cons.symm

/-! ### Chains -/

/-- What stands a number of steps further on the chain, if anything. -/
def after (next : α → Option α) (x : Option α) (steps : Nat) : Option α := (fun y => y.bind next)^[steps] x

section After

variable {next : α → Option α} {x : Option α}

theorem after_add (m n : Nat) : after next x (m + n) = after next (after next x m) n := by
  rw [after, Nat.add_comm, Function.iterate_add_apply]
  rfl

theorem after_succ (n : Nat) : after next x (n + 1) = (after next x n).bind next := after_add n 1

theorem after_eq_none {m n : Nat} (h : after next x m = none) (hmn : m ≤ n) : after next x n = none := by
  obtain ⟨d, rfl⟩ := Nat.exists_eq_add_of_le hmn
  rw [after_add, h]
  exact Function.iterate_fixed rfl d

/-- An element that comes back keeps coming back. -/
theorem after_periodic {first period : Nat} (h : after next x (first + period) = after next x first) {n : Nat}
    (hn : first ≤ n) (rounds : Nat) : after next x (n + rounds * period) = after next x n := by
  obtain ⟨d, rfl⟩ := Nat.exists_eq_add_of_le hn
  induction rounds with
  | zero => rw [Nat.zero_mul, Nat.add_zero]
  | succ rounds ih =>
    have hround : first + d + (rounds + 1) * period = first + period + (d + rounds * period) := by
      rw [Nat.succ_mul]
      omega
    rw [hround, after_add, h, ← after_add, ← Nat.add_assoc, ih]

/-- The pointers do not meet on a chain that ends. -/
theorem after_double_ne {n i : Nat} (hend : after next x n = none) (hi : 0 < i)
    (hfast : (after next x (2 * i)).isSome) : after next x i ≠ after next x (2 * i) := by
  intro hmeet
  have hback : after next x (i + i) = after next x i := by rw [← Nat.two_mul, hmeet]
  have hsame := after_periodic hback le_rfl n
  have hlate : after next x (i + n * i) = none :=
    after_eq_none hend ((Nat.le_mul_of_pos_right n hi).trans (Nat.le_add_left _ _))
  rw [← hmeet, ← hsame, hlate] at hfast
  cases hfast

/-- On a chain of finitely many elements that does not end the pointers meet. -/
theorem exists_meeting {elements : Set (Option α)} (hfinite : elements.Finite)
    (hchain : ∀ n, after next x n ∈ elements) : ∃ m, 0 < m ∧ after next x m = after next x (2 * m) := by
  obtain ⟨j, k, hjk, hsame⟩ := hfinite.exists_lt_map_eq_of_forall_mem hchain
  obtain ⟨period, rfl⟩ := Nat.exists_eq_add_of_lt hjk
  have hback : after next x (j + (period + 1)) = after next x j := by rw [hsame, Nat.add_assoc]
  have hfirst : j ≤ (j + 1) * (period + 1) := (Nat.le_succ j).trans (Nat.le_mul_of_pos_right _ (Nat.succ_pos _))
  refine ⟨(j + 1) * (period + 1), Nat.mul_pos (Nat.succ_pos _) (Nat.succ_pos _), ?_⟩
  rw [Nat.two_mul, after_periodic hback hfirst (j + 1)]

end After

/-! ### The race -/

variable [DecidableEq α]

/-- Whether the two pointers meet. -/
def race (next : α → Option α) : Nat → Option α → Option α → Option Bool
  | 0, some _, some _ => none
  | fuel + 1, some slow, some fast =>
    if slow = fast then some true else race next fuel (next slow) ((next fast).bind next)
  | _, _, _ => some false

variable {next : α → Option α} {x : Option α}

theorem race_none (fuel : Nat) (slow : Option α) : race next fuel slow none = some false := by
  cases fuel <;> cases slow <;> rfl

theorem race_succ {fuel i : Nat} (hfast : (after next x (2 * i)).isSome) :
    race next (fuel + 1) (after next x i) (after next x (2 * i)) =
      if after next x i = after next x (2 * i) then some true
      else race next fuel (after next x (i + 1)) (after next x (2 * (i + 1))) := by
  have hslow : (after next x i).isSome := by
    by_contra h
    rw [after_eq_none (Option.not_isSome_iff_eq_none.mp h) (by omega)] at hfast
    cases hfast
  obtain ⟨slow, hslow⟩ := Option.isSome_iff_exists.mp hslow
  obtain ⟨fast, hfast⟩ := Option.isSome_iff_exists.mp hfast
  have hdouble : 2 * (i + 1) = 2 * i + 1 + 1 := by omega
  rw [after_succ, hdouble, after_succ, after_succ, hslow, hfast, race]
  simp

theorem race_of_end {n : Nat} (hend : after next x n = none) {fuel i : Nat} (hi : 0 < i) (hfuel : n ≤ fuel + i) :
    race next fuel (after next x i) (after next x (2 * i)) = some false := by
  induction fuel generalizing i with
  | zero =>
    rw [after_eq_none hend (by omega : n ≤ 2 * i)]
    exact race_none _ _
  | succ fuel ih =>
    cases hfast : after next x (2 * i) with
    | none => exact race_none _ _
    | some fast =>
      have hsome : (after next x (2 * i)).isSome := by rw [hfast]; rfl
      rw [← hfast, race_succ hsome, if_neg (after_double_ne hend hi hsome)]
      exact ih (by omega) (by omega)

theorem race_of_meeting {m : Nat} (hmeet : after next x m = after next x (2 * m))
    (hchain : ∀ n, (after next x n).isSome) {fuel i : Nat} (hi : i ≤ m) (hfuel : m < fuel + i) :
    race next fuel (after next x i) (after next x (2 * i)) = some true := by
  induction fuel generalizing i with
  | zero => omega
  | succ fuel ih =>
    rw [race_succ (hchain _)]
    split
    · rfl
    · next hne =>
      have hlt : i ≠ m := by
        rintro rfl
        exact hne hmeet
      exact ih (by omega) (by omega)

/-- With enough fuel the race is decided: the pointers meet unless the chain ends. -/
theorem race_halts (x : Option α) (hfinite : {a | (next a).isSome}.Finite) :
    ∃ steps, ∃ met, (∀ fuel, steps ≤ fuel → race next fuel (after next x 1) (after next x 2) = some met) ∧
      (met = false ↔ ∃ n, after next x n = none) := by
  by_cases hend : ∃ n, after next x n = none
  · obtain ⟨n, hn⟩ := hend
    exact ⟨n, false, fun fuel hfuel => race_of_end hn Nat.one_pos (by omega), by simpa using ⟨n, hn⟩⟩
  · have hchain : ∀ n, (after next x n).isSome := fun n => Option.isSome_iff_ne_none.mpr fun h => hend ⟨n, h⟩
    have helements : ∀ n, after next x n ∈ some '' {a | (next a).isSome} := by
      intro n
      obtain ⟨a, ha⟩ := Option.isSome_iff_exists.mp (hchain n)
      have hnext := hchain (n + 1)
      rw [after_succ, ha] at hnext
      exact ⟨a, hnext, ha.symm⟩
    obtain ⟨m, hm, hmeet⟩ := exists_meeting (hfinite.image some) helements
    exact ⟨m + 1, true, fun fuel hfuel => race_of_meeting hmeet hchain hm (by omega), by simpa using hend⟩

end Nia.Lib.Chase
