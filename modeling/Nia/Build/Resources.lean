import Mathlib

/-! The resource budget of a build.

An action takes one slot, or all of them where nothing is known of what it runs. A thread that finds too few slots
sleeps until a permit is dropped; then it is due to look again, whenever `notify_all` reaches it. Threads that ask for
the same class are alike, so the state only counts them. -/
namespace Nia.Build.Resources

inductive ActionResourceClass where
  | conservative
  | cpu
  | io
  deriving DecidableEq

/-- `ActionResourceBudget`, with the threads that are due to test the slots, that sleep, and that hold a permit. -/
structure Budget where
  capacity : Nat
  available : Nat
  failure : Option String := none
  looking : Multiset ActionResourceClass := 0
  asleep : Multiset ActionResourceClass := 0
  permits : Multiset ActionResourceClass := 0

namespace Budget

def new (capacity : Nat) : Except String Budget :=
  if capacity = 0 then .error "action resource capacity must be non-zero" else .ok { capacity, available := capacity }

def weight (capacity : Nat) : ActionResourceClass → Nat
  | .conservative => capacity
  | .cpu | .io => 1

/-- The slots when a permit is dropped. -/
def release (bits : Nat) (s : Budget) (weight : Nat) : Budget :=
  if 2 ^ bits ≤ s.available + weight then { s with failure := some "action resource budget capacity overflow" }
  else if s.capacity < s.available + weight then { s with failure := some "action resource budget over-release" }
  else { s with available := s.available + weight }

inductive Event where
  | acquire (c : ActionResourceClass)
  | look (c : ActionResourceClass)
  /-- A thread wakes though no permit was dropped. -/
  | wake (c : ActionResourceClass)
  | drop (c : ActionResourceClass)

/-- What a thread of a class does next. -/
def step (bits : Nat) (s : Budget) : Event → Budget
  | .acquire c => { s with looking := c ::ₘ s.looking }
  | .look c =>
    if c ∈ s.looking then
      let s := { s with looking := s.looking.erase c }
      if weight s.capacity c ≤ s.available then
        { s with available := s.available - weight s.capacity c, permits := c ::ₘ s.permits }
      -- With a failure `acquire` returns it.
      else if s.failure.isSome then s
      else { s with asleep := c ::ₘ s.asleep }
    else s
  | .wake c => if c ∈ s.asleep then { s with asleep := s.asleep.erase c, looking := c ::ₘ s.looking } else s
  | .drop c =>
    if c ∈ s.permits then
      { release bits s (weight s.capacity c) with
        permits := s.permits.erase c, looking := s.looking + s.asleep, asleep := 0 }
    else s

/-- Every slot is free or in a permit, and who sleeps has too few. -/
structure Exact (capacity : Nat) (s : Budget) : Prop where
  capacity_eq : s.capacity = capacity
  failure : s.failure = none
  slots : s.available + (s.permits.map (weight capacity)).sum = capacity
  asleep : ∀ c ∈ s.asleep, s.available < weight capacity c

variable {bits capacity : Nat} {s : Budget}

theorem Exact.step (h : Exact capacity s) (hbits : capacity < 2 ^ bits) (event : Event) :
    Exact capacity (s.step bits event) := by
  obtain ⟨rfl, hfailure, hslots, hasleep⟩ := h
  cases event with
  | acquire c => exact ⟨rfl, hfailure, hslots, hasleep⟩
  | look c =>
    simp only [Budget.step, hfailure, Option.isSome_none, Bool.false_eq_true, if_false]
    split_ifs with hmem hweight
    · refine ⟨rfl, rfl, ?_, fun other hother => lt_of_le_of_lt (Nat.sub_le ..) (hasleep other hother)⟩
      simp only [Multiset.map_cons, Multiset.sum_cons]
      omega
    · refine ⟨rfl, rfl, hslots, fun other hother => ?_⟩
      obtain rfl | hother := Multiset.mem_cons.mp hother
      · exact not_le.mp hweight
      · exact hasleep other hother
    · exact ⟨rfl, hfailure, hslots, hasleep⟩
  | wake c =>
    rw [Budget.step]
    split_ifs
    · exact ⟨rfl, hfailure, hslots, fun other hother => hasleep other (Multiset.mem_of_mem_erase hother)⟩
    · exact ⟨rfl, hfailure, hslots, hasleep⟩
  | drop c =>
    rw [Budget.step]
    split_ifs with hmem
    · have hsum := Multiset.sum_map_erase (f := weight s.capacity) hmem
      rw [release, if_neg (by omega), if_neg (by omega)]
      exact ⟨rfl, hfailure, by dsimp only; omega, fun _ hother => absurd hother (Multiset.notMem_zero _)⟩
    · exact ⟨rfl, hfailure, hslots, hasleep⟩

theorem Exact.run (h : Exact capacity s) (hbits : capacity < 2 ^ bits) (events : List Event) :
    Exact capacity (events.foldl (Budget.step bits) s) := by
  induction events generalizing s with
  | nil => exact h
  | cons event events ih => exact ih (h.step hbits event)

theorem weight_pos (hcapacity : capacity ≠ 0) (c : ActionResourceClass) : 0 < weight capacity c := by
  cases c <;> simp only [weight] <;> omega

theorem weight_le (hcapacity : capacity ≠ 0) (c : ActionResourceClass) : weight capacity c ≤ capacity := by
  cases c <;> simp only [weight] <;> omega

/-- A conservative permit leaves no slot for another one. -/
theorem Exact.alone (h : Exact capacity s) (hcapacity : capacity ≠ 0) (hmem : .conservative ∈ s.permits) :
    s.permits = {.conservative} := by
  have hslots := h.slots
  rw [← Multiset.sum_map_erase (f := weight capacity) hmem, weight] at hslots
  have hrest : s.permits.erase .conservative = 0 := by
    refine Multiset.eq_zero_of_forall_notMem fun c hc => ?_
    have hle := Multiset.single_le_sum (fun _ _ => Nat.zero_le _) _ (Multiset.mem_map_of_mem (weight capacity) hc)
    have hpos := weight_pos hcapacity c
    omega
  rw [← Multiset.cons_erase hmem, hrest]
  rfl

/-- **In every order of the threads' steps no slot is lost or given twice, so that no failure is ever stored; a
conservative action runs alone; and a thread sleeps only while the permits of others hold too many slots.** -/
theorem slots_exact {start : Budget} (hnew : new capacity = .ok start) (hbits : capacity < 2 ^ bits)
    (events : List Event) :
    let s := events.foldl (step bits) start
    s.failure = none ∧ s.available + (s.permits.map (weight capacity)).sum = capacity ∧
      (.conservative ∈ s.permits → s.permits = {.conservative}) ∧
      (∀ c ∈ s.asleep, s.available < weight capacity c) ∧ (s.permits = 0 → s.asleep = 0) := by
  rw [new] at hnew
  split_ifs at hnew with hcapacity
  cases hnew
  have h := Exact.run (s := { capacity, available := capacity }) ⟨rfl, rfl, rfl, by simp⟩ hbits events
  refine ⟨h.failure, h.slots, h.alone hcapacity, h.asleep, fun hnone => ?_⟩
  refine Multiset.eq_zero_of_forall_notMem fun c hc => ?_
  have hslots := h.slots
  rw [hnone, Multiset.map_zero, Multiset.sum_zero, Nat.add_zero] at hslots
  exact absurd (h.asleep c hc) (not_lt.mpr ((weight_le hcapacity c).trans hslots.ge))

theorem slots_exact_waiting :
    let s := [.acquire .cpu, .acquire .conservative, .look .cpu, .look .conservative].foldl (step 64)
      ⟨2, 2, none, 0, 0, 0⟩
    s.asleep = {.conservative} ∧ s.available + (s.permits.map (weight 2)).sum = 2 :=
  ⟨rfl, (slots_exact (show new 2 = .ok _ from rfl) (by decide) _).2.1⟩

end Budget

end Nia.Build.Resources
