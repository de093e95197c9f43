import Mathlib

/-! Lists written with back references.

A writer walks a list and spells a value out the first time it meets it; every
later occurrence is written as the value's index in the table of spelled out
values. A reader that enters only the spelled out values into its own table
reads the list back. A reader that also enters every value it read through a
back reference keeps a longer table, in which the writer's indices may name
other values. `readBack` is the list such a reader sees, and
`readBack_eq_self_iff` says for which lists it is the list that was written. -/
namespace Nia.Lib.BackReference

open List

variable {α : Type*} [DecidableEq α]

/-! ### First occurrences -/

variable {seen : List α} {a : α}

/-- A value already seen adds nothing to the table. -/
theorem eraseDups_append_mem (h : a ∈ seen) : (seen ++ [a]).eraseDups = seen.eraseDups := by
  rw [eraseDups_append]
  simp [List.removeAll, h]

/-- A new value is entered at the end of the table. -/
theorem eraseDups_append_not_mem (h : a ∉ seen) : (seen ++ [a]).eraseDups = seen.eraseDups ++ [a] := by
  rw [eraseDups_append]
  simp [List.removeAll, h, eraseDups_cons]

theorem eraseDups_sublist (xs : List α) : xs.eraseDups.Sublist xs := by
  induction xs using List.reverseRecOn with
  | nil => simp
  | append_singleton seen a ih =>
    by_cases h : a ∈ seen
    · rw [eraseDups_append_mem h]
      exact ih.trans (sublist_append_left ..)
    · rw [eraseDups_append_not_mem h]
      exact ih.append_right [a]

theorem nodup_eraseDups (xs : List α) : xs.eraseDups.Nodup := by
  induction xs using List.reverseRecOn with
  | nil => simp
  | append_singleton seen a ih =>
    by_cases h : a ∈ seen
    · rwa [eraseDups_append_mem h]
    · rw [eraseDups_append_not_mem h]
      have : a ∉ seen.eraseDups := by simpa using h
      exact nodup_append.mpr ⟨ih, by simp, by aesop⟩

/-- The table is as long as the list exactly when no value repeats. -/
theorem length_eraseDups_eq_iff {xs : List α} : xs.eraseDups.length = xs.length ↔ xs.Nodup := by
  constructor
  · intro h
    rw [← (eraseDups_sublist xs).eq_of_length h]
    exact nodup_eraseDups xs
  · intro h
    induction xs using List.reverseRecOn with
    | nil => simp
    | append_singleton seen a ih =>
      obtain ⟨hseen, -, hdisjoint⟩ := nodup_append.mp h
      have ha : a ∉ seen := fun hmem => hdisjoint a hmem a (by simp) rfl
      rw [eraseDups_append_not_mem ha]
      simp [ih hseen]

variable {table : List α} {index : Nat}

/-- The index under which a value is tabled leads to the value. -/
theorem getElem?_of_idxOf? (h : table.idxOf? a = some index) : table[index]? = some a := by
  obtain ⟨hlt, hfound, -⟩ := List.findIdx?_eq_some_iff_getElem.mp h
  rw [List.getElem?_eq_getElem hlt, eq_of_beq hfound]

theorem mem_of_idxOf? (h : table.idxOf? a = some index) : a ∈ table :=
  mem_of_getElem? (getElem?_of_idxOf? h)

/-! ### The reader that enters what it reads -/

/-- The reader's list: `table` is the writer's table, `read` the values the reader has
entered into its own. An occurrence of a tabled value is read at the writer's index. -/
def readBackFrom (table read : List α) : List α → List α
  | [] => []
  | a :: rest =>
    match table.idxOf? a with
    | some index =>
      read.getD index a :: readBackFrom table (read ++ [read.getD index a]) rest
    | none => a :: readBackFrom (table ++ [a]) (read ++ [a]) rest

/-- The list a reader sees that enters every value into its table. -/
def readBack (xs : List α) : List α := readBackFrom [] [] xs

theorem length_readBackFrom (table read xs : List α) :
    (readBackFrom table read xs).length = xs.length := by
  induction xs generalizing table read with
  | nil => rfl
  | cons a rest ih =>
    simp only [readBackFrom]
    split <;> simp [ih]

/-- The reader sees no value that was not written. -/
theorem mem_readBackFrom {read xs : List α} {b : α} (h : b ∈ readBackFrom table read xs) : b ∈ read ∨ b ∈ xs := by
  induction xs generalizing table read with
  | nil => simp [readBackFrom] at h
  | cons a rest ih =>
    -- Whichever value is read first, it was in the table or is the one written.
    have hstep (c : α) (table' : List α) (hc : c ∈ read ∨ c = a)
        (hb : b ∈ c :: readBackFrom table' (read ++ [c]) rest) : b ∈ read ∨ b ∈ a :: rest := by
      rcases mem_cons.mp hb with rfl | hb
      · exact hc.imp_right (by simp +contextual)
      · rcases ih hb with hread | hrest
        · rcases mem_append.mp hread with hread | hread
          · exact .inl hread
          · obtain rfl : b = c := by simpa using hread
            exact hc.imp_right (by simp +contextual)
        · exact .inr (by simp [hrest])
    simp only [readBackFrom] at h
    split at h
    · rename_i index _
      refine hstep _ _ ?_ h
      rw [getD_eq_getElem?_getD]
      cases hfound : read[index]? with
      | none => exact .inr rfl
      | some c => exact .inl (mem_of_getElem? hfound)
    · exact hstep _ _ (.inr rfl) h

/-- A list with `a` in it, cut at the first `a`. -/
theorem eq_takeWhile_append {xs : List α} (h : a ∈ xs) : ∃ rest, xs = xs.takeWhile (· ≠ a) ++ a :: rest := by
  induction xs with
  | nil => simp at h
  | cons b xs ih =>
    by_cases hb : b = a
    · exact ⟨xs, by simp [hb]⟩
    · obtain ⟨rest, hrest⟩ := ih (by simpa [Ne.symm hb] using h)
      refine ⟨rest, ?_⟩
      rw [takeWhile_cons_of_pos (by simpa using hb), cons_append, ← hrest]

theorem not_mem_takeWhile (xs : List α) (a : α) : a ∉ xs.takeWhile (· ≠ a) := by
  intro h
  simpa using mem_takeWhile_imp h

/-- The writer's index of a value counts the different values before its first occurrence. -/
theorem idxOf?_eraseDups {before rest : List α} (h : a ∉ before) :
    (before ++ a :: rest).eraseDups.idxOf? a = some before.eraseDups.length := by
  have hcut : (a :: rest).removeAll before = a :: rest.removeAll before := by
    simp [List.removeAll, h]
  have ha : a ∉ before.eraseDups := by simpa using h
  rw [eraseDups_append, hcut, eraseDups_cons, List.idxOf?, List.findIdx?_append]
  have hnone : before.eraseDups.findIdx? (· == a) = none := by
    rw [List.findIdx?_eq_none_iff]
    intro b hb
    have hne : b ≠ a := fun e => ha (e ▸ hb)
    simpa using hne
  rw [hnone]
  simp [List.findIdx?_cons]

/-- At a repeated value the reader finds that value exactly when nothing repeats before the
value's first occurrence: only then do the two tables have it at one index. -/
theorem getD_table_index (h : seen.eraseDups.idxOf? a = some index) :
    seen.getD index a = a ↔ (seen.takeWhile (· ≠ a)).Nodup := by
  have hmem : a ∈ seen := mem_eraseDups.mp (mem_of_idxOf? h)
  obtain ⟨rest, hcut⟩ := eq_takeWhile_append hmem
  have hnot := not_mem_takeWhile seen a
  generalize seen.takeWhile (· ≠ a) = before at hcut hnot ⊢
  subst hcut
  obtain rfl : before.eraseDups.length = index := by
    rw [idxOf?_eraseDups hnot] at h
    exact Option.some.inj h
  rw [← length_eraseDups_eq_iff]
  constructor
  · intro hget
    by_contra hne
    have hlt : before.eraseDups.length < before.length :=
      lt_of_le_of_ne (eraseDups_sublist before).length_le hne
    rw [getD_append _ _ _ _ hlt, getD_eq_getElem _ _ hlt] at hget
    exact hnot (hget ▸ getElem_mem hlt)
  · intro hlength
    rw [hlength]
    simp

/-- A value is tabled at the index where it is read exactly when no value repeats up to there. -/
theorem idxOf?_eraseDups_eq_iff {tabled : Nat} (hread : seen[index]? = some a)
    (htable : seen.eraseDups.idxOf? a = some tabled) : tabled = index ↔ (seen.take (index + 1)).Nodup := by
  have hmem : a ∈ seen := mem_of_getElem? hread
  obtain ⟨rest, hcut⟩ := eq_takeWhile_append hmem
  have hnot := not_mem_takeWhile seen a
  generalize seen.takeWhile (· ≠ a) = before at hcut hnot
  subst hcut
  obtain rfl : before.eraseDups.length = tabled := by
    rw [idxOf?_eraseDups hnot] at htable
    exact Option.some.inj htable
  have hle : before.length ≤ index := by
    by_contra hlt
    rw [List.getElem?_append_left (Nat.not_le.mp hlt)] at hread
    exact hnot (mem_of_getElem? hread)
  have hlength := (eraseDups_sublist before).length_le
  have htake : (before ++ a :: rest).take (before.length + 1) = before ++ [a] := by
    rw [take_append, take_of_length_le (Nat.le_succ _), Nat.add_sub_cancel_left, take_succ_cons,
      take_zero]
  constructor
  · intro heq
    have hindex : index = before.length := by omega
    rw [hindex, htake]
    refine nodup_append.mpr ⟨length_eraseDups_eq_iff.mp (by omega), nodup_singleton a, ?_⟩
    intro x hx y hy hxy
    rw [hxy, mem_singleton.mp hy] at hx
    exact hnot hx
  · intro hnodup
    -- The value stands at the end of `before` and at the index, which are one place.
    have hfirst : ((before ++ a :: rest).take (index + 1))[before.length]? = some a := by
      rw [List.getElem?_take_of_lt (by omega), List.getElem?_append_right (Nat.le_refl _), Nat.sub_self]
      rfl
    have hsecond : ((before ++ a :: rest).take (index + 1))[index]? = some a := by
      rw [List.getElem?_take_of_lt (Nat.lt_succ_self _), hread]
    have hsame : before.length = index := by
      obtain ⟨hlt, -⟩ := List.getElem?_eq_some_iff.mp hfirst
      exact (List.getElem?_inj hlt hnodup).mp (hfirst.trans hsecond.symm)
    have hbefore : before.Nodup := by
      rw [← hsame, htake] at hnodup
      exact (nodup_append.mp hnodup).1
    rw [length_eraseDups_eq_iff.mpr hbefore, hsame]

/-- What the reader sees of the values after `seen`, all of which it has read right. -/
theorem readBackFrom_eq_iff (seen rest : List α) :
    readBackFrom seen.eraseDups seen rest = rest ↔
      ∀ before a after, rest = before ++ a :: after → a ∈ seen ++ before →
        ((seen ++ before).takeWhile (· ≠ a)).Nodup := by
  induction rest generalizing seen with
  | nil => simp [readBackFrom]
  | cons b rest ih =>
    -- The values met at or after `b` are `b` itself and those of the tail, with `b` seen.
    have hcut : (∀ before a after, b :: rest = before ++ a :: after → a ∈ seen ++ before →
          ((seen ++ before).takeWhile (· ≠ a)).Nodup) ↔
        (b ∈ seen → (seen.takeWhile (· ≠ b)).Nodup) ∧
        ∀ before a after, rest = before ++ a :: after → a ∈ (seen ++ [b]) ++ before →
          ((seen ++ [b] ++ before).takeWhile (· ≠ a)).Nodup := by
      constructor
      · intro h
        refine ⟨fun hb => by simpa using h [] b rest rfl (by simpa using hb), ?_⟩
        intro before a after hrest ha
        simpa using h (b :: before) a after (by rw [hrest]; rfl) (by simpa using ha)
      · rintro ⟨hhead, htail⟩ before a after hrest ha
        cases before with
        | nil =>
          obtain ⟨rfl, rfl⟩ := List.cons.inj hrest
          simpa using hhead (by simpa using ha)
        | cons c before =>
          obtain ⟨rfl, rfl⟩ := List.cons.inj hrest
          simpa using htail before a after rfl (by simpa using ha)
    rw [hcut]
    cases hindex : seen.eraseDups.idxOf? b with
    | none =>
      have hb : b ∉ seen := by simpa using List.idxOf?_eq_none_iff.mp hindex
      simp only [readBackFrom, hindex, List.cons.injEq, true_and, hb, false_implies]
      rw [← eraseDups_append_not_mem hb, ih]
    | some index =>
      have hb : b ∈ seen := mem_eraseDups.mp (mem_of_idxOf? hindex)
      simp only [readBackFrom, hindex, List.cons.injEq, hb, true_implies]
      rw [getD_table_index hindex]
      refine and_congr_right fun hnodup => ?_
      rw [(getD_table_index hindex).mpr hnodup, ← eraseDups_append_mem hb, ih]

theorem takeWhile_append_mem {before : List α} (h : a ∈ before) (after : List α) :
    (before ++ after).takeWhile (· ≠ a) = before.takeWhile (· ≠ a) := by
  induction before with
  | nil => simp at h
  | cons b before ih =>
    by_cases hb : b = a
    · simp [hb]
    · rw [cons_append, takeWhile_cons_of_pos (by simpa using hb),
        takeWhile_cons_of_pos (by simpa using hb), ih (by simpa [Ne.symm hb] using h)]

/-- **The reader sees the list that was written exactly when, for every value that occurs at
least twice, the values before its first occurrence are all different.** -/
theorem readBack_eq_self_iff {xs : List α} :
    readBack xs = xs ↔ ∀ a, 2 ≤ xs.count a → (xs.takeWhile (· ≠ a)).Nodup := by
  have hread := readBackFrom_eq_iff [] xs
  simp only [eraseDups_nil, nil_append] at hread
  rw [readBack, hread]
  constructor
  · intro h a hcount
    have hmem : a ∈ xs := count_pos_iff.mp (by omega)
    obtain ⟨rest, hcut⟩ := eq_takeWhile_append hmem
    have hrest : a ∈ rest := by
      have hfirst := count_eq_zero.mpr (not_mem_takeWhile xs a)
      rw [hcut, count_append, hfirst, count_cons_self] at hcount
      exact count_pos_iff.mp (by omega)
    obtain ⟨mid, after, rfl⟩ := append_of_mem hrest
    have hsecond : xs = (xs.takeWhile (· ≠ a) ++ a :: mid) ++ a :: after := by simpa using hcut
    have hfirst : a ∈ xs.takeWhile (· ≠ a) ++ a :: mid := by simp
    have hnodup := h _ a after hsecond hfirst
    rwa [← takeWhile_append_mem hfirst (a :: after), ← hsecond] at hnodup
  · intro h before a after hxs ha
    subst hxs
    rw [← takeWhile_append_mem ha (a :: after)]
    refine h a ?_
    have : 0 < before.count a := count_pos_iff.mpr ha
    simp
    omega

end Nia.Lib.BackReference
