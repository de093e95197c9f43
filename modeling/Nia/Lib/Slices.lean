import Mathlib

/-! Slices of arrays, with their bounds.

A slice of an array is `none` where its bounds are not in order or beyond the array, and so is a copy into a slice.
What a copy leaves of an array is said by the parts in front of it and behind it. -/

/-- A vector of bytes, or a slice of one. -/
abbrev Nia.Bytes := List UInt8

namespace Nia.Lib.Slices

open List

variable {α : Type}

/-- `values[start..stop]`. -/
def slice (values : List α) (start stop : Nat) : Option (List α) :=
  if start ≤ stop ∧ stop ≤ values.length then some ((values.drop start).take (stop - start)) else none

/-- `values[start..]`. -/
def sliceFrom (values : List α) (start : Nat) : Option (List α) := slice values start values.length

/-- The array with some of its elements changed, from one place on. -/
def overwrite (values : List α) (start : Nat) (source : List α) : List α :=
  values.take start ++ source ++ values.drop (start + source.length)

/-- A copy into `values[start..stop]`, of as much of the source as fits. -/
def copyFrom (values : List α) (start stop : Nat) (source : List α) : Option (List α) :=
  if start ≤ stop ∧ stop ≤ values.length then some (overwrite values start (source.take (stop - start))) else none

/-- `values[index] = value`. -/
def store (values : List α) (index : Nat) (value : α) : Option (List α) :=
  if index < values.length then some (values.set index value) else none

/-- A difference, which is a trap below zero. -/
def sub (left right : Nat) : Option Nat := if right ≤ left then some (left - right) else none

/-- A number as a word of a given width, which is a trap if it does not fit. -/
def word (width n : Nat) : Option Nat := if n < 2 ^ width then some n else none

/-- The widths of a word that a target can have. -/
inductive PointerWidth where
  | w32
  | w64

def PointerWidth.bits : PointerWidth → Nat
  | w32 => 32
  | w64 => 64

theorem word_of_lt {width n : Nat} (h : n < 2 ^ width) : word width n = some n := if_pos h

theorem sub_of_le {left right : Nat} (h : right ≤ left) : sub left right = some (left - right) := if_pos h

variable {values : List α} {start stop : Nat}

theorem slice_of_le (hle : start ≤ stop) (hstop : stop ≤ values.length) :
    slice values start stop = some ((values.drop start).take (stop - start)) := if_pos ⟨hle, hstop⟩

theorem slice_zero (hstop : stop ≤ values.length) :
    slice values 0 stop = some (values.take stop) := slice_of_le (Nat.zero_le _) hstop

theorem sliceFrom_of_le (hstart : start ≤ values.length) : sliceFrom values start = some (values.drop start) := by
  rw [sliceFrom, slice_of_le hstart (Nat.le_refl _), take_of_length_le (Nat.le_of_eq length_drop)]

/-- A copy that fills its slice. -/
theorem copyFrom_of_length {source : List α} (hstop : stop ≤ values.length) (hlength : start + source.length = stop) :
    copyFrom values start stop source = some (overwrite values start source) := by
  rw [copyFrom, if_pos ⟨by omega, hstop⟩, take_of_length_le (by omega)]

theorem store_append (left : List α) (old value : α) (right : List α) :
    store (left ++ old :: right) left.length value = some (left ++ value :: right) := by
  rw [store, if_pos (by simp), set_append_right _ _ (Nat.le_refl _), Nat.sub_self, set_cons_zero]

theorem overwrite_append (left right : List α) {old source : List α} (hlength : old.length = source.length) :
    overwrite (left ++ old ++ right) left.length source = left ++ source ++ right := by
  have htake : (left ++ old ++ right).take left.length = left := by rw [append_assoc, take_left]
  rw [overwrite, htake, ← hlength, ← length_append, drop_left]

section

variable {values source : List α} {start : Nat}

section

variable (hfits : start + source.length ≤ values.length)
include hfits

theorem length_overwrite : (overwrite values start source).length = values.length := by
  rw [overwrite, length_append, length_append, length_take, length_drop]
  omega

/-- Up to the end of the copy there is what was in front of it, and the source. -/
theorem take_overwrite :
    (overwrite values start source).take (start + source.length) = values.take start ++ source := by
  have hlength : (values.take start ++ source).length = start + source.length := by
    rw [length_append, length_take]
    omega
  rw [overwrite, ← hlength, take_left]

/-- From its start on there is the copy, and what was behind it. -/
theorem drop_overwrite_start :
    (overwrite values start source).drop start = source ++ values.drop (start + source.length) := by
  have hlength : (values.take start).length = start := length_take_of_le (by omega)
  rw [overwrite, append_assoc]
  exact drop_left' hlength

/-- Behind the copy nothing changed. -/
theorem drop_overwrite {count : Nat}
    (hcount : start + source.length ≤ count) : (overwrite values start source).drop count = values.drop count := by
  have hlength : (values.take start ++ source).length = start + source.length := by
    rw [length_append, length_take]
    omega
  rw [overwrite, drop_append, drop_eq_nil_of_le (by omega), nil_append, hlength, drop_drop]
  congr 1
  omega

end

end

end Nia.Lib.Slices
