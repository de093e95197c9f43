import Nia.Lib.Slices
import Nia.Lib.Substrings
import Nia.Lib.Trapping
import Nia.Mem.Block

/-! Splitting, joining and replacing text.

`split` cuts a slice at the occurrences of a separator that a scan from the left meets (`collect_leftmost`). `join` and
`replaceAll` compute the length of their output first, from a pass of their own, and then append to a list of just
that capacity, where an append that does not fit is a trap. Both passes cut alike, so the length computed is the
length written (`replaceAllText_eq`). Machine words have the width of a target, and `none` is a trap. -/
namespace Nia.Text
open Lib.Slices Lib.Substrings List Lib.Trapping

/-! ### Slices -/

section

variable {α : Type} [DecidableEq α]

def equals (left right : List α) : Bool :=
  left.length == right.length && (List.range left.length).all fun index => left[index]? == right[index]?

/-- The search of `find` from one of its places on. -/
def findLoop (width : Nat) (items needle : List α) : List Nat → Option (Option Nat)
  | [] => some none
  | index :: later => do
    let stop ← word width (index + needle.length)
    let window ← slice items index stop
    if equals window needle then return some index
    else findLoop width items needle later

def find (width : Nat) (items needle : List α) : Option (Option Nat) :=
  if needle.isEmpty then some (some 0)
  else if items.length < needle.length then some none
  else do
    let lastStart ← sub items.length needle.length
    findLoop width items needle (List.range (lastStart + 1))

structure SliceSplit (α : Type) where
  remaining : List α
  separator : List α
  done : Bool

def split (items separator : List α) : SliceSplit α := ⟨items, separator, false⟩

def SliceSplit.next (width : Nat) (parts : SliceSplit α) : Option (Option (List α) × SliceSplit α) :=
  if parts.done then some (none, parts)
  else if parts.separator.isEmpty then some (some parts.remaining, { parts with done := true })
  else do
    match ← find width parts.remaining parts.separator with
    | some index =>
      let items := parts.remaining
      let start ← word width (index + parts.separator.length)
      let remaining ← sliceFrom items start
      let part ← slice items 0 index
      return (some part, { parts with remaining })
    | none => return (some parts.remaining, { parts with done := true })

/-- What a loop over the parts meets, with fuel for the calls of `next`. -/
def SliceSplit.collect (width : Nat) : Nat → SliceSplit α → Option (List (List α))
  | 0, _ => none
  | fuel + 1, parts => do
    match ← parts.next width with
    | (none, _) => return []
    | (some part, parts) => return part :: (← parts.collect width fuel)

/-- `Iterator::count` over what the loop meets. -/
def count (width : Nat) (items : List (List α)) : Option Nat :=
  items.foldlM (fun total _ => word width (total + 1)) 0

end

/-! ### Strings -/

/-- `String`, which is an `ArrayList` of `char`. -/
structure StringBuffer where
  text : List Char
  capacity : Nat
  fits : text.length ≤ capacity

/-- What an allocator answers to the request for a number of `char`. -/
abbrev Allocator := Nat → Except Mem.Error Unit

/-- `String::initCapacity`: a capacity of zero needs no memory. -/
def initCapacity (allocator : Allocator) (capacity : Nat) : Except Mem.Error StringBuffer := do
  if 0 < capacity then allocator capacity
  return ⟨[], capacity, Nat.zero_le _⟩

def appendAssumeCapacity (width : Nat) (out : StringBuffer) (text : List Char) : Option StringBuffer := do
  let _ ← word width (out.text.length + text.length)
  if h : (out.text ++ text).length ≤ out.capacity then some ⟨out.text ++ text, out.capacity, h⟩ else none

/-- A sum or product of words, which is an error if it does not fit. -/
def checked (width n : Nat) : Except Mem.Error Nat := if n < 2 ^ width then .ok n else .error .outOfMemory

/-- The body of both loops: what stands between parts goes in front of every part but the first. -/
def appendNext (width : Nat) (separator : List Char) (first : Bool) (out : StringBuffer) (part : List Char) :
    Option StringBuffer := do
  let out ← if first then some out else appendAssumeCapacity width out separator
  appendAssumeCapacity width out part

def separatorCount (parts : List (List Char)) : Option Nat :=
  if parts.isEmpty then some 0 else sub parts.length 1

/-- The first pass of `join`. -/
def joinLength (width separatorCount : Nat) (parts : List (List Char)) (separator : List Char) :
    Except Mem.Error Nat := do
  let outputLen ← checked width (separator.length * separatorCount)
  parts.foldlM (fun outputLen part => checked width (outputLen + part.length)) outputLen

def join (width : Nat) (allocator : Allocator) (parts : List (List Char)) (separator : List Char) :
    Option (Except Mem.Error StringBuffer) := do
  let separatorCount ← separatorCount parts
  match joinLength width separatorCount parts separator >>= initCapacity allocator with
  | .error error => return .error error
  | .ok out =>
    let out ← (List.range parts.length).foldlM (fun out index => do
      appendNext width separator (index == 0) out (← parts[index]?)) out
    return .ok out

/-- A round of the second pass of `replaceAllText`, over `firstPart` and the output. -/
def replaceRound (width : Nat) (replacement : List Char) (state : Bool × StringBuffer) (part : List Char) :
    Option (Bool × StringBuffer) := do
  return (false, ← appendNext width replacement state.1 state.2 part)

def replaceAllText (width fuel : Nat) (allocator : Allocator) (source needle replacement : List Char) :
    Option (Except Mem.Error StringBuffer) := do
  let total ← count width (← (split source needle).collect width fuel)
  let matchCount ← sub total 1
  match checked width (needle.length * matchCount), checked width (replacement.length * matchCount) with
  | .error error, _ => return .error error
  | _, .error error => return .error error
  | .ok removed, .ok added =>
    let kept ← sub source.length removed
    match checked width (kept + added) >>= initCapacity allocator with
    | .error error => return .error error
    | .ok out =>
      let parts ← (split source needle).collect width fuel
      let last ← parts.foldlM (replaceRound width replacement) (true, out)
      return .ok last.2

/-! ### The scan -/

section

variable {α : Type} [DecidableEq α] {width : Nat} {items needle separator : List α}

theorem equals_iff {left right : List α} : equals left right = true ↔ left = right := by
  unfold equals
  rw [Bool.and_eq_true, beq_iff_eq, all_eq_true]
  constructor
  · rintro ⟨hlength, hitems⟩
    refine ext_getElem? fun index => ?_
    rcases Nat.lt_or_ge index left.length with hin | hout
    · exact beq_iff_eq.mp (hitems index (mem_range.mpr hin))
    · rw [List.getElem?_eq_none hout, List.getElem?_eq_none (hlength ▸ hout)]
  · rintro rfl
    exact ⟨rfl, fun _ _ => beq_self_eq_true _⟩

/-- What a search returns: the first place where the needle occurs, of those from a place on. -/
structure Finds (items needle : List α) (start stop : Nat) (result : Option Nat) : Prop where
  found : ∀ index, result = some index → OccursAt needle items index
  first : ∀ index, start ≤ index → index < result.getD stop → ¬ OccursAt needle items index

theorem findLoop_spec (hwidth : items.length < 2 ^ width) (count : Nat) {start : Nat}
    (hlast : start + count + needle.length ≤ items.length + 1) :
    ∃ result, findLoop width items needle (List.range' start count) = some result ∧
      Finds items needle start (start + count) result := by
  induction count generalizing start with
  | zero => exact ⟨none, rfl, nofun, fun index hle hlt => absurd hlt (Nat.not_lt.mpr hle)⟩
  | succ count ih =>
    have hstop : start + needle.length ≤ items.length := by omega
    rw [range'_succ, findLoop, some_bind (word_of_lt (hstop.trans_lt hwidth)),
      some_bind (slice_of_le (Nat.le_add_right _ _) hstop), Nat.add_sub_cancel_left]
    split
    · next heq =>
      refine ⟨some start, rfl, fun index hindex => ?_, fun index hle hlt => absurd hlt (Nat.not_lt.mpr hle)⟩
      obtain rfl := Option.some.inj hindex
      exact occursAt_iff.mpr (equals_iff.mp heq)
    · next hne =>
      have hnext : start + 1 + count + needle.length ≤ items.length + 1 := by omega
      obtain ⟨result, hresult, hfound, hfirst⟩ := ih hnext
      refine ⟨result, hresult, hfound, fun index hle hlt => ?_⟩
      rcases Nat.eq_or_lt_of_le hle with rfl | hlater
      · exact fun hoccurs => hne (equals_iff.mpr (occursAt_iff.mp hoccurs))
      · exact hfirst index hlater (by rwa [Nat.add_right_comm, Nat.add_assoc])

theorem find_spec (hneedle : needle ≠ []) (hwidth : items.length < 2 ^ width) :
    ∃ result, find width items needle = some result ∧
      (∀ index, result = some index → OccursAt needle items index ∧ ∀ i < index, ¬ OccursAt needle items i) ∧
      (result = none → ∀ index, ¬ OccursAt needle items index) := by
  have hnone : needle.isEmpty = false := isEmpty_eq_false_iff.mpr hneedle
  unfold find
  rw [hnone, if_neg Bool.false_ne_true]
  split
  · next hshort =>
    refine ⟨none, rfl, nofun, fun _ index hoccurs => ?_⟩
    have hlength := hoccurs.lt_length hneedle
    omega
  · next hlong =>
    have hlast : 0 + (items.length - needle.length + 1) + needle.length ≤ items.length + 1 := by omega
    obtain ⟨result, hresult, hfound, hfirst⟩ := findLoop_spec hwidth _ hlast
    rw [some_bind (sub_of_le (Nat.not_lt.mp hlong)), range_eq_range', hresult]
    refine ⟨result, rfl, fun index hindex => ⟨hfound index hindex, fun i hi => ?_⟩, fun hresult index hoccurs => ?_⟩
    · exact hfirst i (Nat.zero_le i) (by rwa [hindex, Option.getD_some])
    · have hlength := hoccurs.lt_length hneedle
      refine hfirst index (Nat.zero_le index) ?_ hoccurs
      rw [hresult, Option.getD_none]
      omega

/-- The parts of a split are those of the scan from the left. -/
theorem collect_leftmost (hseparator : separator ≠ []) (hwidth : items.length < 2 ^ width) :
    ∃ parts, LeftmostSplit separator items parts ∧
      ∀ fuel > items.length + 1, (split items separator).collect width fuel = some parts := by
  have hempty : separator.isEmpty = false := isEmpty_eq_false_iff.mpr hseparator
  induction hsize : items.length using Nat.strong_induction_on generalizing items with
  | _ size ih =>
    obtain ⟨result, hfind, hfound, hnone⟩ := find_spec hseparator hwidth
    cases result with
    | none =>
      refine ⟨[items], .last (hnone rfl), fun fuel hfuel => ?_⟩
      obtain ⟨fuel, rfl⟩ : ∃ less, fuel = less + 2 := ⟨fuel - 2, by omega⟩
      simp [SliceSplit.collect, SliceSplit.next, split, hempty, hfind]
    | some index =>
      obtain ⟨⟨rest, hrest⟩, hfirst⟩ := hfound index rfl
      have hindex : index ≤ items.length := by
        have hlength := OccursAt.lt_length hseparator ⟨rest, hrest⟩
        omega
      have hitems : items = items.take index ++ separator ++ rest := by
        rw [append_assoc, hrest, take_append_drop]
      have hpart : (items.take index).length = index := length_take_of_le hindex
      have hpositive := length_pos_iff.mpr hseparator
      have hlengths : items.length = index + separator.length + rest.length := by
        rw [hitems, length_append, length_append, hpart]
      obtain ⟨parts, hsplit, hcollect⟩ := ih rest.length (by omega) (by omega) rfl
      refine ⟨items.take index :: parts, ?_, fun fuel hfuel => ?_⟩
      · have hcut : LeftmostSplit separator (items.take index ++ separator ++ rest) (items.take index :: parts) :=
          .cut (fun i hi => by rw [← hitems]; exact hfirst i (hpart ▸ hi)) hsplit
        rwa [← hitems] at hcut
      · obtain ⟨fuel, rfl⟩ : ∃ less, fuel = less + 1 := ⟨fuel - 1, by omega⟩
        have hremaining : items.drop (index + separator.length) = rest := by
          rw [← drop_drop, ← hrest, drop_left]
        have hnext : (split items separator).next width = some (some (items.take index), split rest separator) := by
          rw [SliceSplit.next]
          simp only [split, Bool.false_eq_true, if_false, hempty, hfind]
          rw [some_bind rfl]
          simp only
          rw [some_bind (word_of_lt (by omega)), some_bind (sliceFrom_of_le (by omega)),
            some_bind (slice_zero hindex), hremaining]
          rfl
        rw [SliceSplit.collect, some_bind hnext]
        simp only
        rw [some_bind (hcollect fuel (by omega))]
        rfl

end

/-! ### Appending -/

section

variable {width : Nat} {separator : List Char} {parts : List (List Char)}

/-- A string of just the capacity that its text needs. -/
def filled (allocator : Allocator) (text : List Char) : Except Mem.Error StringBuffer :=
  (initCapacity allocator text.length).map fun _ => ⟨text, text.length, Nat.le_refl _⟩

variable {out : StringBuffer}

theorem initCapacity_eq_ok {allocator : Allocator} {capacity : Nat}
    (h : initCapacity allocator capacity = .ok out) : out.text = [] ∧ out.capacity = capacity := by
  unfold initCapacity at h
  split at h
  · cases hallocated : allocator capacity with
    | error error => simp [hallocated, bind, Except.bind] at h
    | ok _ =>
      simp only [hallocated, bind, Except.bind, pure, Except.pure, Except.ok.injEq] at h
      exact h ▸ ⟨rfl, rfl⟩
  · cases h
    exact ⟨rfl, rfl⟩

theorem appendAssumeCapacity_of_le {text : List Char} (hwidth : out.capacity < 2 ^ width)
    (hfits : (out.text ++ text).length ≤ out.capacity) :
    appendAssumeCapacity width out text = some ⟨out.text ++ text, out.capacity, hfits⟩ := by
  rw [appendAssumeCapacity, some_bind (word_of_lt (length_append ▸ hfits.trans_lt hwidth)),
    dif_pos hfits]

variable {before later : List (List Char)}

/-- A round of either loop adds one part to those that are joined. -/
theorem appendNext_spec {part : List Char}
    (hwidth : out.capacity < 2 ^ width) (hout : out.text = joined separator before)
    (hfits : (joined separator (before ++ part :: later)).length ≤ out.capacity) :
    ∃ out', appendNext width separator before.isEmpty out part = some out' ∧
      out'.text = joined separator (before ++ [part]) ∧ out'.capacity = out.capacity := by
  have hround : (joined separator (before ++ [part])).length ≤ out.capacity := by
    have hbeginning : joined separator (before ++ [part]) <+: joined separator (before ++ [part] ++ later) :=
      joined_isPrefix (before ++ [part]) later
    rw [append_assoc, singleton_append] at hbeginning
    exact hbeginning.length_le.trans hfits
  cases before with
  | nil =>
    have htext : out.text ++ part = joined separator ([] ++ [part]) := by rw [hout]; rfl
    exact ⟨_, appendAssumeCapacity_of_le hwidth (htext ▸ hround), htext, rfl⟩
  | cons first before =>
    rw [joined_append (cons_ne_nil first before) (cons_ne_nil part []), ← hout] at hround ⊢
    have hseparator : (out.text ++ separator).length ≤ out.capacity := by
      rw [length_append] at hround
      omega
    refine ⟨⟨out.text ++ separator ++ part, out.capacity, hround⟩, ?_, rfl, rfl⟩
    rw [isEmpty_cons, appendNext, if_neg Bool.false_ne_true,
      some_bind (appendAssumeCapacity_of_le hwidth hseparator)]
    exact @appendAssumeCapacity_of_le _ ⟨_, _, hseparator⟩ _ hwidth hround

theorem eq_filled {text : List Char} (htext : out.text = text)
    (hcapacity : out.capacity = text.length) : out = ⟨text, text.length, Nat.le_refl _⟩ := by
  obtain ⟨_, _, _⟩ := out
  dsimp only at htext hcapacity
  subst htext hcapacity
  rfl

theorem joinLength_eq {separatorCount : Nat}
    (hwidth : separator.length * separatorCount + (parts.map List.length).sum < 2 ^ width) :
    joinLength width separatorCount parts separator =
      .ok (separator.length * separatorCount + (parts.map List.length).sum) := by
  have hloop : ∀ start, start + (parts.map List.length).sum < 2 ^ width →
      parts.foldlM (fun outputLen part => checked width (outputLen + part.length)) start =
        .ok (start + (parts.map List.length).sum) := by
    clear hwidth
    induction parts with
    | nil => exact fun start _ => rfl
    | cons part parts ih =>
      intro start hwidth
      rw [map_cons, sum_cons, ← Nat.add_assoc] at hwidth ⊢
      rw [foldlM_cons, checked, if_pos (by omega)]
      exact ih _ hwidth
  rw [joinLength, checked, if_pos (by omega)]
  exact hloop _ hwidth

/-- The loop of `join`. -/
theorem joinLoop_spec (hwidth : out.capacity < 2 ^ width) (htext : out.text = [])
    (hcapacity : out.capacity = (joined separator parts).length) :
    ∃ out', (List.range parts.length).foldlM (fun out index => do
        appendNext width separator (index == 0) out (← parts[index]?)) out = some out' ∧
      out'.text = joined separator parts ∧ out'.capacity = (joined separator parts).length := by
  obtain ⟨out', hloop, htext', hcapacity'⟩ := foldlM_range_of_step (s := out) parts.length
    (f := fun out index => do appendNext width separator (index == 0) out (← parts[index]?))
    (P := fun index current => current.text = joined separator (parts.take index) ∧ current.capacity = out.capacity)
    ⟨htext, rfl⟩ fun index hindex current hP => by
      have hsplit : parts.take index ++ parts[index] :: parts.drop (index + 1) = parts := by
        rw [← drop_eq_getElem_cons hindex, take_append_drop]
      have hfirst : (parts.take index).isEmpty = (index == 0) := by
        rw [Bool.eq_iff_iff, isEmpty_iff_length_eq_zero, length_take_of_le hindex.le, beq_iff_eq]
      have hfits : (joined separator (parts.take index ++ parts[index] :: parts.drop (index + 1))).length ≤
          current.capacity := by
        rw [hsplit, hP.2, hcapacity]
      obtain ⟨current', hround, htext', hcapacity'⟩ := appendNext_spec (hP.2 ▸ hwidth) hP.1 hfits
      rw [hfirst] at hround
      refine ⟨current', ?_, ?_, hcapacity'.trans hP.2⟩
      · rw [some_bind (List.getElem?_eq_getElem hindex), hround]
      · rw [htext', take_succ_eq_append_getElem hindex]
  rw [take_length] at htext'
  exact ⟨out', hloop, htext', hcapacity'.trans hcapacity⟩

/-- Joining allocates just what it writes. -/
theorem join_eq (allocator : Allocator) (hwidth : (joined separator parts).length < 2 ^ width) :
    join width allocator parts separator = some (filled allocator (joined separator parts)) := by
  have hcount : ∃ between, separatorCount parts = some between ∧
      separator.length * between + (parts.map List.length).sum = (joined separator parts).length := by
    cases parts with
    | nil => exact ⟨0, rfl, rfl⟩
    | cons part parts =>
      refine ⟨parts.length, rfl, ?_⟩
      rw [length_joined separator (cons_ne_nil part parts), Nat.add_comm]
      rfl
  obtain ⟨between, hcount, hlength⟩ := hcount
  have houtput := joinLength_eq (hlength ▸ hwidth)
  rw [hlength] at houtput
  rw [join, some_bind hcount, houtput, filled]
  change (match initCapacity allocator (joined separator parts).length with
    | .error error => _
    | .ok out => _) = _
  cases hinit : initCapacity allocator (joined separator parts).length with
  | error error => rfl
  | ok out =>
    obtain ⟨htext, hcapacity⟩ := initCapacity_eq_ok hinit
    obtain ⟨out', hloop, htext', hcapacity'⟩ := joinLoop_spec (hcapacity ▸ hwidth) htext hcapacity
    simp only
    rw [some_bind hloop, eq_filled htext' hcapacity']
    rfl

/-- The loop of `replaceAllText`. -/
theorem replaceLoop_spec (hwidth : out.capacity < 2 ^ width) (htext : out.text = joined separator before)
    (hfits : (joined separator (before ++ later)).length ≤ out.capacity) :
    ∃ first out', later.foldlM (replaceRound width separator) (before.isEmpty, out) = some (first, out') ∧
      out'.text = joined separator (before ++ later) ∧ out'.capacity = out.capacity := by
  induction later generalizing before out with
  | nil => exact ⟨before.isEmpty, out, rfl, by rw [htext, append_nil], rfl⟩
  | cons part later ih =>
    obtain ⟨current, hround, htext', hcapacity⟩ := appendNext_spec hwidth htext hfits
    have hfalse : (before ++ [part]).isEmpty = false := by simp
    have hfits' : (joined separator (before ++ [part] ++ later)).length ≤ current.capacity := by
      rw [append_assoc, hcapacity]
      exact hfits
    obtain ⟨first, out', hloop, hout⟩ := ih (hcapacity ▸ hwidth) htext' hfits'
    rw [hfalse] at hloop
    rw [append_assoc, hcapacity] at hout
    refine ⟨first, out', ?_, hout⟩
    rw [foldlM_cons, replaceRound, some_bind hround]
    exact hloop

theorem count_eq (hwidth : parts.length < 2 ^ width) : count width parts = some parts.length := by
  have hloop : ∀ (items : List (List Char)) total, total + items.length < 2 ^ width →
      items.foldlM (fun total _ => word width (total + 1)) total = some (total + items.length) := by
    intro items
    induction items with
    | nil => exact fun total _ => rfl
    | cons part items ih =>
      intro total hwidth
      rw [length_cons] at hwidth ⊢
      rw [foldlM_cons, some_bind (word_of_lt (by omega)), ih _ (by omega)]
      congr 1
      omega
  rw [count, hloop parts 0 (by omega), Nat.zero_add]

/-- Replacing is joining the parts with the replacement, or an error where the result has no length. -/
theorem replaceAllText_eq (allocator : Allocator) {text needle replacement : List Char} {fuel : Nat}
    (hcollect : (split text needle).collect width fuel = some parts) (hparts : parts ≠ [])
    (hjoined : joined needle parts = text) (hwidth : text.length < 2 ^ width) (hcount : parts.length < 2 ^ width) :
    replaceAllText width fuel allocator text needle replacement =
      some (if (joined replacement parts).length < 2 ^ width then filled allocator (joined replacement parts)
        else .error .outOfMemory) := by
  have hpositive := length_pos_iff.mpr hparts
  have hremoved := length_joined needle hparts
  have houtput := length_joined replacement hparts
  rw [hjoined] at hremoved
  rw [replaceAllText, some_bind hcollect, some_bind (count_eq hcount),
    some_bind (sub_of_le hpositive)]
  generalize hremovedAt : needle.length * (parts.length - 1) = removed at *
  generalize replacement.length * (parts.length - 1) = added at *
  rw [checked, if_pos (by omega), checked]
  by_cases hadded : added < 2 ^ width
  · rw [if_pos hadded]
    simp only
    rw [some_bind (sub_of_le (by omega)), checked]
    have hlength : text.length - removed + added = (joined replacement parts).length := by omega
    rw [hlength]
    by_cases hfits : (joined replacement parts).length < 2 ^ width
    · rw [if_pos hfits, if_pos hfits]
      change (match initCapacity allocator (joined replacement parts).length with
        | .error error => _
        | .ok out => _) = _
      rw [filled]
      cases hinit : initCapacity allocator (joined replacement parts).length with
      | error error => rfl
      | ok out =>
        obtain ⟨htext, hcapacity⟩ := initCapacity_eq_ok hinit
        have hwhole : (joined replacement ([] ++ parts)).length ≤ out.capacity := by rw [nil_append, hcapacity]
        obtain ⟨first, out', hloop, htext', hcapacity'⟩ := replaceLoop_spec (hcapacity ▸ hfits) htext hwhole
        rw [isEmpty_nil] at hloop
        rw [nil_append] at htext'
        simp only
        rw [some_bind hcollect, some_bind hloop,
          eq_filled htext' (hcapacity'.trans hcapacity)]
        rfl
    · rw [if_neg hfits, if_neg hfits]
      rfl
  · rw [if_neg hadded, if_neg (by omega)]
    rfl

end

/-- **The parts of a split are those of a scan from the left and give the text back when they are joined, and
replacing joins them with the replacement.** A `char` takes four bytes, so that a text has no more than a quarter of
the addresses. -/
theorem split_join_replace (pointer : PointerWidth) (text separator : List Char)
    (htext : 4 * text.length ≤ 2 ^ pointer.bits) {fuel : Nat} (hfuel : text.length + 1 < fuel) :
    ∃ parts, (split text separator).collect pointer.bits fuel = some parts ∧
      (separator ≠ [] → LeftmostSplit separator text parts ∧ ∀ part ∈ parts, ¬ separator <:+: part) ∧
      (separator = [] → parts = [text]) ∧
      joined separator parts = text ∧
      (∀ allocator, join pointer.bits allocator parts separator = some (filled allocator text)) ∧
      ∀ allocator replacement, replaceAllText pointer.bits fuel allocator text separator replacement =
        some (if (joined replacement parts).length < 2 ^ pointer.bits then filled allocator (joined replacement parts)
          else .error .outOfMemory) := by
  have hroom : 8 ≤ 2 ^ pointer.bits := by cases pointer <;> decide
  have hwidth : text.length < 2 ^ pointer.bits := by omega
  obtain ⟨parts, hcollect, hsplit, hempty, hjoined, hparts, hlength⟩ : ∃ parts,
      (split text separator).collect pointer.bits fuel = some parts ∧
      (separator ≠ [] → LeftmostSplit separator text parts ∧ ∀ part ∈ parts, ¬ separator <:+: part) ∧
      (separator = [] → parts = [text]) ∧ joined separator parts = text ∧ parts ≠ [] ∧
      parts.length ≤ text.length + 1 := by
    by_cases hseparator : separator = []
    · obtain ⟨fuel, rfl⟩ : ∃ less, fuel = less + 2 := ⟨fuel - 2, by omega⟩
      refine ⟨[text], ?_, fun h => absurd hseparator h, fun _ => rfl, rfl, cons_ne_nil text [],
        Nat.le_add_left _ _⟩
      simp [SliceSplit.collect, SliceSplit.next, split, hseparator]
    · obtain ⟨parts, hsplit, hcollect⟩ := collect_leftmost hseparator hwidth
      exact ⟨parts, hcollect fuel hfuel, fun _ => ⟨hsplit, hsplit.not_infix hseparator⟩,
        fun h => absurd h hseparator, hsplit.joined_eq, hsplit.ne_nil, hsplit.length_le hseparator⟩
  refine ⟨parts, hcollect, hsplit, hempty, hjoined, fun allocator => ?_, fun allocator replacement => ?_⟩
  · rw [join_eq allocator (hjoined.symm ▸ hwidth), hjoined]
  · exact replaceAllText_eq allocator hcollect hparts hjoined hwidth (by omega)

theorem split_join_replace_overlapping :
    ∃ parts, (split "aaa".toList "aa".toList).collect PointerWidth.w64.bits 5 = some parts ∧
      joined "aa".toList parts = "aaa".toList ∧
      ∀ allocator, join PointerWidth.w64.bits allocator parts "aa".toList = some (filled allocator "aaa".toList) := by
  obtain ⟨parts, hcollect, -, -, hjoined, hjoin, -⟩ :=
    split_join_replace .w64 "aaa".toList "aa".toList (by decide) (by decide : _ < 5)
  exact ⟨parts, hcollect, hjoined, hjoin⟩

end Nia.Text
