import Mathlib

/-! Cutting a scalar domain along the ranges of a matrix.

Each range of the first column is clipped to the domain and cuts it in front of its start and behind its end. The
cuts are sorted, doubled ones removed, and each part reaches from its cut to the next one, or to the end of the
domain. No cut is inside a part, so no part crosses the bounds of a range (`scalarPartitions_refines`). Ends are
inclusive; a range that ends at the end of the domain has no cut behind it, so that nothing is added to the
largest number. -/
namespace Nia.PatternAnalysis

open List

def minValue : Int := -2 ^ 127
def maxValue : Int := 2 ^ 127 - 1

/-- `i128`. -/
abbrev I128 := {value : Int // minValue ≤ value ∧ value ≤ maxValue}

instance : DecidableLE I128 := fun a b => Int.decLe a.1 b.1

instance : DecidableLT I128 := fun a b => Int.decLt a.1 b.1

/-- `value + 1`, which traps at the largest value. -/
def succ (value : I128) : Option I128 :=
  if h : value.1 < maxValue then some ⟨value.1 + 1, Int.le_add_one value.2.1, h⟩ else none

/-- `value.saturating_sub(1)`. -/
def saturatingPred (value : I128) : I128 :=
  if h : minValue < value.1 then ⟨value.1 - 1, Int.le_sub_one_of_lt h, (Int.sub_le_self _ (by decide)).trans value.2.2⟩
  else value

inductive Pattern (C : Type) where
  | wildcard
  | constructor (constructor : C) (fields : List (Pattern C))
  | scalarRange (start stop : I128)
  /-- `Opaque`. -/
  | unknown

variable {C : Type}

def clipRange (start stop lower upper : I128) : Option (I128 × I128) :=
  if start ⊔ lower ≤ stop ⊓ upper then some (start ⊔ lower, stop ⊓ upper) else none

/-- The ranges of the first column, and that of the query. -/
def ranges (matrix : List (List (Pattern C))) (query : Option (I128 × I128)) : List (I128 × I128) :=
  matrix.filterMap (fun row =>
    match row.head? with
    | some (.scalarRange start stop) => some (start, stop)
    | _ => none) ++ query.toList

/-- The boundaries that a range adds. -/
def cuts (lower upper : I128) (range : I128 × I128) : Option (List I128) :=
  match clipRange range.1 range.2 lower upper with
  | none => some []
  | some (start, stop) => if stop < upper then (succ stop).map fun next => [start, next] else some [start]

/-- `Vec::dedup`. -/
def dedup : List I128 → List I128
  | a :: b :: rest => if a = b then dedup (b :: rest) else a :: dedup (b :: rest)
  | short => short

/-- Each part ends in front of the next one. -/
def parts (upper : I128) : List I128 → List (I128 × I128)
  | [] => []
  | [start] => [(start, upper)]
  | start :: next :: rest => (start, saturatingPred next) :: parts upper (next :: rest)

def scalarPartitions (matrix : List (List (Pattern C))) (query : Option (I128 × I128)) (lower upper : I128) :
    Option (List (I128 × I128)) :=
  if upper < lower then some []
  else do
    let added ← (ranges matrix query).mapM (cuts lower upper)
    return parts upper (dedup ((lower :: added.flatten).mergeSort))

/-! ### Boundaries -/

section Boundaries

variable {lower upper : I128}

/-- The boundaries of a range, said without the code. -/
def IsCut (lower upper : I128) (range : I128 × I128) (cut : I128) : Prop :=
  range.1 ⊔ lower ≤ range.2 ⊓ upper ∧
    (cut = range.1 ⊔ lower ∨ range.2 ⊓ upper < upper ∧ cut.1 = (range.2 ⊓ upper).1 + 1)

theorem cuts_eq_some (lower upper : I128) (range : I128 × I128) :
    ∃ added, cuts lower upper range = some added ∧ ∀ cut, cut ∈ added ↔ IsCut lower upper range cut := by
  unfold cuts clipRange IsCut
  generalize range.1 ⊔ lower = start
  generalize range.2 ⊓ upper = stop
  by_cases hclip : start ≤ stop
  · rw [if_pos hclip]
    by_cases hstop : stop < upper
    · have hmax : stop.1 < maxValue := lt_of_lt_of_le hstop upper.2.2
      refine ⟨[start, ⟨stop.1 + 1, Int.le_add_one stop.2.1, hmax⟩], ?_, fun cut => ?_⟩
      · simp only [if_pos hstop, succ, dif_pos hmax, Option.map_some]
      · simp [hclip, hstop, Subtype.ext_iff]
    · exact ⟨[start], if_neg hstop, fun cut => by simp [hclip, hstop]⟩
  · rw [if_neg hclip]
    exact ⟨[], rfl, fun cut => by simp [hclip]⟩

theorem mapM_cuts_eq_some (lower upper : I128) (all : List (I128 × I128)) :
    ∃ added, all.mapM (cuts lower upper) = some added ∧
      ∀ cut, cut ∈ added.flatten ↔ ∃ range ∈ all, IsCut lower upper range cut := by
  induction all with
  | nil => exact ⟨[], rfl, by simp⟩
  | cons range rest ih =>
    obtain ⟨first, hfirst, hcuts⟩ := cuts_eq_some lower upper range
    obtain ⟨added, hadded, hrest⟩ := ih
    refine ⟨first :: added, by simp [mapM_cons, hfirst, hadded], fun cut => ?_⟩
    simp [hcuts, hrest]

theorem mem_dedup {value : I128} (sorted : List I128) : value ∈ dedup sorted ↔ value ∈ sorted := by
  fun_induction dedup sorted with
  | case1 a rest ih => simp [ih]
  | case2 a b rest hne ih => simp [ih]
  | case3 short hshort => rfl

theorem pairwise_dedup {sorted : List I128} (h : sorted.Pairwise (· ≤ ·)) : (dedup sorted).Pairwise (· < ·) := by
  fun_induction dedup sorted with
  | case1 a rest ih => exact ih h.of_cons
  | case2 a b rest hne ih =>
    obtain ⟨ha, hrest⟩ := pairwise_cons.mp h
    have hab : a < b := lt_of_le_of_ne (ha b mem_cons_self) hne
    refine pairwise_cons.mpr ⟨fun value hvalue => ?_, ih hrest⟩
    obtain rfl | hvalue := mem_cons.mp ((mem_dedup _).mp hvalue)
    · exact hab
    · exact hab.trans_le ((pairwise_cons.mp hrest).1 value hvalue)
  | case3 short hshort =>
    match short, hshort with
    | [], _ => exact .nil
    | [a], _ => exact pairwise_singleton _ _
    | a :: b :: rest, hshort => exact absurd rfl (hshort a b rest)

end Boundaries

/-! ### Parts -/

section Parts

variable {upper : I128} {boundaries : List I128}

theorem coe_saturatingPred {a b : I128} (h : a < b) : (saturatingPred b).1 = b.1 - 1 := by
  have hmin : minValue < b.1 := lt_of_le_of_lt a.2.1 h
  rw [saturatingPred, dif_pos hmin]

theorem lt_iff_le_saturatingPred {a b : I128} (h : a < b) (x : I128) : x < b ↔ x ≤ saturatingPred b := by
  rw [← Subtype.coe_lt_coe, ← Subtype.coe_le_coe, coe_saturatingPred h]
  omega

/-- What the parts of an ascending list of boundaries are. -/
structure Cut (boundaries : List I128) (upper : I128) (result : List (I128 × I128)) : Prop where
  sorted : result.Pairwise (·.2 < ·.1)
  nonempty : ∀ part ∈ result, part.1 ≤ part.2
  covers : ∀ x, (∃ part ∈ result, part.1 ≤ x ∧ x ≤ part.2) ↔ (∃ cut ∈ boundaries, cut ≤ x) ∧ x ≤ upper
  uncut : ∀ part ∈ result, ∀ cut ∈ boundaries, cut ≤ part.1 ∨ part.2 < cut

theorem cut_parts (hsorted : boundaries.Pairwise (· < ·)) (hupper : ∀ cut ∈ boundaries, cut ≤ upper) :
    Cut boundaries upper (parts upper boundaries) := by
  fun_induction parts upper boundaries with
  | case1 => exact ⟨.nil, by simp, by simp, by simp⟩
  | case2 start =>
    have hstart := hupper start mem_cons_self
    exact ⟨pairwise_singleton _ _, by simpa using hstart, by simp, by simp⟩
  | case3 start next rest ih =>
    obtain ⟨hstart, hrest⟩ := pairwise_cons.mp hsorted
    obtain ⟨_, hbelow⟩ := forall_mem_cons.mp hupper
    obtain ⟨hparts, hnonempty, hcovers, huncut⟩ := ih hrest hbelow
    have hnext : start < next := hstart next mem_cons_self
    have hend := lt_iff_le_saturatingPred hnext
    -- The other parts start at a boundary, and all boundaries are from the second one on.
    have hfrom : ∀ cut ∈ next :: rest, next ≤ cut := by
      intro cut hcut
      obtain rfl | hcut := mem_cons.mp hcut
      · exact le_rfl
      · exact ((pairwise_cons.mp hrest).1 cut hcut).le
    have hafter : ∀ part ∈ parts upper (next :: rest), next ≤ part.1 := by
      intro part hpart
      obtain ⟨⟨cut, hcut, hle⟩, -⟩ := (hcovers part.1).mp ⟨part, hpart, le_rfl, hnonempty part hpart⟩
      exact (hfrom cut hcut).trans hle
    refine ⟨pairwise_cons.mpr ⟨fun part hpart => ?_, hparts⟩, ?_, fun x => ?_, ?_⟩
    · exact (hend _).mpr le_rfl |>.trans_le (hafter part hpart)
    · exact forall_mem_cons.mpr ⟨(hend start).mp hnext, hnonempty⟩
    · simp only [exists_mem_cons_iff] at hcovers ⊢
      rw [hcovers x, ← hend x]
      constructor
      · rintro (⟨hge, hlt⟩ | ⟨hcut, hle⟩)
        · exact ⟨.inl hge, hlt.le.trans (hbelow next mem_cons_self)⟩
        · exact ⟨.inr hcut, hle⟩
      · rintro ⟨hge | hcut, hle⟩
        · rcases lt_or_ge x next with hlt | hnx
          · exact .inl ⟨hge, hlt⟩
          · exact .inr ⟨.inl hnx, hle⟩
        · exact .inr ⟨hcut, hle⟩
    · refine forall_mem_cons.mpr ⟨forall_mem_cons.mpr ⟨.inl le_rfl, fun cut hcut => .inr ?_⟩, ?_⟩
      · exact ((hend _).mpr le_rfl).trans_le (hfrom cut hcut)
      · intro part hpart
        exact forall_mem_cons.mpr ⟨.inl (hnext.le.trans (hafter part hpart)), huncut part hpart⟩

end Parts

/-- **Every domain is cut, without overflow, into ascending non-empty parts that cover it, none of which crosses the
bounds of a range clipped to the domain.** -/
theorem scalarPartitions_refines (matrix : List (List (Pattern C))) (query : Option (I128 × I128)) (lower upper : I128)
    (h : lower ≤ upper) :
    ∃ result, scalarPartitions matrix query lower upper = some result ∧
      result.Pairwise (·.2 < ·.1) ∧ (∀ part ∈ result, part.1 ≤ part.2) ∧
      (⋃ part ∈ result, Set.Icc part.1 part.2) = Set.Icc lower upper ∧
      ∀ part ∈ result, ∀ range ∈ ranges matrix query,
        Set.Icc part.1 part.2 ⊆ Set.Icc (range.1 ⊔ lower) (range.2 ⊓ upper) ∨
          Disjoint (Set.Icc part.1 part.2) (Set.Icc (range.1 ⊔ lower) (range.2 ⊓ upper)) := by
  obtain ⟨added, hadded, hcuts⟩ := mapM_cuts_eq_some lower upper (ranges matrix query)
  let boundaries := dedup ((lower :: added.flatten).mergeSort)
  have hmem : ∀ cut, cut ∈ boundaries ↔ cut = lower ∨ ∃ range ∈ ranges matrix query, IsCut lower upper range cut := by
    intro cut
    rw [mem_dedup, mem_mergeSort, mem_cons, hcuts]
  have hbounds : ∀ cut ∈ boundaries, lower ≤ cut ∧ cut ≤ upper := by
    intro cut hcut
    obtain rfl | ⟨range, -, hclip, rfl | ⟨hstop, hcut⟩⟩ := (hmem cut).mp hcut
    · exact ⟨le_rfl, h⟩
    · exact ⟨le_sup_right, hclip.trans inf_le_right⟩
    · have hlow : lower ≤ range.2 ⊓ upper := le_sup_right.trans hclip
      rw [← Subtype.coe_lt_coe] at hstop
      rw [← Subtype.coe_le_coe] at hlow
      rw [← Subtype.coe_le_coe, ← Subtype.coe_le_coe, hcut]
      omega
  have hsorted : boundaries.Pairwise (· < ·) := pairwise_dedup (pairwise_mergeSort' (· ≤ ·) _)
  obtain ⟨hascend, hnonempty, hcovers, huncut⟩ := cut_parts hsorted fun cut hcut => (hbounds cut hcut).2
  refine ⟨parts upper boundaries, ?_, hascend, hnonempty, Set.ext fun x => ?_, fun part hpart range hrange => ?_⟩
  · rw [scalarPartitions, if_neg h.not_gt, hadded]
    rfl
  · simp only [Set.mem_iUnion, Set.mem_Icc, exists_prop]
    rw [hcovers]
    refine and_congr_left fun _ => ⟨fun ⟨cut, hcut, hle⟩ => (hbounds cut hcut).1.trans hle, fun hle => ?_⟩
    exact ⟨lower, (hmem lower).mpr (.inl rfl), hle⟩
  · by_cases hclip : range.1 ⊔ lower ≤ range.2 ⊓ upper
    · have hstart := huncut part hpart _ ((hmem _).mpr (.inr ⟨range, hrange, hclip, .inl rfl⟩))
      have hpartUpper : part.2 ≤ upper := ((hcovers part.2).mp ⟨part, hpart, hnonempty part hpart, le_rfl⟩).2
      rcases hstart with hstart | hstart
      · by_cases hstop : range.2 ⊓ upper < upper
        · -- The cut behind the range is not inside the part either.
          have hmax : (range.2 ⊓ upper).1 < maxValue := lt_of_lt_of_le hstop upper.2.2
          let behind : I128 := ⟨(range.2 ⊓ upper).1 + 1, Int.le_add_one (range.2 ⊓ upper).2.1, hmax⟩
          have hbehind : ∀ x : I128, x < behind ↔ x ≤ range.2 ⊓ upper := fun x => Int.lt_add_one_iff
          rcases huncut part hpart behind ((hmem _).mpr (.inr ⟨range, hrange, hclip, .inr ⟨hstop, rfl⟩⟩)) with h' | h'
          · refine .inr (Set.disjoint_left.mpr fun x hx hx' => ?_)
            exact absurd ((hbehind x).mpr hx'.2) (h'.trans hx.1).not_gt
          · exact .inl (Set.Icc_subset_Icc hstart ((hbehind _).mp h'))
        · exact .inl (Set.Icc_subset_Icc hstart (hpartUpper.trans (not_lt.mp hstop)))
      · exact .inr (Set.disjoint_left.mpr fun x hx hx' => absurd (hx'.1.trans hx.2) hstart.not_ge)
    · rw [Set.Icc_eq_empty hclip]
      exact .inr (Set.disjoint_empty _)

/-! ### The whole of `i128`, cut by ranges that reach its ends -/

def least : I128 := ⟨minValue, le_rfl, by decide⟩
def greatest : I128 := ⟨maxValue, by decide, le_rfl⟩

def overlapping : List (List (Pattern Unit)) :=
  [[.scalarRange least ⟨0, by decide⟩], [.scalarRange ⟨-3, by decide⟩ greatest]]

theorem scalarPartitions_refines_overlapping :
    ∃ result, scalarPartitions overlapping none least greatest = some result ∧
      result.Pairwise (·.2 < ·.1) ∧ (∀ part ∈ result, part.1 ≤ part.2) ∧
      (⋃ part ∈ result, Set.Icc part.1 part.2) = Set.Icc least greatest ∧
      ∀ part ∈ result, ∀ range ∈ ranges overlapping none,
        Set.Icc part.1 part.2 ⊆ Set.Icc (range.1 ⊔ least) (range.2 ⊓ greatest) ∨
          Disjoint (Set.Icc part.1 part.2) (Set.Icc (range.1 ⊔ least) (range.2 ⊓ greatest)) :=
  scalarPartitions_refines overlapping none least greatest (by decide)

end Nia.PatternAnalysis
