import Nia.Lib.Association

/-! Choosing one version for each registry package.

`solveRegistryVersions` groups the constraints by package and takes, for each package, the last
maximum of the candidates that satisfy its group: first among the stable ones, then among all. A
version is only ever made by parsing its text, so two versions that compare equal are one
(`PackageVersion.eq_of_text`), the maximum is unique, and neither the order nor the number of
copies of a constraint or a candidate can be seen in the result, its error text included.

The semantic version library is a parameter: parsing, precedence, matching and printing. Of it
only that precedence is an order is used. -/
namespace Nia.PackageMetadata

open List Lib.Association

/-- The semantic version library. -/
structure Semver where
  Version : Type
  Requirement : Type
  parse : String → Option Version
  cmpPrecedence : Version → Version → Ordering
  /-- Whether there is no prerelease part. -/
  preIsEmpty : Version → Bool
  admits : Requirement → Version → Bool
  display : Requirement → String
  cmpPrecedence_trans : Std.TransCmp cmpPrecedence

variable (S : Semver)

instance : Std.TransCmp S.cmpPrecedence := S.cmpPrecedence_trans

/-- A release with the text it was parsed from. -/
@[ext]
structure PackageVersion where
  parsed : S.Version
  text : String
  parse_text : S.parse text = some parsed

@[ext]
structure PackageId where
  «namespace» : String
  name : String
  version : PackageVersion S

/-- Namespace and name, ordered as the pair. -/
abbrev RegistryPackageName := String ×ₗ String

structure RegistryVersionConstraint where
  package : RegistryPackageName
  requirement : S.Requirement
  requiringPackage : PackageId S
  dependencyChain : List String

/-- What is required, in the order it was found. -/
abbrev Constraints := List (RegistryVersionConstraint S)

/-- The packages that were chosen, by their names. -/
abbrev Selection := List (RegistryPackageName × PackageId S)

variable {S}

theorem PackageVersion.eq_of_text {a b : PackageVersion S} (h : a.text = b.text) : a = b := by
  have hparsed : some a.parsed = some b.parsed := by rw [← a.parse_text, ← b.parse_text, h]
  exact PackageVersion.ext (Option.some.inj hparsed) h

/-! ### The source's texts -/

def hexDigit (n : Nat) : Char := if n < 10 then Char.ofNat (48 + n) else Char.ofNat (55 + n)

/-- Percent, slash, at sign, control bytes and bytes from 0x7f on are written as `%` and two digits. -/
def canonicalByte (byte : UInt8) : List Char :=
  if byte = 37 ∨ byte = 47 ∨ byte = 64 ∨ byte ≤ 0x1f ∨ 0x7f ≤ byte then
    ['%', hexDigit (byte.toNat / 16), hexDigit (byte.toNat % 16)]
  else [Char.ofNat byte.toNat]

def canonicalComponent (value : String) : String :=
  String.ofList (value.toUTF8.toList.flatMap canonicalByte)

def PackageId.canonicalText (package : PackageId S) : String :=
  canonicalComponent package.namespace ++ "/" ++ canonicalComponent package.name ++ "@" ++
    canonicalComponent package.version.text

def RegistryVersionConstraint.detail (constraint : RegistryVersionConstraint S) : String :=
  let chain := if constraint.dependencyChain = [] then constraint.requiringPackage.canonicalText
    else " -> ".intercalate constraint.dependencyChain
  constraint.requiringPackage.canonicalText ++ " requires " ++ S.display constraint.requirement ++
    " (" ++ chain ++ ")"

/-- `Vec::dedup`: one of each run of equal elements. -/
def dedup : List String → List String
  | a :: b :: rest => if a = b then dedup (b :: rest) else a :: dedup (b :: rest)
  | short => short

def failure (package : RegistryPackageName) (constraints : Constraints S) : String :=
  "no single version of " ++ (ofLex package).1 ++ "/" ++ (ofLex package).2 ++
    " satisfies all registry constraints: " ++
    "; ".intercalate (dedup ((constraints.map (·.detail)).mergeSort (· ≤ ·)))

/-! ### Solving -/

def later {α : Type} (compare : α → α → Ordering) (best next : α) : α :=
  if compare best next = .gt then best else next

/-- `Iterator::max_by`: of several greatest elements the last. -/
def maxBy {α : Type} (compare : α → α → Ordering) : List α → Option α
  | [] => none
  | first :: rest => some (rest.foldl (later compare) first)

def compareVersions (a b : PackageId S) : Ordering :=
  (S.cmpPrecedence a.version.parsed b.version.parsed).then (compare a.version.text b.version.text)

def matchesAll (package : RegistryPackageName) (constraints : Constraints S)
    (candidate : PackageId S) : Bool :=
  candidate.namespace == (ofLex package).1 && candidate.name == (ofLex package).2 &&
    constraints.all fun constraint => S.admits constraint.requirement candidate.version.parsed

def isStable (candidate : PackageId S) : Bool := S.preIsEmpty candidate.version.parsed

def select (candidates : List (PackageId S)) (package : RegistryPackageName)
    (constraints : Constraints S) : Option (PackageId S) :=
  let matching := candidates.filter (matchesAll package constraints)
  (maxBy compareVersions (matching.filter isStable)).or (maxBy compareVersions matching)

/-- The constraints on a package, in the order they came. -/
def grouped (constraints : Constraints S) :
    List (RegistryPackageName × Constraints S) :=
  constraints.foldl (fun groups constraint =>
    insert groups constraint.package
      (((find groups constraint.package).map Prod.snd).getD [] ++ [constraint])) []

def solveGroups (candidates : List (PackageId S)) :
    List (RegistryPackageName × Constraints S) → Selection S →
      Except String (Selection S)
  | [], selected => .ok selected
  | (package, constraints) :: groups, selected =>
    match select candidates package constraints with
    | some candidate => solveGroups candidates groups (insert selected package candidate)
    | none => .error (failure package constraints)

/-- The error carries the text; its kind is always invalid data. -/
def solveRegistryVersions (constraints : Constraints S) (candidates : List (PackageId S)) :
    Except String (Selection S) :=
  solveGroups candidates (grouped constraints) []

/-! ### The greatest candidate -/

section MaxBy

variable {α : Type} {cmp : α → α → Ordering} [Std.TransCmp cmp]

omit [Std.TransCmp cmp] in
theorem later_eq_or (a b : α) : later cmp a b = a ∨ later cmp a b = b := by
  rw [later]
  exact ite_eq_or_eq ..

theorem isLE_later_left (a b : α) : (cmp a (later cmp a b)).isLE := by
  rw [later]
  split
  · simp [Std.ReflCmp.compare_self]
  · next h => exact Ordering.isLE_iff_ne_gt.mpr h

theorem isLE_later_right (a b : α) : (cmp b (later cmp a b)).isLE := by
  rw [later]
  split
  · next h => exact Ordering.isLE_of_eq_lt (Std.OrientedCmp.gt_iff_lt.mp h)
  · simp [Std.ReflCmp.compare_self]

theorem foldl_later (first : α) (rest : List α) :
    rest.foldl (later cmp) first ∈ first :: rest ∧
      ∀ x ∈ first :: rest, (cmp x (rest.foldl (later cmp) first)).isLE := by
  induction rest generalizing first with
  | nil => simp [Std.ReflCmp.compare_self]
  | cons next rest ih =>
    rw [foldl_cons]
    obtain ⟨hmem, hle⟩ := ih (later cmp first next)
    have hkept := hle _ (mem_cons_self ..)
    refine ⟨?_, fun x hx => ?_⟩
    · rcases mem_cons.mp hmem with hmem | hmem
      · have hone : later cmp first next = first ∨ later cmp first next = next := later_eq_or first next
        rw [hmem]
        rcases hone with h | h <;> simp [h]
      · exact mem_cons_of_mem _ (mem_cons_of_mem _ hmem)
    · rcases mem_cons.mp hx with rfl | hx
      · exact Std.TransCmp.isLE_trans (isLE_later_left ..) hkept
      · rcases mem_cons.mp hx with rfl | hx
        · exact Std.TransCmp.isLE_trans (isLE_later_right ..) hkept
        · exact hle x (mem_cons_of_mem _ hx)

theorem maxBy_eq_some {l : List α} {m : α} (h : maxBy cmp l = some m) : m ∈ l ∧ ∀ x ∈ l, (cmp x m).isLE := by
  match l, h with
  | _ :: _, rfl => exact foldl_later ..

omit [Std.TransCmp cmp] in
theorem maxBy_eq_none {l : List α} : maxBy cmp l = none ↔ l = [] := by
  cases l <;> simp [maxBy]

end MaxBy

/-- The order in which candidates are preferred: stable ones, then precedence, then text. -/
def preference (a b : PackageId S) : Ordering := (compare (isStable a) (isStable b)).then (compareVersions a b)

theorem transCmp_on {α β : Type} (cmp : β → β → Ordering) [Std.TransCmp cmp] (f : α → β) :
    Std.TransCmp fun a b => cmp (f a) (f b) where
  eq_swap := Std.OrientedCmp.eq_swap
  isLE_trans := Std.TransCmp.isLE_trans

instance : Std.TransCmp (compareVersions (S := S)) := by
  have := transCmp_on S.cmpPrecedence fun a : PackageId S => a.version.parsed
  have := transCmp_on (compare : String → String → Ordering) fun a : PackageId S => a.version.text
  exact inferInstanceAs (Std.TransCmp (compareLex (fun a b : PackageId S => S.cmpPrecedence a.version.parsed
    b.version.parsed) fun a b => compare a.version.text b.version.text))

instance : Std.TransCmp (preference (S := S)) := by
  have := transCmp_on (compare : Bool → Bool → Ordering) (isStable (S := S))
  exact inferInstanceAs (Std.TransCmp (compareLex (fun a b : PackageId S => compare (isStable a) (isStable b))
    compareVersions))

variable {a b : PackageId S}

theorem text_of_compareVersions (h : compareVersions a b = .eq) : a.version.text = b.version.text := by
  rw [compareVersions, Ordering.then_eq_eq] at h
  exact Std.LawfulEqOrd.eq_of_compare h.2

/-- Versions of one package that compare equal are one. -/
theorem eq_of_compareVersions (hnamespace : a.namespace = b.namespace) (hname : a.name = b.name)
    (h : compareVersions a b = .eq) : a = b :=
  PackageId.ext hnamespace hname (PackageVersion.eq_of_text (text_of_compareVersions h))

variable {package : RegistryPackageName} {group : Constraints S}
  {candidates : List (PackageId S)} {candidate : PackageId S}

theorem matchesAll_iff : matchesAll package group candidate = true ↔
    toLex (candidate.namespace, candidate.name) = package ∧
      ∀ constraint ∈ group, S.admits constraint.requirement candidate.version.parsed = true := by
  have hpair : candidate.namespace = (ofLex package).1 ∧ candidate.name = (ofLex package).2 ↔
      toLex (candidate.namespace, candidate.name) = package := Prod.mk_inj.symm
  rw [matchesAll, Bool.and_eq_true, Bool.and_eq_true, beq_iff_eq, beq_iff_eq, all_eq_true, hpair]

/-- Everything else that satisfies the group is less preferred. -/
structure Best (candidates : List (PackageId S)) (package : RegistryPackageName)
    (group : Constraints S) (candidate : PackageId S) : Prop where
  mem : candidate ∈ candidates
  satisfies : matchesAll package group candidate = true
  greatest : ∀ other ∈ candidates, matchesAll package group other = true → other ≠ candidate →
    preference other candidate = .lt

/-- No two versions of a package are both the best. -/
theorem Best.unique (ha : Best candidates package group a) (hb : Best candidates package group b) : a = b := by
  by_contra hne
  have hab := hb.greatest a ha.mem ha.satisfies hne
  have hba := ha.greatest b hb.mem hb.satisfies (Ne.symm hne)
  rw [Std.OrientedCmp.gt_iff_lt.mpr hab] at hba
  cases hba

theorem lt_of_isLE (ha : matchesAll package group a = true)
    (hb : matchesAll package group b = true) (hne : a ≠ b) (h : (compareVersions a b).isLE) :
    compareVersions a b = .lt := by
  rcases Ordering.isLE_iff_eq_lt_or_eq_eq.mp h with hlt | heq
  · exact hlt
  · have hnames := (matchesAll_iff.mp ha).1.trans (matchesAll_iff.mp hb).1.symm
    obtain ⟨hnamespace, hname⟩ := Prod.mk_inj.mp (toLex_inj.mp hnames)
    exact absurd (eq_of_compareVersions hnamespace hname heq) hne

theorem best_of_stable
    (h : maxBy compareVersions ((candidates.filter (matchesAll package group)).filter isStable) = some candidate) :
    Best candidates package group candidate := by
  obtain ⟨hmem, hle⟩ := maxBy_eq_some h
  obtain ⟨hmatch, hstable⟩ := mem_filter.mp hmem
  obtain ⟨hmem, hmatch⟩ := mem_filter.mp hmatch
  refine ⟨hmem, hmatch, fun other hother hsat hne => ?_⟩
  rw [preference, hstable]
  cases hpre : isStable other with
  | false => rfl
  | true =>
    have := hle other (mem_filter.mpr ⟨mem_filter.mpr ⟨hother, hsat⟩, hpre⟩)
    exact lt_of_isLE hsat hmatch hne this

theorem best_of_prerelease (hnone : (candidates.filter (matchesAll package group)).filter isStable = [])
    (h : maxBy compareVersions (candidates.filter (matchesAll package group)) = some candidate) :
    Best candidates package group candidate := by
  obtain ⟨hmem, hle⟩ := maxBy_eq_some h
  have hunstable : ∀ x ∈ candidates.filter (matchesAll package group), isStable x = false := fun x hx =>
    Bool.eq_false_iff.mpr (filter_eq_nil_iff.mp hnone x hx)
  obtain ⟨hin, hmatch⟩ := mem_filter.mp hmem
  refine ⟨hin, hmatch, fun other hother hsat hne => ?_⟩
  have hmem' := mem_filter.mpr ⟨hother, hsat⟩
  rw [preference, hunstable _ hmem, hunstable _ hmem']
  exact lt_of_isLE hsat hmatch hne (hle other hmem')

theorem select_eq_none : select candidates package group = none ↔
    ∀ candidate ∈ candidates, ¬ matchesAll package group candidate = true := by
  rw [select, Option.or_eq_none_iff, maxBy_eq_none, maxBy_eq_none, filter_eq_nil_iff (p := matchesAll _ _)]
  refine ⟨And.right, fun h => ⟨?_, h⟩⟩
  rw [filter_eq_nil_iff.mpr h, filter_nil]

/-- A version is selected exactly when it is the best of the group. -/
theorem select_eq_some :
    select candidates package group = some candidate ↔ Best candidates package group candidate := by
  have hsound : ∀ chosen, select candidates package group = some chosen → Best candidates package group chosen := by
    intro chosen h
    rw [select, Option.or_eq_some_iff] at h
    rcases h with h | ⟨hnone, h⟩
    · exact best_of_stable h
    · exact best_of_prerelease (maxBy_eq_none.mp hnone) h
  refine ⟨hsound candidate, fun hbest => ?_⟩
  cases h : select candidates package group with
  | none => exact absurd hbest.satisfies (select_eq_none.mp h candidate hbest.mem)
  | some chosen => rw [(hsound chosen h).unique hbest]

/-! ### Groups -/

variable {constraints : Constraints S}

/-- The constraints on one package. -/
def onPackage (constraints : Constraints S) (package : RegistryPackageName) :
    Constraints S :=
  constraints.filter fun constraint => decide (constraint.package = package)

theorem grouped_concat (last : RegistryVersionConstraint S) :
    grouped (constraints ++ [last]) = insert (grouped constraints) last.package
      (((find (grouped constraints) last.package).map Prod.snd).getD [] ++ [last]) := by
  rw [grouped, foldl_append]
  rfl

theorem mem_keys_grouped : package ∈ (grouped constraints).map Prod.fst ↔
    ∃ constraint ∈ constraints, constraint.package = package := by
  induction constraints using List.reverseRecOn with
  | nil => simp [grouped]
  | append_singleton rest last ih =>
    rw [grouped_concat, mem_keys_insert, ih]
    simp only [mem_append, mem_singleton, or_and_right, exists_or, exists_eq_left]
    rw [or_comm, eq_comm (a := package)]

theorem group_eq {entry : RegistryPackageName × Constraints S} (h : entry ∈ grouped constraints) :
    entry.2 = onPackage constraints entry.1 := by
  induction constraints using List.reverseRecOn generalizing entry with
  | nil => simp [grouped] at h
  | append_singleton rest last ih =>
    rw [grouped_concat] at h
    rw [onPackage, filter_append]
    rcases mem_insert h with rfl | ⟨h, hne⟩
    · have hprior : ((find (grouped rest) last.package).map Prod.snd).getD [] =
          onPackage rest last.package := by
        cases hfind : find (grouped rest) last.package with
        | none =>
          rw [Option.map_none, Option.getD_none, eq_comm, onPackage, filter_eq_nil_iff]
          intro constraint hmem hpackage
          obtain ⟨entry, hentry, hkey⟩ := mem_map.mp
            (mem_keys_grouped.mpr ⟨constraint, hmem, of_decide_eq_true hpackage⟩)
          exact find_eq_none_iff.mp hfind entry hentry hkey
        | some entry =>
          rw [Option.map_some, Option.getD_some, ih (mem_of_find hfind),
            key_of_find hfind]
      rw [filter_cons_of_pos (by simp), filter_nil, hprior]
      rfl
    · rw [filter_cons_of_neg (by simpa using Ne.symm hne), filter_nil, append_nil]
      exact ih h

theorem pairwise_keys_grouped : ((grouped constraints).map Prod.fst).Pairwise (· < ·) := by
  induction constraints using List.reverseRecOn with
  | nil => simp [grouped]
  | append_singleton rest last ih =>
    rw [grouped_concat]
    exact pairwise_keys_insert ih

theorem grouped_eq_map : grouped constraints = ((grouped constraints).map Prod.fst).map fun package =>
    (package, onPackage constraints package) := by
  rw [map_map]
  conv_lhs => rw [← map_id (grouped constraints)]
  exact map_congr_left fun entry hentry => Prod.ext rfl (group_eq hentry)

/-! ### The whole result -/

variable {groups : List (RegistryPackageName × Constraints S)}
  {chosen : Selection S}

theorem find_solveGroups
    {selected : Selection S} (hkeys : (groups.map Prod.fst).Pairwise (· < ·))
    (h : solveGroups candidates groups chosen = .ok selected) :
    (∀ group ∈ groups, ∃ candidate, find selected group.1 = some (group.1, candidate) ∧
      Best candidates group.1 group.2 candidate) ∧
    ∀ other, other ∉ groups.map Prod.fst → find selected other = find chosen other := by
  induction groups generalizing chosen with
  | nil =>
    cases h
    exact ⟨fun _ hmem => absurd hmem not_mem_nil, fun _ _ => rfl⟩
  | cons first rest ih =>
    rw [solveGroups] at h
    rw [map_cons, pairwise_cons] at hkeys
    split at h
    next candidate hselect =>
      obtain ⟨hrest, hother⟩ := ih hkeys.2 h
      refine ⟨fun group hgroup => ?_, fun other hnot => ?_⟩
      · rcases mem_cons.mp hgroup with rfl | hgroup
        · refine ⟨candidate, ?_, select_eq_some.mp hselect⟩
          rw [hother _ fun hmem => (hkeys.1 _ hmem).false, find_insert_self]
        · exact hrest group hgroup
      · rw [map_cons, mem_cons, not_or] at hnot
        rw [hother other hnot.2, find_insert_of_ne hnot.1]
    next => cases h

theorem solveGroups_eq_error : (∃ text, solveGroups candidates groups chosen = .error text) ↔
      ∃ group ∈ groups, select candidates group.1 group.2 = none := by
  induction groups generalizing chosen with
  | nil => simp [solveGroups]
  | cons first rest ih =>
    rw [solveGroups, exists_mem_cons_iff]
    cases hselect : select candidates first.1 first.2 with
    | none => simp
    | some candidate => simp [ih]

/-- The groups' texts are sorted and each stands once, so they say only which texts there are. -/
theorem pairwise_dedup {texts : List String} (h : texts.Pairwise (· ≤ ·)) :
    (dedup texts).Pairwise (· < ·) ∧ ∀ text, text ∈ dedup texts ↔ text ∈ texts := by
  fun_induction dedup texts with
  | case1 a rest ih =>
    obtain ⟨hsorted, hmem⟩ := ih (pairwise_cons.mp h).2
    exact ⟨hsorted, fun text => by rw [hmem]; simp⟩
  | case2 a b rest hne ih =>
    obtain ⟨hfirst, hrest⟩ := pairwise_cons.mp h
    obtain ⟨hsorted, hmem⟩ := ih hrest
    refine ⟨pairwise_cons.mpr ⟨fun text htext => ?_, hsorted⟩, fun text => by simp [hmem]⟩
    -- every later text is at least the second, which is above the first
    have hab : a < b := lt_of_le_of_ne (hfirst b (mem_cons_self ..)) hne
    rcases mem_cons.mp ((hmem text).mp htext) with rfl | hlater
    · exact hab
    · exact hab.trans_le ((pairwise_cons.mp hrest).1 text hlater)
  | case3 short hshort =>
    match short, hshort with
    | [], _ => simp
    | [a], _ => simp
    | a :: b :: rest, hshort => exact absurd rfl (hshort a b rest)

theorem dedup_sort_congr {a b : List String} (h : ∀ text, text ∈ a ↔ text ∈ b) :
    dedup (a.mergeSort (· ≤ ·)) = dedup (b.mergeSort (· ≤ ·)) := by
  obtain ⟨ha, hmema⟩ := pairwise_dedup (pairwise_mergeSort' (· ≤ ·) a)
  obtain ⟨hb, hmemb⟩ := pairwise_dedup (pairwise_mergeSort' (· ≤ ·) b)
  refine ha.eq_of_mem_iff hb fun text => ?_
  rw [hmema, hmemb, mem_mergeSort, mem_mergeSort]
  exact h text

variable {others : Constraints S}

theorem failure_congr
    (h : ∀ constraint, constraint ∈ group ↔ constraint ∈ others) : failure package group = failure package others := by
  have hdetails : ∀ text, text ∈ group.map (·.detail) ↔ text ∈ others.map (·.detail) := fun text => by
    simp only [mem_map, h]
  unfold failure
  rw [dedup_sort_congr hdetails]

theorem matchesAll_congr (h : ∀ constraint, constraint ∈ group ↔ constraint ∈ others) :
    matchesAll package group candidate = matchesAll package others candidate := by
  rw [Bool.eq_iff_iff, matchesAll_iff, matchesAll_iff]
  simp only [h]

variable {candidates' : List (PackageId S)}

theorem select_congr (h : ∀ constraint, constraint ∈ group ↔ constraint ∈ others)
    (hcandidates : ∀ candidate, candidate ∈ candidates ↔ candidate ∈ candidates') :
    select candidates package group = select candidates' package others := by
  refine Option.ext fun candidate => ?_
  rw [select_eq_some, select_eq_some]
  constructor
  · rintro ⟨hmem, hsat, hgreatest⟩
    refine ⟨(hcandidates _).mp hmem, matchesAll_congr h ▸ hsat, fun other hother hsat => ?_⟩
    exact hgreatest other ((hcandidates _).mpr hother) (matchesAll_congr h ▸ hsat)
  · rintro ⟨hmem, hsat, hgreatest⟩
    refine ⟨(hcandidates _).mpr hmem, matchesAll_congr h ▸ hsat, fun other hother hsat => ?_⟩
    exact hgreatest other ((hcandidates _).mp hother) (matchesAll_congr h ▸ hsat)

theorem solveGroups_congr {constraints' : Constraints S}
    (hconstraints : ∀ constraint, constraint ∈ constraints ↔ constraint ∈ constraints')
    (hcandidates : ∀ candidate, candidate ∈ candidates ↔ candidate ∈ candidates')
    (keys : List RegistryPackageName) (chosen : Selection S) :
    solveGroups candidates (keys.map fun key => (key, onPackage constraints key)) chosen =
      solveGroups candidates' (keys.map fun key => (key, onPackage constraints' key)) chosen := by
  induction keys generalizing chosen with
  | nil => rfl
  | cons key keys ih =>
    have hgroup : ∀ constraint, constraint ∈ onPackage constraints key ↔ constraint ∈ onPackage constraints' key :=
      fun constraint => by rw [onPackage, onPackage, mem_filter, mem_filter, hconstraints]
    rw [map_cons, map_cons, solveGroups, solveGroups, select_congr hgroup hcandidates,
      failure_congr hgroup]
    split
    · exact ih _
    · rfl

theorem solveRegistryVersions_congr {constraints' : Constraints S}
    (hconstraints : ∀ constraint, constraint ∈ constraints ↔ constraint ∈ constraints')
    (hcandidates : ∀ candidate, candidate ∈ candidates ↔ candidate ∈ candidates') :
    solveRegistryVersions constraints candidates = solveRegistryVersions constraints' candidates' := by
  have hkeys : (grouped constraints).map Prod.fst = (grouped constraints').map Prod.fst :=
    pairwise_keys_grouped.eq_of_mem_iff pairwise_keys_grouped fun package => by
      simp only [mem_keys_grouped, hconstraints]
  have hgroups : grouped constraints' = ((grouped constraints').map Prod.fst).map fun package =>
      (package, onPackage constraints' package) := grouped_eq_map
  rw [solveRegistryVersions, solveRegistryVersions, grouped_eq_map, hgroups, hkeys]
  exact solveGroups_congr hconstraints hcandidates _ _

/-! ### What is chosen -/

def Satisfies (constraints : Constraints S) (package : RegistryPackageName)
    (candidate : PackageId S) : Prop :=
  toLex (candidate.namespace, candidate.name) = package ∧
    ∀ constraint ∈ constraints, constraint.package = package →
      S.admits constraint.requirement candidate.version.parsed = true

/-- Of the candidates that satisfy every constraint on the package, the most preferred. -/
structure Greatest (constraints : Constraints S) (candidates : List (PackageId S))
    (package : RegistryPackageName) (candidate : PackageId S) : Prop where
  mem : candidate ∈ candidates
  satisfies : Satisfies constraints package candidate
  greatest : ∀ other ∈ candidates, Satisfies constraints package other → other ≠ candidate →
    preference other candidate = .lt

theorem matchesAll_onPackage :
    matchesAll package (onPackage constraints package) candidate = true ↔ Satisfies constraints package candidate := by
  simp only [matchesAll_iff, Satisfies, onPackage, mem_filter, decide_eq_true_eq, and_imp]

theorem best_onPackage :
    Best candidates package (onPackage constraints package) candidate ↔
      Greatest constraints candidates package candidate := by
  constructor
  · rintro ⟨hmem, hsat, hgreatest⟩
    simp only [matchesAll_onPackage] at hsat hgreatest
    exact ⟨hmem, hsat, hgreatest⟩
  · rintro ⟨hmem, hsat, hgreatest⟩
    simp only [← matchesAll_onPackage] at hsat hgreatest
    exact ⟨hmem, hsat, hgreatest⟩

/-- **The maximum, or none.** Each required package gets the one most preferred candidate that
satisfies every constraint on it, no other package gets any, solving fails exactly when a required
package has no such candidate, and the whole result is the same for other lists of the same
constraints and candidates. -/
theorem solveRegistryVersions_greatest (constraints : List (RegistryVersionConstraint S))
    (candidates : List (PackageId S)) :
    (∀ selected, solveRegistryVersions constraints candidates = .ok selected → ∀ package,
      ((∃ constraint ∈ constraints, constraint.package = package) →
        ∃ candidate, Lib.Association.find selected package = some (package, candidate) ∧
          Greatest constraints candidates package candidate ∧
          ∀ other, Greatest constraints candidates package other → other = candidate) ∧
      ((¬ ∃ constraint ∈ constraints, constraint.package = package) →
        Lib.Association.find selected package = none)) ∧
    ((∃ text, solveRegistryVersions constraints candidates = .error text) ↔
      ∃ constraint ∈ constraints, ∀ candidate ∈ candidates, ¬ Satisfies constraints constraint.package candidate) ∧
    ∀ constraints' candidates', (∀ constraint, constraint ∈ constraints ↔ constraint ∈ constraints') →
      (∀ candidate, candidate ∈ candidates ↔ candidate ∈ candidates') →
      solveRegistryVersions constraints candidates = solveRegistryVersions constraints' candidates' := by
  refine ⟨fun selected h package => ?_, ?_, fun _ _ => solveRegistryVersions_congr⟩
  · obtain ⟨hrequired, hother⟩ := find_solveGroups pairwise_keys_grouped h
    refine ⟨fun hpackage => ?_, fun hpackage => hother package (mem_keys_grouped.not.mpr hpackage)⟩
    obtain ⟨group, hgroup, rfl⟩ := mem_map.mp (mem_keys_grouped.mpr hpackage)
    obtain ⟨candidate, hfind, hbest⟩ := hrequired group hgroup
    rw [group_eq hgroup] at hbest
    exact ⟨candidate, hfind, best_onPackage.mp hbest, fun other h => (best_onPackage.mpr h).unique hbest⟩
  · rw [solveRegistryVersions, solveGroups_eq_error]
    constructor
    · rintro ⟨group, hgroup, hnone⟩
      obtain ⟨constraint, hmem, hpackage⟩ := mem_keys_grouped.mp (mem_map_of_mem hgroup)
      rw [group_eq hgroup, select_eq_none] at hnone
      refine ⟨constraint, hmem, fun candidate hcandidate hsat => hnone candidate hcandidate ?_⟩
      rwa [matchesAll_onPackage, ← hpackage]
    · rintro ⟨constraint, hmem, hnone⟩
      obtain ⟨group, hgroup, hpackage⟩ := mem_map.mp (mem_keys_grouped.mpr ⟨constraint, hmem, rfl⟩)
      refine ⟨group, hgroup, ?_⟩
      rw [group_eq hgroup, select_eq_none, hpackage]
      exact fun candidate hcandidate hmatch => hnone candidate hcandidate (matchesAll_onPackage.mp hmatch)

def releaseTexts : List String := ["1.0.0", "1.2.0", "2.0.0-alpha"]

/-- These releases in the order of precedence, and which of them the requirements `^1.0.0`, `<1.2.0` and
`>=2.0.0-alpha` admit. -/
def releases : Semver where
  Version := Fin 3
  Requirement := Fin 3
  parse text := releaseTexts.finIdxOf? text
  cmpPrecedence := compare
  preIsEmpty := ![true, true, false]
  admits requirement version :=
    ![![true, true, false], ![true, false, false], ![false, false, true]] requirement version
  display := !["^1.0.0", "<1.2.0", ">=2.0.0-alpha"]
  cmpPrecedence_trans := inferInstance

def release (name : String) (version : Fin 3) : PackageId releases :=
  ⟨"nia", name, version, releaseTexts.get version, by fin_cases version <;> rfl⟩

def json : RegistryPackageName := toLex ("nia", "json")

def requires (name : String) (requirement : Fin 3) : RegistryVersionConstraint releases :=
  ⟨toLex ("nia", name), requirement, release "app" (Fin.last 2), []⟩

/-- The greater of two releases is chosen, and a prerelease where there is nothing else. -/
theorem solveRegistryVersions_greatest_releases :
    let constraints := [requires "json" 0, requires "http" 2]
    let candidates := [release "json" 1, release "http" 2, release "json" 0]
    solveRegistryVersions constraints candidates =
        .ok [(toLex ("nia", "http"), release "http" 2), (json, release "json" 1)] ∧
      Greatest constraints candidates json (release "json" 1) := by
  intro constraints candidates
  have hsolve : solveRegistryVersions constraints candidates =
      .ok [(toLex ("nia", "http"), release "http" 2), (json, release "json" 1)] := rfl
  obtain ⟨candidate, hfind, hgreatest, -⟩ :=
    ((solveRegistryVersions_greatest constraints candidates).1 _ hsolve json).1 ⟨_, mem_cons_self, rfl⟩
  obtain rfl : candidate = release "json" 1 := (Prod.mk.inj (Option.some.inj hfind.symm)).2
  exact ⟨hsolve, hgreatest⟩

/-! ### More constraints -/

variable {more : Constraints S} {selected narrowed : Selection S}

theorem find_solveRegistryVersions (h : solveRegistryVersions constraints candidates = .ok selected)
    {constraint : RegistryVersionConstraint S} (hmem : constraint ∈ constraints) :
    ∃ candidate, find selected constraint.package = some (constraint.package, candidate) ∧
      Greatest constraints candidates constraint.package candidate := by
  obtain ⟨group, hgroup, hpackage⟩ := mem_map.mp (mem_keys_grouped.mpr ⟨constraint, hmem, rfl⟩)
  obtain ⟨candidate, hfind, hbest⟩ := (find_solveGroups pairwise_keys_grouped h).1 group hgroup
  rw [group_eq hgroup, best_onPackage] at hbest
  exact ⟨candidate, hpackage ▸ hfind, hpackage ▸ hbest⟩

theorem satisfies_append : Satisfies (constraints ++ more) package candidate ↔
    Satisfies constraints package candidate ∧ Satisfies more package candidate := by
  simp only [Satisfies, forall_mem_append]
  tauto

/-- **Never up, and only when it must.** Constraints that can be met together with more can be met
alone, and of a package they require the further ones change the choice exactly when they refuse it,
to one less preferred. -/
theorem solveRegistryVersions_more (h : solveRegistryVersions (constraints ++ more) candidates = .ok narrowed) :
    ∃ selected, solveRegistryVersions constraints candidates = .ok selected ∧
      ∀ constraint ∈ constraints, ∃ before after,
        Lib.Association.find selected constraint.package = some (constraint.package, before) ∧
        Lib.Association.find narrowed constraint.package = some (constraint.package, after) ∧
        (Satisfies more constraint.package before → after = before) ∧
        (¬ Satisfies more constraint.package before → preference after before = .lt) := by
  cases hsolve : solveRegistryVersions constraints candidates with
  | error text =>
    obtain ⟨group, hgroup, hnone⟩ := solveGroups_eq_error.mp ⟨text, hsolve⟩
    obtain ⟨constraint, hmem, hpackage⟩ := mem_keys_grouped.mp (mem_map_of_mem hgroup)
    obtain ⟨after, _, hafter⟩ := find_solveRegistryVersions h (mem_append_left _ hmem)
    rw [group_eq hgroup, select_eq_none, ← hpackage] at hnone
    exact absurd (matchesAll_onPackage.mpr (satisfies_append.mp hafter.satisfies).1) (hnone after hafter.mem)
  | ok selected =>
    refine ⟨selected, rfl, fun constraint hmem => ?_⟩
    obtain ⟨before, hbefore, hgreatest⟩ := find_solveRegistryVersions hsolve hmem
    obtain ⟨after, hfind, hafter⟩ := find_solveRegistryVersions h (mem_append_left _ hmem)
    obtain ⟨hold, hmore⟩ := satisfies_append.mp hafter.satisfies
    refine ⟨before, after, hbefore, hfind, fun hsat => ?_, fun hsat => ?_⟩
    · have hkept : Greatest (constraints ++ more) candidates constraint.package before :=
        ⟨hgreatest.mem, satisfies_append.mpr ⟨hgreatest.satisfies, hsat⟩, fun other hother hboth =>
          hgreatest.greatest other hother (satisfies_append.mp hboth).1⟩
      exact (best_onPackage.mpr hafter).unique (best_onPackage.mpr hkept)
    · exact hgreatest.greatest after hafter.mem hold fun heq => hsat (heq ▸ hmore)

theorem solveRegistryVersions_more_lower :
    ∃ selected, solveRegistryVersions [requires "json" 0] [release "json" 0, release "json" 1] = .ok selected ∧
      ∃ before after,
      Lib.Association.find selected json = some (json, before) ∧
      Lib.Association.find [(json, release "json" 0)] json = some (json, after) ∧
      (Satisfies [requires "json" 1] json before → after = before) ∧
      (¬ Satisfies [requires "json" 1] json before → preference after before = .lt) := by
  have hlower :
      solveRegistryVersions ([requires "json" 0] ++ [requires "json" 1]) [release "json" 0, release "json" 1] =
      .ok [(json, release "json" 0)] := rfl
  obtain ⟨selected, hsolve, hall⟩ := solveRegistryVersions_more hlower
  exact ⟨selected, hsolve, hall (requires "json" 0) (mem_singleton_self _)⟩

end Nia.PackageMetadata
