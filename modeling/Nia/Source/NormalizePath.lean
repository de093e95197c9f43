import Nia.Lib.Slices
import Nia.Lib.Split

/-! Lexical normalization of source paths.

`normalizePath` resolves the components of a path text against a stack. What a text names is said
by `locate`, from any base directory, where a drive is one ASCII letter and a colon. The code takes
any first byte before a colon for a drive, and the whole first component with it, so the two part
on some texts; `keeps_iff_faithful` says exactly on which.

Everything goes through `reduce`: how far the components climb, and the names below that. Both the
stack of the code (`parts_eq`) and the location (`resolve_eq`) are functions of it. Texts are their
bytes. -/
namespace Nia.Source

open Lib.Split List

/-! ### Components -/

def dot : Bytes := [46]

def dotDot : Bytes := [46, 46]

/-- One turn of the loop over components. -/
def pushPart (absolute : Bool) (parts : List Bytes) (part : Bytes) : List Bytes :=
  if part = [] ∨ part = dot then parts
  else if part = dotDot then
    if parts.getLast?.any (· ≠ dotDot) then parts.dropLast
    else if absolute then parts
    else parts ++ [part]
  else parts ++ [part]

/-- The text with slashes only and without the extended-length mark `//?/`. -/
def plain (path : Bytes) : Bytes :=
  let path := path.map fun byte => if byte = 92 then 47 else byte
  if [47, 47, 63, 47].isPrefixOf path then path.drop 4 else path

/-- The rest of `normalize_path`, after its first two lines. -/
def normalizePlain (path : Bytes) : Bytes :=
  let drive := path[1]? == some 58
  let absolute := path.head? == some 47 || drive
  let front := if drive then (split 47 path).headD [] else []
  let rest := if drive then (split 47 path).tail else split 47 path
  let parts := rest.foldl (pushPart absolute) []
  let normalized :=
    if drive = true ∧ front ≠ [] then
      if parts = [] then front else front ++ 47 :: join 47 parts
    else join 47 parts
  if absolute = true ∧ drive = false then 47 :: normalized else normalized

def normalizePath (path : Bytes) : Bytes := normalizePlain (plain path)

/-! ### Locations -/

def isLetter (byte : UInt8) : Bool := (65 ≤ byte && byte ≤ 90) || (97 ≤ byte && byte ≤ 122)

def hasDrive : Bytes → Bool
  | letter :: 58 :: _ => isLetter letter
  | _ => false

/-- A directory or file: the drive, if any, and the names below its root. -/
structure Location where
  drive : Option UInt8
  names : List Bytes

def descend (names : List Bytes) (part : Bytes) : List Bytes :=
  if part = [] ∨ part = dot then names
  else if part = dotDot then names.dropLast
  else names ++ [part]

def resolve (names : List Bytes) (parts : List Bytes) : List Bytes := parts.foldl descend names

/-- What a text with slashes names, from a base directory. -/
def locate (base : Location) (path : Bytes) : Location :=
  if hasDrive path then ⟨path.head?, resolve [] (split 47 (path.drop 2))⟩
  else if path.head? = some 47 then ⟨none, resolve [] (split 47 path)⟩
  else ⟨base.drive, resolve base.names (split 47 path)⟩

def IsAbsolute (path : Bytes) : Prop := path.head? = some 47 ∨ hasDrive path = true

/-- The components of a text below its drive and its root. -/
def namesOf (path : Bytes) : List Bytes :=
  let body := if hasDrive path then path.drop 2 else path
  let below := if body.head? = some 47 then body.tail else body
  if below = [] then [] else split 47 below

/-- No empty component and no `.`, and `..` only in front of a relative path. -/
def Clean (path : Bytes) : Prop :=
  (∀ part ∈ namesOf path, part ≠ [] ∧ part ≠ dot) ∧
    ∃ climbs names, namesOf path = List.replicate climbs dotDot ++ names ∧ dotDot ∉ names ∧
      (IsAbsolute path → climbs = 0)

/-- What normalization is to keep. -/
structure KeepsLocation (path : Bytes) : Prop where
  fixed : normalizePath (normalizePath path) = normalizePath path
  clean : Clean (normalizePath path)
  absolute : IsAbsolute (normalizePath path) ↔ IsAbsolute (plain path)
  located : ∀ base, locate base (normalizePath path) = locate base (plain path)

/-! ### Reducing components -/

/-- One component: how far the ones so far climb, and the names below. -/
def reduceStep (reduced : Nat × List Bytes) (part : Bytes) : Nat × List Bytes :=
  if part = [] ∨ part = dot then reduced
  else if part = dotDot then
    if reduced.2 = [] then (reduced.1 + 1, []) else (reduced.1, reduced.2.dropLast)
  else (reduced.1, reduced.2 ++ [part])

def reduce (parts : List Bytes) : Nat × List Bytes := parts.foldl reduceStep (0, [])

/-- A component that is a name, as splitting at slashes gives it. -/
structure IsName (part : Bytes) : Prop where
  ne_nil : part ≠ []
  ne_dot : part ≠ dot
  ne_dotDot : part ≠ dotDot
  no_slash : 47 ∉ part

theorem reduce_concat (parts : List Bytes) (part : Bytes) :
    reduce (parts ++ [part]) = reduceStep (reduce parts) part := by
  rw [reduce, foldl_append]
  rfl

variable {parts : List Bytes}

theorem isName_reduce (hslash : ∀ part ∈ parts, 47 ∉ part) : ∀ name ∈ (reduce parts).2, IsName name := by
  induction parts using List.reverseRecOn with
  | nil => simp [reduce]
  | append_singleton parts part ih =>
    have hkept := ih fun other hother => hslash other (mem_append_left _ hother)
    rw [reduce_concat, reduceStep]
    intro name hname
    split at hname
    · exact hkept name hname
    · next hplain =>
      split at hname
      · split at hname
        · cases hname
        · exact hkept name (mem_of_mem_dropLast hname)
      · next hnames =>
        rcases mem_append.mp hname with hname | hname
        · exact hkept name hname
        · rw [mem_singleton.mp hname]
          obtain ⟨hnil, hdot⟩ := not_or.mp hplain
          exact ⟨hnil, hdot, hnames, hslash part (by simp)⟩

theorem dotDot_notMem_reduce (parts : List Bytes) : dotDot ∉ (reduce parts).2 := by
  induction parts using List.reverseRecOn with
  | nil => simp [reduce]
  | append_singleton parts part ih =>
    rw [reduce_concat, reduceStep]
    split
    · exact ih
    · split
      · split
        · simp
        · exact fun hmem => ih (mem_of_mem_dropLast hmem)
      · next hne =>
        rw [mem_append, mem_singleton, not_or]
        exact ⟨ih, Ne.symm hne⟩

/-- The climbing of a relative path stays on the stack, that of an absolute one is dropped. -/
def climbing (absolute : Bool) (climbs : Nat) : List Bytes :=
  if absolute then [] else List.replicate climbs dotDot

theorem parts_eq (absolute : Bool) (parts : List Bytes) :
    parts.foldl (pushPart absolute) [] = climbing absolute (reduce parts).1 ++ (reduce parts).2 := by
  induction parts using List.reverseRecOn with
  | nil => simp [reduce, climbing]
  | append_singleton parts part ih =>
    rw [foldl_append, ih, reduce_concat, foldl_cons, foldl_nil, pushPart, reduceStep]
    split
    · rfl
    · split
      · next hdotDot =>
        rcases eq_nil_or_concat (reduce parts).2 with hnone | ⟨front, last, hsome⟩
        · -- nothing to pop but climbing
          have hlast : (climbing absolute (reduce parts).1).getLast?.any (· ≠ dotDot) = false := by
            cases absolute with
            | true => rfl
            | false =>
              rw [climbing, if_neg Bool.false_ne_true, List.getLast?_replicate]
              split <;> simp
          rw [hnone, append_nil, hlast, if_neg Bool.false_ne_true, if_pos rfl, append_nil]
          cases absolute with
          | true => rfl
          | false => simp [climbing, hdotDot, replicate_succ']
        · have hlast : last ≠ dotDot := fun h => dotDot_notMem_reduce parts (by rw [hsome, h]; simp)
          have hpops : (some last).any (· ≠ dotDot) = true := by simpa using hlast
          rw [hsome, concat_eq_append, ← append_assoc, List.getLast?_concat, dropLast_concat,
            dropLast_concat, if_pos hpops, if_neg (show front ++ [last] ≠ [] by simp)]
      · rw [append_assoc]

theorem resolve_eq (base parts : List Bytes) :
    resolve base parts = base.take (base.length - (reduce parts).1) ++ (reduce parts).2 := by
  induction parts using List.reverseRecOn with
  | nil => simp [reduce, resolve]
  | append_singleton parts part ih =>
    have hstep : resolve base (parts ++ [part]) = descend (resolve base parts) part := by
      rw [resolve, foldl_append]
      rfl
    rw [hstep, ih, reduce_concat, descend, reduceStep]
    split
    · rfl
    · split
      · rcases eq_nil_or_concat (reduce parts).2 with hnone | ⟨front, last, hsome⟩
        · rw [hnone, if_pos rfl, append_nil, append_nil, dropLast_eq_take, take_take,
            length_take]
          congr 1
          omega
        · rw [hsome, concat_eq_append, ← append_assoc, dropLast_concat, dropLast_concat,
            if_neg (by simp)]
      · rw [append_assoc]

variable {names : List Bytes}

theorem foldl_reduceStep_names (hnames : ∀ name ∈ names, IsName name)
    (reduced : Nat × List Bytes) : names.foldl reduceStep reduced = (reduced.1, reduced.2 ++ names) := by
  induction names generalizing reduced with
  | nil => simp
  | cons name names ih =>
    obtain ⟨hname, hnames⟩ := forall_mem_cons.mp hnames
    rw [foldl_cons, ih hnames, reduceStep, if_neg (not_or.mpr ⟨hname.ne_nil, hname.ne_dot⟩),
      if_neg hname.ne_dotDot, append_assoc]
    rfl

theorem foldl_reduceStep_climbs (climbs more : Nat) :
    (List.replicate climbs dotDot).foldl reduceStep (more, []) = (more + climbs, []) := by
  induction climbs generalizing more with
  | zero => rfl
  | succ climbs ih =>
    rw [replicate_succ, foldl_cons, show reduceStep (more, []) dotDot = (more + 1, []) from rfl, ih]
    congr 1
    omega

/-- Reduced components reduce to themselves. -/
theorem reduce_reduced (hnames : ∀ name ∈ names, IsName name) (climbs : Nat) :
    reduce (List.replicate climbs dotDot ++ names) = (climbs, names) := by
  rw [reduce, foldl_append, foldl_reduceStep_climbs, foldl_reduceStep_names hnames, Nat.zero_add]
  rfl

/-- So does their text. -/
theorem reduce_components_join (hnames : ∀ name ∈ names, IsName name) (climbs : Nat) :
    reduce (split 47 (join 47 (List.replicate climbs dotDot ++ names))) = (climbs, names) := by
  by_cases hne : List.replicate climbs dotDot ++ names = []
  · have hboth := append_eq_nil_iff.mp hne
    have hclimbs : climbs = 0 := by simpa using hboth.1
    rw [hne, hclimbs, hboth.2]
    rfl
  · rw [split_join hne, reduce_reduced hnames]
    intro part hpart
    rcases mem_append.mp hpart with hpart | hpart
    · rw [eq_of_mem_replicate hpart]
      decide
    · exact (hnames part hpart).no_slash

/-! ### Normal forms

One equation for each form of text the code tells apart. -/

/-- The names below the root, which climbing does not leave. -/
theorem absolute_parts (parts : List Bytes) : parts.foldl (pushPart true) [] = (reduce parts).2 := by
  rw [parts_eq]
  rfl

inductive Form : Bytes → Prop where
  | colon (first : UInt8) (rest : Bytes) : first ≠ 47 → Form (first :: 58 :: rest)
  | slashColon (rest : Bytes) : Form (47 :: 58 :: rest)
  | rooted (rest : Bytes) : rest.head? ≠ some 58 → Form (47 :: rest)
  | relative (path : Bytes) : path[1]? ≠ some 58 → path.head? ≠ some 47 → Form path

variable (path : Bytes)

theorem form : Form path := by
  by_cases hhead : path.head? = some 47
  · obtain ⟨rest, rfl⟩ := List.head?_eq_some_iff.mp hhead
    by_cases hrest : rest.head? = some 58
    · obtain ⟨rest, rfl⟩ := List.head?_eq_some_iff.mp hrest
      exact .slashColon rest
    · exact .rooted rest hrest
  · by_cases hdrive : path[1]? = some 58
    · match path with
      | first :: second :: rest =>
        obtain rfl : second = 58 := Option.some.inj hdrive
        exact .colon first rest fun h => hhead (by rw [h]; rfl)
    · exact .relative path hdrive hhead

variable {rest part : Bytes}

theorem normalizePlain_colon {first : UInt8} (hfirst : first ≠ 47) (hrest : split 47 rest = part :: parts) :
    normalizePlain (first :: 58 :: rest) = first :: 58 :: join 47 (part :: (reduce parts).2) := by
  have hcomponents : split 47 (first :: 58 :: rest) = (first :: 58 :: part) :: parts :=
    split_cons hfirst (split_cons (by decide) hrest)
  simp only [normalizePlain, hcomponents]
  simp only [List.getElem?_cons_succ, List.getElem?_cons_zero, beq_self_eq_true, Bool.or_true, if_true, headD_cons,
    tail_cons, absolute_parts]
  cases (reduce parts).2 <;> simp [join]

theorem normalizePlain_slashColon (rest : Bytes) :
    normalizePlain (47 :: 58 :: rest) = join 47 (reduce (split 47 (58 :: rest))).2 := by
  simp [normalizePlain, absolute_parts]

theorem normalizePlain_rooted (hrest : rest.head? ≠ some 58) :
    normalizePlain (47 :: rest) = 47 :: join 47 (reduce (split 47 rest)).2 := by
  have hdrive : (rest[0]? == some 58) = false := by
    rw [← List.head?_eq_getElem?]
    simpa using hrest
  have hskip : pushPart true [] [] = [] := rfl
  simp [normalizePlain, absolute_parts, hdrive, hskip]

theorem normalizePlain_relative {path : Bytes} (hdrive : path[1]? ≠ some 58) (hhead : path.head? ≠ some 47) :
    normalizePlain path =
      join 47 (List.replicate (reduce (split 47 path)).1 dotDot ++ (reduce (split 47 path)).2) := by
  have hd : (path[1]? == some 58) = false := by simpa using hdrive
  have hh : (path.head? == some 47) = false := by simpa using hhead
  simp only [normalizePlain, hd, hh, Bool.or_self, Bool.false_eq_true, false_and, if_false, parts_eq, climbing]

/-! ### A normalized text is plain -/

theorem mem_pushPart {absolute : Bool} {other : Bytes}
    (h : other ∈ pushPart absolute parts part) : other ∈ parts ∨ other = part := by
  rw [pushPart] at h
  split_ifs at h
  · exact .inl h
  · exact .inl (mem_of_mem_dropLast h)
  · exact .inl h
  · simpa using h
  · simpa using h

theorem mem_foldl_pushPart {absolute : Bool} (h : part ∈ parts.foldl (pushPart absolute) []) : part ∈ parts := by
  induction parts using List.reverseRecOn with
  | nil => exact h
  | append_singleton parts last ih =>
    rw [foldl_append] at h
    rcases mem_pushPart h with h | rfl
    · exact mem_append_left _ (ih h)
    · simp

theorem mem_normalizePlain {path : Bytes} {byte : UInt8} (h : byte ∈ normalizePlain path) :
    byte = 47 ∨ byte ∈ path := by
  obtain ⟨front, rest, hcomponents⟩ := exists_split 47 path
  have hfront : byte ∈ front → byte ∈ path := mem_of_mem_split (by rw [hcomponents]; simp)
  have hjoin : ∀ (absolute : Bool) (parts : List Bytes), (∀ part ∈ parts, part ∈ split 47 path) →
      byte ∈ join 47 (parts.foldl (pushPart absolute) []) → byte = 47 ∨ byte ∈ path := by
    intro absolute parts hparts hbyte
    rcases mem_join hbyte with hslash | ⟨part, hpart, hbyte⟩
    · exact .inl hslash
    · exact .inr (mem_of_mem_split (hparts part (mem_foldl_pushPart hpart)) hbyte)
  have hrest : ∀ part ∈ rest, part ∈ split 47 path := by
    intro part hpart
    rw [hcomponents]
    exact mem_cons_of_mem _ hpart
  rw [normalizePlain] at h
  simp only [hcomponents, headD_cons, tail_cons] at h hjoin hrest
  cases hdrive : path[1]? == some 58 with
  | true =>
    simp only [hdrive, Bool.or_true, if_true, true_and, Bool.true_eq_false, if_false, and_false] at h
    split_ifs at h
    · exact .inr (hfront h)
    · rcases mem_append.mp h with h | h
      · exact .inr (hfront h)
      · rcases mem_cons.mp h with rfl | h
        · exact .inl rfl
        · exact hjoin _ _ hrest h
    · exact hjoin _ _ hrest h
  | false =>
    simp only [hdrive, Bool.or_false, Bool.false_eq_true, if_false, false_and, and_true] at h
    split_ifs at h
    · rcases mem_cons.mp h with rfl | h
      · exact .inl rfl
      · exact hjoin _ _ (fun _ h => h) h
    · exact hjoin _ _ (fun _ h => h) h

theorem backslash_notMem_plain : 92 ∉ plain path := by
  have hmap : 92 ∉ path.map fun byte => if byte = 92 then 47 else byte := by
    intro hmem
    obtain ⟨byte, -, hbyte⟩ := mem_map.mp hmem
    split at hbyte
    · cases hbyte
    · contradiction
  unfold plain
  simp only
  split
  · exact fun hmem => hmap (mem_of_mem_drop hmem)
  · exact hmap

theorem plain_eq_self {path : Bytes} (hbackslash : 92 ∉ path) (hmark : ¬[47, 47] <+: path) :
    plain path = path := by
  have hmap : path.map (fun byte => if byte = 92 then 47 else byte) = path := by
    rw [map_congr_left fun byte hbyte => if_neg fun h : byte = 92 => hbackslash (h ▸ hbyte), map_id']
  have hfront : [47, 47, 63, 47].isPrefixOf path = false := by
    rw [← Bool.not_eq_true, isPrefixOf_iff_prefix]
    exact fun h => hmark ((prefix_append [47, 47] [63, 47]).trans h)
  unfold plain
  simp only [hmap, hfront, Bool.false_eq_true, if_false]

/-- The text of such components does not start with a slash. -/
theorem head_join (hparts : ∀ part ∈ parts, part ≠ [] ∧ 47 ∉ part) : (join 47 parts).head? ≠ some 47 := by
  cases parts with
  | nil => simp [join]
  | cons part parts =>
    obtain ⟨hne, hslash⟩ := hparts part (mem_cons_self ..)
    obtain ⟨byte, part, rfl⟩ := exists_cons_of_ne_nil hne
    rw [join_cons_cons, List.head?_cons]
    exact fun h => hslash (by rw [Option.some.inj h]; simp)

theorem IsName.segment (h : IsName part) : part ≠ [] ∧ 47 ∉ part := ⟨h.ne_nil, h.no_slash⟩

theorem segment_of_mem (climbs : Nat) (hnames : ∀ name ∈ names, IsName name) :
    ∀ part ∈ List.replicate climbs dotDot ++ names, part ≠ [] ∧ 47 ∉ part := by
  intro part hpart
  rcases mem_append.mp hpart with hpart | hpart
  · rw [eq_of_mem_replicate hpart]
    decide
  · exact (hnames part hpart).segment

theorem isName_components {path : Bytes} : ∀ name ∈ (reduce (split 47 path)).2, IsName name :=
  isName_reduce fun _ => separator_notMem_split

theorem not_slashes {path : Bytes} (h : path.head? ≠ some 47) : ¬[47, 47] <+: path := by
  rintro ⟨rest, rfl⟩
  exact h rfl

theorem plain_normalizePlain {path : Bytes} (hbackslash : 92 ∉ path) :
    plain (normalizePlain path) = normalizePlain path := by
  have hnone : 92 ∉ normalizePlain path := by
    intro h
    rcases mem_normalizePlain h with h | h
    · cases h
    · exact hbackslash h
  refine plain_eq_self hnone ?_
  cases form path with
  | colon first rest hfirst =>
    obtain ⟨part, parts, hrest⟩ := exists_split 47 rest
    rw [normalizePlain_colon hfirst hrest]
    exact not_slashes (by simpa using hfirst)
  | slashColon rest =>
    rw [normalizePlain_slashColon]
    exact not_slashes (head_join fun name hname => (isName_components name hname).segment)
  | rooted rest hrest =>
    rw [normalizePlain_rooted hrest, cons_prefix_cons, not_and]
    intro _ h
    have hhead := head_join fun name hname => (@isName_components rest name hname).segment
    obtain ⟨tail, htail⟩ := h
    exact hhead (by rw [← htail]; rfl)
  | relative _ hdrive hhead =>
    rw [normalizePlain_relative hdrive hhead]
    exact not_slashes (head_join (segment_of_mem _ isName_components))

/-! ### Which texts keep their location -/

/-- The texts whose form the code sees as it is. A first byte before a colon has to be a drive or the start of a name
that stays, and no name of another text may move to where it is taken for a drive. -/
def Faithful : Bytes → Prop
  | first :: 58 :: rest =>
    first ≠ 47 ∧
      (isLetter first = true ∧ (split 47 rest).headD [] = [] ∨
        (reduce (split 47 rest).tail).1 = 0 ∧
          (isLetter first = true → (split 47 rest).headD [] ≠ dot ∧ (split 47 rest).headD [] ≠ dotDot))
  | 47 :: rest => ((reduce (split 47 rest)).2.headD []).head? ≠ some 58
  | path => (reduce (split 47 path)).1 ≠ 0 ∨ hasDrive ((reduce (split 47 path)).2.headD []) = false

/-- What normalization keeps, of a text and its result. -/
structure Kept (path result : Bytes) : Prop where
  fixed : normalizePlain result = result
  clean : Clean result
  absolute : IsAbsolute result ↔ IsAbsolute path
  located : ∀ base, locate base result = locate base path

theorem keepsLocation_iff_kept : KeepsLocation path ↔ Kept (plain path) (normalizePlain (plain path)) := by
  have hplain : normalizePath (normalizePath path) = normalizePlain (normalizePlain (plain path)) := by
    rw [normalizePath, normalizePath, plain_normalizePlain (backslash_notMem_plain path)]
  constructor
  · intro h
    exact ⟨hplain ▸ h.fixed, h.clean, h.absolute, h.located⟩
  · intro h
    exact ⟨hplain ▸ h.fixed, h.clean, h.absolute, h.located⟩

theorem resolve_name (hpart : IsName part) (base parts : List Bytes) :
    resolve base (part :: parts) = resolve (base ++ [part]) parts := by
  rw [resolve, foldl_cons, descend, if_neg (not_or.mpr ⟨hpart.ne_nil, hpart.ne_dot⟩), if_neg hpart.ne_dotDot]
  rfl

theorem reduce_names (hnames : ∀ name ∈ names, IsName name) : reduce names = (0, names) :=
  reduce_reduced hnames 0

/-- A name keeps the location of what follows it as long as that does not climb. -/
theorem resolve_name_eq_iff (hpart : IsName part)
    (hparts : ∀ name ∈ (reduce parts).2, IsName name) (base : List Bytes) :
    resolve base (part :: (reduce parts).2) = resolve base (part :: parts) ↔ (reduce parts).1 = 0 := by
  rw [resolve_name hpart, resolve_name hpart, resolve_eq, resolve_eq, reduce_names hparts]
  constructor
  · intro h
    have hlength := congrArg List.length h
    simp only [length_append, length_take, length_singleton] at hlength
    omega
  · intro h
    rw [h]

section Colon

variable {first : UInt8} {rest part : Bytes} {parts : List Bytes}

theorem fixed_colon (hfirst : first ≠ 47) (hpart : 47 ∉ part) (hnames : ∀ name ∈ names, IsName name) :
    normalizePlain (first :: 58 :: join 47 (part :: names)) = first :: 58 :: join 47 (part :: names) := by
  have hslash : ∀ other ∈ part :: names, 47 ∉ other :=
    forall_mem_cons.mpr ⟨hpart, fun name hname => (hnames name hname).no_slash⟩
  rw [normalizePlain_colon hfirst (split_join (cons_ne_nil _ _) hslash), reduce_names hnames]

theorem absolute_colon (body : Bytes) :
    IsAbsolute (first :: 58 :: body) ↔ IsAbsolute (first :: 58 :: rest) := Iff.rfl

theorem locate_letter (hletter : isLetter first = true) (base : Location) (body : Bytes) :
    locate base (first :: 58 :: body) = ⟨some first, resolve [] (split 47 body)⟩ := by
  rw [locate, if_pos (show hasDrive (first :: 58 :: body) = true from hletter)]
  rfl

theorem locate_other (hfirst : first ≠ 47) (hletter : isLetter first = false) (base : Location)
    (body : Bytes) :
    locate base (first :: 58 :: body) = ⟨base.drive, resolve base.names (split 47 (first :: 58 :: body))⟩ := by
  rw [locate, if_neg (show ¬hasDrive (first :: 58 :: body) = true by simp [hasDrive, hletter]),
    if_neg (by simpa using hfirst)]

/-- The name that a byte and a colon start. -/
theorem isName_colon (hfirst : first ≠ 47) (hpart : 47 ∉ part) : IsName (first :: 58 :: part) where
  ne_nil := cons_ne_nil _ _
  ne_dot := by simp [dot]
  ne_dotDot := by simp [dotDot]
  no_slash := by simpa using ⟨Ne.symm hfirst, hpart⟩

theorem clean_of_names {path : Bytes} {climbs : Nat}
    (hpath : namesOf path = List.replicate climbs dotDot ++ names) (hnames : ∀ name ∈ names, IsName name)
    (habsolute : IsAbsolute path → climbs = 0) : Clean path := by
  refine ⟨?_, climbs, names, hpath, fun h => (hnames _ h).ne_dotDot rfl, habsolute⟩
  intro other hother
  rw [hpath] at hother
  rcases mem_append.mp hother with hother | hother
  · rw [eq_of_mem_replicate hother]
    decide
  · exact ⟨(hnames other hother).ne_nil, (hnames other hother).ne_dot⟩

theorem namesOf_text (hnames : ∀ name ∈ names, name ≠ [] ∧ 47 ∉ name) :
    (if join 47 names = [] then [] else split 47 (join 47 names)) = names := by
  have hnil : join 47 names = [] ↔ names = [] := join_eq_nil_iff fun name hname => (hnames name hname).1
  split
  · next h => exact (hnil.mp h).symm
  · next h => exact split_join (fun hempty => h (hnil.mpr hempty)) fun name hname => (hnames name hname).2

theorem slash_notMem_head (hrest : split 47 rest = part :: parts) : 47 ∉ part :=
  separator_notMem_split (by rw [hrest]; exact mem_cons_self ..)

theorem isName_tail (hrest : split 47 rest = part :: parts) : ∀ name ∈ (reduce parts).2, IsName name :=
  isName_reduce fun other hother => separator_notMem_split (by rw [hrest]; exact mem_cons_of_mem _ hother)

theorem components_text (hrest : split 47 rest = part :: parts) :
    split 47 (join 47 (part :: (reduce parts).2)) = part :: (reduce parts).2 :=
  split_join (cons_ne_nil _ _)
    (forall_mem_cons.mpr ⟨slash_notMem_head hrest, fun name hname => (isName_tail hrest name hname).no_slash⟩)

/-- A drive and its root. -/
theorem kept_root (hletter : isLetter first = true) (hfirst : first ≠ 47) (hrest : split 47 rest = [] :: parts) :
    Kept (first :: 58 :: rest) (first :: 58 :: join 47 ([] :: (reduce parts).2)) := by
  have hnames := isName_tail hrest
  refine ⟨fixed_colon hfirst (by simp) hnames, ?_, absolute_colon _, ?_⟩
  · have hbelow : namesOf (first :: 58 :: join 47 ([] :: (reduce parts).2)) = (reduce parts).2 := by
      rw [namesOf, if_pos (show hasDrive (first :: 58 :: join 47 ([] :: (reduce parts).2)) = true from hletter)]
      cases hcases : (reduce parts).2 with
      | nil => rfl
      | cons name names =>
        rw [hcases] at hnames
        exact namesOf_text fun name hname => (hnames name hname).segment
    exact clean_of_names (show _ = List.replicate 0 dotDot ++ _ from hbelow) hnames fun _ => rfl
  · intro base
    have hskip : ∀ parts, resolve [] ([] :: parts) = resolve [] parts := fun _ => rfl
    rw [locate_letter hletter, locate_letter hletter, hrest, components_text hrest, hskip, hskip, resolve_eq,
      resolve_eq, reduce_names hnames, take_nil, take_nil]

/-- A drive and a name, without a root between them. -/
theorem kept_driveName_iff (hletter : isLetter first = true) (hfirst : first ≠ 47)
    (hrest : split 47 rest = part :: parts) (hne : part ≠ []) :
    Kept (first :: 58 :: rest) (first :: 58 :: join 47 (part :: (reduce parts).2)) ↔
      (reduce parts).1 = 0 ∧ part ≠ dot ∧ part ≠ dotDot := by
  have hnames := isName_tail hrest
  have hslash := slash_notMem_head hrest
  have hbelow : namesOf (first :: 58 :: join 47 (part :: (reduce parts).2)) = part :: (reduce parts).2 := by
    have hsegments : ∀ name ∈ part :: (reduce parts).2, name ≠ [] ∧ 47 ∉ name :=
      forall_mem_cons.mpr ⟨⟨hne, hslash⟩, fun name hname => (hnames name hname).segment⟩
    rw [namesOf, if_pos (show hasDrive (first :: 58 :: join 47 (part :: (reduce parts).2)) = true from hletter)]
    simp only [drop_succ_cons, drop_zero]
    rw [if_neg (head_join hsegments), namesOf_text hsegments]
  have hlocated : IsName part → ((∀ base, locate base (first :: 58 :: join 47 (part :: (reduce parts).2)) =
      locate base (first :: 58 :: rest)) ↔ (reduce parts).1 = 0) := by
    intro hname
    simp only [locate_letter hletter, hrest, components_text hrest, Location.mk.injEq, true_and,
      resolve_name_eq_iff hname hnames]
    exact ⟨fun h => h ⟨none, []⟩, fun h _ => h⟩
  constructor
  · intro h
    obtain ⟨hclean, climbs, names, hsplit, hnone, habsolute⟩ := h.clean
    rw [habsolute (.inr hletter), replicate_zero, nil_append] at hsplit
    rw [hbelow] at hclean hsplit
    have hdot : part ≠ dot := (hclean part (mem_cons_self ..)).2
    have hdotDot : part ≠ dotDot := fun heq => hnone (by rw [← hsplit, heq]; exact mem_cons_self ..)
    exact ⟨(hlocated ⟨hne, hdot, hdotDot, hslash⟩).mp h.located, hdot, hdotDot⟩
  · rintro ⟨hclimbs, hdot, hdotDot⟩
    have hname : IsName part := ⟨hne, hdot, hdotDot, hslash⟩
    refine ⟨fixed_colon hfirst hslash hnames, ?_, absolute_colon _, (hlocated hname).mpr hclimbs⟩
    exact clean_of_names (show _ = List.replicate 0 dotDot ++ _ from hbelow)
      (forall_mem_cons.mpr ⟨hname, hnames⟩) fun _ => rfl

/-- A name that starts with a byte and a colon and is no drive. -/
theorem kept_other_iff (hletter : isLetter first = false) (hfirst : first ≠ 47)
    (hrest : split 47 rest = part :: parts) :
    Kept (first :: 58 :: rest) (first :: 58 :: join 47 (part :: (reduce parts).2)) ↔ (reduce parts).1 = 0 := by
  have hnames := isName_tail hrest
  have hname := isName_colon hfirst (slash_notMem_head hrest)
  have hall : ∀ name ∈ (first :: 58 :: part) :: (reduce parts).2, IsName name :=
    forall_mem_cons.mpr ⟨hname, hnames⟩
  have hcolon : (58 : UInt8) ≠ 47 := by decide
  have htext := split_cons hfirst (split_cons hcolon (components_text hrest))
  have hlocated : (∀ base, locate base (first :: 58 :: join 47 (part :: (reduce parts).2)) =
      locate base (first :: 58 :: rest)) ↔ (reduce parts).1 = 0 := by
    simp only [locate_other hfirst hletter, htext, split_cons hfirst (split_cons hcolon hrest),
      Location.mk.injEq, true_and, resolve_name_eq_iff hname hnames]
    exact ⟨fun h => h ⟨none, []⟩, fun h _ => h⟩
  refine ⟨fun h => hlocated.mp h.located, fun h => ?_⟩
  refine ⟨fixed_colon hfirst (slash_notMem_head hrest) hnames, ?_, absolute_colon _, hlocated.mpr h⟩
  have hbelow : namesOf (first :: 58 :: join 47 (part :: (reduce parts).2)) =
      (first :: 58 :: part) :: (reduce parts).2 := by
    rw [namesOf, if_neg (show ¬hasDrive (first :: 58 :: join 47 (part :: (reduce parts).2)) = true by
      simp [hasDrive, hletter])]
    simpa [hfirst] using htext
  exact clean_of_names (show _ = List.replicate 0 dotDot ++ _ from hbelow) hall fun _ => rfl

end Colon

/-- A root that the code takes for the byte of a drive is lost. -/
theorem not_kept_slashColon (rest : Bytes) :
    ¬Kept (47 :: 58 :: rest) (join 47 (reduce (split 47 (58 :: rest))).2) := by
  intro h
  have hrooted : IsAbsolute (47 :: 58 :: rest) := .inl rfl
  rcases h.absolute.mpr hrooted with hhead | hdrive
  · exact head_join (fun name hname => (isName_components name hname).segment) hhead
  · have hlocated := congrArg Location.drive (h.located ⟨none, []⟩)
    rw [locate, if_pos hdrive] at hlocated
    cases hresult : join 47 (reduce (split 47 (58 :: rest))).2 with
    | nil => rw [hresult] at hdrive; cases hdrive
    | cons byte text => rw [hresult] at hlocated; cases hlocated

theorem hasDrive_slash : ¬hasDrive (47 :: path) = true := by
  unfold hasDrive
  split
  · next h => cases h; decide
  · decide

/-- A rooted text stays one unless its first name gets the colon next to the root. -/
theorem kept_rooted_iff (rest : Bytes) :
    Kept (47 :: rest) (47 :: join 47 (reduce (split 47 rest)).2) ↔
      ((reduce (split 47 rest)).2.headD []).head? ≠ some 58 := by
  have hnames := @isName_components rest
  have hsegments : ∀ name ∈ (reduce (split 47 rest)).2, name ≠ [] ∧ 47 ∉ name :=
    fun name hname => (hnames name hname).segment
  have hhead : (join 47 (reduce (split 47 rest)).2).head? = ((reduce (split 47 rest)).2.headD []).head? := by
    cases hcases : (reduce (split 47 rest)).2 with
    | nil => rfl
    | cons name names =>
      obtain ⟨byte, name, rfl⟩ := exists_cons_of_ne_nil (hsegments name (by rw [hcases]; simp)).1
      simp
  have hreduce : reduce (split 47 (join 47 (reduce (split 47 rest)).2)) = (0, (reduce (split 47 rest)).2) :=
    reduce_components_join hnames 0
  rw [← hhead]
  constructor
  · intro h hcolon
    obtain ⟨text, htext⟩ := List.head?_eq_some_iff.mp hcolon
    have hfixed := h.fixed
    rw [htext, normalizePlain_slashColon, ← htext, hreduce, htext] at hfixed
    cases hfixed
  · intro hcolon
    refine ⟨?_, ?_, Iff.of_eq (by simp [IsAbsolute]), ?_⟩
    · rw [normalizePlain_rooted hcolon, hreduce]
    · have hbelow : namesOf (47 :: join 47 (reduce (split 47 rest)).2) = (reduce (split 47 rest)).2 := by
        rw [namesOf, if_neg (hasDrive_slash _)]
        exact namesOf_text hsegments
      exact clean_of_names (show _ = List.replicate 0 dotDot ++ _ from hbelow) hnames fun _ => rfl
    · intro base
      have hskip : ∀ path, locate base (47 :: path) = ⟨none, resolve [] (split 47 path)⟩ := by
        intro path
        rw [locate, if_neg (hasDrive_slash path)]
        rfl
      rw [hskip, hskip, resolve_eq, resolve_eq, hreduce, take_nil, take_nil]

theorem hasDrive_join (hparts : ∀ part ∈ parts, part ≠ []) : hasDrive (join 47 parts) = hasDrive (parts.headD []) := by
  match parts with
  | [] => rfl
  | [] :: _ => exact absurd rfl (hparts [] (mem_cons_self ..))
  | [_] :: [] => rfl
  | [_] :: _ :: _ => simp [join, hasDrive]
  | (_ :: second :: _) :: _ =>
    by_cases hsecond : second = 58
    · simp [hsecond, hasDrive]
    · simp [hasDrive, hsecond]

theorem exists_colon_of_join (hparts : ∀ part ∈ parts, part ≠ [])
    (h : (join 47 parts)[1]? = some 58) : ∃ first part rest, parts = (first :: 58 :: part) :: rest := by
  match parts with
  | [] => cases h
  | [] :: _ => exact absurd rfl (hparts [] (mem_cons_self ..))
  | [_] :: [] => cases h
  | [_] :: _ :: _ => simp [join] at h
  | (first :: second :: part) :: rest =>
    obtain rfl : second = 58 := by simpa using h
    exact ⟨first, part, rest, rfl⟩

theorem fixed_relative {climbs : Nat} (hnames : ∀ name ∈ names, IsName name) :
    normalizePlain (join 47 (List.replicate climbs dotDot ++ names)) =
      join 47 (List.replicate climbs dotDot ++ names) := by
  have hsegments := segment_of_mem climbs hnames
  by_cases hdrive : (join 47 (List.replicate climbs dotDot ++ names))[1]? = some 58
  · obtain ⟨first, part, rest, hparts⟩ := exists_colon_of_join (fun part hpart => (hsegments part hpart).1) hdrive
    obtain rfl : climbs = 0 := by
      cases climbs with
      | zero => rfl
      | succ climbs => cases hparts
    obtain rfl : names = (first :: 58 :: part) :: rest := hparts
    obtain ⟨hname, hrest⟩ := forall_mem_cons.mp hnames
    have hslash : first ≠ 47 ∧ 47 ∉ part := by
      have hnone := hname.no_slash
      simp only [mem_cons, not_or] at hnone
      exact ⟨Ne.symm hnone.1, hnone.2.2⟩
    simpa using fixed_colon hslash.1 hslash.2 hrest
  · rw [normalizePlain_relative hdrive (head_join hsegments), reduce_components_join hnames]

/-- A relative text stays one unless its first name becomes a drive. -/
theorem kept_relative_iff {path : Bytes} (hdrive : path[1]? ≠ some 58) (hhead : path.head? ≠ some 47) :
    Kept path (join 47 (List.replicate (reduce (split 47 path)).1 dotDot ++ (reduce (split 47 path)).2)) ↔
      (reduce (split 47 path)).1 ≠ 0 ∨ hasDrive ((reduce (split 47 path)).2.headD []) = false := by
  generalize hclimbs : (reduce (split 47 path)).1 = climbs
  generalize hbelow : (reduce (split 47 path)).2 = names
  have hnames : ∀ name ∈ names, IsName name := hbelow ▸ isName_components
  have hsegments := segment_of_mem climbs hnames
  have hrelative : ¬IsAbsolute path := by
    rintro (h | h)
    · exact hhead h
    · unfold hasDrive at h
      split at h
      · exact hdrive rfl
      · cases h
  have hresult : hasDrive (join 47 (List.replicate climbs dotDot ++ names)) = true ↔
      ¬(climbs ≠ 0 ∨ hasDrive (names.headD []) = false) := by
    rw [hasDrive_join fun part hpart => (hsegments part hpart).1]
    cases climbs with
    | zero => simp
    | succ climbs => simp [replicate_succ, dotDot, hasDrive]
  constructor
  · intro h
    by_contra hcon
    exact hrelative (h.absolute.mp (.inr (hresult.mpr hcon)))
  · intro h
    have hnone : ¬hasDrive (join 47 (List.replicate climbs dotDot ++ names)) = true := fun hd => hresult.mp hd h
    have hroot := head_join hsegments
    have hstays : ¬IsAbsolute (join 47 (List.replicate climbs dotDot ++ names)) := not_or.mpr ⟨hroot, hnone⟩
    refine ⟨fixed_relative hnames, ?_, iff_of_false hstays hrelative, ?_⟩
    · have hparts : namesOf (join 47 (List.replicate climbs dotDot ++ names)) =
          List.replicate climbs dotDot ++ names := by
        rw [namesOf, if_neg hnone]
        simp only [if_neg hroot]
        exact namesOf_text hsegments
      exact clean_of_names hparts hnames fun habsolute => absurd habsolute hstays
    · intro base
      obtain ⟨hplain, hundriven⟩ := not_or.mp hrelative
      rw [locate, if_neg hnone, if_neg hroot, locate, if_neg hundriven, if_neg hplain, resolve_eq, resolve_eq,
        reduce_components_join hnames, hclimbs, hbelow]

theorem kept_iff : Kept path (normalizePlain path) ↔ Faithful path := by
  cases form path with
  | colon first rest hfirst =>
    obtain ⟨part, parts, hrest⟩ := exists_split 47 rest
    rw [normalizePlain_colon hfirst hrest, Faithful, hrest, headD_cons, tail_cons]
    cases hletter : isLetter first with
    | false => simp [kept_other_iff hletter hfirst hrest, hfirst]
    | true =>
      by_cases hpart : part = []
      · subst hpart
        simp [kept_root hletter hfirst hrest, hfirst]
      · simp [kept_driveName_iff hletter hfirst hrest hpart, hfirst, hpart]
  | slashColon rest =>
    rw [normalizePlain_slashColon, Faithful]
    exact iff_of_false (not_kept_slashColon rest) fun h => h.1 rfl
  | rooted rest hrest =>
    rw [normalizePlain_rooted hrest, kept_rooted_iff, Faithful]
    intro after heq
    exact hrest (by rw [heq]; rfl)
  | relative _ hdrive hhead =>
    rw [normalizePlain_relative hdrive hhead, kept_relative_iff hdrive hhead, Faithful]
    · intro first rest heq
      exact hdrive (by rw [heq]; rfl)
    · intro rest heq
      exact hhead (by rw [heq]; rfl)

/-- **Normalization keeps the location of exactly the texts whose form it sees as it is, and two such texts
with one identity name one location.** -/
theorem keeps_iff_faithful (path other : List UInt8) :
    (KeepsLocation path ↔ Faithful (plain path)) ∧
      (Faithful (plain path) ∧ Faithful (plain other) ∧ normalizePath path = normalizePath other →
        ∀ base, locate base (plain path) = locate base (plain other)) := by
  have hkeeps : ∀ path, KeepsLocation path ↔ Faithful (plain path) := fun path =>
    (keepsLocation_iff_kept path).trans (kept_iff (plain path))
  refine ⟨hkeeps path, fun ⟨hpath, hother, hsame⟩ base => ?_⟩
  rw [← ((hkeeps path).mpr hpath).located, ← ((hkeeps other).mpr hother).located, hsame]

/-- `/:x` becomes `:x`. -/
theorem root_before_colon_is_lost : normalizePath [47, 58, 120] = [58, 120] ∧ ¬KeepsLocation [47, 58, 120] := by
  have hresult : normalizePath [47, 58, 120] = [58, 120] := by decide
  refine ⟨hresult, fun h => ?_⟩
  have habsolute := h.absolute
  rw [hresult] at habsolute
  revert habsolute
  unfold IsAbsolute
  decide

end Nia.Source
