import Nia.Lib.Fallible
import Nia.Lib.Slices
import Nia.Windows.Arguments

/-! Building a Windows command line.

Arguments are appended to a storage of a fixed length, one after the other, and each is quoted so that the program
reads it back. Every write is checked against the storage, a unit early, so that the final NUL always has a place
(`appendCommandArgument_spec`). What was built from some arguments splits into just these
(`command_line_splits`). The conversion from UTF-8 is a parameter. -/
namespace Nia.Windows
open Lib Lib.Slices List

/-- `Errno`: a line that is too long, or an error of the conversion. -/
inductive Errno where
  | tooLong
  | conversion (code : Nat)
  deriving DecidableEq, Repr

/-- The units that a conversion leaves in front of the NUL. -/
structure WideString where
  units : List UInt16
  nulFree : 0 ∉ units

/-- The storage of a command line, and how much of it is used. -/
structure CommandLine where
  storage : List UInt16
  cursor : Nat
  deriving DecidableEq

abbrev Append := Fallible CommandLine Errno

/-! ### The code -/

def appendCommandUnit (value : UInt16) : Append Unit := do
  let line ← get
  if line.storage.length ≤ line.cursor + 1 then throw .tooLong
  else
    let storage ← Fallible.orTrap (store line.storage line.cursor value)
    set ({ storage, cursor := line.cursor + 1 } : CommandLine)

def appendCommandSlashes : Nat → Append Unit
  | 0 => pure ()
  | count + 1 => do
    appendCommandUnit backslash
    appendCommandSlashes count

/-- The end of the run of backslashes at a place. -/
def slashRun (units : List UInt16) (index : Nat) : Nat :=
  if h : index < units.length then
    if units[index] = backslash then slashRun units (index + 1) else index
  else index
termination_by units.length - index

variable (units : List UInt16)

theorem le_slashRun (index : Nat) : index ≤ slashRun units index := by
  fun_induction slashRun units index with
  | case1 index h hslash ih => omega
  | case2 => exact Nat.le_refl _
  | case3 => exact Nat.le_refl _

theorem lt_slashRun {units : List UInt16} {index : Nat} (h : index < units.length) (hslash : units[index] = backslash) :
    index < slashRun units index := by
  rw [slashRun, dif_pos h, if_pos hslash]
  exact le_slashRun units (index + 1)

/-- The loop over the units of an argument. -/
def appendUnits (units : List UInt16) (needsQuotes : Bool) (index : Nat) : Append Unit :=
  if h : index < units.length then
    if hslash : units[index] = backslash then
      have := lt_slashRun h hslash
      let slashes := slashRun units index - index
      if slashRun units index = units.length then do
        appendCommandSlashes (if needsQuotes then slashes * 2 else slashes)
        appendUnits units needsQuotes (slashRun units index)
      else if units[slashRun units index]? = some quotation then do
        appendCommandSlashes (slashes * 2 + 1)
        appendCommandUnit quotation
        appendUnits units needsQuotes (slashRun units index + 1)
      else do
        appendCommandSlashes slashes
        appendUnits units needsQuotes (slashRun units index)
    else if units[index] = quotation then do
      appendCommandSlashes 1
      appendCommandUnit quotation
      appendUnits units needsQuotes (index + 1)
    else do
      appendCommandUnit units[index]
      appendUnits units needsQuotes (index + 1)
  else pure ()
termination_by units.length - index

/-- The separator in front of every argument but the first. -/
def appendSeparator : Append Unit := do
  let line ← get
  if line.cursor = 0 then pure ()
  else if line.storage.length ≤ line.cursor + 1 then throw .tooLong
  else
    let storage ← Fallible.orTrap (store line.storage line.cursor space)
    set ({ storage, cursor := line.cursor + 1 } : CommandLine)

/-- The loop that looks for a blank or a quote. -/
def scanQuotes (units : List UInt16) : Bool :=
  units.foldl (fun needsQuotes unit => if unit = 32 ∨ unit = 9 ∨ unit = 34 then true else needsQuotes)
    (units.length == 0)

def appendQuote (needsQuotes : Bool) : Append Unit := if needsQuotes then appendCommandUnit quotation else pure ()

def appendCommandArgument {Text : Type} (utf8ToWide : Text → Except Errno WideString) (text : Text) : Append Unit := do
  let wide ← ExceptT.mk (pure (utf8ToWide text))
  appendSeparator
  let needsQuotes := scanQuotes wide.units
  appendQuote needsQuotes
  appendUnits wide.units needsQuotes 0
  appendQuote needsQuotes
  let line ← get
  let storage ← Fallible.orTrap (store line.storage line.cursor 0)
  set { line with storage }

/-! ### What a line holds -/

/-- The used part of the storage is a text; once there is a text, a unit is left behind it. -/
structure Holds (capacity : Nat) (text : List UInt16) (line : CommandLine) : Prop where
  length : line.storage.length = capacity
  cursor : line.cursor = text.length
  written : line.storage.take text.length = text
  room : text = [] ∨ text.length < capacity

/-- The outcome of a function that appends: the new text, or an error in the same storage. -/
def Appended (capacity : Nat) (text : List UInt16) : Except Errno Unit → CommandLine → Prop
  | .ok _, line => Holds capacity text line
  | .error _, line => line.storage.length = capacity

section

variable {capacity : Nat} {text more : List UInt16} {line : CommandLine}

/-- A write at the cursor. -/
theorem Holds.store (h : Holds capacity text line) (hroom : text.length < capacity) (value : UInt16) :
    ∃ storage, Slices.store line.storage line.cursor value = some storage ∧ storage.length = capacity ∧
      storage.take text.length = text ∧ storage[text.length]? = some value := by
  have hlength : text.length < line.storage.length := h.length ▸ hroom
  refine ⟨line.storage.set text.length value, ?_, ?_, ?_, ?_⟩
  · rw [Slices.store, h.cursor, if_pos hlength]
  · rw [length_set, h.length]
  · rw [take_set_of_le (Nat.le_refl _), h.written]
  · rw [List.getElem?_set_self hlength]

theorem Holds.push (h : Holds capacity text line) (hroom : text.length + 1 < capacity) (value : UInt16) :
    ∃ storage, Slices.store line.storage line.cursor value = some storage ∧
      Holds capacity (text ++ [value]) ⟨storage, line.cursor + 1⟩ := by
  obtain ⟨storage, hstore, hlength, htake, hget⟩ := h.store (Nat.lt_of_succ_lt hroom) value
  have hcursor : (text ++ [value]).length = text.length + 1 := length_append
  refine ⟨storage, hstore, hlength, ?_, ?_, .inr ?_⟩
  · rw [hcursor, h.cursor]
  · rw [hcursor, take_add_one, htake, hget]
    rfl
  · rwa [hcursor]

theorem appendCommandUnit_spec (h : Holds capacity text line) (value : UInt16) :
    Fallible.Returns (appendCommandUnit value) line (Appended capacity (text ++ [value])) := by
  refine Fallible.Returns.get ?_
  split
  · exact Fallible.Returns.throw h.length
  · next hroom =>
    obtain ⟨storage, hstore, hpushed⟩ := h.push (by rw [← h.cursor, ← h.length]; omega) value
    exact Fallible.Returns.orTrap hstore ⟨.ok (), _, rfl, hpushed⟩

theorem appendSeparator_spec (h : Holds capacity text line) :
    Fallible.Returns appendSeparator line (Appended capacity (if text = [] then [] else text ++ [space])) := by
  refine Fallible.Returns.get ?_
  split
  · next hzero =>
    have htext : text = [] := length_eq_zero_iff.mp (h.cursor ▸ hzero)
    rw [if_pos htext]
    exact Fallible.Returns.pure (htext ▸ h)
  · next hsome =>
    have htext : text ≠ [] := fun hnil => hsome (by rw [h.cursor, hnil, length_nil])
    rw [if_neg htext]
    split
    · exact Fallible.Returns.throw h.length
    · next hroom =>
      obtain ⟨storage, hstore, hpushed⟩ := h.push (by rw [← h.cursor, ← h.length]; omega) space
      exact Fallible.Returns.orTrap hstore ⟨.ok (), _, rfl, hpushed⟩

/-- One append after another. -/
theorem Appended.bind {first : Append Unit} {second : Unit → Append Unit} {text' : List UInt16}
    (hfirst : Fallible.Returns first line (Appended capacity text))
    (hsecond : ∀ line, Holds capacity text line → Fallible.Returns (second ()) line (Appended capacity text')) :
    Fallible.Returns (first >>= second) line (Appended capacity text') :=
  hfirst.bind (fun _ line hline => hsecond line hline) fun _ _ hline => hline

theorem appendCommandSlashes_spec (h : Holds capacity text line) (count : Nat) :
    Fallible.Returns (appendCommandSlashes count) line
      (Appended capacity (text ++ List.replicate count backslash)) := by
  induction count generalizing text line with
  | zero =>
    rw [replicate_zero, append_nil]
    exact Fallible.Returns.pure h
  | succ count ih =>
    refine Appended.bind (appendCommandUnit_spec h backslash) fun line hline => ?_
    have hrest := ih hline
    rwa [append_assoc, singleton_append] at hrest

theorem appendQuote_spec (h : Holds capacity text line) (needsQuotes : Bool) :
    Fallible.Returns (appendQuote needsQuotes) line
      (Appended capacity (text ++ if needsQuotes then [quotation] else [])) := by
  unfold appendQuote
  split
  · exact appendCommandUnit_spec h quotation
  · rw [append_nil]
    exact Fallible.Returns.pure h

/-! ### The loop over the units -/

theorem slashRun_spec (index : Nat) (hindex : index ≤ units.length) :
    slashRun units index ≤ units.length ∧ units[slashRun units index]? ≠ some backslash ∧
      units.drop index =
        List.replicate (slashRun units index - index) backslash ++ units.drop (slashRun units index) := by
  fun_induction slashRun units index with
  | case1 index h hslash ih =>
    obtain ⟨hle, hend, hdrop⟩ := ih h
    have hlt := le_slashRun units (index + 1)
    refine ⟨hle, hend, ?_⟩
    rw [drop_eq_getElem_cons h, hdrop, hslash,
      show slashRun units (index + 1) - index = slashRun units (index + 1) - (index + 1) + 1 by omega,
      replicate_succ]
    rfl
  | case2 index h hslash =>
    refine ⟨hindex, fun heq => hslash ?_, by simp⟩
    rw [List.getElem?_eq_getElem h] at heq
    exact Option.some.inj heq
  | case3 index h =>
    refine ⟨hindex, ?_, by simp⟩
    rw [List.getElem?_eq_none (Nat.le_of_not_lt h)]
    nofun

theorem escape_backslashes (quoted : Bool) (slashes count : Nat) (rest : List UInt16) :
    escape quoted slashes (List.replicate count backslash ++ rest) = escape quoted (slashes + count) rest := by
  induction count generalizing slashes with
  | zero => rfl
  | succ count ih =>
    rw [replicate_succ, cons_append, escape, if_pos rfl, ih, Nat.add_assoc, Nat.add_comm 1 count]

theorem appendUnits_spec (needsQuotes : Bool) (index : Nat) (hindex : index ≤ units.length)
    (h : Holds capacity text line) : Fallible.Returns (appendUnits units needsQuotes index) line
      (Appended capacity (text ++ escape needsQuotes 0 (units.drop index))) := by
  induction hsize : units.length - index using Nat.strongRecOn generalizing index text line with
  | _ size ih =>
    rw [appendUnits]
    split
    · next hlt =>
      split
      · next hslash =>
        obtain ⟨hle, hend, hdrop⟩ := slashRun_spec units index hindex
        have hgrows := lt_slashRun hlt hslash
        dsimp only
        generalize slashRun units index = stop at hle hend hdrop hgrows ⊢
        rw [hdrop, escape_backslashes, Nat.zero_add]
        split
        · next hstop =>
          refine Appended.bind (appendCommandSlashes_spec h _) fun line hline => ?_
          have hrest := ih _ (by omega) stop hle hline rfl
          have hnil : units.drop stop = [] := drop_eq_nil_of_le (Nat.le_of_eq hstop.symm)
          rw [hnil, escape] at hrest ⊢
          simpa using hrest
        · next hstop =>
          have hmore : stop < units.length := by omega
          rw [drop_eq_getElem_cons hmore, escape]
          rw [List.getElem?_eq_getElem hmore] at hend ⊢
          have hslash' : units[stop] ≠ backslash := fun heq => hend (congrArg some heq)
          rw [if_neg hslash']
          by_cases hquote : units[stop] = quotation
          · rw [if_pos (congrArg some hquote), if_pos hquote]
            refine Appended.bind (appendCommandSlashes_spec h _) fun line hline => ?_
            refine Appended.bind (appendCommandUnit_spec hline quotation) fun line hline => ?_
            have hrest := ih _ (by omega) (stop + 1) hmore hline rfl
            simpa using hrest
          · rw [if_neg (fun heq => hquote (Option.some.inj heq)), if_neg hquote]
            refine Appended.bind (appendCommandSlashes_spec h _) fun line hline => ?_
            have hrest := ih _ (by omega) stop hle hline rfl
            rw [drop_eq_getElem_cons hmore, escape, if_neg hslash', if_neg hquote] at hrest
            simpa using hrest
      · next hslash =>
        rw [drop_eq_getElem_cons hlt, escape, if_neg hslash]
        split
        · refine Appended.bind (appendCommandSlashes_spec h 1) fun line hline => ?_
          refine Appended.bind (appendCommandUnit_spec hline quotation) fun line hline => ?_
          have hrest := ih _ (by omega) (index + 1) hlt hline rfl
          simpa using hrest
        · refine Appended.bind (appendCommandUnit_spec h _) fun line hline => ?_
          have hrest := ih _ (by omega) (index + 1) hlt hline rfl
          simpa using hrest
    · next hge =>
      rw [drop_eq_nil_of_le (Nat.le_of_not_lt hge), escape]
      simpa using Fallible.Returns.pure h

/-! ### Arguments -/

theorem scanQuotes_eq : scanQuotes units = needsQuotes units := by
  have hloop : ∀ (units : List UInt16) start, units.foldl
      (fun needsQuotes unit => if unit = 32 ∨ unit = 9 ∨ unit = 34 then true else needsQuotes) start =
        (start || units.any fun unit => isBlank unit || unit == quotation) := by
    intro units
    induction units with
    | nil => simp
    | cons unit units ih =>
      intro start
      rw [foldl_cons, ih, any_cons]
      by_cases hunit : unit = 32 ∨ unit = 9 ∨ unit = 34
      · have hquoted : (isBlank unit || unit == quotation) = true := by
          rcases hunit with rfl | rfl | rfl <;> rfl
        rw [if_pos hunit, hquoted, Bool.true_or, Bool.or_true]
      · have hplain : (isBlank unit || unit == quotation) = false := by
          simpa [isBlank, space, tab, quotation, not_or, and_assoc] using hunit
        rw [if_neg hunit, hplain, Bool.false_or]
  rw [scanQuotes, hloop, needsQuotes]
  cases units <;> rfl

/-- A text with its NUL behind it. -/
structure Terminated (capacity : Nat) (text : List UInt16) (line : CommandLine) : Prop extends
  Holds capacity text line where
  nul : line.storage[text.length]? = some 0

/-- The line that a program gets. -/
def CommandLine.content (line : CommandLine) : List UInt16 := line.storage.takeWhile (· ≠ 0)

theorem Terminated.text_eq (h : Terminated capacity text line) (hnul : 0 ∉ text) : line.content = text := by
  obtain ⟨hlt, hget⟩ := List.getElem?_eq_some_iff.mp h.nul
  have hsplit : line.storage = text ++ 0 :: line.storage.drop (text.length + 1) := by
    conv_lhs => rw [← take_append_drop text.length line.storage, h.written, drop_eq_getElem_cons hlt, hget]
  rw [CommandLine.content, hsplit, takeWhile_append_of_pos fun unit hunit => ?_,
    takeWhile_cons_of_neg (by simp), append_nil]
  exact decide_eq_true fun heq => hnul (heq ▸ hunit)

theorem quote_ne_nil : quote units ≠ [] := by
  unfold quote
  split
  · exact cons_ne_nil _ _
  · next hplain =>
    obtain ⟨hne, hunits⟩ := plain_of_needsQuotes (Bool.not_eq_true _ ▸ hplain)
    rwa [escape_eq (fun hmem => (hunits _ hmem).2 rfl) fun hquoted => absurd hquoted Bool.false_ne_true]

theorem nul_notMem_quote {units : List UInt16} (hnul : 0 ∉ units) : 0 ∉ quote units := by
  have hescape : ∀ (quoted : Bool) (units : List UInt16) (slashes : Nat), 0 ∉ units →
      0 ∉ escape quoted slashes units := by
    intro quoted units
    induction units with
    | nil => simp [escape, backslash]
    | cons unit units ih =>
      intro slashes hunits
      obtain ⟨hunit, hrest⟩ := not_or.mp (mem_cons.not.mp hunits)
      rw [escape]
      split
      · exact ih _ hrest
      · split
        · simp [backslash, quotation, ih 0 hrest]
        · simp [backslash, hunit, ih 0 hrest]
  unfold quote
  split
  · simp [quotation, hescape true units 0 hnul]
  · exact hescape false units 0 hnul

variable {Text : Type} {utf8ToWide : Text → Except Errno WideString}

/-- The text with one more argument. -/
def withArgument (text : List UInt16) (units : List UInt16) : List UInt16 :=
  (if text = [] then [] else text ++ [space]) ++ quote units

theorem appendCommandArgument_spec (h : Holds capacity text line) (argument : Text) :
    Fallible.Returns (appendCommandArgument utf8ToWide argument) line fun result line =>
      line.storage.length = capacity ∧ (result = .ok () → ∃ wide, utf8ToWide argument = .ok wide ∧
        Terminated capacity (withArgument text wide.units) line) := by
  unfold appendCommandArgument
  cases hwide : utf8ToWide argument with
  | error error => exact ⟨.error error, line, rfl, h.length, nofun⟩
  | ok wide =>
    change Fallible.Returns (appendSeparator >>= fun _ => _) line _
    refine Fallible.Returns.bind (appendSeparator_spec h) (fun _ line hline => ?_) fun _ _ hline => ⟨hline, nofun⟩
    refine Fallible.Returns.bind (appendQuote_spec hline _) (fun _ line hline => ?_) fun _ _ hline => ⟨hline, nofun⟩
    refine Fallible.Returns.bind (appendUnits_spec wide.units _ 0 (Nat.zero_le _) hline) (fun _ line hline => ?_)
      fun _ _ hline => ⟨hline, nofun⟩
    refine Fallible.Returns.bind (appendQuote_spec hline _) (fun _ line hline => ?_) fun _ _ hline => ⟨hline, nofun⟩
    have hargument : Holds capacity (withArgument text wide.units) line := by
      have hquote : (if needsQuotes wide.units then [quotation] else []) ++
          escape (needsQuotes wide.units) 0 wide.units ++ (if needsQuotes wide.units then [quotation] else []) =
          quote wide.units := by
        rw [quote]
        cases needsQuotes wide.units <;> simp
      rw [withArgument, ← hquote, ← append_assoc, ← append_assoc, ← scanQuotes_eq]
      exact hline
    -- an argument is never empty on the line, so there is a unit left for the NUL
    have hroom : (withArgument text wide.units).length < capacity :=
      hargument.room.resolve_left (append_ne_nil_of_right_ne_nil _ (quote_ne_nil wide.units))
    obtain ⟨storage, hstore, hlength, htake, hnul⟩ := hargument.store hroom 0
    refine Fallible.Returns.get (Fallible.Returns.orTrap hstore ⟨.ok (), _, rfl, hlength, fun _ => ⟨wide, rfl, ?_⟩⟩)
    exact ⟨⟨hlength, hargument.cursor, htake, hargument.room⟩, hnul⟩

/-- The loop over the arguments, from a text on. -/
theorem appendArguments_spec (h : Terminated capacity text line) (htext : text ≠ []) (arguments : List Text) :
    Fallible.Returns (arguments.forM (appendCommandArgument utf8ToWide)) line fun result line =>
      line.storage.length = capacity ∧ (result = .ok () → ∃ wides : List WideString,
        List.Forall₂ (fun argument wide => utf8ToWide argument = .ok wide) arguments wides ∧
        Terminated capacity (text ++ argumentsLine (wides.map WideString.units)) line) := by
  induction arguments generalizing text line with
  | nil =>
    refine Fallible.Returns.pure ⟨h.length, fun _ => ⟨[], .nil, ?_⟩⟩
    rwa [map_nil, argumentsLine, flatMap_nil, append_nil]
  | cons argument arguments ih =>
    refine Fallible.Returns.bind (appendCommandArgument_spec h.toHolds argument) ?_ fun _ _ hline => ⟨hline.1, nofun⟩
    rintro _ line ⟨-, hok⟩
    obtain ⟨wide, hwide, hline⟩ := hok rfl
    have happended : withArgument text wide.units = text ++ space :: quote wide.units := by
      rw [withArgument, if_neg htext, append_assoc]
      rfl
    rw [happended] at hline
    refine (ih hline (append_ne_nil_of_left_ne_nil htext _)).mono fun result line hrest => ⟨hrest.1, fun hok => ?_⟩
    obtain ⟨wides, hwides, hlast⟩ := hrest.2 hok
    refine ⟨wide :: wides, .cons hwide hwides, ?_⟩
    rw [append_assoc] at hlast
    exact hlast

end

theorem nul_notMem_argumentsLine (wides : List WideString) : 0 ∉ argumentsLine (wides.map WideString.units) := by
  intro hmem
  obtain ⟨units, hunits, hnul⟩ := mem_flatMap.mp hmem
  obtain ⟨wide, -, rfl⟩ := mem_map.mp hunits
  rcases mem_cons.mp hnul with hspace | hquote
  · exact absurd hspace (by decide)
  · exact nul_notMem_quote wide.nulFree hquote

/-- **Whatever the storage and the arguments, no write leaves the storage, and a line that was built without an error
splits into just the arguments.** The name may not have a quote or end in a backslash, since the rules know no escape
for these. -/
theorem command_line_splits {Text : Type} (utf8ToWide : Text → Except Errno WideString) (storage : List UInt16)
    (name : Text) (arguments : List Text) :
    ∃ result line,
      ((name :: arguments).forM (appendCommandArgument utf8ToWide)).run ⟨storage, 0⟩ = some (result, line) ∧
      line.storage.length = storage.length ∧
      (result = .ok () → ∃ (first : WideString) (wides : List WideString),
        List.Forall₂ (fun argument wide => utf8ToWide argument = .ok wide) (name :: arguments) (first :: wides) ∧
        (quotation ∉ first.units → first.units.getLast? ≠ some backslash →
          splitCommandLine line.content = (first :: wides).map WideString.units)) := by
  have hempty : Holds storage.length [] ⟨storage, 0⟩ := ⟨rfl, rfl, rfl, .inl rfl⟩
  suffices h : Fallible.Returns ((name :: arguments).forM (appendCommandArgument utf8ToWide)) ⟨storage, 0⟩
      fun result line => line.storage.length = storage.length ∧
        (result = .ok () → ∃ (first : WideString) (wides : List WideString),
          List.Forall₂ (fun argument wide => utf8ToWide argument = .ok wide) (name :: arguments) (first :: wides) ∧
          Terminated storage.length (quote first.units ++ argumentsLine (wides.map WideString.units)) line) by
    obtain ⟨result, line, hrun, hlength, hok⟩ := h
    refine ⟨result, line, hrun, hlength, fun hresult => ?_⟩
    obtain ⟨first, wides, hwides, hline⟩ := hok hresult
    refine ⟨first, wides, hwides, fun hquotation hbackslash => ?_⟩
    rw [hline.text_eq, splitCommandLine_quoted _ hquotation hbackslash]
    · rfl
    · rw [mem_append, not_or]
      exact ⟨nul_notMem_quote first.nulFree, nul_notMem_argumentsLine wides⟩
  refine Fallible.Returns.bind (appendCommandArgument_spec hempty name) ?_ fun _ _ hline => ⟨hline.1, nofun⟩
  rintro _ line ⟨-, hok⟩
  obtain ⟨first, hfirst, hline⟩ := hok rfl
  refine (appendArguments_spec hline (append_ne_nil_of_right_ne_nil _ (quote_ne_nil _)) arguments).mono ?_
  intro result line hrest
  refine ⟨hrest.1, fun hok => ?_⟩
  obtain ⟨wides, hwides, hlast⟩ := hrest.2 hok
  exact ⟨first, wides, .cons hfirst hwides, hlast⟩

theorem command_line_splits_backslash :
    ∃ line, ([⟨[97], by decide⟩, ⟨[92, 34, 32], by decide⟩].forM (appendCommandArgument Except.ok)).run
        ⟨List.replicate 12 0, 0⟩ = some (.ok (), line) ∧
      splitCommandLine line.content = [[97], [92, 34, 32]] := by
  obtain ⟨result, line, hrun, -, hok⟩ := command_line_splits Except.ok (List.replicate 12 0) ⟨[97], by decide⟩
    [⟨[92, 34, 32], by decide⟩]
  have hline : some (result, line) = some (.ok (), ⟨[97, 32, 34, 92, 92, 92, 34, 32, 34, 0, 0, 0], 9⟩) :=
    hrun.symm.trans (by decide +kernel)
  cases hline
  obtain ⟨first, wides, hwides, hsplit⟩ := hok rfl
  cases hwides with
  | cons hfirst hrest =>
    cases hrest with
    | cons hsecond hlast =>
      cases hfirst
      cases hsecond
      cases hlast
      exact ⟨_, hrun, hsplit (by decide) (by decide)⟩

end Nia.Windows
