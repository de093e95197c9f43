import Mathlib

/-! How a program splits its command line.

The rules are those of the Microsoft C runtime. Spaces and tabs separate arguments outside quotes. Backslashes mean
themselves unless a quote follows; then two stand for one, and one that is left over makes the quote a character of
the argument. Two quotes inside quotes are one to the runtime; a quote that closes an argument here is followed by a
blank or by nothing, so that no line built meets that rule, and it is left out. The first argument, the program's name,
ends at a blank outside quotes, and backslashes in it mean nothing special. Arguments that are written as `quote` says
are read back, if the name has no quotes and no backslash at its end (`splitCommandLine_quoted`). -/
namespace Nia.Windows

open List

def space : UInt16 := 32
def tab : UInt16 := 9
def quotation : UInt16 := 34
def backslash : UInt16 := 92

def isBlank (unit : UInt16) : Bool := unit == space || unit == tab

/-! ### Splitting -/

/-- Where the splitting is: what it has of an argument, the backslashes right before, whether it is inside quotes,
and whether an argument has begun. -/
structure Scan where
  current : List UInt16 := []
  slashes : Nat := 0
  inQuotes : Bool := false
  started : Bool := false

/-- The argument with the backslashes that turned out to be its own. -/
def Scan.argument (s : Scan) : List UInt16 := s.current ++ List.replicate s.slashes backslash

def Scan.quote (s : Scan) : Scan :=
  let current := s.current ++ List.replicate (s.slashes / 2) backslash
  if s.slashes % 2 = 1 then { current := current ++ [quotation], slashes := 0, inQuotes := s.inQuotes, started := true }
  else { current, slashes := 0, inQuotes := !s.inQuotes, started := true }

def splitArguments (s : Scan) : List UInt16 → List (List UInt16)
  | [] => if s.started then [s.argument] else []
  | unit :: rest =>
    if unit = backslash then splitArguments { s with slashes := s.slashes + 1, started := true } rest
    else if unit = quotation then splitArguments s.quote rest
    else if isBlank unit && !s.inQuotes then
      if s.started then s.argument :: splitArguments {} rest else splitArguments {} rest
    else
      splitArguments { current := s.argument ++ [unit], slashes := 0, inQuotes := s.inQuotes, started := true } rest

/-- The program's name, and the line behind it. -/
def programName (inQuotes : Bool) (name : List UInt16) : List UInt16 → List UInt16 × List UInt16
  | [] => (name, [])
  | unit :: rest =>
    if unit = quotation then programName (!inQuotes) name rest
    else if isBlank unit && !inQuotes then (name, rest)
    else programName inQuotes (name ++ [unit]) rest

def splitCommandLine (line : List UInt16) : List (List UInt16) :=
  let (name, rest) := programName false [] line
  name :: splitArguments {} rest

/-! ### Quoting -/

/-- The units of an argument behind some backslashes: backslashes are doubled in front of a quote, and in front of the
closing one. -/
def escape (quoted : Bool) (slashes : Nat) : List UInt16 → List UInt16
  | [] => List.replicate (if quoted then slashes * 2 else slashes) backslash
  | unit :: rest =>
    if unit = backslash then escape quoted (slashes + 1) rest
    else if unit = quotation then
      List.replicate (slashes * 2 + 1) backslash ++ quotation :: escape quoted 0 rest
    else List.replicate slashes backslash ++ unit :: escape quoted 0 rest

def needsQuotes (units : List UInt16) : Bool := units.isEmpty || units.any fun unit => isBlank unit || unit == quotation

def quote (units : List UInt16) : List UInt16 :=
  if needsQuotes units then quotation :: (escape true 0 units ++ [quotation]) else escape false 0 units

section

variable {s : Scan} {units rest : List UInt16}

theorem backslash_ne_quotation : backslash ≠ quotation := by decide

theorem splitArguments_backslashes (count : Nat) (hstarted : s.started = true) :
    splitArguments s (List.replicate count backslash ++ rest) =
      splitArguments { s with slashes := s.slashes + count } rest := by
  induction count generalizing s with
  | zero => rfl
  | succ count ih =>
    rw [replicate_succ, cons_append, splitArguments, if_pos rfl, ih rfl]
    simp only [hstarted, Nat.add_assoc, Nat.add_comm 1 count]

/-- Inside quotes the escaped units are read back, up to the closing quote. -/
theorem splitArguments_escape (current : List UInt16) (slashes : Nat) :
    splitArguments ⟨current, 0, true, true⟩ (escape true slashes units ++ quotation :: rest) =
      splitArguments ⟨current ++ List.replicate slashes backslash ++ units, 0, false, true⟩ rest := by
  induction units generalizing current slashes with
  | nil =>
    rw [escape, if_pos rfl, splitArguments_backslashes _ rfl, splitArguments, if_neg backslash_ne_quotation.symm,
      if_pos rfl]
    simp [Scan.quote]
  | cons unit units ih =>
    rw [escape]
    split
    · next hunit =>
      rw [ih, hunit, replicate_succ']
      simp
    · next hbackslash =>
      split
      · next hunit =>
        subst hunit
        rw [append_assoc, splitArguments_backslashes _ rfl, cons_append, splitArguments,
          if_neg backslash_ne_quotation.symm, if_pos rfl]
        have hodd : (slashes * 2 + 1) % 2 = 1 := by omega
        have hhalf : (slashes * 2 + 1) / 2 = slashes := by omega
        simp only [Scan.quote, Nat.zero_add, hodd, hhalf, if_true]
        rw [ih]
        simp
      · next hquotation =>
        rw [append_assoc, splitArguments_backslashes _ rfl, cons_append, splitArguments,
          if_neg hbackslash, if_neg hquotation, Bool.not_true, Bool.and_false, if_neg Bool.false_ne_true, ih]
        simp [Scan.argument]

/-- Units without blanks and quotes are read as they are. -/
theorem splitArguments_plain (hunits : ∀ unit ∈ units, isBlank unit = false ∧ unit ≠ quotation) (hne : units ≠ []) :
    ∃ s' : Scan, splitArguments s (units ++ rest) = splitArguments s' rest ∧ s'.started = true ∧
      s'.inQuotes = s.inQuotes ∧ s'.argument = s.argument ++ units := by
  induction units generalizing s with
  | nil => exact absurd rfl hne
  | cons unit units ih =>
    obtain ⟨⟨hblank, hquotation⟩, hrest⟩ := forall_mem_cons.mp hunits
    obtain ⟨next, hnext, hstarted, hquotes, hargument⟩ : ∃ next : Scan,
        splitArguments s (unit :: (units ++ rest)) = splitArguments next (units ++ rest) ∧ next.started = true ∧
        next.inQuotes = s.inQuotes ∧ next.argument = s.argument ++ [unit] := by
      rw [splitArguments]
      split
      · next hunit =>
        refine ⟨_, rfl, rfl, rfl, ?_⟩
        rw [Scan.argument, Scan.argument, replicate_succ', hunit, append_assoc]
      · rw [hblank, Bool.false_and, if_neg Bool.false_ne_true]
        exact ⟨_, rfl, rfl, rfl, append_nil _⟩
    rw [cons_append, hnext]
    by_cases hlast : units = []
    · subst hlast
      exact ⟨next, rfl, hstarted, hquotes, hargument⟩
    · obtain ⟨s', hs', hstarted', hquotes', hargument'⟩ := ih (s := next) hrest hlast
      exact ⟨s', hs', hstarted', hquotes'.trans hquotes, by rw [hargument', hargument, append_assoc]; rfl⟩

/-! ### Quoting and splitting -/

theorem plain_of_needsQuotes (h : needsQuotes units = false) :
    units ≠ [] ∧ ∀ unit ∈ units, isBlank unit = false ∧ unit ≠ quotation := by
  rw [needsQuotes, Bool.or_eq_false_iff, any_eq_false] at h
  refine ⟨isEmpty_eq_false_iff.mp h.1, fun unit hunit => ?_⟩
  simpa using h.2 unit hunit

/-- Without quotes there is nothing to escape, except before a closing quote. -/
theorem escape_eq {quoted : Bool} {slashes : Nat} (hunits : quotation ∉ units)
    (hlast : quoted = true → (List.replicate slashes backslash ++ units).getLast? ≠ some backslash) :
    escape quoted slashes units = List.replicate slashes backslash ++ units := by
  induction units generalizing slashes with
  | nil =>
    rw [escape, append_nil]
    cases quoted with
    | false => rfl
    | true =>
      cases slashes with
      | zero => rfl
      | succ slashes => simp [replicate_succ'] at hlast
  | cons unit units ih =>
    obtain ⟨hunit, hrest⟩ := not_or.mp (mem_cons.not.mp hunits)
    rw [escape]
    split
    · next hbackslash =>
      subst hbackslash
      have hshift : List.replicate slashes backslash ++ backslash :: units =
          List.replicate (slashes + 1) backslash ++ units := by
        rw [replicate_succ', append_assoc]
        rfl
      rw [hshift] at hlast ⊢
      exact ih hrest hlast
    · next hbackslash =>
      rw [if_neg (Ne.symm hunit), ih hrest fun hquoted => ?_]
      · rfl
      · rw [replicate_zero, nil_append]
        intro hback
        refine hlast hquoted ?_
        rw [List.getLast?_append, List.getLast?_cons, hback]
        rfl

theorem splitArguments_quote (units rest : List UInt16) : ∃ s' : Scan,
    splitArguments {} (quote units ++ rest) = splitArguments s' rest ∧
      s'.started = true ∧ s'.inQuotes = false ∧ s'.argument = units := by
  unfold quote
  split
  · refine ⟨⟨units, 0, false, true⟩, ?_, rfl, rfl, append_nil units⟩
    rw [cons_append, append_assoc, splitArguments, if_neg backslash_ne_quotation.symm, if_pos rfl]
    exact splitArguments_escape [] 0
  · next hplain =>
    obtain ⟨hne, hunits⟩ := plain_of_needsQuotes (Bool.not_eq_true _ ▸ hplain)
    rw [escape_eq (fun hmem => (hunits _ hmem).2 rfl) fun hquoted => absurd hquoted Bool.false_ne_true]
    exact splitArguments_plain hunits hne

/-- The line behind the program's name. -/
def argumentsLine (arguments : List (List UInt16)) : List UInt16 := arguments.flatMap fun units => space :: quote units

theorem splitArguments_line (arguments : List (List UInt16)) (hstarted : s.started = true)
    (hquotes : s.inQuotes = false) : splitArguments s (argumentsLine arguments) = s.argument :: arguments := by
  induction arguments generalizing s with
  | nil => exact if_pos hstarted
  | cons units arguments ih =>
    obtain ⟨s', hsplit, hstarted', hquotes', hargument⟩ :=
      splitArguments_quote units (argumentsLine arguments)
    have hline : argumentsLine (units :: arguments) = space :: (quote units ++ argumentsLine arguments) := rfl
    rw [hline, splitArguments, if_neg (by decide), if_neg (by decide), hquotes, if_pos (by decide), if_pos hstarted,
      hsplit, ih hstarted' hquotes', hargument]

theorem programName_plain {inQuotes : Bool} {name : List UInt16} (hunits : quotation ∉ units)
    (hblanks : inQuotes = true ∨ ∀ unit ∈ units, isBlank unit = false) :
    programName inQuotes name (units ++ rest) = programName inQuotes (name ++ units) rest := by
  induction units generalizing name with
  | nil => rw [append_nil, nil_append]
  | cons unit units ih =>
    obtain ⟨hunit, hrest⟩ := not_or.mp (mem_cons.not.mp hunits)
    have hliteral : ¬ (isBlank unit && !inQuotes) = true := by
      rcases hblanks with rfl | hblanks
      · simp
      · simp [hblanks unit mem_cons_self]
    rw [cons_append, programName, if_neg (Ne.symm hunit), if_neg hliteral,
      ih hrest (hblanks.imp_right fun h unit hmem => h unit (mem_cons_of_mem _ hmem)), append_assoc]
    rfl

theorem programName_quote (hunits : quotation ∉ units) (hlast : units.getLast? ≠ some backslash) :
    programName false [] (quote units ++ rest) = programName false units rest := by
  have hescape (quoted : Bool) : escape quoted 0 units = units := escape_eq hunits fun _ => hlast
  rw [quote]
  split
  · rw [hescape, cons_append, append_assoc, programName, if_pos rfl, Bool.not_false,
      programName_plain hunits (.inl rfl), nil_append, singleton_append, programName, if_pos rfl]
    rfl
  · next hplain =>
    obtain ⟨-, hblanks⟩ := plain_of_needsQuotes (Bool.not_eq_true _ ▸ hplain)
    rw [hescape, programName_plain hunits (.inr fun unit hunit => (hblanks unit hunit).1), nil_append]

/-- A line of quoted arguments splits into them. -/
theorem splitCommandLine_quoted (arguments : List (List UInt16)) (hunits : quotation ∉ units)
    (hlast : units.getLast? ≠ some backslash) :
    splitCommandLine (quote units ++ argumentsLine arguments) = units :: arguments := by
  rw [splitCommandLine, programName_quote hunits hlast]
  cases arguments with
  | nil => rfl
  | cons argument arguments =>
    obtain ⟨s', hsplit, hstarted, hquotes, hargument⟩ :=
      splitArguments_quote argument (argumentsLine arguments)
    have hline : argumentsLine (argument :: arguments) = space :: (quote argument ++ argumentsLine arguments) := rfl
    rw [hline, programName, if_neg (by decide), if_pos (by decide)]
    dsimp only
    rw [hsplit, splitArguments_line arguments hstarted hquotes, hargument]

end

end Nia.Windows
