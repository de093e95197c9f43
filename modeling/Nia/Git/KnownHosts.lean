import Nia.Git.Wire

/-! Trusted hosts.

An entry of the known hosts file has a list of patterns, some of them negated, and a key; it may
be a revocation. `verify` runs over the entries with two flags and stops at the first revocation
of the key, so what it accepts depends only on which entries there are (`verify_eq_ok`). Plain
patterns are matched by a loop with one saved star; on candidates without a star of their own it
decides the language of the pattern (`globMatch_iff`). Base64 and the keyed hash of hashed
patterns are parameters. -/
namespace Nia.Git

open List

/-! ### Patterns with wildcards -/

def eqIgnoreAsciiCase (a b : UInt8) : Bool := asciiLower a == asciiLower b

/-- `*` -/
def star : UInt8 := 42

/-- `?` -/
def anyByte : UInt8 := 63

/-- What is left of the pattern and of the candidate, and the same from the last star on. -/
def globLoop : Nat → Bytes → Bytes → Option (Bytes × Bytes) → Option Bool
  | 0, _, _, _ => none
  | _ + 1, pattern, [], _ => some (pattern.all (· == star))
  | fuel + 1, pattern, byte :: candidate, lastStar =>
    if pattern.head?.any fun first => first == anyByte || eqIgnoreAsciiCase first byte then
      globLoop fuel pattern.tail candidate lastStar
    else if pattern.head? = some star then
      globLoop fuel pattern.tail (byte :: candidate) (some (pattern.tail, byte :: candidate))
    else
      match lastStar with
      | some (afterStar, starMatch) =>
        globLoop fuel afterStar starMatch.tail (some (afterStar, starMatch.tail))
      | none => some false

variable {fuel : Nat} {pattern candidate : Bytes} {byte : UInt8} {lastStar : Option (Bytes × Bytes)}

theorem globLoop_cons : globLoop (fuel + 1) pattern (byte :: candidate) lastStar =
      if pattern.head?.any fun first => first == anyByte || eqIgnoreAsciiCase first byte then
        globLoop fuel pattern.tail candidate lastStar
      else if pattern.head? = some star then
        globLoop fuel pattern.tail (byte :: candidate) (some (pattern.tail, byte :: candidate))
      else
        match lastStar with
        | some (afterStar, starMatch) =>
          globLoop fuel afterStar starMatch.tail (some (afterStar, starMatch.tail))
        | none => some false := by
  rw [globLoop.eq_def]

/-- More steps than the loop can make. -/
def globFuel (pattern candidate : Bytes) : Nat :=
  pattern.length + candidate.length * (candidate.length + 1) + candidate.length + 1

def globMatch (pattern candidate : Bytes) : Bool :=
  globLoop (globFuel pattern candidate) pattern candidate none == some true

/-- The language of a pattern. -/
inductive InLanguage : Bytes → Bytes → Prop where
  | nil : InLanguage [] []
  | star {pattern candidate : Bytes} (skipped : Bytes) (rest : InLanguage pattern candidate) :
    InLanguage (star :: pattern) (skipped ++ candidate)
  | byte {pattern candidate : Bytes} {first byte : UInt8} (no_star : first ≠ Nia.Git.star)
    (same : first = anyByte ∨ eqIgnoreAsciiCase first byte = true) (rest : InLanguage pattern candidate) :
    InLanguage (first :: pattern) (byte :: candidate)

theorem inLanguage_star_iff : InLanguage (star :: pattern) candidate ↔ ∃ k, InLanguage pattern (candidate.drop k) := by
  constructor
  · intro h
    cases h with
    | star skipped rest => exact ⟨skipped.length, by rwa [drop_left]⟩
    | byte no_star => exact absurd rfl no_star
  · rintro ⟨k, h⟩
    have := InLanguage.star (candidate.take k) h
    rwa [take_append_drop] at this

theorem inLanguage_cons_iff {first : UInt8} (hstar : first ≠ star) : InLanguage (first :: pattern) (byte :: candidate) ↔
      (first = anyByte ∨ eqIgnoreAsciiCase first byte = true) ∧ InLanguage pattern candidate := by
  constructor
  · generalize hc : byte :: candidate = whole
    intro h
    cases h with
    | star => exact absurd rfl hstar
    | byte _ same rest =>
      cases hc
      exact ⟨same, rest⟩
  · exact fun ⟨same, rest⟩ => .byte hstar same rest

theorem inLanguage_nil_iff : InLanguage pattern [] ↔ pattern.all (· == star) = true := by
  induction pattern with
  | nil => exact ⟨fun _ => rfl, fun _ => .nil⟩
  | cons first rest ih =>
    by_cases hstar : first = star
    · subst hstar
      simp only [inLanguage_star_iff, drop_nil, exists_const, ih, all_cons, beq_self_eq_true, Bool.true_and]
    · have hno : ¬ InLanguage (first :: rest) [] := by
        generalize hc : ([] : Bytes) = whole
        intro h
        cases h with
        | star => exact hstar rfl
        | byte => cases hc
      simp [hno, hstar]

/-- Bytes of the pattern that are no stars take as many bytes of the candidate. -/
theorem inLanguage_append {segment : Bytes} (hsegment : star ∉ segment)
    (h : InLanguage (segment ++ pattern) candidate) :
    segment.length ≤ candidate.length ∧ InLanguage pattern (candidate.drop segment.length) := by
  induction segment generalizing candidate with
  | nil => exact ⟨Nat.zero_le _, h⟩
  | cons first rest ih =>
    obtain ⟨hfirst, hrest⟩ := not_or.mp (mem_cons.not.mp hsegment)
    rw [cons_append] at h
    cases candidate with
    | nil =>
      rw [inLanguage_nil_iff, all_cons, Bool.and_eq_true, beq_iff_eq] at h
      exact absurd h.1.symm hfirst
    | cons byte candidate =>
      obtain ⟨-, h⟩ := (inLanguage_cons_iff (Ne.symm hfirst)).mp h
      obtain ⟨hle, h⟩ := ih hrest h
      exact ⟨Nat.succ_le_succ hle, h⟩

/-- Where the loop may still find the candidate: here, or with the last star taking more. -/
def Reachable (pattern candidate : Bytes) : Option (Bytes × Bytes) → Prop
  | none => InLanguage pattern candidate
  | some (afterStar, starMatch) => InLanguage pattern candidate ∨ ∃ k, InLanguage afterStar (starMatch.tail.drop k)

/-- Since the last star, the loop has run over a part of the pattern without stars. -/
def Since (pattern candidate : Bytes) : Option (Bytes × Bytes) → Prop
  | none => True
  | some (afterStar, starMatch) => ∃ segment, star ∉ segment ∧ afterStar = segment ++ pattern ∧
      segment.length ≤ starMatch.length ∧ candidate = starMatch.drop segment.length

/-- Falls with every step of the loop. -/
def globSteps (width : Nat) (pattern candidate : Bytes) : Option (Bytes × Bytes) → Nat
  | none => pattern.length + width * (width + 1) + candidate.length
  | some (afterStar, starMatch) => afterStar.length + starMatch.length * (width + 1) + candidate.length

theorem since_cons {first : UInt8} (hfirst : first ≠ star)
    (h : Since (first :: pattern) (byte :: candidate) lastStar) : Since pattern candidate lastStar := by
  match lastStar, h with
  | none, _ => trivial
  | some (afterStar, starMatch), ⟨segment, hno, hafter, hle, hcand⟩ =>
    have hdrop : starMatch.drop (segment.length + 1) = candidate := by
      rw [← drop_drop, ← hcand, drop_one, tail_cons]
    have hlt : segment.length < starMatch.length := by
      by_contra hge
      rw [drop_eq_nil_of_le (Nat.le_of_not_lt hge)] at hcand
      cases hcand
    refine ⟨segment ++ [first], ?_, ?_, ?_, ?_⟩
    · simpa using ⟨hno, Ne.symm hfirst⟩
    · rw [hafter, append_assoc, singleton_append]
    · simpa using hlt
    · rw [length_append, length_singleton, hdrop]

/-- A later star makes an earlier one needless: what the earlier one could still reach is reached
from here. -/
theorem reachable_star (h : Since (star :: pattern) candidate lastStar) :
    Reachable (star :: pattern) candidate lastStar ↔ InLanguage (star :: pattern) candidate := by
  match lastStar, h with
  | none, _ => exact Iff.rfl
  | some (afterStar, starMatch), ⟨segment, hno, hafter, hle, hcand⟩ =>
    refine ⟨fun hreach => ?_, Or.inl⟩
    rcases hreach with here | ⟨k, later⟩
    · exact here
    · rw [hafter] at later
      obtain ⟨-, hrest⟩ := inLanguage_append hno later
      obtain ⟨j, hj⟩ := inLanguage_star_iff.mp hrest
      refine inLanguage_star_iff.mpr ⟨1 + k + j, ?_⟩
      rw [hcand, drop_drop]
      rw [← drop_one, drop_drop, drop_drop, drop_drop] at hj
      convert hj using 2
      omega

/-- At the end of the candidate no earlier star helps: it would leave too few bytes. -/
theorem reachable_nil (h : Since pattern [] lastStar) : Reachable pattern [] lastStar ↔ InLanguage pattern [] := by
  match lastStar, h with
  | none, _ => exact Iff.rfl
  | some (afterStar, starMatch), ⟨segment, hno, hafter, hle, hcand⟩ =>
    refine ⟨fun hreach => ?_, Or.inl⟩
    rcases hreach with here | ⟨k, later⟩
    · exact here
    · rw [hafter] at later
      obtain ⟨hlong, hrest⟩ := inLanguage_append hno later
      have hall : starMatch.length ≤ segment.length := drop_eq_nil_iff.mp hcand.symm
      have hnil : (starMatch.tail.drop k).drop segment.length = [] := by
        apply drop_eq_nil_of_le
        rw [length_drop, length_tail]
        omega
      rwa [hnil] at hrest

/-- What is left of the candidate, here and at the last star, is short and has no star. -/
def Within (width : Nat) (candidate : Bytes) (lastStar : Option (Bytes × Bytes)) : Prop :=
  ∀ rest ∈ candidate :: (lastStar.map Prod.snd).toList, rest.length ≤ width ∧ star ∉ rest

variable {width : Nat}

/-- A star is remembered in place of the one before. -/
theorem globSteps_star
    (hsince : Since (star :: pattern) candidate lastStar) (hwithin : Within width candidate lastStar) :
    globSteps width pattern candidate (some (pattern, candidate)) <
      globSteps width (star :: pattern) candidate lastStar := by
  match lastStar, hsince with
  | none, _ =>
    have := Nat.mul_le_mul_right (width + 1) (hwithin candidate (mem_cons_self ..)).1
    simp only [globSteps, length_cons]
    omega
  | some (afterStar, starMatch), ⟨segment, _, hafter, _, hcand⟩ =>
    have hle : candidate.length ≤ starMatch.length := by rw [hcand, length_drop]; exact Nat.sub_le _ _
    have := Nat.mul_le_mul_right (width + 1) hle
    simp only [globSteps, hafter, length_append, length_cons]
    omega

theorem Within.tail (h : Within width (byte :: candidate) lastStar) : Within width candidate lastStar := by
  intro rest hrest
  rcases mem_cons.mp hrest with rfl | hrest
  · obtain ⟨hle, hno⟩ := h _ (mem_cons_self ..)
    exact ⟨(Nat.le_succ _).trans hle, fun hmem => hno (mem_cons_of_mem _ hmem)⟩
  · exact h rest (mem_cons_of_mem _ hrest)

theorem Within.here (h : Within width candidate lastStar) : Within width candidate (some (pattern, candidate)) := by
  intro rest hrest
  obtain rfl : rest = candidate := by simpa using hrest
  exact h rest (mem_cons_self ..)

theorem Within.back {afterStar starMatch : Bytes}
    (h : Within width candidate (some (afterStar, byte :: starMatch))) :
    Within width starMatch (some (afterStar, starMatch)) := by
  have hstar : Within width (byte :: starMatch) none := by
    intro rest hrest
    obtain rfl : rest = byte :: starMatch := by simpa using hrest
    exact h _ (by simp)
  exact hstar.tail.here

theorem since_here : Since pattern candidate (some (pattern, candidate)) :=
  ⟨[], not_mem_nil, rfl, Nat.zero_le _, rfl⟩

theorem not_inLanguage
    (hmiss : ¬ (pattern.head?.any fun first => first == anyByte || eqIgnoreAsciiCase first byte) = true)
    (hstar : pattern.head? ≠ some star) : ¬ InLanguage pattern (byte :: candidate) := by
  generalize hc : byte :: candidate = whole
  intro h
  cases h with
  | nil => cases hc
  | star => exact hstar rfl
  | byte _ same =>
    cases hc
    exact hmiss (by simpa using same)

theorem reachable_here :
    Reachable pattern candidate (some (pattern, candidate)) ↔ InLanguage (star :: pattern) candidate := by
  rw [inLanguage_star_iff]
  constructor
  · rintro (here | ⟨k, later⟩)
    · exact ⟨0, here⟩
    · exact ⟨k + 1, by rwa [← drop_one, drop_drop, Nat.add_comm 1 k] at later⟩
  · rintro ⟨k, h⟩
    cases k with
    | zero => exact .inl h
    | succ k => exact .inr ⟨k, by rwa [← drop_one, drop_drop, Nat.add_comm 1 k]⟩

theorem head_any (h : (pattern.head?.any fun first => first == anyByte || eqIgnoreAsciiCase first byte) = true) :
    ∃ first rest, pattern = first :: rest ∧ (first = anyByte ∨ eqIgnoreAsciiCase first byte = true) := by
  cases pattern with
  | nil => cases h
  | cons first rest => exact ⟨first, rest, rfl, by simpa using h⟩

theorem ne_star_of_same {first : UInt8} (h : first = anyByte ∨ eqIgnoreAsciiCase first byte = true)
    (hbyte : byte ≠ star) : first ≠ star := by
  rintro rfl
  rcases h with h | h
  · exact absurd h (by decide)
  · revert h hbyte byte
    decide +kernel

/-- The loop ends and finds what is reachable. -/
theorem globLoop_eq (hsince : Since pattern candidate lastStar)
    (hwithin : Within width candidate lastStar) (hfuel : globSteps width pattern candidate lastStar < fuel) :
    ∃ found, globLoop fuel pattern candidate lastStar = some found ∧
      (found = true ↔ Reachable pattern candidate lastStar) := by
  induction fuel generalizing pattern candidate lastStar with
  | zero => exact absurd hfuel (Nat.not_lt_zero _)
  | succ fuel ih =>
    cases candidate with
    | nil => exact ⟨_, rfl, by rw [reachable_nil hsince, inLanguage_nil_iff]⟩
    | cons byte candidate =>
      have hbyte : byte ≠ star := fun h =>
        (hwithin _ (mem_cons_self ..)).2 (h ▸ mem_cons_self ..)
      by_cases hhit : (pattern.head?.any fun first => first == anyByte || eqIgnoreAsciiCase first byte) = true
      · obtain ⟨first, pattern, rfl, hsame⟩ := head_any hhit
        have hfirst := ne_star_of_same hsame hbyte
        have hstep : globLoop (fuel + 1) (first :: pattern) (byte :: candidate) lastStar =
            globLoop fuel pattern candidate lastStar := by
          rw [globLoop_cons, if_pos hhit, tail_cons]
        rw [hstep]
        obtain ⟨found, hfound, hreach⟩ := ih (since_cons hfirst hsince) hwithin.tail
          (by cases lastStar <;> simp only [globSteps, length_cons] at hfuel ⊢ <;> omega)
        refine ⟨found, hfound, hreach.trans ?_⟩
        cases lastStar <;> simp only [Reachable, inLanguage_cons_iff hfirst, hsame, true_and]
      · by_cases hstar : pattern.head? = some star
        · obtain ⟨pattern, rfl⟩ := List.head?_eq_some_iff.mp hstar
          have hstep : globLoop (fuel + 1) (star :: pattern) (byte :: candidate) lastStar =
              globLoop fuel pattern (byte :: candidate) (some (pattern, byte :: candidate)) := by
            rw [globLoop_cons, if_neg hhit, if_pos hstar, tail_cons]
          rw [hstep]
          obtain ⟨found, hfound, hreach⟩ := ih since_here hwithin.here
            (Nat.lt_of_lt_of_le (globSteps_star hsince hwithin) (Nat.le_of_lt_succ hfuel))
          exact ⟨found, hfound, hreach.trans (reachable_here.trans (reachable_star hsince).symm)⟩
        · have hhere : ¬ InLanguage pattern (byte :: candidate) := not_inLanguage hhit hstar
          rw [globLoop_cons, if_neg hhit, if_neg hstar]
          match lastStar, hsince with
          | none, _ => exact ⟨false, rfl, by simp only [Reachable, hhere, Bool.false_eq_true]⟩
          | some (afterStar, []), ⟨segment, _, _, _, hcand⟩ =>
            rw [drop_nil] at hcand
            cases hcand
          | some (afterStar, skipped :: starMatch), ⟨segment, _, _, hle, hcand⟩ =>
            have hback := hwithin.back
            obtain ⟨found, hfound, hreach⟩ := ih since_here hback (by
              have := (hback starMatch (mem_cons_self ..)).1
              simp only [globSteps, length_cons, Nat.add_mul] at hfuel ⊢
              omega)
            refine ⟨found, hfound, hreach.trans (reachable_here.trans ?_)⟩
            simp only [inLanguage_star_iff, Reachable, hhere, false_or, tail_cons]

theorem globMatch_iff (hcandidate : star ∉ candidate) :
    globMatch pattern candidate = true ↔ InLanguage pattern candidate := by
  have hwithin : Within candidate.length candidate none := by
    intro rest hrest
    obtain rfl : rest = candidate := by simpa using hrest
    exact ⟨Nat.le_refl _, hcandidate⟩
  have hsince : Since pattern candidate none := trivial
  obtain ⟨found, hfound, hreach⟩ := globLoop_eq hsince hwithin (Nat.lt_succ_self _)
  have hrun : globLoop (globFuel pattern candidate) pattern candidate none = some found := hfound
  rw [globMatch, hrun, ← show found = true ↔ InLanguage pattern candidate from hreach]
  simp

/-! ### A star in the candidate

The loop compares the two bytes before it looks for a star, so a star of the pattern that meets a
star of the candidate is spent as a byte and is not remembered. -/

theorem globLoop_anyBytes (skipped : Bytes) :
    globLoop (fuel + skipped.length) (List.replicate skipped.length anyByte ++ pattern) (skipped ++ candidate) none =
      globLoop fuel pattern candidate none := by
  induction skipped with
  | nil => rfl
  | cons byte skipped ih =>
    rw [length_cons, ← Nat.add_assoc, cons_append, globLoop_cons, if_pos (by simp [replicate_succ])]
    exact ih

theorem inLanguage_anyBytes (skipped : Bytes) (h : InLanguage pattern candidate) :
    InLanguage (List.replicate skipped.length anyByte ++ pattern) (skipped ++ candidate) := by
  induction skipped with
  | nil => exact h
  | cons byte skipped ih => exact .byte (by decide) (.inl rfl) ih

/-- One byte more than the candidate has, but for the star, which may take none. -/
def starPattern (before after : Bytes) : Bytes :=
  List.replicate before.length anyByte ++ star :: List.replicate (after.length + 1) anyByte

theorem inLanguage_starPattern (before after : Bytes) :
    InLanguage (starPattern before after) (before ++ star :: after) := by
  apply inLanguage_anyBytes
  apply InLanguage.star []
  refine .byte (by decide) (.inl rfl) ?_
  have := inLanguage_anyBytes after .nil
  rwa [append_nil, append_nil] at this

theorem globLoop_starPattern (fuel : Nat) (before after : Bytes) :
    globLoop (fuel + 1 + after.length + 1 + before.length) (starPattern before after) (before ++ star :: after) none =
      some false := by
  have hlast : globLoop (fuel + 1 + after.length) (List.replicate after.length anyByte ++ [anyByte]) (after ++ [])
      none = globLoop (fuel + 1) [anyByte] [] none := globLoop_anyBytes after
  rw [append_nil, ← replicate_succ'] at hlast
  rw [starPattern, globLoop_anyBytes, globLoop_cons, if_pos (by simp [eqIgnoreAsciiCase]), tail_cons, hlast]
  rfl

theorem globMatch_starPattern (before after : Bytes) :
    globMatch (starPattern before after) (before ++ star :: after) = false := by
  have hle : before.length + after.length + 2 ≤ globFuel (starPattern before after) (before ++ star :: after) := by
    simp only [globFuel, starPattern, length_append, length_cons, length_replicate]
    omega
  obtain ⟨fuel, hfuel⟩ := Nat.exists_eq_add_of_le' hle
  have hsteps : fuel + (before.length + after.length + 2) = fuel + 1 + after.length + 1 + before.length := by omega
  rw [globMatch, hfuel, hsteps, globLoop_starPattern]
  rfl

/-- The loop decides every pattern's language exactly on the candidates without a star. -/
theorem globMatch_iff_all (candidate : Bytes) :
    (∀ pattern, globMatch pattern candidate = true ↔ InLanguage pattern candidate) ↔ star ∉ candidate := by
  constructor
  · intro h hmem
    obtain ⟨before, after, rfl⟩ := append_of_mem hmem
    have := (h (starPattern before after)).mpr (inLanguage_starPattern before after)
    rw [globMatch_starPattern] at this
    cases this
  · exact fun h pattern => globMatch_iff h

/-! ### Verifying a host key -/

structure KnownHostEntry where
  patterns : List Bytes
  hostKey : Bytes
  revoked : Bool

/-- Base64, and the check of a message against a tag under a key. -/
structure Hashing where
  decodeBase64 : Bytes → Option Bytes
  hmacVerify : Bytes → Bytes → Bytes → Bool

variable (H : Hashing)

/-- The fields between bars: an empty one, the version, the salt and the digest. -/
def hashedKnownHostMatches (pattern candidate : Bytes) : Bool :=
  match pattern.splitOn 124 with
  | _ :: version :: salt :: digest :: _ =>
    match H.decodeBase64 salt, H.decodeBase64 digest with
    | some salt, some expected => version == [49] && H.hmacVerify salt candidate expected
    | _, _ => false
  | _ => false

def decimal (n : Nat) : Bytes :=
  if n = 0 then [48] else (Nat.digits 10 n).reverse.map fun digit => UInt8.ofNat (48 + digit)

/-- `host`, or `[host]:port` for a port other than 22 -/
def hostPort (host : Bytes) (port : UInt16) : Bytes :=
  if port = 22 then host else 91 :: host ++ [93, 58] ++ decimal port.toNat

/-- The pattern starts with `!`. -/
def isNegated (pattern : Bytes) : Bool := pattern.head? == some 33

def knownHostPatternMatches (pattern host : Bytes) (port : UInt16) : Bool :=
  let pattern := if isNegated pattern then pattern.tail else pattern
  if [124, 49, 124].isPrefixOf pattern then
    hashedKnownHostMatches H pattern (hostPort host port) || (port == 22 && hashedKnownHostMatches H pattern host)
  else if pattern.head? = some 91 then
    globMatch pattern (hostPort host port)
  else
    port == 22 && globMatch pattern host

/-- Some pattern matches that is not negated, and no negated one does. -/
def KnownHostEntry.applies (host : Bytes) (port : UInt16) (entry : KnownHostEntry) : Bool :=
  (entry.patterns.filter fun pattern => !isNegated pattern).any (knownHostPatternMatches H · host port) &&
    !entry.patterns.any fun pattern => isNegated pattern && knownHostPatternMatches H pattern host port

def verifyLoop (host : Bytes) (port : UInt16) (hostKey : Bytes) :
    List KnownHostEntry → Bool → Bool → Except IoError Unit
  | [], matched, trustedKey =>
    if trustedKey then .ok ()
    else if matched then .error (.permissionDenied, "SSH host key does not match known_hosts")
    else .error (.notFound, "SSH host is not present in known_hosts")
  | entry :: entries, matched, trustedKey =>
    if entry.applies H host port then
      if entry.hostKey = hostKey then
        if entry.revoked then .error (.permissionDenied, "SSH host key is revoked")
        else verifyLoop host port hostKey entries true true
      else verifyLoop host port hostKey entries true trustedKey
    else verifyLoop host port hostKey entries matched trustedKey

def verify (entries : List KnownHostEntry) (host : Bytes) (port : UInt16) (hostKey : Bytes) :
    Except IoError Unit :=
  verifyLoop H host port hostKey entries false false

theorem verifyLoop_eq_ok {host hostKey : Bytes} {port : UInt16} {entries : List KnownHostEntry}
    {matched trustedKey : Bool} :
    verifyLoop H host port hostKey entries matched trustedKey = .ok () ↔
      (trustedKey = true ∨ ∃ entry ∈ entries, entry.applies H host port = true ∧ entry.hostKey = hostKey ∧
        entry.revoked = false) ∧
      ∀ entry ∈ entries, entry.applies H host port = true → entry.hostKey = hostKey → entry.revoked = false := by
  induction entries generalizing matched trustedKey with
  | nil => cases trustedKey <;> cases matched <;> simp [verifyLoop]
  | cons entry entries ih =>
    rw [verifyLoop]
    by_cases happlies : entry.applies H host port = true
    · by_cases hkey : entry.hostKey = hostKey
      · cases hrevoked : entry.revoked <;> simp [happlies, hkey, hrevoked, ih]
      · simp [happlies, hkey, ih]
    · simp [happlies, ih]

/-! ### What the file says -/

/-- A pattern without its negation names the host: hashed patterns and those that start with `[`
stand for the host and port, others for the host at port 22. -/
def Names (host : Bytes) (port : UInt16) (pattern : Bytes) : Prop :=
  if [124, 49, 124].isPrefixOf pattern then hashedKnownHostMatches H pattern (hostPort host port) = true
  else if pattern.head? = some 91 then InLanguage pattern (hostPort host port)
  else port = 22 ∧ InLanguage pattern host

structure Covers (host : Bytes) (port : UInt16) (entry : KnownHostEntry) : Prop where
  positive : ∃ pattern ∈ entry.patterns, isNegated pattern = false ∧ Names H host port pattern
  negative : ∀ pattern ∈ entry.patterns, isNegated pattern = true → ¬ Names H host port pattern.tail

structure Trusted (entries : List KnownHostEntry) (host : Bytes) (port : UInt16) (hostKey : Bytes) :
    Prop where
  held : ∃ entry ∈ entries, Covers H host port entry ∧ entry.hostKey = hostKey ∧ entry.revoked = false
  unrevoked : ¬ ∃ entry ∈ entries, Covers H host port entry ∧ entry.hostKey = hostKey ∧ entry.revoked = true

theorem star_notMem_decimal (n : Nat) : star ∉ decimal n := by
  rw [decimal]
  split
  · decide
  · intro hmem
    obtain ⟨digit, hdigit, heq⟩ := mem_map.mp hmem
    have hlt : digit < 10 := Nat.digits_lt_base (by decide) (mem_reverse.mp hdigit)
    revert heq
    interval_cases digit <;> decide

theorem star_notMem_hostPort {host : Bytes} (hhost : star ∉ host) (port : UInt16) :
    star ∉ hostPort host port := by
  rw [hostPort]
  split
  · exact hhost
  · simp only [cons_append, mem_cons, mem_append, not_mem_nil, or_false, not_or]
    exact ⟨by decide, ⟨hhost, by decide, by decide⟩, star_notMem_decimal _⟩

theorem knownHostPatternMatches_iff {host : Bytes} (hhost : star ∉ host) (port : UInt16) (pattern : Bytes) :
    knownHostPatternMatches H pattern host port = true ↔
      Names H host port (if isNegated pattern then pattern.tail else pattern) := by
  rw [knownHostPatternMatches, Names]
  generalize (if isNegated pattern then pattern.tail else pattern) = plain
  have hport : port = 22 → hostPort host port = host := fun h => if_pos h
  by_cases hhashed : [124, 49, 124].isPrefixOf plain = true
  · simp only [hhashed, if_true, Bool.or_eq_true, Bool.and_eq_true, beq_iff_eq, or_iff_left_iff_imp]
    rintro ⟨h22, hhash⟩
    rwa [hport h22]
  · simp only [hhashed, if_false, Bool.false_eq_true]
    split
    · exact globMatch_iff (star_notMem_hostPort hhost port)
    · rw [Bool.and_eq_true, beq_iff_eq, globMatch_iff hhost]

theorem applies_iff {host : Bytes} (hhost : star ∉ host) (port : UInt16) (entry : KnownHostEntry) :
    entry.applies H host port = true ↔ Covers H host port entry := by
  rw [KnownHostEntry.applies, Bool.and_eq_true, any_eq_true, Bool.not_eq_true', any_eq_false]
  constructor
  · rintro ⟨⟨pattern, hmem, hmatch⟩, hnone⟩
    obtain ⟨hmem, hplain⟩ := mem_filter.mp hmem
    rw [Bool.not_eq_true'] at hplain
    rw [knownHostPatternMatches_iff H hhost, hplain, if_neg Bool.false_ne_true] at hmatch
    refine ⟨⟨pattern, hmem, hplain, hmatch⟩, fun other hother hneg hnames => hnone other hother ?_⟩
    rw [Bool.and_eq_true, knownHostPatternMatches_iff H hhost, if_pos hneg]
    exact ⟨hneg, hnames⟩
  · rintro ⟨⟨pattern, hmem, hplain, hnames⟩, hnone⟩
    refine ⟨⟨pattern, mem_filter.mpr ⟨hmem, by rw [hplain]; rfl⟩, ?_⟩, fun other hother hmatch => ?_⟩
    · rwa [knownHostPatternMatches_iff H hhost, hplain, if_neg Bool.false_ne_true]
    · rw [Bool.and_eq_true, knownHostPatternMatches_iff H hhost] at hmatch
      rw [if_pos hmatch.1] at hmatch
      exact hnone other hother hmatch.1 hmatch.2

/-- **The file decides.** A key is accepted exactly when an entry for the host holds it and none
revokes it, in whatever order the entries stand; and the wildcards mean their language, for
exactly the candidates without a star of their own. -/
theorem verify_eq_ok_iff_trusted :
    (∀ entries host port hostKey, star ∉ host →
      (verify H entries host port hostKey = .ok () ↔ Trusted H entries host port hostKey)) ∧
    (∀ entries reordered host port hostKey, List.Perm entries reordered →
      (verify H entries host port hostKey = .ok () ↔ verify H reordered host port hostKey = .ok ())) ∧
    ∀ candidate, (∀ pattern, globMatch pattern candidate = true ↔ InLanguage pattern candidate) ↔
      star ∉ candidate := by
  refine ⟨fun entries host port hostKey hhost => ?_, fun entries reordered host port hostKey hperm => ?_,
    globMatch_iff_all⟩
  · simp only [verify, verifyLoop_eq_ok, applies_iff H hhost, Bool.false_eq_true, false_or]
    constructor
    · rintro ⟨held, unrevoked⟩
      refine ⟨held, fun ⟨entry, hmem, hcovers, hkey, hrevoked⟩ => ?_⟩
      rw [unrevoked entry hmem hcovers hkey] at hrevoked
      cases hrevoked
    · rintro ⟨held, unrevoked⟩
      exact ⟨held, fun entry hmem hcovers hkey =>
        Bool.eq_false_iff.mpr fun hrevoked => unrevoked ⟨entry, hmem, hcovers, hkey, hrevoked⟩⟩
  · simp only [verify, verifyLoop_eq_ok, hperm.mem_iff]

/-- `*.nia,!b.nia` with a key, and another key that is revoked for `?.nia`. -/
def hostEntries : List KnownHostEntry :=
  [⟨[[star, 46, 110, 105, 97], [33, 98, 46, 110, 105, 97]], [1], false⟩, ⟨[[anyByte, 46, 110, 105, 97]], [2], true⟩]

/-- The first key is trusted for `a.nia` and not for `b.nia`, the second for neither. -/
theorem verify_eq_ok_iff_trusted_entries :
    let H : Hashing := ⟨fun _ => none, fun _ _ _ => false⟩
    Trusted H hostEntries [97, 46, 110, 105, 97] 22 [1] ∧ ¬ Trusted H hostEntries [98, 46, 110, 105, 97] 22 [1] ∧
      ¬ Trusted H hostEntries [97, 46, 110, 105, 97] 22 [2] := by
  intro H
  have hverify := (verify_eq_ok_iff_trusted H).1 hostEntries
  refine ⟨(hverify _ 22 [1] (by decide)).mp (by decide +kernel), mt (hverify _ 22 [1] (by decide)).mpr ?_,
    mt (hverify _ 22 [2] (by decide)).mpr ?_⟩
  · decide +kernel
  · decide +kernel

/-- The pattern `*` does not name `[h]:2222`, though it matches that text; and it does not match
the text `*a`. -/
theorem star_pattern_is_refused :
    (InLanguage [star] (hostPort [104] 2222) ∧
      verify ⟨fun _ => none, fun _ _ _ => false⟩ [⟨[[star]], [1], false⟩] [104] 2222 [1] =
        .error (.notFound, "SSH host is not present in known_hosts")) ∧
    InLanguage [star] [star, 97] ∧ globMatch [star] [star, 97] = false :=
  ⟨⟨inLanguage_star_iff.mpr ⟨_, by rw [drop_length]; exact .nil⟩, by decide +kernel⟩,
    inLanguage_star_iff.mpr ⟨2, .nil⟩, by decide⟩

end Nia.Git
