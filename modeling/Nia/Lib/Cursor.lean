import Nia.Lib.Fallible

/-! Code that reads a text with a cursor.

A grammar relates a text to the value it stands for. `Reads` says that code reads the grammar's text at the cursor and
returns its value, or fails where no such text is there. A byte takes the derivative of a grammar; a sequence needs
that the text of its first part can end in one place only (`Single`). -/
namespace Nia.Lib.Cursor

open Fallible

variable {B E α β : Type} {text : List B} {cursor : Nat}

/-- The next byte, or an error at the end of the text. -/
def next (text : List B) (error : E) : Fallible Nat E B := do
  let byte ← Fallible.okOr text[← get]? error
  modify (· + 1)
  return byte

/-- A text of the grammar was at the cursor and is read, or there is none. -/
def Outcome (text : List B) (cursor : Nat) (grammar : List B → α → Prop) : Except E α → Nat → Prop
  | .ok value, cursor' => ∃ read, text.drop cursor = read ++ text.drop cursor' ∧ grammar read value
  | .error _, _ => ∀ read rest value, text.drop cursor = read ++ rest → ¬grammar read value

/-- At the cursor the code reads a text of the grammar, or there is none and it fails. -/
def Reads (text : List B) (cursor : Nat) (code : Fallible Nat E α) (grammar : List B → α → Prop) : Prop :=
  Returns code cursor (Outcome text cursor grammar)

/-- A text begins with at most one text of the grammar. -/
def Single (grammar : List B → α → Prop) : Prop :=
  ∀ {read rest read' rest' value value'}, read ++ rest = read' ++ rest' → grammar read value → grammar read' value' →
    read = read' ∧ value = value'

theorem drop_of_some {byte : B} (h : text[cursor]? = some byte) :
    text.drop cursor = byte :: text.drop (cursor + 1) := by
  obtain ⟨hlt, rfl⟩ := List.getElem?_eq_some_iff.mp h
  exact List.drop_eq_getElem_cons hlt

theorem drop_of_none (h : text[cursor]? = none) : text.drop cursor = [] :=
  List.drop_eq_nil_of_le (List.getElem?_eq_none_iff.mp h)

variable {grammar : List B → α → Prop}

theorem Reads.pure {value : α} (h : grammar [] value) :
    Reads text cursor (Pure.pure value : Fallible Nat E α) grammar := Returns.pure ⟨[], rfl, h⟩

theorem Reads.throw {error : E} (h : ∀ read rest value, text.drop cursor = read ++ rest → ¬grammar read value) :
    Reads text cursor (MonadExcept.throw error : Fallible Nat E α) grammar := Returns.throw h

theorem Reads.congr {code : Fallible Nat E α} {grammar' : List B → α → Prop}
    (h : Reads text cursor code grammar) (hiff : ∀ read value, grammar read value ↔ grammar' read value) :
    Reads text cursor code grammar' := by
  obtain rfl : grammar = grammar' := by
    funext read value
    exact propext (hiff read value)
  exact h

/-- What is read behind a byte, with the byte. -/
theorem Outcome.cons {byte : B} {result : Except E α} {cursor' : Nat}
    (hbyte : text[cursor]? = some byte) (hnone : ∀ value, ¬grammar [] value)
    (h : Outcome text (cursor + 1) (fun read value => grammar (byte :: read) value) result cursor') :
    Outcome text cursor grammar result cursor' := by
  cases result with
  | ok value =>
    obtain ⟨read, hread, hgrammar⟩ := h
    exact ⟨byte :: read, by rw [drop_of_some hbyte, hread, List.cons_append], hgrammar⟩
  | error error =>
    intro read rest value hread hgrammar
    cases read with
    | nil => exact hnone value hgrammar
    | cons first read =>
      rw [drop_of_some hbyte, List.cons_append, List.cons.injEq] at hread
      obtain ⟨rfl, hrest⟩ := hread
      exact h read rest value hrest hgrammar

/-- The next byte: what follows reads the rest of the grammar. -/
theorem Reads.next {error : E} {code : B → Fallible Nat E α} (h : ∀ byte, text[cursor]? = some byte →
      Reads text (cursor + 1) (code byte) fun read value => grammar (byte :: read) value)
    (hnone : ∀ value, ¬grammar [] value) : Reads text cursor (Cursor.next text error >>= code) grammar := by
  refine Returns.bind (P := fun result cursor' => match result with
    | .ok byte => text[cursor]? = some byte ∧ cursor' = cursor + 1
    | .error _ => text[cursor]? = none) ?_ ?_ ?_
  · refine Returns.get (Returns.okOr (fun byte hbyte => ?_) fun hend => hend)
    exact Returns.update (Returns.pure ⟨hbyte, rfl⟩)
  · rintro byte cursor' ⟨hbyte, rfl⟩
    exact Returns.mono (h byte hbyte) fun _ _ hresult => hresult.cons hbyte hnone
  · intro _ _ hend read rest value hread hgrammar
    rw [drop_of_none hend] at hread
    obtain ⟨rfl, -⟩ := List.append_eq_nil_iff.mp hread.symm
    exact hnone value hgrammar

/-- A sequence. -/
theorem Reads.bind {code : Fallible Nat E α} {rest : α → Fallible Nat E β} {first : List B → α → Prop}
    {second : α → List B → β → Prop} (hsingle : Single first) (h : Reads text cursor code first)
    (hrest : ∀ value cursor', Reads text cursor' (rest value) (second value)) :
    Reads text cursor (code >>= rest) fun read result =>
      ∃ read₁ read₂ value, read = read₁ ++ read₂ ∧ first read₁ value ∧ second value read₂ result := by
  refine Returns.bind h ?_ ?_
  · intro value cursor' ⟨read₁, hread₁, hfirst⟩
    refine Returns.mono (hrest value cursor') fun result cursor'' hresult => ?_
    cases result with
    | ok result =>
      obtain ⟨read₂, hread₂, hsecond⟩ := hresult
      exact ⟨read₁ ++ read₂, by rw [hread₁, hread₂, List.append_assoc], read₁, read₂, value, rfl, hfirst, hsecond⟩
    | error error =>
      rintro read rest' result hread ⟨read₁', read₂, value', rfl, hfirst', hsecond⟩
      rw [hread₁, List.append_assoc] at hread
      obtain ⟨rfl, rfl⟩ := hsingle hread hfirst hfirst'
      exact hresult read₂ rest' result (List.append_cancel_left hread) hsecond
  · rintro error cursor' hnone read rest' result hread ⟨read₁, read₂, value, rfl, hfirst, -⟩
    exact hnone read₁ (read₂ ++ rest') value (by rw [hread, List.append_assoc]) hfirst

end Nia.Lib.Cursor
