import Mathlib

/-! Programs that take turns on a shared state.

A program is a sequence of atomic steps on a state that other programs change between its steps. All of them keep to a
protocol: an invariant, and a preorder along which the state moves. `Runs` says of a program that each of its steps
keeps to the protocol whatever the others did before, and that its result has a property for good. Programs that all run
so still do after a step of one of them (`Runs.advance`). Steps beyond a limit, such as a counter's, are not asked to
keep to anything. -/
namespace Nia.Lib.Interleaving

variable {σ α β : Type}

inductive Program (σ α : Type) : Type 1 where
  | done (value : α)
  | atomic {β : Type} (act : σ → β × σ) (next : β → Program σ α)

namespace Program

def bind : Program σ α → (α → Program σ β) → Program σ β
  | .done value, f => f value
  | .atomic act next, f => .atomic act fun value => (next value).bind f

instance : Monad (Program σ) where
  pure := .done
  bind := .bind

def step (act : σ → α × σ) : Program σ α := .atomic act .done

def read (f : σ → α) : Program σ α := step fun s => (f s, s)

/-- All steps in a row, as when no other program takes turns. -/
def run : Program σ α → σ → α × σ
  | .done value, s => (value, s)
  | .atomic act next, s => (next (act s).1).run (act s).2

/-- The states that such a run goes through. -/
def states : Program σ α → σ → List σ
  | .done _, s => [s]
  | .atomic act next, s => s :: (next (act s).1).states (act s).2

theorem mem_states (program : Program σ α) (s : σ) : s ∈ program.states s := by
  cases program with
  | done value => exact List.mem_cons_self
  | atomic act next => exact List.mem_cons_self

theorem run_mem_states (program : Program σ α) (s : σ) : (program.run s).2 ∈ program.states s := by
  induction program generalizing s with
  | done value => exact List.mem_cons_self
  | atomic act next ih => exact List.mem_cons_of_mem _ (ih _ _)

theorem run_bind (first : Program σ β) (rest : β → Program σ α) (s : σ) :
    (first >>= rest).run s = (rest (first.run s).1).run (first.run s).2 := by
  induction first generalizing s with
  | done value => rfl
  | atomic act next ih => exact ih (act s).1 (act s).2

end Program

structure Protocol (σ : Type) where
  invariant : σ → Prop
  Later : σ → σ → Prop
  limit : σ → Prop
  refl : ∀ s, Later s s
  trans : ∀ {r s t}, Later r s → Later s t → Later r t

/-- From a state on, the program keeps to the protocol, and its result has the property. -/
def Runs (P : Protocol σ) (post : α → σ → Prop) : Program σ α → σ → Prop
  | .done value, s => ∀ t, P.Later s t → P.invariant t → post value t
  | .atomic act next, s => ∀ t, P.Later s t → P.invariant t → P.limit (act t).2 →
    P.invariant (act t).2 ∧ P.Later t (act t).2 ∧ Runs P post (next (act t).1) (act t).2

namespace Runs

variable {P : Protocol σ} {post post' : α → σ → Prop} {program : Program σ α} {s t : σ}

theorem later (h : Runs P post program s) (hlater : P.Later s t) : Runs P post program t := by
  cases program with
  | done value | atomic act next => exact fun u hu => h u (P.trans hlater hu)

theorem pure {value : α} (h : ∀ t, P.Later s t → P.invariant t → post value t) :
    Runs P post (Pure.pure value : Program σ α) s := h

theorem step {act : σ → α × σ}
    (h : ∀ t, P.Later s t → P.invariant t → P.limit (act t).2 → P.invariant (act t).2 ∧ P.Later t (act t).2 ∧
      ∀ u, P.Later (act t).2 u → P.invariant u → post (act t).1 u) : Runs P post (.step act) s := h

/-- Reading keeps to every protocol. -/
theorem read {f : σ → α} (h : ∀ t, P.Later s t → P.invariant t → ∀ u, P.Later t u → P.invariant u → post (f t) u) :
    Runs P post (.read f) s := fun t ht hinvariant _ => ⟨hinvariant, P.refl t, h t ht hinvariant⟩

theorem imp (h : Runs P post program s)
    (himp : ∀ value t, P.Later s t → P.invariant t → post value t → post' value t) : Runs P post' program s := by
  induction program generalizing s with
  | done value => exact fun t ht hinvariant => himp value t ht hinvariant (h t ht hinvariant)
  | atomic act next ih =>
    intro t ht hinvariant hlimit
    obtain ⟨hkept, hlater, hrest⟩ := h t ht hinvariant hlimit
    exact ⟨hkept, hlater, ih _ hrest fun value u hu => himp value u (P.trans ht (P.trans hlater hu))⟩

theorem bind {Q : β → σ → Prop} {first : Program σ β} {rest : β → Program σ α} (hs : P.invariant s)
    (h : Runs P Q first s)
    (hrest : ∀ value t, P.Later s t → P.invariant t → Q value t → Runs P post (rest value) t) :
    Runs P post (first >>= rest) s := by
  induction first generalizing s with
  | done value => exact hrest value s (P.refl s) hs (h s (P.refl s) hs)
  | atomic act next ih =>
    intro t ht hinvariant hlimit
    obtain ⟨hkept, hlater, hnext⟩ := h t ht hinvariant hlimit
    exact ⟨hkept, hlater, ih _ hkept hnext fun value u hu => hrest value u (P.trans ht (P.trans hlater hu))⟩

/-- One of several programs takes a step. -/
theorem advance {act : σ → β × σ} {next : β → Program σ α} {before after : List (Program σ α)} (hs : P.invariant s)
    (h : ∀ program ∈ before ++ .atomic act next :: after, Runs P post program s) (hlimit : P.limit (act s).2) :
    P.invariant (act s).2 ∧ P.Later s (act s).2 ∧
      ∀ program ∈ before ++ next (act s).1 :: after, Runs P post program (act s).2 := by
  have hchosen : Runs P post (.atomic act next) s := h _ (List.mem_append_right _ List.mem_cons_self)
  obtain ⟨hkept, hlater, hnext⟩ := hchosen s (P.refl s) hs hlimit
  refine ⟨hkept, hlater, fun program hprogram => ?_⟩
  rcases List.mem_append.mp hprogram with hbefore | hafter
  · exact (h program (List.mem_append_left _ hbefore)).later hlater
  rcases List.mem_cons.mp hafter with rfl | hafter
  · exact hnext
  · exact (h program (List.mem_append_right _ (List.mem_cons_of_mem _ hafter))).later hlater

end Runs

end Nia.Lib.Interleaving
