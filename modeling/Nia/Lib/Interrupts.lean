import Mathlib

/-! Processes that may be interrupted.

A process takes steps on a state that outlives it. Each step may be struck by a fault, which ends the process
there (a crash) or makes the step fail; the faults to come are a list, and a step beyond its end is not struck.
`Triple faulty crash pre process post` says that from a state with `pre` a crash leaves a state with `crash`,
whenever it happens, and an end leaves one with `post`. As the faults are arbitrary, the states at a crash are
all states the process goes through. When the process is not `faulty` there are no faults, and it ends. -/
namespace Nia.Lib.Interrupts

variable {σ φ ε α β : Type}

/-- How a process ends: by a crash, or with a value and the faults that are left. -/
inductive Run (σ φ α : Type) where
  | crashed (state : σ)
  | returned (value : α) (state : σ) (faults : List (Option φ))

namespace Run

/-- What is left. -/
def state : Run σ φ α → σ
  | .crashed state => state
  | .returned _ state _ => state

/-- The value, when there was no crash. -/
def value : Run σ φ α → Option α
  | .crashed _ => none
  | .returned value _ _ => some value

/-- A crash, which needs faults, left a state with the one property, an end a value and a state with the other. -/
def Ends (faulty : Bool) (crash : σ → Prop) (post : α → σ → Prop) : Run σ φ α → Prop
  | .crashed state => faulty = true ∧ crash state
  | .returned value state faults => post value state ∧ (faulty = false → faults = [])

end Run

/-- A process from a state and the faults to come. -/
def Proc (σ φ α : Type) : Type := σ → List (Option φ) → Run σ φ α

instance : Monad (Proc σ φ) where
  pure a := fun s faults => .returned a s faults
  bind x f := fun s faults =>
    match x s faults with
    | .crashed s => .crashed s
    | .returned a s faults => f a s faults

/-- One step: what it does, and what it does when it is struck, which may end the process. -/
def step (crashes : φ → Bool) (apply : σ → α × σ) (struck : φ → σ → α × σ) : Proc σ φ α := fun s faults =>
  match faults with
  | some fault :: rest =>
    if crashes fault then .crashed (struck fault s).2
    else .returned (struck fault s).1 (struck fault s).2 rest
  | none :: rest => .returned (apply s).1 (apply s).2 rest
  | [] => .returned (apply s).1 (apply s).2 []

/-- From a state with `pre` a crash leaves a state with `crash`, an end one with `post`. -/
def Triple (faulty : Bool) (crash pre : σ → Prop) (process : Proc σ φ α) (post : α → σ → Prop) : Prop :=
  ∀ s faults, (faulty = false → faults = []) → pre s → (process s faults).Ends faulty crash post

/-- What holds after a success, and what holds after a failure. -/
def onEither (good : α → σ → Prop) (bad : σ → Prop) : Except ε α → σ → Prop
  | .ok a, s => good a s
  | .error _, s => bad s

namespace Triple

variable {faulty : Bool} {crash pre : σ → Prop} {post : α → σ → Prop}

theorem pure {a : α} (h : ∀ s, pre s → post a s) : Triple (φ := φ) faulty crash pre (Pure.pure a) post :=
  fun s _ hfaults hs => ⟨h s hs, hfaults⟩

theorem bind {middle : β → σ → Prop} {x : Proc σ φ β} {f : β → Proc σ φ α} (hx : Triple faulty crash pre x middle)
    (hf : ∀ b, Triple faulty crash (middle b) (f b) post) : Triple faulty crash pre (x >>= f) post := by
  intro s faults hfaults hs
  have hend := hx s faults hfaults hs
  change (match x s faults with
    | .crashed s => Run.crashed s
    | .returned a s faults => f a s faults).Ends faulty crash post
  cases hrun : x s faults with
  | crashed s' =>
    rw [hrun] at hend
    exact hend
  | returned b s' rest =>
    rw [hrun] at hend
    exact hf b s' rest hend.2 hend.1

theorem step {crashes : φ → Bool} {apply : σ → α × σ} {struck : φ → σ → α × σ}
    (happly : ∀ s, pre s → post (apply s).1 (apply s).2)
    (hstruck : faulty = true → ∀ fault s, pre s →
      crash (struck fault s).2 ∧ post (struck fault s).1 (struck fault s).2) :
    Triple faulty crash pre (Interrupts.step crashes apply struck) post := by
  intro s faults hfaults hs
  cases faults with
  | nil => exact ⟨happly s hs, fun _ => rfl⟩
  | cons first rest =>
    have hfaulty : faulty = true := by
      cases faulty with
      | true => rfl
      | false => cases hfaults rfl
    have hrest : faulty = false → rest = [] := fun h => absurd (hfaulty.symm.trans h) nofun
    cases first with
    | none => exact ⟨happly s hs, hrest⟩
    | some fault =>
      simp only [Interrupts.step]
      split
      · exact ⟨hfaulty, (hstruck hfaulty fault s hs).1⟩
      · exact ⟨(hstruck hfaulty fault s hs).2, hrest⟩

variable {pre' : σ → Prop} {post' : α → σ → Prop} {process : Proc σ φ α}

theorem weaken (h : Triple faulty crash pre' process post') (hpre : ∀ s, pre s → pre' s)
    (hpost : ∀ a s, post' a s → post a s) : Triple faulty crash pre process post := by
  intro s faults hfaults hs
  have hend := h s faults hfaults (hpre s hs)
  cases hrun : process s faults with
  | crashed s' =>
    rw [hrun] at hend
    exact hend
  | returned a s' rest =>
    rw [hrun] at hend
    exact ⟨hpost a s' hend.1, hend.2⟩

/-- A process of which each state with `pre` is one case. -/
theorem exists_pre {ι : Type} {pre : ι → σ → Prop}
    (h : ∀ i, Triple faulty crash (pre i) process post) : Triple faulty crash (fun s => ∃ i, pre i s) process post := by
  rintro s faults hfaults ⟨i, hs⟩
  exact h i s faults hfaults hs

/-- Two properties of the end of a process. -/
theorem and {crash' : σ → Prop}
    (h : Triple faulty crash pre process post) (h' : Triple true crash' pre' process post') :
    Triple faulty crash (fun s => pre s ∧ pre' s) process fun a s => post a s ∧ post' a s := by
  rintro s faults hfaults ⟨hs, hs'⟩
  have hend := h s faults hfaults hs
  have hend' := h' s faults nofun hs'
  cases hrun : process s faults with
  | crashed s' =>
    rw [hrun] at hend
    exact hend
  | returned a s' rest =>
    rw [hrun] at hend hend'
    exact ⟨⟨hend.1, hend'.1⟩, hend.2⟩

/-- What holds of no state in particular can be assumed. -/
theorem assume {fact : Prop} (h : fact → Triple faulty crash pre process post) :
    Triple faulty crash (fun s => pre s ∧ fact) process post :=
  fun s faults hfaults hs => h hs.2 s faults hfaults hs.1

/-- Whatever a process with faults comes to, it leaves a state with the property of its crashes. -/
theorem state (h : Triple true crash pre process fun _ => crash) {s : σ} (hs : pre s)
    (faults : List (Option φ)) : crash (process s faults).state := by
  have hend := h s faults nofun hs
  cases hrun : process s faults with
  | crashed s' =>
    rw [hrun] at hend
    exact hend.2
  | returned a s' rest =>
    rw [hrun] at hend
    exact hend.1

/-- Without faults the process returns. -/
theorem exists_returned (h : Triple false crash pre process post) {s : σ} (hs : pre s) :
    ∃ a s', process s [] = .returned a s' [] ∧ post a s' := by
  have hend := h s [] (fun _ => rfl) hs
  cases hrun : process s [] with
  | crashed s' =>
    rw [hrun] at hend
    cases hend.1
  | returned a s' rest =>
    rw [hrun] at hend
    exact ⟨a, s', by rw [hend.2 rfl], hend.1⟩

/-! ### Steps that may fail -/

variable {good : α → σ → Prop} {bad : σ → Prop}

/-- A process that goes on only after a success. -/
theorem bindExcept {middle : β → σ → Prop} {x : ExceptT ε (Proc σ φ) β} {f : β → ExceptT ε (Proc σ φ) α}
    (hx : Triple faulty crash pre x (onEither middle bad))
    (hf : ∀ b, Triple faulty crash (middle b) (f b) (onEither good bad)) :
    Triple faulty crash pre (x >>= f : ExceptT ε (Proc σ φ) α) (onEither good bad) := by
  refine bind hx fun r => ?_
  cases r with
  | ok b => exact hf b
  | error e => exact pure fun s hs => hs

theorem mono {good' : α → σ → Prop} {bad' : σ → Prop} {process : ExceptT ε (Proc σ φ) α}
    (h : Triple faulty crash pre process (onEither good' bad')) (hgood : ∀ a s, good' a s → good a s)
    (hbad : ∀ s, bad' s → bad s) : Triple faulty crash pre process (onEither good bad) := by
  refine h.weaken (fun _ hs => hs) fun result s hs => ?_
  cases result with
  | ok a => exact hgood a s hs
  | error e => exact hbad s hs

/-- What holds whether a process fails or not. -/
theorem either {process : ExceptT ε (Proc σ φ) α} (h : Triple faulty crash pre process (onEither good bad))
    {post : σ → Prop} (hgood : ∀ a s, good a s → post s) (hbad : ∀ s, bad s → post s) :
    Triple faulty crash pre process fun _ => post := by
  refine h.weaken (fun _ hs => hs) fun result s hs => ?_
  cases result with
  | ok a => exact hgood a s hs
  | error e => exact hbad s hs

theorem pureExcept {a : α} (h : ∀ s, pre s → good a s) :
    Triple faulty crash pre (Pure.pure a : ExceptT ε (Proc σ φ) α) (onEither good bad) :=
  pure h

theorem throwExcept {e : ε} (h : ∀ s, pre s → bad s) :
    Triple faulty crash pre (throw e : ExceptT ε (Proc σ φ) α) (onEither good bad) :=
  pure h

end Triple

end Nia.Lib.Interrupts
