import Mathlib.Data.List.Basic

/-!
Contract: a state with a stack of earlier states to return to.

Owns the three operations of an undo stack with numbered revisions: `push` opens
a revision, `undo` takes the newest one back, `commit` gives up the way back for
all revisions up to a number.

This is what `chainbase` documents of its sessions: `undo` restores the state
prior to the session and discards the changes made in it, `commit` discards the
undo history prior to a revision and keeps the state, and a session that is
pushed counts as one revision.
-/

namespace CodexRelay.Library

/-- `history` holds the states before the open revisions, newest first. -/
structure UndoStack (χ : Type) where
  state : χ
  history : List χ
  revision : Nat
deriving DecidableEq

namespace UndoStack

variable {χ : Type}

def push (stack : UndoStack χ) (state : χ) : UndoStack χ where
  state
  history := stack.state :: stack.history
  revision := stack.revision + 1

def undo (stack : UndoStack χ) : UndoStack χ :=
  match stack.history with
  | [] => stack
  | state :: history => { state, history, revision := stack.revision - 1 }

def commit (stack : UndoStack χ) (revision : Nat) : UndoStack χ :=
  { stack with history := stack.history.take (stack.revision - revision) }

/-- Of two commits in a row, the one to the higher revision remains. -/
theorem commit_commit (stack : UndoStack χ) {first second : Nat} (le : first ≤ second) :
    (stack.commit first).commit second = stack.commit second := by
  unfold commit
  simp only [List.take_take]
  rw [Nat.min_eq_left (by omega)]

/-- A commit below the newest revision can be made before or after it is pushed. -/
theorem commit_push (stack : UndoStack χ) (state : χ) {revision : Nat}
    (le : revision ≤ stack.revision) :
    (stack.push state).commit revision = (stack.commit revision).push state := by
  have count : stack.revision + 1 - revision = (stack.revision - revision) + 1 := by omega
  simp only [push, commit, count, List.take_succ_cons]

/-! ### Several revisions -/

def pushes (stack : UndoStack χ) : List χ → UndoStack χ
  | [] => stack
  | state :: older => (pushes stack older).push state

section

variable (stack : UndoStack χ)

include stack

@[simp] theorem pushes_cons (state : χ) (older : List χ) :
    stack.pushes (state :: older) = (stack.pushes older).push state :=
  rfl

theorem pushes_append (newer older : List χ) :
    stack.pushes (newer ++ older) = (stack.pushes older).pushes newer := by
  induction newer with
  | nil => rfl
  | cons state newer ih =>
    rw [List.cons_append, pushes_cons, pushes_cons, ih]

theorem pushes_state (states : List χ) :
    (stack.pushes states).state = states.headD stack.state := by
  cases states <;> rfl

theorem pushes_revision (states : List χ) :
    (stack.pushes states).revision = stack.revision + states.length := by
  induction states with
  | nil => rfl
  | cons state older ih =>
    change (stack.pushes older).revision + 1 = _
    rw [ih, List.length_cons, Nat.add_assoc]

end

def undos (stack : UndoStack χ) : Nat → UndoStack χ
  | 0 => stack
  | count + 1 => stack.undo.undos count

@[simp] theorem undos_pushes (stack : UndoStack χ) (states : List χ) :
    (stack.pushes states).undos states.length = stack := by
  induction states with
  | nil => rfl
  | cons state older ih => exact ih

/-- Committing to where the newer states were pushed gives up what is older. -/
theorem commit_pushes (stack : UndoStack χ) (states : List χ) :
    (stack.pushes states).commit stack.revision =
      (⟨stack.state, [], stack.revision⟩ : UndoStack χ).pushes states := by
  induction states with
  | nil => simp [commit, pushes]
  | cons state older ih =>
    have later : stack.revision ≤ (stack.pushes older).revision := by
      rw [pushes_revision]
      omega
    rw [pushes_cons, commit_push _ _ later, ih, pushes_cons]

end UndoStack

end CodexRelay.Library
