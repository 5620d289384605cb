import Mathlib.Data.List.Basic

/-!
Contract: finite runs of a transition relation.

Owns:
- `Run`, which records the states a run has visited, newest first, and the invariant rule. A state
  of a run is either its start or was reached by a step, so a property of every state is a property
  of the last state of every run;
- `Taken`, the steps of a machine whose calls return a new state or throw. A call that throws
  changes nothing and is no step. `replay` executes a list of calls;
- `SessionStep`: sessions around the steps that are entered, undone, squashed or committed. The
  states of such a run are states of runs without sessions.
-/

namespace CodexRelay.Library

variable {σ : Type*}

/-- `Run step start visited last`: steps lead from `start` through `visited`
(newest first) to `last`. -/
inductive Run (step : σ → σ → Prop) (start : σ) : List σ → σ → Prop where
  | refl : Run step start [] start
  | snoc {visited : List σ} {last next : σ} (run : Run step start visited last)
      (taken : step last next) : Run step start (next :: visited) next

namespace Run

variable {step : σ → σ → Prop} {start last : σ} {visited : List σ}

/-- What holds at the start and is preserved by every step holds at the end. -/
theorem invariant {inv : σ → Prop} (initial : inv start)
    (preserved : ∀ current next, inv current → step current next → inv next)
    (run : Run step start visited last) : inv last := by
  induction run with
  | refl => exact initial
  | snoc _ taken ih => exact preserved _ _ ih taken

theorem history {inv : List σ → σ → Prop} (initial : inv [] start)
    (preserved : ∀ visited current next, inv visited current → step current next →
      inv (next :: visited) next)
    (run : Run step start visited last) : inv visited last := by
  induction run with
  | refl => exact initial
  | snoc _ taken ih => exact preserved _ _ _ ih taken

/-- The last state of a run is the newest one it visited, or its start. -/
theorem append_start (run : Run step start visited last) :
    ∃ rest, visited ++ [start] = last :: rest := by
  cases run with
  | refl => exact ⟨[], rfl⟩
  | snoc => exact ⟨_, rfl⟩

theorem of_mem (run : Run step start visited last) {state : σ}
    (member : state ∈ visited ++ [start]) : ∃ earlier, Run step start earlier state := by
  induction run with
  | refl =>
    obtain rfl := List.mem_singleton.mp member
    exact ⟨[], .refl⟩
  | snoc before taken ih =>
    rcases List.mem_cons.mp member with rfl | older
    · exact ⟨_, before.snoc taken⟩
    · exact ih older

theorem mono {wider : σ → σ → Prop} (included : ∀ current next, step current next →
      wider current next) (run : Run step start visited last) : Run wider start visited last := by
  induction run with
  | refl => exact .refl
  | snoc _ taken ih => exact .snoc ih (included _ _ taken)

end Run

/-! ### Calls that may throw -/

section Calls

variable {ε σ γ : Type} (step : σ → γ → Except ε σ) (allowed : σ → γ → Prop)

def Taken (state next : σ) : Prop := ∃ call, allowed state call ∧ step state call = .ok next

/-- The state after some calls, if each of them is allowed and does not throw. -/
def replay [∀ state call, Decidable (allowed state call)] : List γ → σ → Option σ
  | [], state => some state
  | call :: rest, state =>
    if allowed state call then
      match step state call with
      | .ok next => replay rest next
      | .error _ => none
    else none

variable {step allowed} {start last : σ} {visited : List σ}

theorem Taken.invariant {inv : σ → Prop} (initial : inv start)
    (preserved : ∀ state call next, inv state → allowed state call → step state call = .ok next →
      inv next)
    (run : Run (Taken step allowed) start visited last) : inv last := by
  apply run.invariant initial
  rintro current next kept ⟨call, permitted, stepped⟩
  exact preserved current call next kept permitted stepped

theorem run_of_replay [∀ state call, Decidable (allowed state call)] {calls : List γ} {state : σ}
    (run : Run (Taken step allowed) start visited state)
    (ran : replay step allowed calls state = some last) :
    ∃ visited, Run (Taken step allowed) start visited last := by
  induction calls generalizing state visited with
  | nil =>
    cases ran
    exact ⟨visited, run⟩
  | cons call rest ih =>
    unfold replay at ran
    split_ifs at ran with permitted
    cases stepped : step state call with
    | ok next =>
      rw [stepped] at ran
      exact ih (run.snoc ⟨call, permitted, stepped⟩) ran
    | error thrown =>
      rw [stepped] at ran
      cases ran

theorem exists_run_of_replay [∀ state call, Decidable (allowed state call)] (calls : List γ)
    {post : σ → Prop} [DecidablePred post]
    (computed : (replay step allowed calls start).any (fun last => decide (post last)) = true) :
    ∃ visited last, Run (Taken step allowed) start visited last ∧ post last := by
  cases ran : replay step allowed calls start with
  | none =>
    rw [ran] at computed
    cases computed
  | some last =>
    rw [ran] at computed
    obtain ⟨visited, run⟩ := run_of_replay .refl ran
    exact ⟨visited, last, run, of_decide_eq_true computed⟩

end Calls

/-! ### Sessions -/

open List

variable {step : σ → σ → Prop} {start last : σ}

/-- A state with the states that the open sessions return to, newest first. -/
inductive SessionStep (step : σ → σ → Prop) : σ × List σ → σ × List σ → Prop where
  | work {state next : σ} {saved : List σ} (taken : step state next) :
      SessionStep step (state, saved) (next, saved)
  | enter (state : σ) (saved : List σ) : SessionStep step (state, saved) (state, state :: saved)
  | undo (state earlier : σ) (saved : List σ) :
      SessionStep step (state, earlier :: saved) (earlier, saved)
  | squash (state earlier : σ) (saved : List σ) :
      SessionStep step (state, earlier :: saved) (state, saved)
  | commit (state : σ) (saved : List σ) (count : Nat) :
      SessionStep step (state, saved) (state, saved.take count)

/-- The state and every saved state are reached without sessions. -/
theorem SessionStep.reached {visited : List (σ × List σ)} {saved : List σ}
    (run : Run (SessionStep step) (start, []) visited (last, saved)) :
    ∀ state ∈ last :: saved, ∃ earlier, Run step start earlier state := by
  generalize first : (start, []) = initial at run
  generalize final : (last, saved) = current at run
  induction run generalizing last saved with
  | refl =>
    obtain ⟨rfl, rfl⟩ := Prod.mk.inj (final.trans first.symm)
    intro state member
    obtain rfl := mem_singleton.mp member
    exact ⟨[], .refl⟩
  | snoc before taken ih =>
    cases taken with
    | work taken =>
      obtain ⟨rfl, rfl⟩ := Prod.mk.inj final
      have reached := ih rfl
      intro state member
      rcases mem_cons.mp member with rfl | older
      · obtain ⟨earlier, run⟩ := reached _ (mem_cons_self ..)
        exact ⟨_, run.snoc taken⟩
      · exact reached state (mem_cons_of_mem _ older)
    | enter state stack =>
      obtain ⟨rfl, rfl⟩ := Prod.mk.inj final
      exact fun other member => ih rfl other (by simpa using member)
    | undo state earlier stack =>
      obtain ⟨rfl, rfl⟩ := Prod.mk.inj final
      exact fun other member => ih rfl other (mem_cons_of_mem _ member)
    | squash state earlier stack =>
      obtain ⟨rfl, rfl⟩ := Prod.mk.inj final
      exact fun other member => ih rfl other (cons_subset_cons _ (subset_cons_self _ _) member)
    | commit state stack count =>
      obtain ⟨rfl, rfl⟩ := Prod.mk.inj final
      exact fun other member => ih rfl other (cons_subset_cons _ (take_subset _ _) member)

end CodexRelay.Library
