import Mathlib.Data.List.Basic

/-!
Contract: programs that may throw.

Owns:
- the rules that run `EStateM` programs step by step. A throw keeps the state it was thrown in;
- `ActsAs`, which says that a program with a second state does what one without it does, and its
  rules;
- `Meets`, which says what holds of the result of a program and which exceptions it may throw, and
  one rule for each way of composing programs.
-/

namespace CodexRelay.Library

variable {ε σ α β : Type} {program : EStateM ε σ α} {next : α → EStateM ε σ β} {state state' : σ}

instance resultDecidableEq [DecidableEq ε] [DecidableEq σ] [DecidableEq α] :
    DecidableEq (EStateM.Result ε σ α)
  | .ok value state, .ok value' state' =>
    decidable_of_iff (value = value' ∧ state = state') (by simp)
  | .error thrown state, .error thrown' state' =>
    decidable_of_iff (thrown = thrown' ∧ state = state') (by simp)
  | .ok _ _, .error _ _ => .isFalse (by simp)
  | .error _ _, .ok _ _ => .isFalse (by simp)

theorem bind_of_ok {value : α} (ran : program state = .ok value state') :
    (program >>= next) state = next value state' := by
  change EStateM.bind program next state = _
  unfold EStateM.bind
  rw [ran]

theorem bind_of_error {thrown : ε} (ran : program state = .error thrown state') :
    (program >>= next) state = .error thrown state' := by
  change EStateM.bind program next state = _
  unfold EStateM.bind
  rw [ran]

theorem of_bind_ok {result : β} (ran : (program >>= next) state = .ok result state') :
    ∃ value middle, program state = .ok value middle ∧ next value middle = .ok result state' := by
  change EStateM.bind program next state = _ at ran
  unfold EStateM.bind at ran
  cases first : program state with
  | ok value middle =>
    rw [first] at ran
    exact ⟨value, middle, rfl, ran⟩
  | error thrown middle =>
    rw [first] at ran
    cases ran

theorem exists_ok {result : EStateM.Result ε σ α} {post : α → σ → Prop}
    [∀ value state, Decidable (post value state)]
    (computed : (match result with
      | .ok value state => decide (post value state)
      | .error _ _ => false) = true) :
    ∃ value state, result = .ok value state ∧ post value state := by
  cases result with
  | ok value state => exact ⟨value, state, rfl, of_decide_eq_true computed⟩
  | error thrown state => cases computed

theorem get_bind (next : σ → EStateM ε σ β) : (get >>= next) state = next state state := rfl

theorem pure_bind_run (value : α) (next : α → EStateM ε σ β) :
    (pure value >>= next) state = next value state :=
  rfl

theorem set_bind (next : PUnit → EStateM ε σ β) : (set state' >>= next) state = next ⟨⟩ state' :=
  rfl

theorem modify_bind (update : σ → σ) (next : PUnit → EStateM ε σ β) :
    (modify update >>= next) state = next ⟨⟩ (update state) :=
  rfl

def require (test : Prop) [Decidable test] (thrown : ε) : EStateM ε σ Unit :=
  if test then pure () else throw thrown

section Require

variable {test : Prop} [Decidable test] {thrown : ε} {after : Unit → EStateM ε σ β}

theorem require_bind (holds : test) : (require test thrown >>= after) state = after () state := by
  rw [require, if_pos holds]
  rfl

theorem require_bind_of_not (fails : ¬ test) :
    (require test thrown >>= after) state = .error thrown state := by
  rw [require, if_neg fails]
  rfl

end Require

theorem tryCatch_of_ok {value : α} {handler : ε → EStateM ε σ α}
    (ran : program state = .ok value state') : tryCatch program handler state = .ok value state' := by
  change EStateM.tryCatch program handler state = _
  unfold EStateM.tryCatch
  rw [ran]

theorem tryCatch_of_error {thrown : ε} {handler : ε → EStateM ε σ α}
    (ran : program state = .error thrown state') :
    tryCatch program handler state = handler thrown state' := by
  change EStateM.tryCatch program handler state = _
  unfold EStateM.tryCatch
  rw [ran]
  rfl

theorem tryCatch_congr {handler : ε → EStateM ε σ α} {program' : EStateM ε σ α} {other : σ}
    (same : program state = program' other) :
    tryCatch program handler state = tryCatch program' handler other := by
  cases ran : program' other with
  | ok => rw [tryCatch_of_ok (same.trans ran), tryCatch_of_ok ran]
  | error => rw [tryCatch_of_error (same.trans ran), tryCatch_of_error ran]

/-! ### What a program leaves alone -/

/-- The state in which a program stops, whether it returns or throws. -/
def finalState : EStateM.Result ε σ α → σ
  | .ok _ state => state
  | .error _ state => state

theorem finalState_bind (inv : σ → Prop) (first : inv (finalState (program state)))
    (after : ∀ value state', inv state' → inv (finalState (next value state'))) :
    inv (finalState ((program >>= next) state)) := by
  cases ran : program state with
  | ok value state' =>
    rw [ran] at first
    rw [bind_of_ok ran]
    exact after value state' first
  | error thrown state' =>
    rw [ran] at first
    rw [bind_of_error ran]
    exact first

theorem finalState_require {inv : σ → Prop} {test : Prop} [Decidable test] {thrown : ε}
    (holds : inv state) : inv (finalState (require test thrown state)) := by
  unfold require
  split_ifs <;> exact holds

theorem finalState_tryCatch (inv : σ → Prop) {handler : ε → EStateM ε σ α} (body : inv (finalState (program state)))
    (handles : ∀ thrown state', inv state' → inv (finalState (handler thrown state'))) :
    inv (finalState (tryCatch program handler state)) := by
  cases ran : program state with
  | ok value state' =>
    rw [ran] at body
    rw [tryCatch_of_ok ran]
    exact body
  | error thrown state' =>
    rw [ran] at body
    rw [tryCatch_of_error ran]
    exact handles thrown state' body

theorem forM_cons (step : β → EStateM ε σ PUnit) (head : β) (rest : List β) :
    (head :: rest).forM step = (step head >>= fun _ => rest.forM step) :=
  rfl

/-! ### A second state -/

section SecondState

variable {ρ : Type} {second : EStateM ε (σ × ρ) α} {after : α → EStateM ε (σ × ρ) β}

/-- A program with a second state beside its own, which it leaves alone. -/
def onFirst (program : EStateM ε σ α) : EStateM ε (σ × ρ) α := fun s =>
  match program s.1 with
  | .ok value state => .ok value (state, s.2)
  | .error thrown state => .error thrown (state, s.2)

theorem onFirst_of_ok {original : EStateM ε σ α} {value : α} {s s' : σ × ρ}
    (ran : (onFirst original : EStateM ε (σ × ρ) α) s = .ok value s') :
    original s.1 = .ok value s'.1 ∧ s'.2 = s.2 := by
  unfold onFirst at ran
  cases result : original s.1 with
  | ok value' state =>
    rw [result] at ran
    obtain ⟨rfl, rfl⟩ := EStateM.Result.ok.inj ran
    exact ⟨rfl, rfl⟩
  | error thrown state =>
    rw [result] at ran
    cases ran

def forgetSecond : EStateM.Result ε (σ × ρ) α → EStateM.Result ε σ α
  | .ok value s => .ok value s.1
  | .error thrown s => .error thrown s.1

/-- A program over two states returns or throws what the original does, and does the same to the
first state. -/
def ActsAs (second : EStateM ε (σ × ρ) α) (original : EStateM ε σ α) : Prop :=
  ∀ s, forgetSecond (second s) = original s.1

theorem actsAs_onFirst (original : EStateM ε σ α) :
    ActsAs (onFirst original : EStateM ε (σ × ρ) α) original := by
  intro s
  unfold onFirst
  cases original s.1 <;> rfl

theorem actsAs_pure (value : α) : ActsAs (pure value : EStateM ε (σ × ρ) α) (pure value) :=
  fun _ => rfl

theorem actsAs_throw (thrown : ε) : ActsAs (throw thrown : EStateM ε (σ × ρ) α) (throw thrown) :=
  fun _ => rfl

theorem ActsAs.bind (first : ActsAs second program) (rest : ∀ value, ActsAs (after value) (next value)) :
    ActsAs (second >>= after) (program >>= next) := by
  intro s
  have same := first s
  cases ran : second s with
  | ok value s' =>
    rw [ran] at same
    rw [bind_of_ok ran, bind_of_ok same.symm]
    exact rest value s'
  | error thrown s' =>
    rw [ran] at same
    rw [bind_of_error ran, bind_of_error same.symm]
    rfl

theorem actsAs_get_bind {after : σ × ρ → EStateM ε (σ × ρ) β} {next : σ → EStateM ε σ β}
    (rest : ∀ s, ActsAs (after s) (next s.1)) : ActsAs (get >>= after) (get >>= next) :=
  fun s => rest s s

/-- A change of the second state is not seen. -/
theorem actsAs_modify_bind {change : σ × ρ → ρ} {after : PUnit → EStateM ε (σ × ρ) β}
    {original : EStateM ε σ β} (rest : ActsAs (after ⟨⟩) original) :
    ActsAs (modify (fun s => (s.1, change s)) >>= after) original :=
  fun s => rest (s.1, change s)

theorem ActsAs.tryCatch {handler : ε → EStateM ε (σ × ρ) α} {original : ε → EStateM ε σ α}
    (body : ActsAs second program) (handles : ∀ thrown, ActsAs (handler thrown) (original thrown)) :
    ActsAs (tryCatch second handler) (tryCatch program original) := by
  intro s
  have same := body s
  cases ran : second s with
  | ok value s' =>
    rw [ran] at same
    rw [tryCatch_of_ok ran, tryCatch_of_ok same.symm]
    rfl
  | error thrown s' =>
    rw [ran] at same
    rw [tryCatch_of_error ran, tryCatch_of_error same.symm]
    exact handles thrown s'

end SecondState

/-! ### Results and exceptions -/

variable {allowed allowed' : ε → Prop} {post post' : α → Prop}

/-- The result satisfies `post`, or the exception is `allowed`. -/
def Meets (allowed : ε → Prop) (post : α → Prop) : Except ε α → Prop
  | .ok value => post value
  | .error thrown => allowed thrown

namespace Meets

/-- What is known of the first program is what the second one may assume. -/
theorem bind {program : Except ε α} {next : α → Except ε β} {final : β → Prop}
    (first : Meets allowed post program)
    (rest : ∀ value, post value → Meets allowed final (next value)) :
    Meets allowed final (program >>= next) := by
  cases program with
  | error thrown => exact first
  | ok value => exact rest value first

section

variable {program : Except ε α} (meets : Meets allowed post program)

include meets

theorem mono (weaker : ∀ thrown, allowed thrown → allowed' thrown)
    (implied : ∀ value, post value → post' value) : Meets allowed' post' program := by
  cases program with
  | error thrown => exact weaker thrown meets
  | ok value => exact implied value meets

theorem imp (implied : ∀ value, post value → post' value) : Meets allowed post' program :=
  meets.mono (fun _ holds => holds) implied

end

/-- The result itself is known after a program that may throw what is allowed. -/
theorem of_result {program : Except ε α} (thrown : ∀ exception, program = .error exception →
    allowed exception) : Meets allowed (fun value => program = .ok value) program := by
  cases program with
  | error exception => exact thrown exception rfl
  | ok value => exact rfl

section

variable {program : Except ε α} (meets : Meets allowed post program)

include meets

theorem of_eq_ok {value : α} (ran : program = .ok value) : post value := by
  rw [ran] at meets
  exact meets

theorem of_eq_error {thrown : ε} (ran : program = .error thrown) : allowed thrown := by
  rw [ran] at meets
  exact meets

end

end Meets

end CodexRelay.Library
