import Mathlib.Logic.Function.Basic

/-!
# Programs that give up the processor only when they sleep

A program over a shared state `σ` is a tree of atomic actions. An action reads and writes
the state, or stops the whole machine with a message. Between two actions nothing else
runs; the only points where another program may run are the `sleep` nodes, each of which
carries the condition that the sleeper waits for.

`run` executes one program with nothing else running, `burst` executes it up to its next
sleep point.
-/

namespace Xv6.Coop

/-- A program over the state `σ` that returns a value of type `α`. -/
inductive Prog (σ α : Type) : Type 1
  | ret (a : α)
  | act {β : Type} (f : σ → Except String (β × σ)) (k : β → Prog σ α)
  | sleep (g : σ → Bool) (k : Prog σ α)

namespace Prog

variable {σ α β γ : Type}

def bind : Prog σ α → (α → Prog σ β) → Prog σ β
  | ret a, h => h a
  | act f k, h => act f (fun b => bind (k b) h)
  | sleep g k, h => sleep g (bind k h)

instance : Monad (Prog σ) where
  pure := ret
  bind := bind

@[simp] theorem pure_eq (a : α) : (pure a : Prog σ α) = ret a := rfl

@[simp] theorem ret_bind (a : α) (h : α → Prog σ β) : (ret a >>= h) = h a := rfl

@[simp] theorem act_bind {δ : Type} (f : σ → Except String (δ × σ)) (k : δ → Prog σ α)
    (h : α → Prog σ β) : (act f k >>= h) = act f (fun b => k b >>= h) := rfl

@[simp] theorem sleep_bind (g : σ → Bool) (k : Prog σ α) (h : α → Prog σ β) :
    (sleep g k >>= h) = sleep g (k >>= h) := rfl

theorem bind_assoc (x : Prog σ α) (f : α → Prog σ β) (g : β → Prog σ γ) :
    (x >>= f) >>= g = x >>= fun a => f a >>= g := by
  induction x with
  | ret a => rfl
  | act f' k ih => exact congrArg (act f') (funext ih)
  | sleep c k ih => exact congrArg (sleep c) ih

theorem bind_pure (x : Prog σ α) : x >>= pure = x := by
  induction x with
  | ret a => rfl
  | act f k ih => exact congrArg (act f) (funext ih)
  | sleep c k ih => exact congrArg (sleep c) ih

/-! ## Elementary programs -/

/-- One atomic action that may stop the machine. -/
def step (f : σ → Except String (α × σ)) : Prog σ α := act f ret

def gets (f : σ → α) : Prog σ α := step fun s => .ok (f s, s)

def modify (f : σ → σ) : Prog σ Unit := step fun s => .ok ((), f s)

def panic (m : String) : Prog σ α := act (fun _ => .error m) (fun e : Empty => e.elim)

/-- Stop the machine unless the condition holds. -/
def check (c : σ → Bool) (m : String) : Prog σ Unit :=
  step fun s => if c s then .ok ((), s) else .error m

def pause : Prog σ Unit := sleep (fun _ => true) (ret ())

/-- `while (!g) sleep()`: go on at once when `g` holds already. -/
def await (g : σ → Bool) : Prog σ Unit := do
  let b ← gets g
  if b then pure () else sleep g (ret ())

/-- `for (i = a; i < a + n; i++) body(i)`. -/
def loop (body : Nat → Prog σ Unit) : Nat → Nat → Prog σ Unit
  | _, 0 => pure ()
  | a, n + 1 => do
    body a
    loop body (a + 1) n

/-! ## Execution of one program alone -/

/-- How a program ends that nothing else interferes with. -/
inductive Outcome (σ α : Type)
  | done (a : α) (s : σ)
  | panicked (m : String) (s : σ)
  | stuck (s : σ)

namespace Outcome

def state : Outcome σ α → σ
  | done _ s => s
  | panicked _ s => s
  | stuck s => s

def message : Outcome σ α → Option String
  | done _ _ => none
  | panicked m _ => some m
  | stuck _ => none

def isDone : Outcome σ α → Bool
  | done _ _ => true
  | panicked _ _ => false
  | stuck _ => false

/-- The program returned, and the test holds of what it returned and left. -/
def returned (f : α → σ → Bool) : Outcome σ α → Bool
  | done a s => f a s
  | panicked _ _ => false
  | stuck _ => false

theorem exists_done_of_returned {o : Outcome σ α} {f : α → σ → Bool} (h : o.returned f) :
    ∃ a s, o = done a s ∧ f a s := by
  cases o with
  | done a s => exact ⟨a, s, rfl, h⟩
  | panicked m s => cases h
  | stuck s => cases h

def panics (msg : String) : Outcome σ α → Bool
  | done _ _ => false
  | panicked m _ => m == msg
  | stuck _ => false

theorem exists_panicked_of_panics {o : Outcome σ α} {msg : String} (h : o.panics msg) :
    ∃ s, o = panicked msg s := by
  cases o with
  | done a s => cases h
  | panicked m s => exact ⟨s, by rw [eq_of_beq h]⟩
  | stuck s => cases h

end Outcome

/-- Run a program alone. A sleeper whose condition does not hold is never woken. -/
def run : Prog σ α → σ → Outcome σ α
  | ret a, s => .done a s
  | act f k, s =>
    match f s with
    | .ok (b, s') => run (k b) s'
    | .error m => .panicked m s
  | sleep g k, s => if g s then run k s else .stuck s

theorem ret_run (a : α) (s : σ) : (ret a).run s = .done a s := rfl

theorem act_run {τ : Type} (f : σ → Except String (τ × σ)) (k : τ → Prog σ α) (s : σ) :
    (act f k).run s = match f s with
      | .ok (b, s') => (k b).run s'
      | .error m => .panicked m s := by
  rw [run]

theorem sleep_run (g : σ → Bool) (k : Prog σ α) (s : σ) : (sleep g k).run s = if g s then k.run s else .stuck s := rfl

theorem run_bind_of_done {x : Prog σ α} {h : α → Prog σ β} {s s' : σ} {a : α}
    (hx : x.run s = .done a s') : (x >>= h).run s = (h a).run s' := by
  induction x generalizing s with
  | ret b =>
    cases hx
    rfl
  | act f k ih =>
    simp only [act_run, act_bind] at hx ⊢
    cases hf : f s with
    | ok q => simp only [hf] at hx; exact ih q.1 hx
    | error e => simp only [hf] at hx; cases hx
  | sleep g k ih =>
    simp only [sleep_run, sleep_bind] at hx ⊢
    cases hg : g s with
    | true => simp only [hg, if_true] at hx ⊢; exact ih hx
    | false => simp only [hg] at hx; cases hx

theorem run_bind_of_panicked {x : Prog σ α} {h : α → Prog σ β} {s s' : σ} {m : String}
    (hx : x.run s = .panicked m s') : (x >>= h).run s = .panicked m s' := by
  induction x generalizing s with
  | ret b => cases hx
  | act f k ih =>
    simp only [act_run, act_bind] at hx ⊢
    cases hf : f s with
    | ok q => simp only [hf] at hx; exact ih q.1 hx
    | error e =>
      simp only [hf] at hx
      cases hx
      rfl
  | sleep g k ih =>
    simp only [sleep_run, sleep_bind] at hx ⊢
    cases hg : g s with
    | true => simp only [hg, if_true] at hx ⊢; exact ih hx
    | false => simp only [hg] at hx; cases hx

theorem run_check_of_true {c : σ → Bool} {m : String} {s : σ} (h : c s) : (check c m).run s = .done () s := by
  simp only [check, step, act_run, ret_run, if_pos h]

theorem run_check_of_false {c : σ → Bool} {m : String} {s : σ} (h : c s = false) :
    (check c m).run s = .panicked m s := by
  simp only [check, step, act_run, h, Bool.false_eq_true, if_false]

/-- What a program has done when it gives up the processor. -/
inductive Burst (σ α : Type) : Type 1
  | done (a : α) (s : σ)
  | parked (g : σ → Bool) (k : Prog σ α) (s : σ)
  | panicked (m : String) (s : σ)

/-- How a run ends when this burst is its last one. -/
def Burst.outcome : Burst σ α → Outcome σ α
  | .done a s => .done a s
  | .parked _ _ s => .stuck s
  | .panicked m s => .panicked m s

theorem Burst.eq_done_of_outcome {b : Burst σ α} {a : α} {s : σ} (h : b.outcome = .done a s) : b = .done a s := by
  cases b with
  | done a' s' =>
    cases h
    rfl
  | parked g k s' => cases h
  | panicked m s' => cases h

/-- Run a program to its next sleep point. -/
def burst : Prog σ α → σ → Burst σ α
  | ret a, s => .done a s
  | act f k, s =>
    match f s with
    | .ok (b, s') => burst (k b) s'
    | .error m => .panicked m s
  | sleep g k, s => .parked g k s

theorem act_burst {τ : Type} (f : σ → Except String (τ × σ)) (k : τ → Prog σ α) (s : σ) :
    (act f k).burst s = match f s with
      | .ok (b, s') => (k b).burst s'
      | .error m => .panicked m s := by
  rw [burst]

end Prog

end Xv6.Coop
