import Xv6.Coop.Prog

/-!
# Postconditions of a program that runs alone

`x.ensures Y E Q s` holds when `x`, started in `s` with nothing else running, returns only
with `Q`, reaches every sleep point in a state with `Y`, and ends abnormally (a panic with
a message, or a sleep that nothing can end) only with `E`. With `E` false it is total
correctness, with `E` true partial correctness.
-/

namespace Xv6.Coop.Prog

variable {σ α β : Type}

def ensures (Y : σ → Prop) (E : Option String → σ → Prop) :
    Prog σ α → (α → σ → Prop) → σ → Prop
  | ret a, Q, s => Q a s
  | act f k, Q, s =>
    match f s with
    | .ok (b, s') => ensures Y E (k b) Q s'
    | .error m => E (some m) s
  | sleep g k, Q, s => Y s ∧ if g s then ensures Y E k Q s else E none s

variable {Y : σ → Prop} {E : Option String → σ → Prop} {x : Prog σ α} {s : σ}

theorem act_ensures {τ : Type} (f : σ → Except String (τ × σ)) (k : τ → Prog σ α) (Q : α → σ → Prop) (s : σ) :
    (act f k).ensures Y E Q s = match f s with
      | .ok (b, s') => (k b).ensures Y E Q s'
      | .error m => E (some m) s := by
  rw [ensures]

theorem sleep_ensures (g : σ → Bool) (k : Prog σ α) (Q : α → σ → Prop) (s : σ) :
    (sleep g k).ensures Y E Q s = (Y s ∧ if g s then k.ensures Y E Q s else E none s) := by
  rw [ensures]

theorem ensures_bind (x : Prog σ α) (h : α → Prog σ β) (Q : β → σ → Prop) (s : σ) :
    (x >>= h).ensures Y E Q s ↔ x.ensures Y E (fun a s' => (h a).ensures Y E Q s') s := by
  induction x generalizing s with
  | ret a => exact Iff.rfl
  | act f k ih =>
    simp only [act_bind, act_ensures]
    cases hf : f s with
    | ok r => exact ih r.1 r.2
    | error m => exact Iff.rfl
  | sleep g k ih =>
    simp only [sleep_bind, sleep_ensures]
    cases hg : g s with
    | true => simp only [if_true, ih s]
    | false => exact Iff.rfl

theorem ensures_mono {Q R : α → σ → Prop} (hx : x.ensures Y E Q s)
    (hQ : ∀ a s', Q a s' → R a s') : x.ensures Y E R s := by
  induction x generalizing s with
  | ret a => exact hQ a s hx
  | act f k ih =>
    simp only [act_ensures] at hx ⊢
    cases hf : f s with
    | ok r => simp only [hf] at hx; exact ih r.1 hx
    | error m => simpa only [hf] using hx
  | sleep g k ih =>
    simp only [sleep_ensures] at hx ⊢
    refine ⟨hx.1, ?_⟩
    cases hg : g s with
    | true => simp only [hg, if_true] at hx ⊢; exact ih hx.2
    | false => simpa [hg] using hx.2

theorem ensures_weaken {E' : Option String → σ → Prop} {Q : α → σ → Prop}
    (hx : x.ensures Y E Q s) (hE : ∀ m s', E m s' → E' m s') : x.ensures Y E' Q s := by
  induction x generalizing s with
  | ret a => exact hx
  | act f k ih =>
    simp only [act_ensures] at hx ⊢
    cases hf : f s with
    | ok r => simp only [hf] at hx; exact ih r.1 hx
    | error m => simp only [hf] at hx; exact hE _ _ hx
  | sleep g k ih =>
    simp only [sleep_ensures] at hx ⊢
    refine ⟨hx.1, ?_⟩
    cases hg : g s with
    | true => simp only [hg, if_true] at hx ⊢; exact ih hx.2
    | false => simp only [hg] at hx; exact hE _ _ hx.2

theorem ensures_of_total {Q : α → σ → Prop} (hx : x.ensures Y (fun _ _ => False) Q s) : x.ensures Y E Q s :=
  ensures_weaken hx fun _ _ h => h.elim

/-- Two postconditions hold together; the first one says how the program may end abnormally. -/
theorem ensures_and {Y' : σ → Prop} {E' : Option String → σ → Prop} {Q R : α → σ → Prop}
    (hx : x.ensures Y E Q s) (hy : x.ensures Y' E' R s) : x.ensures Y E (fun a s' => Q a s' ∧ R a s') s := by
  induction x generalizing s with
  | ret a => exact ⟨hx, hy⟩
  | act f k ih =>
    simp only [act_ensures] at hx hy ⊢
    cases hf : f s with
    | ok r => simp only [hf] at hx hy; exact ih r.1 hx hy
    | error m => simpa only [hf] using hx
  | sleep g k ih =>
    simp only [sleep_ensures] at hx hy ⊢
    refine ⟨hx.1, ?_⟩
    cases hg : g s with
    | true => simp only [hg, if_true] at hx hy ⊢; exact ih hx.2 hy.2
    | false => simpa [hg] using hx.2

theorem ensures_of_forall {Q : α → σ → Prop} (hQ : ∀ a s, Q a s) (x : Prog σ α) (s : σ) :
    x.ensures (fun _ => True) (fun _ _ => True) Q s := by
  induction x generalizing s with
  | ret a => exact hQ a s
  | act f k ih =>
    simp only [act_ensures]
    cases hf : f s with
    | ok r => exact ih r.1 r.2
    | error m => trivial
  | sleep g k ih =>
    refine ⟨trivial, ?_⟩
    cases hg : g s with
    | true => exact ih s
    | false => trivial

/-- Sequencing: the second program starts where the first may end. -/
theorem ensures_seq {h : α → Prog σ β} {R : α → σ → Prop} {Q : β → σ → Prop}
    (hx : x.ensures Y E R s) (hh : ∀ a s', R a s' → (h a).ensures Y E Q s') :
    (x >>= h).ensures Y E Q s :=
  (ensures_bind x h Q s).mpr (ensures_mono hx hh)

/-! ## Elementary programs -/

@[simp] theorem ensures_ret (a : α) (Q : α → σ → Prop) (s : σ) :
    (ret a : Prog σ α).ensures Y E Q s ↔ Q a s := Iff.rfl

theorem ensures_step (f : σ → Except String (α × σ)) (Q : α → σ → Prop) (s : σ) :
    (step f).ensures Y E Q s ↔
      match f s with
      | .ok (b, s') => Q b s'
      | .error m => E (some m) s := by
  simp only [step, act_ensures, ensures_ret]

@[simp] theorem ensures_gets (f : σ → α) (Q : α → σ → Prop) (s : σ) :
    (gets f).ensures Y E Q s ↔ Q (f s) s := Iff.rfl

@[simp] theorem ensures_modify (f : σ → σ) (Q : Unit → σ → Prop) (s : σ) :
    (modify f).ensures Y E Q s ↔ Q () (f s) := Iff.rfl

@[simp] theorem ensures_panic (m : String) (Q : α → σ → Prop) (s : σ) :
    (panic m : Prog σ α).ensures Y E Q s ↔ E (some m) s := Iff.rfl

theorem ensures_check {c : σ → Bool} {m : String} {Q : Unit → σ → Prop} :
    (check c m).ensures Y E Q s ↔ (c s → Q () s) ∧ (c s = false → E (some m) s) := by
  simp only [check, ensures_step]
  cases hc : c s <;> simp

theorem ensures_check_bind {c : σ → Bool} {m : String} {h : Unit → Prog σ β} {Q : β → σ → Prop} :
    (check c m >>= h).ensures Y E Q s ↔ (c s → (h ()).ensures Y E Q s) ∧ (c s = false → E (some m) s) := by
  rw [ensures_bind, ensures_check]

@[simp] theorem ensures_pause (Q : Unit → σ → Prop) (s : σ) :
    (pause : Prog σ Unit).ensures Y E Q s ↔ Y s ∧ Q () s := by
  simp [pause, sleep_ensures]

theorem ensures_await {g : σ → Bool} {Q : Unit → σ → Prop} :
    (await g).ensures Y E Q s ↔ (g s → Q () s) ∧ (g s = false → Y s ∧ E none s) := by
  simp only [await, ensures_bind, ensures_gets]
  cases hg : g s <;> simp [sleep_ensures, hg]

/-- The loop rule: `I i` holds before the iteration with index `i`. -/
theorem ensures_loop {body : Nat → Prog σ Unit} (I : Nat → σ → Prop) {a n : Nat}
    (hbody : ∀ i s, a ≤ i → i < a + n → I i s → (body i).ensures Y E (fun _ => I (i + 1)) s)
    (h0 : I a s) : (loop body a n).ensures Y E (fun _ => I (a + n)) s := by
  induction n generalizing a s with
  | zero => exact h0
  | succ n ih =>
    refine ensures_seq (hbody a s (Nat.le_refl a) (by omega) h0) ?_
    intro _ s' hs'
    have h := ih (fun i s hi hin => hbody i s (by omega) (by omega)) hs'
    rwa [Nat.add_right_comm] at h

/-! ## The postcondition speaks about `run` -/

/-- What `run` may answer when `ensures` holds. -/
def Outcome.Meets (E : Option String → σ → Prop) (Q : α → σ → Prop) : Outcome σ α → Prop
  | .done a s => Q a s
  | .panicked m s => E (some m) s
  | .stuck s => E none s

theorem ensures_run {Q : α → σ → Prop} (hx : x.ensures Y E Q s) : (x.run s).Meets E Q := by
  induction x generalizing s with
  | ret a => exact hx
  | act f k ih =>
    simp only [act_ensures] at hx
    simp only [act_run]
    cases hf : f s with
    | ok r => simp only [hf] at hx; exact ih r.1 hx
    | error m => simp only [hf] at hx; exact hx
  | sleep g k ih =>
    simp only [sleep_ensures] at hx
    simp only [sleep_run]
    cases hg : g s with
    | true => simp only [hg, if_true] at hx ⊢; exact ih hx.2
    | false => simp only [hg] at hx; exact hx.2

theorem exists_done_of_ensures {Q : α → σ → Prop}
    (hx : x.ensures Y (fun _ _ => False) Q s) : ∃ a s', x.run s = .done a s' ∧ Q a s' := by
  have h := ensures_run hx
  cases hr : x.run s with
  | done a s' => rw [hr] at h; exact ⟨a, s', rfl, h⟩
  | panicked m s' => rw [hr] at h; exact h.elim
  | stuck s' => rw [hr] at h; exact h.elim

/-- Partial correctness: what a returning program has established. -/
theorem of_run_eq_done {Q : α → σ → Prop} {s' : σ} {a : α}
    (hx : x.ensures Y E Q s) (hr : x.run s = .done a s') : Q a s' := by
  have h := ensures_run hx
  rwa [hr] at h

/-! ## States at sleep points -/

/-- Alone, the program sleeps at some point in a state with `P`. -/
def visits (P : σ → Prop) : Prog σ α → σ → Prop
  | ret _, _ => False
  | act f k, s =>
    match f s with
    | .ok (b, s') => visits P (k b) s'
    | .error _ => False
  | sleep g k, s => P s ∨ (g s = true ∧ visits P k s)

variable {P : σ → Prop}

instance decidableVisits [DecidablePred P] : (x : Prog σ α) → (s : σ) → Decidable (x.visits P s)
  | ret _, _ => .isFalse id
  | act f k, s =>
    have : Decidable (match f s with
        | .ok (b, s') => (k b).visits P s'
        | .error _ => False) :=
      match f s with
      | .ok (b, s') => decidableVisits (k b) s'
      | .error _ => .isFalse id
    decidable_of_iff _ (by rw [visits])
  | sleep g k, s =>
    have := decidableVisits k s
    decidable_of_iff (P s ∨ (g s = true ∧ k.visits P s)) (by rw [visits])

end Xv6.Coop.Prog
