import Xv6.Coop.Pool
import Xv6.Coop.Sequential

/-!
# A program logic for the pool

A `Logic` consists of a global invariant that holds whenever nobody runs, and of a view
for each process: the part of the state that nobody else changes while the process sleeps.
A program is safe when every burst restores the invariant, leaves the views of the other
processes as they were, and goes on safely from every state in which it may be woken. The
state is paired with a ghost component that programs do not see and that a proof may change
at every action.

`Logic.good_of_reach` says that programs that are safe one by one are safe in every
interleaving.
-/

namespace Xv6.Coop

/-- `idle` is what the view of a process satisfies between two calls, `bad` the messages
that no panic in a state may carry, `dead` what holds of a halted state, and `guar` a relation between
the states before and after each burst. -/
structure Logic (σ γ V : Type) where
  inv : σ × γ → Prop
  view : Pid → σ × γ → V
  idle : V → Prop
  bad : String → σ → Prop
  dead : σ → Prop
  guar : σ → σ → Prop

namespace Logic

variable {σ γ V α β ι ρ : Type} (L : Logic σ γ V)

/-- What a burst of `p` has to respect from its start `w₀` to `w`. -/
def Rel (p : Pid) (w₀ w : σ × γ) : Prop :=
  (∀ q, q ≠ p → L.view q w = L.view q w₀) ∧ L.guar w₀.1 w.1

/-- The program is safe for process `p` in `w`, in a burst that began in `w₀`. -/
def safe (p : Pid) : Prog σ α → (α → σ × γ → σ × γ → Prop) → σ × γ → σ × γ → Prop
  | .ret a, Q, w₀, w => Q a w₀ w
  | .act f k, Q, w₀, w =>
    match f w.1 with
    | .ok (b, s) => ∃ g, safe p (k b) Q w₀ (s, g)
    | .error m => ¬ L.bad m w.1 ∧ L.dead w.1 ∧ L.guar w₀.1 w.1
  | .sleep h k, Q, w₀, w =>
    L.inv w ∧ L.Rel p w₀ w ∧
      ∀ w₁, L.inv w₁ → L.view p w₁ = L.view p w → h w₁.1 = true → safe p k Q w₁ w₁

variable {L} {p : Pid} {w0 w : σ × γ} {s : σ}

theorem safe_bind (x : Prog σ α) (h : α → Prog σ β) (Q : β → σ × γ → σ × γ → Prop) (w0 w : σ × γ) :
    L.safe p (x >>= h) Q w0 w ↔
      L.safe p x (fun a w0' w' => L.safe p (h a) Q w0' w') w0 w := by
  induction x generalizing w0 w with
  | ret a => exact Iff.rfl
  | act f k ih =>
    simp only [Prog.act_bind, safe]
    cases hf : f w.1 with
    | ok r => simp only [ih]
    | error m => exact Iff.rfl
  | sleep g k ih =>
    simp only [Prog.sleep_bind, safe]
    simp only [ih]

theorem safe_mono {x : Prog σ α} {Q R : α → σ × γ → σ × γ → Prop}
    (hx : L.safe p x Q w0 w) (hQ : ∀ a w0' w', Q a w0' w' → R a w0' w') :
    L.safe p x R w0 w := by
  induction x generalizing w0 w with
  | ret a => exact hQ a w0 w hx
  | act f k ih =>
    simp only [safe] at hx ⊢
    cases hf : f w.1 with
    | ok r =>
      simp only [hf] at hx
      obtain ⟨g, hg⟩ := hx
      exact ⟨g, ih r.1 hg⟩
    | error m => simpa only [hf] using hx
  | sleep g k ih =>
    simp only [safe] at hx ⊢
    refine ⟨hx.1, hx.2.1, ?_⟩
    intro w1 hinv hview hg
    exact ih (hx.2.2 w1 hinv hview hg)

theorem safe_seq {x : Prog σ α} {h : α → Prog σ β} {R : α → σ × γ → σ × γ → Prop}
    {Q : β → σ × γ → σ × γ → Prop} (hx : L.safe p x R w0 w)
    (hh : ∀ a w0' w', R a w0' w' → L.safe p (h a) Q w0' w') : L.safe p (x >>= h) Q w0 w :=
  (safe_bind x h Q w0 w).mpr (safe_mono hx hh)

/-! ## Elementary programs -/

theorem safe_step {f : σ → Except String (α × σ)} {Q : α → σ × γ → σ × γ → Prop} :
    L.safe p (Prog.step f) Q w0 w ↔
      match f w.1 with
      | .ok (b, s) => ∃ g, Q b w0 (s, g)
      | .error m => ¬ L.bad m w.1 ∧ L.dead w.1 ∧ L.guar w0.1 w.1 := by
  simp only [Prog.step, safe]

theorem safe_gets {f : σ → α} {Q : α → σ × γ → σ × γ → Prop} (h : Q (f w.1) w0 w) : L.safe p (Prog.gets f) Q w0 w :=
  ⟨w.2, h⟩

theorem safe_modify {f : σ → σ} {Q : Unit → σ × γ → σ × γ → Prop} (g : γ)
    (h : Q () w0 (f w.1, g)) : L.safe p (Prog.modify f) Q w0 w :=
  ⟨g, h⟩

theorem safe_pause {Q : Unit → σ × γ → σ × γ → Prop} (hinv : L.inv w) (hrel : L.Rel p w0 w)
    (h : ∀ w1, L.inv w1 → L.view p w1 = L.view p w → Q () w1 w1) :
    L.safe p Prog.pause Q w0 w :=
  ⟨hinv, hrel, fun w1 h1 hv _ => h w1 h1 hv⟩

theorem safe_check {c : σ → Bool} {m : String} {Q : Unit → σ × γ → σ × γ → Prop} (htrue : c w.1 → Q () w0 w)
    (hfalse : c w.1 = false → ¬ L.bad m w.1 ∧ L.dead w.1 ∧ L.guar w0.1 w.1) :
    L.safe p (Prog.check c m) Q w0 w := by
  simp only [Prog.check, safe_step]
  cases hc : c w.1 with
  | true => exact ⟨w.2, htrue hc⟩
  | false => exact hfalse hc

theorem safe_await {g : σ → Bool} {Q : Unit → σ × γ → σ × γ → Prop} (hnow : g w.1 → Q () w0 w)
    (hlater : g w.1 = false → L.inv w ∧ L.Rel p w0 w ∧
      ∀ w1, L.inv w1 → L.view p w1 = L.view p w → g w1.1 → Q () w1 w1) :
    L.safe p (Prog.await g) Q w0 w := by
  refine safe_seq (safe_gets (Q := fun b w0' w' => b = g w.1 ∧ w0' = w0 ∧ w' = w)
    ⟨rfl, rfl, rfl⟩) ?_
  rintro b w1 w2 ⟨hb, h1, h2⟩
  rw [hb, h1, h2]
  cases hg : g w.1 with
  | true => exact hnow hg
  | false => exact hlater hg

/-- The loop rule: `I i` holds before the iteration with index `i`. -/
theorem safe_loop {body : Nat → Prog σ Unit} (I : Nat → σ × γ → σ × γ → Prop) {a n : Nat}
    (hbody : ∀ i w0 w, a ≤ i → i < a + n → I i w0 w →
      L.safe p (body i) (fun _ => I (i + 1)) w0 w) (h0 : I a w0 w) :
    L.safe p (Prog.loop body a n) (fun _ => I (a + n)) w0 w := by
  induction n generalizing a w0 w with
  | zero => exact h0
  | succ n ih =>
    refine safe_seq (hbody a w0 w (Nat.le_refl a) (by omega) h0) ?_
    intro _ w0' w' hw'
    have h := ih (fun i w0 w hi hin => hbody i w0 w (by omega) (by omega)) hw'
    rwa [Nat.add_right_comm] at h

/-- A program whose process sees the whole state while it sleeps runs as if it were alone. `C`
holds where a burst may begin. -/
theorem safe_of_ensures {x : Prog σ α} {Y C : σ → Prop} {Q : α → σ → Prop}
    {R : α → σ × γ → σ × γ → Prop} {g : γ} (hbegin : ∀ u, Y u → C u)
    (hinv : ∀ u, Y u → L.inv (u, g)) (hrel : ∀ u u', C u → Y u' → L.Rel p (u, g) (u', g))
    (hown : ∀ u, Y u → ∀ w, L.inv w → L.view p w = L.view p (u, g) → w = (u, g))
    (hend : ∀ a u u', C u → Q a u' → R a (u, g) (u', g)) {s0 : σ} (hs0 : C s0)
    (hx : x.ensures Y (fun _ _ => False) Q s) : L.safe p x R (s0, g) (s, g) := by
  induction x generalizing s0 s with
  | ret a => exact hend a s0 s hs0 hx
  | act f k ih =>
    simp only [Prog.ensures] at hx
    simp only [safe]
    cases hf : f s with
    | ok r => simp only [hf] at hx; exact ⟨g, ih r.1 hs0 hx⟩
    | error m => simp only [hf] at hx
  | sleep h k ih =>
    obtain ⟨hY, hx⟩ := hx
    refine ⟨hinv s hY, hrel s0 s hs0 hY, ?_⟩
    intro w hw hview hguard
    obtain rfl := hown s hY w hw hview
    rw [if_pos hguard] at hx
    exact ih (hbegin s hY) hx

/-! ## Specifications at the borders of functions -/

variable (L p) in
/-- Between two functions of the same burst the invariant holds and the burst is within its
bounds; what the process knows is a property of its view. -/
def Mid (R : V → Prop) (w₀ w : σ × γ) : Prop := L.inv w ∧ L.Rel p w₀ w ∧ R (L.view p w)

/-! ## Soundness -/

theorem burst_of_safe {x : Prog σ α} {Q : α → σ × γ → σ × γ → Prop} (hx : L.safe p x Q w0 w) :
    match x.burst w.1 with
    | .done a s => ∃ g, Q a w0 (s, g)
    | .parked h k s => ∃ g, L.safe p (Prog.sleep h k) Q w0 (s, g)
    | .panicked m s => ¬ L.bad m s ∧ L.dead s ∧ L.guar w0.1 s := by
  induction x generalizing w with
  | ret a => exact ⟨w.2, hx⟩
  | act f k ih =>
    simp only [safe] at hx
    simp only [Prog.burst]
    cases hf : f w.1 with
    | ok r =>
      simp only [hf] at hx
      obtain ⟨g, hg⟩ := hx
      exact ih r.1 hg
    | error m => simp only [hf] at hx; exact hx
  | sleep g k _ => exact ⟨w.2, hx⟩

variable (L) in
/-- What a call has to establish when it returns. -/
def Final (post : Pid → ι → ρ → σ → Prop) (p : Pid) (i : ι) (r : ρ) (w₀ w : σ × γ) : Prop :=
  L.inv w ∧ L.Rel p w₀ w ∧ L.idle (L.view p w) ∧ post p i r w.1

/-- Every call of the machine is safe, and a power failure leads back to the invariant. The ghost
component may change where a call begins. -/
structure Verified (L : Logic σ γ V) (M : Machine σ ι ρ) (post : Pid → ι → ρ → σ → Prop) :
    Prop where
  call : ∀ p i w, L.inv w → L.idle (L.view p w) → M.may p i w.1 →
    ∃ g, L.safe p (M.code p i) (L.Final post p i) w (w.1, g)
  fail : ∀ s s', ((∃ g, L.inv (s, g)) ∨ L.dead s) → M.fail s s' →
    ∃ g, L.inv (s', g) ∧ ∀ p, L.idle (L.view p (s', g))
  refl : ∀ s, L.guar s s

variable (L) in
/-- A live configuration in which every process may safely go on. -/
def Live (post : Pid → ι → ρ → σ → Prop) (c : Config σ ι ρ) (g : γ) : Prop :=
  L.inv (c.mem, g) ∧ (∀ p, c.thr p = none → L.idle (L.view p (c.mem, g))) ∧
    ∀ p t, c.thr p = some t → ∀ w, L.inv w → L.view p w = L.view p (c.mem, g) →
      t.guard w.1 = true → L.safe p t.rest (L.Final post p t.call) w w

variable (L) in
def Good (post : Pid → ι → ρ → σ → Prop) (c : Config σ ι ρ) : Prop :=
  match c.halted with
  | none => ∃ g, L.Live post c g
  | some m => ¬ L.bad m c.mem ∧ L.dead c.mem

variable {M : Machine σ ι ρ} {post : Pid → ι → ρ → σ → Prop}

theorem safe_of_enabled (hM : L.Verified M post) {c : Config σ ι ρ} {g : γ}
    (hlive : L.Live post c g) {i : ι} {x : Prog σ ρ} (hx : M.Enabled c p i x) :
    ∃ g', L.safe p x (L.Final post p i) (c.mem, g) (c.mem, g') := by
  cases hx with
  | call hidle hmay => exact hM.call p i _ hlive.1 (hlive.2.1 p hidle) hmay
  | wake t ht hi hg =>
    subst hi
    exact ⟨g, hlive.2.2 p t ht _ hlive.1 rfl hg⟩

theorem good_start {g : γ} (hinv : L.inv (s, g)) (hidle : ∀ p, L.idle (L.view p (s, g))) :
    L.Good post (Config.start s : Config σ ι ρ) :=
  ⟨g, hinv, fun p _ => hidle p, nofun⟩

/-- The views of the processes that did not run are as before, so what they may safely do
is as before. -/
theorem live_after {c : Config σ ι ρ} {g : γ} (hlive : L.Live post c g) {g' : γ}
    {e : Option (Thread σ ι ρ)} (hinv : L.inv (s, g')) (hrel : L.Rel p (c.mem, g) (s, g'))
    (hnone : e = none → L.idle (L.view p (s, g')))
    (hsome : ∀ t, e = some t → ∀ w, L.inv w → L.view p w = L.view p (s, g') →
      t.guard w.1 → L.safe p t.rest (L.Final post p t.call) w w) :
    L.Live post ⟨s, Function.update c.thr p e, none⟩ g' := by
  refine ⟨hinv, ?_, ?_⟩
  · intro q hq
    by_cases hqp : q = p
    · subst hqp
      exact hnone (by simpa using hq)
    · have hv := hrel.1 q hqp
      simp only [Function.update_of_ne hqp] at hq
      simp only [hv]
      exact hlive.2.1 q hq
  · intro q t hq w hw hview hg
    by_cases hqp : q = p
    · subst hqp
      exact hsome t (by simpa using hq) w hw hview hg
    · have hv := hrel.1 q hqp
      simp only [Function.update_of_ne hqp] at hq
      exact hlive.2.2 q t hq w hw (hview.trans hv) hg

section

variable (hM : L.Verified M post)
include hM

theorem good_step {c c' : Config σ ι ρ} (hc : L.Good post c) (hstep : M.Step c c') : L.Good post c' := by
  cases hstep with
  | burst p i x hlive hx =>
    simp only [Good, hlive] at hc
    obtain ⟨g, hg⟩ := hc
    obtain ⟨_, hsafe⟩ := safe_of_enabled hM hg hx
    have hb := burst_of_safe hsafe
    cases hburst : x.burst c.mem with
    | done r s =>
      simp only [hburst] at hb
      obtain ⟨g', hinv, hrel, hidle, -⟩ := hb
      exact ⟨g', live_after hg hinv hrel (fun _ => hidle) nofun⟩
    | parked h k s =>
      simp only [hburst] at hb
      obtain ⟨g', hinv, hrel, hrest⟩ := hb
      refine ⟨g', live_after hg hinv hrel nofun ?_⟩
      rintro t ht
      cases ht
      exact hrest
    | panicked m s =>
      simp only [hburst] at hb
      exact ⟨hb.1, hb.2.1⟩
  | fail s hs =>
    obtain ⟨g, hinv, hidle⟩ : ∃ g, L.inv (s, g) ∧ ∀ p, L.idle (L.view p (s, g)) := by
      refine hM.fail c.mem s ?_ hs
      simp only [Good] at hc
      cases hh : c.halted with
      | none =>
        simp only [hh] at hc
        exact Or.inl ⟨hc.choose, hc.choose_spec.1⟩
      | some m =>
        simp only [hh] at hc
        exact Or.inr hc.2
    exact good_start hinv hidle

/-- **Soundness.** Verified calls keep every reachable configuration good, whatever the
interleaving and wherever the power fails. -/
theorem good_of_reach {c c' : Config σ ι ρ} (hc : L.Good post c) (hreach : M.Reach c c') : L.Good post c' := by
  induction hreach with
  | refl => exact hc
  | tail _ hstep ih => exact good_step hM ih hstep

/-- A returning call establishes its postcondition, and its last burst is within `guar`. -/
theorem post_of_returns {c : Config σ ι ρ} (hc : L.Good post c)
    {i : ι} {r : ρ} (hret : M.Returns c p i r s) : post p i r s ∧ L.guar c.mem s := by
  obtain ⟨hlive, x, hx, hburst⟩ := hret
  simp only [Good, hlive] at hc
  obtain ⟨g, hg⟩ := hc
  obtain ⟨_, hsafe⟩ := safe_of_enabled hM hg hx
  have hb := burst_of_safe hsafe
  simp only [hburst] at hb
  obtain ⟨g', -, hrel, -, hpost⟩ := hb
  exact ⟨hpost, hrel.2⟩

theorem guar_of_burst {c : Config σ ι ρ} (hc : L.Good post c)
    (hlive : c.halted = none) {i : ι} {x : Prog σ ρ} (hx : M.Enabled c p i x) :
    L.guar c.mem (c.after p i (x.burst c.mem)).mem := by
  simp only [Good, hlive] at hc
  obtain ⟨g, hg⟩ := hc
  obtain ⟨_, hsafe⟩ := safe_of_enabled hM hg hx
  have hb := burst_of_safe hsafe
  cases hburst : x.burst c.mem with
  | done r s =>
    simp only [hburst] at hb
    obtain ⟨g', -, hrel, -⟩ := hb
    exact hrel.2
  | parked h k s =>
    simp only [hburst] at hb
    obtain ⟨g', -, hrel, -⟩ := hb
    exact hrel.2
  | panicked m s =>
    simp only [hburst] at hb
    exact hb.2.2

end

end Logic

end Xv6.Coop
