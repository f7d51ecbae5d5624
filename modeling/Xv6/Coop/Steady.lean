import Xv6.Coop.Logic
import Mathlib.Order.UpperLower.CompleteLattice

/-!
# Functions that keep what a process may do

In many systems what a process may do is fixed by a few facts about it, which others do not
change: the view of a `Logic`. When the views are ordered, a function is `Steady` on an upper set
of views if it runs safely from each of them and the view at the end is above the view at the
start. Steady functions compose, so a specification of this kind is proved once for each function
and used where the function is called.

`Turns` is the same for a function that leads from one set of views to another.
-/

namespace Xv6.Coop.Logic

variable {σ γ V α β ι ρ : Type} {L : Logic σ γ V} {p : Pid} {R : V → V → Prop} {x : Prog σ α}

/-- Every burst is within its bounds, and a panic leaves the invariant in place. -/
structure Plain (L : Logic σ γ V) : Prop where
  guar : ∀ s s', L.guar s s'
  dead : ∀ w, L.inv w → L.dead w.1

variable (L p) in
/-- From every view in `A` the program runs safely to a view that satisfies `R`. -/
def Turns (A : Set V) (R : V → V → Prop) (x : Prog σ α) : Prop :=
  ∀ w₀ w, L.Mid p (· ∈ A) w₀ w → L.safe p x (fun _ => L.Mid p (R (L.view p w))) w₀ w

variable (L p) in
/-- From every view in `A` the program runs safely to a view above it. -/
def Steady [LE V] (A : UpperSet V) (x : Prog σ α) : Prop := L.Turns p A (fun v v' => v ≤ v') x

theorem Turns.mono {A B : Set V} {R' : V → V → Prop} (hx : L.Turns p A R x)
    (hsub : B ⊆ A) (hR : ∀ v v', R v v' → R' v v') : L.Turns p B R' x := by
  intro w0 w hw
  refine safe_mono (hx w0 w ⟨hw.1, hw.2.1, hsub hw.2.2⟩) ?_
  intro _ w0' w' h
  exact ⟨h.1, h.2.1, hR _ _ h.2.2⟩

theorem Turns.bind {A B : Set V} {R1 R2 : V → V → Prop} {h : α → Prog σ β}
    (hx : L.Turns p A R1 x) (hh : ∀ a, L.Turns p B R2 (h a))
    (hB : ∀ v v', v ∈ A → R1 v v' → v' ∈ B)
    (hR : ∀ v v' v'', R1 v v' → R2 v' v'' → R v v'') : L.Turns p A R (x >>= h) := by
  intro w0 w hw
  refine safe_seq (hx w0 w hw) ?_
  intro a w0' w' hw'
  refine safe_mono (hh a w0' w' ⟨hw'.1, hw'.2.1, hB _ _ hw.2.2 hw'.2.2⟩) ?_
  intro _ w0'' w'' hw''
  exact ⟨hw''.1, hw''.2.1, hR _ _ _ hw'.2.2 hw''.2.2⟩

/-! ## One action -/

/-- What one action of `p` from `w` to `w'` has to keep. -/
def Kept (L : Logic σ γ V) (p : Pid) (R : V → V → Prop) (w w' : σ × γ) : Prop :=
  L.inv w' ∧ (∀ q, q ≠ p → L.view q w' = L.view q w) ∧ R (L.view p w) (L.view p w')

/-- A part of a burst that kept what it had to keep leads from one border to the next. -/
theorem Kept.mid (hL : L.Plain) {P : V → Prop} {w0 w w' : σ × γ}
    (h : L.Kept p R w w') (hw : L.Mid p P w0 w) : L.Mid p (R (L.view p w)) w0 w' := by
  refine ⟨h.1, ⟨?_, hL.guar _ _⟩, h.2.2⟩
  intro q hq
  rw [h.2.1 q hq]
  exact hw.2.1.1 q hq

theorem turns_step (hL : L.Plain) {A : Set V} {f : σ → Except String (α × σ)}
    (hok : ∀ s g a s', L.inv (s, g) → L.view p (s, g) ∈ A → f s = .ok (a, s') →
      L.Kept p R (s, g) (s', g))
    (herr : ∀ s g m, L.inv (s, g) → L.view p (s, g) ∈ A → f s = .error m → ¬ L.bad m s) :
    L.Turns p A R (Prog.step f) := by
  intro w0 w hw
  rw [safe_step]
  cases hf : f w.1 with
  | ok r => exact ⟨w.2, (hok _ _ _ _ hw.1 hw.2.2 hf).mid hL hw⟩
  | error m => exact ⟨herr _ _ _ hw.1 hw.2.2 hf, hL.dead _ hw.1, hL.guar _ _⟩

theorem turns_modify (hL : L.Plain) {A : Set V} {f : σ → σ}
    (h : ∀ s g, L.inv (s, g) → L.view p (s, g) ∈ A → L.Kept p R (s, g) (f s, g)) :
    L.Turns p A R (Prog.modify f) :=
  fun _ w hw => safe_modify w.2 ((h _ _ hw.1 hw.2.2).mid hL hw)

/-! ## Steady programs -/

section Steady

variable [Preorder V] {A : UpperSet V}

theorem Steady.bind {h : α → Prog σ β} (hx : L.Steady p A x)
    (hh : ∀ a, L.Steady p A (h a)) : L.Steady p A (x >>= h) :=
  Turns.bind hx hh (fun _ _ hv hle => A.upper hle hv) fun _ _ _ => le_trans

/-- What is done before and after a turn may keep the view. -/
theorem Steady.bind_turns {h : α → Prog σ β} {B : Set V} (hx : L.Steady p A x) (hh : ∀ a, L.Turns p B R (h a))
    (hB : ∀ v v', v ∈ A → v ≤ v' → v' ∈ B) (hR : ∀ v v' v'', v ≤ v' → R v' v'' → R v v'') :
    L.Turns p A R (x >>= h) :=
  Turns.bind hx hh hB hR

theorem steady_pure (a : α) : L.Steady p A (pure a : Prog σ α) :=
  fun _ _ hw => ⟨hw.1, hw.2.1, le_refl _⟩

theorem steady_gets (f : σ → α) : L.Steady p A (Prog.gets f) :=
  fun _ _ hw => safe_gets ⟨hw.1, hw.2.1, le_refl _⟩

/-- Whoever sleeps wakes with the view it had. -/
theorem steady_pause (hL : L.Plain) : L.Steady p A (Prog.pause : Prog σ Unit) := by
  intro w0 w hw
  refine safe_pause hw.1 hw.2.1 ?_
  intro w1 hinv hview
  exact ⟨hinv, ⟨fun _ _ => rfl, hL.guar _ _⟩, by rw [hview]⟩

theorem steady_await (hL : L.Plain) (g : σ → Bool) : L.Steady p A (Prog.await g) := by
  intro w0 w hw
  refine safe_await (fun _ => ⟨hw.1, hw.2.1, le_refl _⟩) fun _ => ⟨hw.1, hw.2.1, ?_⟩
  intro w1 hinv hview _
  exact ⟨hinv, ⟨fun _ _ => rfl, hL.guar _ _⟩, by rw [hview]⟩

theorem steady_check (hL : L.Plain) {c : σ → Bool} {m : String}
    (h : ∀ s g, L.inv (s, g) → L.view p (s, g) ∈ A → c s = false → ¬ L.bad m s) :
    L.Steady p A (Prog.check c m) := by
  intro w0 w hw
  refine safe_check (fun _ => ⟨hw.1, hw.2.1, le_refl _⟩) fun hc => ?_
  exact ⟨h _ _ hw.1 hw.2.2 hc, hL.dead _ hw.1, hL.guar _ _⟩

theorem steady_panic (hL : L.Plain) {m : String} (h : ∀ s, ¬ L.bad m s) : L.Steady p A (Prog.panic m : Prog σ α) :=
  fun _ w hw => ⟨h w.1, hL.dead w hw.1, hL.guar _ _⟩

theorem steady_loop {body : Nat → Prog σ Unit} (hbody : ∀ i, L.Steady p A (body i)) (a n : Nat) :
    L.Steady p A (Prog.loop body a n) := by
  induction n generalizing a with
  | zero => exact steady_pure ()
  | succ n ih => exact (hbody a).bind fun _ => ih (a + 1)

end Steady

/-! ## Soundness -/

/-- Calls that lead from idle views to idle views are verified. -/
theorem verified_of_turns (hL : L.Plain) {M : Machine σ ι ρ}
    (hcall : ∀ p i, L.Turns p {v | L.idle v} (fun _ v' => L.idle v') (M.code p i))
    (hfail : ∀ s s', ¬ M.fail s s') : L.Verified M (fun _ _ _ _ => True) where
  call p i w hinv hidle _ := by
    refine ⟨w.2, safe_mono (hcall p i w w ⟨hinv, ⟨fun _ _ => rfl, hL.guar _ _⟩, hidle⟩) ?_⟩
    intro _ w0 w' h
    exact ⟨h.1, h.2.1, h.2.2, trivial⟩
  fail s s' _ h := absurd h (hfail s s')
  refl _ := hL.guar _ _

end Xv6.Coop.Logic
