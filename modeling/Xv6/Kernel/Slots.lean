import Xv6.Kernel.System
import Xv6.Process.Steps

/-!
# What happens to a slot of the process table

A step of the table other than `fork` leaves a slot in use or unused; only the child that a `wait`
frees becomes unused, and only the process that exits becomes a zombie. A process is on its way out
only if it has called `exit`.
-/

namespace Xv6.Kernel

open Process

variable {s s' : Process.State} {es : List Event} {a : Process.Action} {p q : Slot}

/-- The process is inside of `exit`. -/
def Exiting (x : Proc) : Prop := ∃ status, x.place = .exiting status

/-! ## Where the processes stand -/

theorem wakeup_place (me : Option Slot) (c : Chan) (t : Table) (q : Slot) :
    (t.wakeup me c q).place = (t q).place := by
  unfold Table.wakeup
  split <;> rfl

theorem adopt_place (me : Option Slot) (p : Slot) (t : Table) (c q : Slot) :
    (Table.adopt me p t c q).place = (t q).place := by
  unfold Table.adopt
  split
  · rw [wakeup_place]
    by_cases hq : q = c
    · subst hq
      rw [Table.set_self]
    · rw [Table.set_of_ne hq]
  · rfl

theorem reparent_place (me : Option Slot) (p : Slot) (t : Table) (q : Slot) :
    (t.reparent me p q).place = (t q).place := by
  rw [Table.reparent_eq]
  generalize List.finRange NPROC = l
  induction l generalizing t with
  | nil => rfl
  | cons c l ih => rw [List.foldl_cons, ih, adopt_place]

theorem wakeParent_place (me : Option Slot) (p : Slot) (t : Table) (q : Slot) :
    (t.wakeParent me p q).place = (t q).place := by
  unfold Table.wakeParent
  cases (t p).parent with
  | some r => exact wakeup_place me (.slot r) t q
  | none => rfl

theorem kill_place (t : Table) (pid : Int32) (q : Slot) : (t.kill pid q).place = (t q).place := by
  unfold Table.kill
  cases (List.finRange NPROC).find? fun q => (t q).pid = pid ∧ (t q).state ≠ .unused with
  | some r =>
    by_cases hq : q = r
    · subst hq
      dsimp only
      rw [Table.set_self]
    · dsimp only
      rw [Table.set_of_ne hq]
  | none => rfl

theorem kill_resched (t : Table) (pid : Int32) (q : Slot) : (t q).Resched (t.kill pid q) := by
  unfold Table.kill
  cases hfind : (List.finRange NPROC).find? fun q => (t q).pid = pid ∧ (t q).state ≠ .unused with
  | some r =>
    have hfound := List.find?_some hfind
    have hr : (t r).state ≠ .unused := (of_decide_eq_true hfound).2
    exact Table.resched_set (.kill hr) q
  | none => exact .refl _

/-! ## One slot -/

/-- What a step other than `fork` does to slot `q`. -/
inductive Slotted (s : Process.State) (a : Process.Action) (s' : Process.State) (q : Slot) : Prop
  | resched (hr : (s.proc q).Resched (s'.proc q))
      (hexit : Exiting (s'.proc q) →
        Exiting (s.proc q) ∨ s.current = some q ∧ ∃ status c, a = .exitSleep status c)
      (hreap : reapedBy s a ≠ some q)
  | exited (hcur : s.current = some q) (hz : (s'.proc q).state = .zombie)
      (hexit : Exiting (s.proc q) ∨ ∃ status, a = .exit status) (hreap : reapedBy s a ≠ some q)
  | reaped (hr : reapedBy s a = some q) (hz : (s.proc q).state = .zombie) (hfree : s'.proc q = .free)

/-- The running process stays live and goes to a place outside of `exit`. -/
theorem Slotted.set_current (a : Process.Action) (x : Proc) (h : Tree s) (hp : s.current = some p)
    {cur : Option Slot} (hpid : x.pid = (s.proc p).pid) (hxstate : x.xstate = (s.proc p).xstate) (hx : x.Live)
    (hplace : Exiting x → Exiting (s.proc p) ∨ ∃ status c, a = .exitSleep status c)
    (hreap : reapedBy s a = none) (q : Slot) :
    Slotted s a ⟨s.proc.set p x, s.nextpid, cur⟩ q := by
  have hresched : (s.proc p).Resched x := .of_live hpid hxstate (h.live_of_current hp) hx
  refine .resched (Table.resched_set hresched q) ?_ (by simp [hreap])
  show Exiting (s.proc.set p x q) → _
  by_cases hq : q = p
  · subst hq
    rw [Table.set_self]
    exact fun he => (hplace he).imp_right fun hsleep => ⟨hp, hsleep⟩
  · rw [Table.set_of_ne hq]
    exact .inl

/-- The end of `exit`, in a state that differs from `s₀` at most in the channel of the caller. -/
theorem slotted_exit {s0 : Process.State} (hp : s0.current = some p) {status : Int32}
    (hexit : Exiting (s0.proc p) ∨ ∃ status, a = .exit status) (hreap : reapedBy s0 a = none)
    (hsame : ∀ q, (s0.proc q).Resched (s.proc q)) (hplace : ∀ q, (s.proc q).place = (s0.proc q).place)
    (q : Slot) : Slotted s0 a (s.exit p status).1 q := by
  have hnone : reapedBy s0 a ≠ some q := by
    rw [hreap]
    simp
  unfold State.exit
  by_cases hq : q = p
  · subst hq
    exact .exited hp (congrArg Proc.state (Table.set_self _ q _)) hexit hnone
  · have hset : ∀ x : Proc,
        ((s.proc.reparent s.current p).wakeParent s.current p).set p x q =
          (s.proc.reparent s.current p).wakeParent s.current p q := fun x => Table.set_of_ne hq _ x
    refine .resched ?_ ?_ hnone
    · show (s0.proc q).Resched (Table.set _ p _ q)
      rw [hset]
      exact ((hsame q).trans (Table.reparent_resched s.proc q)).trans (Table.resched_wakeParent _ _ _ q)
    · show Exiting (Table.set _ p _ q) → _
      rw [hset]
      rintro ⟨st, hst⟩
      rw [wakeParent_place, reparent_place, hplace] at hst
      exact .inl ⟨st, hst⟩

/-- One round of `wait`, in a state that differs from `s₀` at most in the channel of the caller. -/
theorem slotted_wait {s0 : Process.State} (h : Tree s) (hp : s.current = some p) {addr : UInt64}
    {copyout : Bool} (hreap : reapedBy s0 a = reaps s p addr copyout)
    (hsame : ∀ q, (s0.proc q).Resched (s.proc q)) (hstate : ∀ q, (s0.proc q).state = (s.proc q).state)
    (hplace : ∀ q, (s.proc q).place = (s0.proc q).place) (q : Slot) :
    Slotted s0 a (s.wait p addr copyout).1 q := by
  have hlive := h.live_of_current hp
  -- the caller goes back to user mode
  have hback : ∀ q, (s0.proc q).Resched ((s.back p).proc q) ∧
      (Exiting ((s.back p).proc q) → Exiting (s0.proc q)) := by
    intro q
    have hx : (s.proc p).Resched { s.proc p with place := .user } := .of_live rfl rfl hlive hlive
    refine ⟨(hsame q).trans (Table.resched_set hx q), ?_⟩
    by_cases hq : q = p
    · subst hq
      rw [back_self]
      rintro ⟨st, hst⟩
      cases hst
    · rw [back_of_ne hq]
      rintro ⟨st, hst⟩
      exact ⟨st, hplace q ▸ hst⟩
  unfold reaps at hreap
  unfold State.wait
  cases hfind : s.proc.zombieChild p with
  | some z =>
    rw [hfind] at hreap
    have hz : (s.proc z).parent = some p ∧ (s.proc z).state = .zombie := by
      simpa using List.find?_some hfind
    dsimp only at hreap ⊢
    by_cases hbad : addr ≠ 0 ∧ copyout = false
    · rw [if_pos hbad] at hreap ⊢
      exact .resched (hback q).1 (fun he => .inl ((hback q).2 he)) (by simp [hreap])
    · rw [if_neg hbad] at hreap ⊢
      by_cases hq : q = z
      · subst hq
        exact .reaped hreap ((hstate q).trans hz.2) (Table.set_self _ _ _)
      · have hne : ((s.back p).freeproc z).proc q = (s.back p).proc q := Table.set_of_ne hq _ _
        refine .resched ?_ ?_ ?_
        · rw [hne]
          exact (hback q).1
        · rw [hne]
          exact fun he => .inl ((hback q).2 he)
        · rw [hreap]
          exact fun heq => hq (Option.some.inj heq).symm
  | none =>
    rw [hfind] at hreap
    have hnone : reapedBy s0 a ≠ some q := by
      rw [hreap]
      simp
    dsimp only
    split
    · exact .resched (hback q).1 (fun he => .inl ((hback q).2 he)) hnone
    · have hx : (s.proc p).Resched { s.proc p with sched := .sleep (.slot p), place := .waiting addr } :=
        .of_live rfl rfl hlive (.inl rfl)
      refine .resched ((hsame q).trans (Table.resched_set hx q)) ?_ hnone
      show Exiting (s.proc.set p _ q) → _
      by_cases hq : q = p
      · subst hq
        rw [Table.set_self]
        rintro ⟨st, hst⟩
        cases hst
      · rw [Table.set_of_ne hq]
        rintro ⟨st, hst⟩
        exact .inl ⟨st, hplace q ▸ hst⟩

/-! ## All steps -/

theorem awake_facts (h : Tree s) (hp : s.current = some p) :
    (∀ q, (s.proc q).Resched ((s.awake p).proc q)) ∧
      (∀ q, (s.proc q).state = ((s.awake p).proc q).state) ∧
      ∀ q, ((s.awake p).proc q).place = (s.proc q).place := by
  have hlive := h.live_of_current hp
  have hx : (s.proc p).Resched { s.proc p with sched := { (s.proc p).sched with chan := none } } :=
    .of_live rfl rfl hlive hlive
  have hself : (s.awake p).proc p = { s.proc p with sched := { (s.proc p).sched with chan := none } } :=
    Table.set_self s.proc p _
  have hother : ∀ {q}, q ≠ p → (s.awake p).proc q = s.proc q := fun hq => Table.set_of_ne hq s.proc _
  refine ⟨fun q => Table.resched_set hx q, fun q => ?_, fun q => ?_⟩
  · by_cases hq : q = p
    · subst hq
      rw [hself]
      rfl
    · rw [hother hq]
  · by_cases hq : q = p
    · subst hq
      rw [hself]
    · rw [hother hq]

theorem slotted_of_resume {copyout : Bool} {chan : Option Nat} (h : Tree s) (hp : s.current = some p)
    (hstep : stepOf s p (.resume copyout chan) = some (s', es)) (q : Slot) :
    Slotted s (.resume copyout chan) s' q := by
  obtain ⟨hsame, hstate, hkeep⟩ := awake_facts h hp
  simp only [stepOf] at hstep
  cases hplace : (s.proc p).place with
  | user =>
    rw [hplace] at hstep
    cases hstep
  | syscall =>
    have hreap : reapedBy s (.resume copyout chan) = none := by simp [reapedBy, hp, hplace]
    rw [hplace] at hstep
    cases hstep
    have hlive : ((s.awake p).proc p).Live := (hsame p).live (h.live_of_current hp)
    have hx : ((s.awake p).proc p).Resched { (s.awake p).proc p with place := .user } :=
      .of_live rfl rfl hlive hlive
    refine .resched ((hsame q).trans (Table.resched_set hx q)) ?_ (by simp [hreap])
    by_cases hq : q = p
    · subst hq
      rw [back_self]
      rintro ⟨st, hst⟩
      cases hst
    · rw [back_of_ne hq]
      rintro ⟨st, hst⟩
      exact .inl ⟨st, hkeep q ▸ hst⟩
  | waiting addr =>
    have hreap : reapedBy s (.resume copyout chan) = reaps (s.awake p) p addr copyout := by simp [reapedBy, hp, hplace]
    rw [hplace] at hstep
    have hslot := slotted_wait (h.effect (effect_awake h hp)) hp hreap hsame hstate hkeep q
    rwa [Option.some.inj hstep] at hslot
  | exiting status =>
    have hreap : reapedBy s (.resume copyout chan) = none := by simp [reapedBy, hp, hplace]
    rw [hplace] at hstep
    cases chan with
    | some c =>
      cases hstep
      exact .set_current _ { s.proc p with sched := .sleep (.other c), place := .exiting status } h hp rfl rfl
        (.inl rfl) (fun _ => .inl ⟨status, hplace⟩) hreap q
    | none =>
      obtain ⟨-, hs⟩ := Option.ite_none_right_eq_some.mp hstep
      have hslot := @slotted_exit (s.awake p) (.resume copyout none) p s hp status
        (.inl ⟨status, hplace⟩) hreap hsame hkeep q
      rwa [Option.some.inj hs] at hslot

theorem slotted_of_stepOf (h : Tree s) (hp : s.current = some p) (hstep : stepOf s p a = some (s', es))
    (ha : ∀ f c, a ≠ .fork f c) (q : Slot) : Slotted s a s' q := by
  cases a with
  | dispatch r => cases hstep
  | wakeup c => cases hstep
  | fork f c => exact absurd rfl (ha f c)
  | yield =>
    obtain ⟨hplace, ⟨⟩⟩ := Option.ite_none_right_eq_some.mp hstep
    exact .set_current .yield { s.proc p with sched := { (s.proc p).sched with state := .runnable } } h hp
      rfl rfl (.inr (.inl rfl)) .inl rfl q
  | exit status =>
    obtain ⟨-, hs⟩ := Option.ite_none_right_eq_some.mp hstep
    have hslot := @slotted_exit s (.exit status) p s hp status (.inr ⟨status, rfl⟩) rfl
      (fun _ => .refl _) (fun _ => rfl) q
    rwa [Option.some.inj hs] at hslot
  | exitSleep status c =>
    obtain ⟨-, ⟨⟩⟩ := Option.ite_none_right_eq_some.mp hstep
    exact .set_current (.exitSleep status c)
      { s.proc p with sched := .sleep (.other c), place := .exiting status } h hp rfl rfl (.inl rfl)
      (fun _ => .inr ⟨status, c, rfl⟩) rfl q
  | wait addr copyout =>
    obtain ⟨-, hs⟩ := Option.ite_none_right_eq_some.mp hstep
    have hreap : reapedBy s (.wait addr copyout) = reaps s p addr copyout := by
      rw [reapedBy, hp]
      rfl
    have hslot := slotted_wait h hp hreap (fun _ => .refl _) (fun _ => rfl) (fun _ => rfl) q
    rwa [Option.some.inj hs] at hslot
  | kill pid =>
    obtain ⟨-, ⟨⟩⟩ := Option.ite_none_right_eq_some.mp hstep
    refine .resched (kill_resched s.proc pid q) ?_ (by simp [reapedBy])
    rintro ⟨st, hst⟩
    exact .inl ⟨st, (kill_place s.proc pid q).symm.trans hst⟩
  | sleep c =>
    obtain ⟨-, ⟨⟩⟩ := Option.ite_none_right_eq_some.mp hstep
    refine .set_current (.sleep c) { s.proc p with sched := .sleep (.other c), place := .syscall } h hp
      rfl rfl (.inl rfl) ?_ rfl q
    rintro ⟨st, hst⟩
    cases hst
  | resume copyout chan => exact slotted_of_resume h hp hstep q

theorem slotted_of_step (h : Tree s) (hstep : Process.step s a = some (s', es))
    (ha : ∀ f c, a ≠ .fork f c) (q : Slot) : Slotted s a s' q := by
  cases a with
  | dispatch p =>
    obtain ⟨⟨-, hrun⟩, ⟨⟩⟩ := Option.ite_none_right_eq_some.mp hstep
    have hx : (s.proc p).Resched { s.proc p with sched := { (s.proc p).sched with state := .running } } :=
      .of_live rfl rfl (.inr (.inl hrun)) (.inr (.inr rfl))
    refine .resched (Table.resched_set hx q) ?_ (by simp [reapedBy])
    show Exiting (s.proc.set p _ q) → _
    by_cases hq : q = p
    · subst hq
      rw [Table.set_self]
      exact .inl
    · rw [Table.set_of_ne hq]
      exact .inl
  | wakeup c =>
    cases hstep
    refine .resched (Table.resched_wakeup s.current (.other c) s.proc q) ?_ (by simp [reapedBy])
    rintro ⟨st, hst⟩
    exact .inl ⟨st, (wakeup_place s.current (.other c) s.proc q).symm.trans hst⟩
  | _ =>
    obtain ⟨p, hcur, hs⟩ := stepOf_of_step hstep (by simp) (by simp)
    exact slotted_of_stepOf h hcur hs ha q

end Xv6.Kernel
