import Xv6.Process.Table

/-!
# What a step does to the process table

Every step of the table is one of five kinds: processes are rescheduled and nothing else happens, a
`fork` fails after it has used up a process id, a `fork` makes a child, a process exits, or a `wait`
reaps a child. `Effect` lists the five with all that later proofs use of them, and `effect_of_step`
shows that there are no others.
-/

namespace Xv6.Process

/-- SLEEPING, RUNNABLE or RUNNING. -/
def Proc.Live (x : Proc) : Prop :=
  x.state = .sleeping ∨ x.state = .runnable ∨ x.state = .running

/-- The process was rescheduled or given another parent, or nothing happened to the slot. -/
structure Proc.Resched (x y : Proc) : Prop where
  pid : y.pid = x.pid
  xstate : y.xstate = x.xstate
  unused : x.state = .unused → { y with parent := x.parent } = x
  zombie : x.state = .zombie → y.state = .zombie
  live : x.Live → y.Live

namespace Proc

theorem Live.ne_unused {x : Proc} (h : x.Live) : x.state ≠ .unused := by
  rcases h with h | h | h <;> simp [h]

theorem Live.ne_zombie {x : Proc} (h : x.Live) : x.state ≠ .zombie := by
  rcases h with h | h | h <;> simp [h]

theorem live_of_ne {x : Proc} (hunused : x.state ≠ .unused) (hused : x.state ≠ .used)
    (hzombie : x.state ≠ .zombie) : x.Live := by
  unfold Live
  cases hx : x.state <;> simp_all

namespace Resched

variable {x y z : Proc}

theorem refl (x : Proc) : x.Resched x := ⟨rfl, rfl, fun _ => rfl, id, id⟩

theorem state_of_unused (h : x.Resched y) (hx : x.state = .unused) : y.state = .unused := by
  have heq := congrArg Proc.state (h.unused hx)
  exact heq.trans hx

theorem trans (h : x.Resched y) (h' : y.Resched z) : x.Resched z where
  pid := h'.pid.trans h.pid
  xstate := h'.xstate.trans h.xstate
  unused := by
    intro hx
    have hz := h'.unused (h.state_of_unused hx)
    rw [← h.unused hx, ← hz]
  zombie := fun hx => h'.zombie (h.zombie hx)
  live := fun hx => h'.live (h.live hx)

theorem parent (x : Proc) (r : Option Slot) : x.Resched { x with parent := r } :=
  ⟨rfl, rfl, fun _ => rfl, id, id⟩

theorem of_live (hpid : y.pid = x.pid) (hxstate : y.xstate = x.xstate) (hx : x.Live) (hy : y.Live) : x.Resched y :=
  ⟨hpid, hxstate, fun h => absurd h hx.ne_unused, fun h => absurd h hx.ne_zombie, fun _ => hy⟩

theorem wakeup (c : Chan) (x : Proc) : x.Resched { x with sched := x.sched.wakeup c } := by
  by_cases h : x.sched.Asleep c
  · refine of_live rfl rfl (.inl h.1) (.inr (.inl ?_))
    show (x.sched.wakeup c).state = .runnable
    rw [Sched.wakeup, if_pos h]
  · have hsame : x.sched.wakeup c = x.sched := if_neg h
    rw [hsame]
    exact refl x

theorem kill (hx : x.state ≠ .unused) : x.Resched { x with killed := true, sched := x.sched.kill } := by
  by_cases h : x.sched.state = .sleeping
  · refine of_live rfl rfl (.inl h) (.inr (.inl ?_))
    show (x.sched.kill).state = .runnable
    rw [Sched.kill, if_pos h]
  · have hsame : x.sched.kill = x.sched := if_neg h
    rw [hsame]
    exact ⟨rfl, rfl, fun hu => absurd hu hx, id, id⟩

/-- A slot that is not UNUSED keeps being used, and back. -/
theorem ne_unused_iff (h : x.Resched y) (hx : x.state ≠ .used) : y.state ≠ .unused ↔ x.state ≠ .unused := by
  constructor
  · intro hy hu
    exact hy (h.state_of_unused hu)
  · intro hu
    by_cases hz : x.state = .zombie
    · rw [h.zombie hz]
      simp
    · exact (h.live (live_of_ne hu hx hz)).ne_unused

theorem ne_used (h : x.Resched y) (hx : x.state ≠ .used) : y.state ≠ .used := by
  by_cases hu : x.state = .unused
  · rw [h.state_of_unused hu]
    simp
  by_cases hz : x.state = .zombie
  · rw [h.zombie hz]
    simp
  · rcases h.live (live_of_ne hu hx hz) with hy | hy | hy <;> simp [hy]

theorem zombie_iff (h : x.Resched y) (hx : x.state ≠ .used) : y.state = .zombie ↔ x.state = .zombie := by
  refine ⟨?_, h.zombie⟩
  intro hy
  by_contra hz
  by_cases hu : x.state = .unused
  · cases (h.state_of_unused hu).symm.trans hy
  · exact (h.live (live_of_ne hu hx hz)).ne_zombie hy

end Resched

end Proc

namespace Table

@[simp] theorem set_self (t : Table) (q : Slot) (x : Proc) : t.set q x q = x := by
  simp [set]

theorem set_of_ne {q r : Slot} (h : r ≠ q) (t : Table) (x : Proc) : t.set q x r = t r := by
  simp [set, h]

theorem resched_set {t : Table} {p : Slot} {x : Proc} (hx : (t p).Resched x) (q : Slot) :
    (t q).Resched (t.set p x q) := by
  by_cases hq : q = p
  · rw [hq, set_self]
    exact hx
  · rw [set_of_ne hq]
    exact .refl _

theorem resched_wakeup (me : Option Slot) (c : Chan) (t : Table) (q : Slot) : (t q).Resched (t.wakeup me c q) := by
  unfold wakeup
  split
  · exact .refl _
  · exact .wakeup c (t q)

theorem wakeup_parent (me : Option Slot) (c : Chan) (t : Table) (q : Slot) :
    (t.wakeup me c q).parent = (t q).parent := by
  unfold wakeup
  split <;> rfl

theorem roused_wakeup (me : Option Slot) (c : Chan) (t : Table) (q : Slot) :
    (t q).sched.Roused (t.wakeup me c q).sched := by
  unfold wakeup
  split
  · exact .inl rfl
  · exact .wakeup c _

theorem asleep_wakeup {me : Option Slot} {c d : Chan} {t : Table} {q : Slot} :
    (t.wakeup me c q).sched.Asleep d ↔ (t q).sched.Asleep d ∧ (some q = me ∨ c ≠ d) := by
  unfold wakeup
  by_cases hq : some q = me
  · simp [hq]
  · simp [hq, Sched.asleep_wakeup]

section WakeParent

variable (me : Option Slot) (p : Slot) (t : Table) (q : Slot)

theorem wakeParent_parent : (t.wakeParent me p q).parent = (t q).parent := by
  unfold wakeParent
  cases (t p).parent with
  | some r => exact wakeup_parent me _ t q
  | none => rfl

theorem resched_wakeParent : (t q).Resched (t.wakeParent me p q) := by
  unfold wakeParent
  cases (t p).parent with
  | some r => exact resched_wakeup me _ t q
  | none => exact .refl _

theorem roused_wakeParent : (t q).sched.Roused (t.wakeParent me p q).sched := by
  unfold wakeParent
  cases (t p).parent with
  | some r => exact roused_wakeup me _ t q
  | none => exact .inl rfl

end WakeParent

/-- The parent does not sleep any more. -/
theorem asleep_wakeParent {me : Option Slot} {p q : Slot} {t : Table} (hq : some q ≠ me)
    (h : (t.wakeParent me p q).sched.Asleep (.slot q)) :
    (t q).sched.Asleep (.slot q) ∧ (t p).parent ≠ some q := by
  unfold wakeParent at h
  cases hr : (t p).parent with
  | some r =>
    rw [hr] at h
    obtain ⟨hold, hother⟩ := asleep_wakeup.mp h
    refine ⟨hold, ?_⟩
    intro heq
    exact hother.resolve_left hq (by rw [Option.some.inj heq])
  | none =>
    rw [hr] at h
    exact ⟨h, by simp⟩

/-! ## Reparenting -/

/-- The body of the loop of `reparent`. -/
def adopt (me : Option Slot) (p : Slot) (t : Table) (q : Slot) : Table :=
  if (t q).parent = some p then wakeup me (.slot 0) (t.set q { t q with parent := some 0 }) else t

theorem reparent_eq (me : Option Slot) (p : Slot) (t : Table) :
    t.reparent me p = (List.finRange NPROC).foldl (adopt me p) t := rfl

theorem adopt_parent (me : Option Slot) (p : Slot) (t : Table) (c q : Slot) :
    (adopt me p t c q).parent = if q = c ∧ (t q).parent = some p then some 0 else (t q).parent := by
  unfold adopt
  by_cases hc : (t c).parent = some p
  · rw [if_pos hc, wakeup_parent]
    by_cases hq : q = c
    · subst hq
      rw [set_self, if_pos ⟨rfl, hc⟩]
    · rw [set_of_ne hq, if_neg fun h => hq h.1]
  · rw [if_neg hc]
    by_cases hq : q = c
    · subst hq
      rw [if_neg fun h => hc h.2]
    · rw [if_neg fun h => hq h.1]

theorem adopt_resched (me : Option Slot) (p : Slot) (t : Table) (c q : Slot) : (t q).Resched (adopt me p t c q) := by
  unfold adopt
  split
  · exact (resched_set (.parent (t c) (some 0)) q).trans (resched_wakeup me (.slot 0) _ q)
  · exact .refl _

theorem roused_adopt (me : Option Slot) (p : Slot) (t : Table) (c q : Slot) :
    (t q).sched.Roused (adopt me p t c q).sched := by
  unfold adopt
  split
  · have hsched : (t.set c { t c with parent := some 0 } q).sched = (t q).sched := by
      by_cases hq : q = c
      · subst hq
        rw [set_self]
      · rw [set_of_ne hq]
    rw [← hsched]
    exact roused_wakeup me _ _ q
  · exact .inl rfl

theorem asleep_of_adopt {me : Option Slot} {p : Slot} {t : Table} {c q : Slot} {d : Chan}
    (h : (adopt me p t c q).sched.Asleep d) :
    (t q).sched.Asleep d ∧ ((t c).parent = some p → some q = me ∨ d ≠ .slot 0) := by
  unfold adopt at h
  by_cases hc : (t c).parent = some p
  · rw [if_pos hc, asleep_wakeup] at h
    have hsched : (t.set c { t c with parent := some 0 } q).sched = (t q).sched := by
      by_cases hq : q = c
      · subst hq
        rw [set_self]
      · rw [set_of_ne hq]
    rw [hsched] at h
    exact ⟨h.1, fun _ => h.2.imp_right Ne.symm⟩
  · rw [if_neg hc] at h
    exact ⟨h, fun h' => absurd h' hc⟩

section Reparent

variable {me : Option Slot} {p : Slot} {t : Table} {l : List Slot} {q : Slot}

theorem foldl_adopt_parent (hp : p ≠ 0) (l : List Slot) (t : Table) (q : Slot) :
    (l.foldl (adopt me p) t q).parent =
      if q ∈ l ∧ (t q).parent = some p then some 0 else (t q).parent := by
  have hzero : (some 0 : Option Slot) ≠ some p := fun h => hp (Option.some.inj h).symm
  induction l generalizing t with
  | nil => simp
  | cons c l ih =>
    rw [List.foldl_cons, ih, adopt_parent]
    by_cases hq : q = c ∧ (t q).parent = some p
    · rw [if_pos hq, if_neg fun h => hzero h.2, if_pos ⟨hq.1 ▸ List.mem_cons_self, hq.2⟩]
    · rw [if_neg hq]
      by_cases hpar : (t q).parent = some p
      · have hne : q ≠ c := fun h => hq ⟨h, hpar⟩
        simp [hpar, hne]
      · simp [hpar]

theorem foldl_adopt_resched (l : List Slot) (t : Table) (q : Slot) : (t q).Resched (l.foldl (adopt me p) t q) := by
  induction l generalizing t with
  | nil => exact .refl _
  | cons c l ih => exact (adopt_resched me p t c q).trans (ih _)

theorem foldl_adopt_roused (l : List Slot) (t : Table) (q : Slot) :
    (t q).sched.Roused (l.foldl (adopt me p) t q).sched := by
  induction l generalizing t with
  | nil => exact .inl rfl
  | cons c l ih => exact (roused_adopt me p t c q).trans (ih _)

/-- Nobody falls asleep, and `proc[0]` wakes up if it is given a child. -/
theorem asleep_of_foldl_adopt (hp : p ≠ 0) {d : Chan} (h : (l.foldl (adopt me p) t q).sched.Asleep d) :
    (t q).sched.Asleep d ∧ ∀ c ∈ l, (t c).parent = some p → some q = me ∨ d ≠ .slot 0 := by
  have hzero : (some 0 : Option Slot) ≠ some p := fun h => hp (Option.some.inj h).symm
  induction l generalizing t with
  | nil => exact ⟨h, by simp⟩
  | cons c l ih =>
    obtain ⟨hasleep, hrest⟩ := ih h
    obtain ⟨hbefore, hc⟩ := asleep_of_adopt hasleep
    refine ⟨hbefore, ?_⟩
    intro e he hpar
    by_cases hec : e = c
    · exact hc (hec ▸ hpar)
    · refine hrest e (List.mem_of_ne_of_mem hec he) ?_
      rw [adopt_parent, if_neg fun h => hec h.1]
      exact hpar

theorem reparent_parent (hp : p ≠ 0) (t : Table) (q : Slot) :
    (t.reparent me p q).parent = if (t q).parent = some p then some 0 else (t q).parent := by
  rw [reparent_eq, foldl_adopt_parent hp]
  simp [List.mem_finRange]

theorem reparent_resched (t : Table) (q : Slot) : (t q).Resched (t.reparent me p q) :=
  foldl_adopt_resched _ t q

theorem reparent_roused (t : Table) (q : Slot) : (t q).sched.Roused (t.reparent me p q).sched :=
  foldl_adopt_roused _ t q

theorem asleep_of_reparent (hp : p ≠ 0) {d : Chan} (h : (t.reparent me p q).sched.Asleep d) :
    (t q).sched.Asleep d ∧ ∀ c, (t c).parent = some p → some q = me ∨ d ≠ .slot 0 := by
  obtain ⟨hbefore, hrest⟩ := asleep_of_foldl_adopt hp h
  exact ⟨hbefore, fun c hc => hrest c (List.mem_finRange c) hc⟩

end Reparent

end Table

/-! ## The invariant of the tree -/

/-- What holds of the table between two steps. -/
structure Tree (s : State) : Prop where
  free : ∀ q, (s.proc q).state = .unused → s.proc q = .free
  used : ∀ q, (s.proc q).state ≠ .used
  init : (s.proc 0).Live
  parent : ∀ q, q ≠ 0 → (s.proc q).state ≠ .unused →
    ∃ r, (s.proc q).parent = some r ∧ (s.proc r).Live
  running : ∀ q, (s.proc q).state = .running ↔ s.current = some q
  alert : ∀ q, (s.proc q).sched.Asleep (.slot q) →
    ∀ c, (s.proc c).parent = some q → (s.proc c).state ≠ .zombie

theorem Tree.live_of_current {s : State} (h : Tree s) {p : Slot} (hp : s.current = some p) : (s.proc p).Live :=
  .inr (.inr ((h.running p).mpr hp))

theorem Tree.ne_unused_of_parent {s : State} (h : Tree s) {q r : Slot}
    (hq : (s.proc q).parent = some r) : (s.proc q).state ≠ .unused := by
  intro hu
  rw [h.free q hu] at hq
  cases hq

/-- The child that `fork` publishes. -/
def Proc.child (p : Slot) (pid : Int32) : Proc :=
  ⟨⟨.runnable, none⟩, pid, some p, false, 0, .user⟩

inductive Effect (s : State) : State → List Event → Prop
  | quiet (t : Table) (cur : Option Slot) (hr : ∀ q, (s.proc q).Resched (t q))
      (hparent : ∀ q, (t q).parent = (s.proc q).parent)
      (hrun : ∀ q, (t q).state = .running ↔ cur = some q)
      (halert : ∀ q, (t q).sched.Asleep (.slot q) → (s.proc q).sched.Asleep (.slot q) ∨
        ∀ c, (s.proc c).parent = some q → (s.proc c).state ≠ .zombie) :
      Effect s ⟨t, s.nextpid, cur⟩ []
  | spent : Effect s { s with nextpid := s.nextpid + 1 } []
  | fork (p np : Slot) (hp : s.current = some p) (hnp : (s.proc np).state = .unused) :
      Effect s ⟨s.proc.set np (.child p s.nextpid), s.nextpid + 1, s.current⟩
        [.fork (s.proc p).pid s.nextpid]
  | exit (p : Slot) (status : Int32) (t : Table) (hp : s.current = some p) (hne : p ≠ 0)
      (hpid : (t p).pid = (s.proc p).pid) (hstate : (t p).state = .zombie)
      (hxstate : (t p).xstate = status) (hr : ∀ q, q ≠ p → (s.proc q).Resched (t q))
      (hparent : ∀ q, (t q).parent =
        if (s.proc q).parent = some p then some 0 else (s.proc q).parent)
      (hrun : ∀ q, (t q).state ≠ .running)
      (halert : ∀ q, (t q).sched.Asleep (.slot q) → (s.proc q).sched.Asleep (.slot q) ∧
        (t p).parent ≠ some q ∧ (q = 0 → ∀ c, (s.proc c).parent ≠ some p)) :
      Effect s ⟨t, s.nextpid, none⟩ [.exit (s.proc p).pid status]
  | reap (p q : Slot) (addr : UInt64) (t : Table) (hp : s.current = some p)
      (hq : (s.proc q).parent = some p) (hz : (s.proc q).state = .zombie) (hfree : t q = .free)
      (hr : ∀ r, r ≠ q → (s.proc r).Resched (t r))
      (hparent : ∀ r, r ≠ q → (t r).parent = (s.proc r).parent)
      (hsched : ∀ r, r ≠ q → (t r).sched = (s.proc r).sched) :
      Effect s ⟨t, s.nextpid, s.current⟩
        [.wait (s.proc p).pid (s.proc q).pid addr
          (if addr ≠ 0 then some (s.proc q).xstate else none)]

theorem Tree.effect {s s' : State} {es : List Event} (h : Tree s) (he : Effect s s' es) : Tree s' := by
  cases he with
  | quiet t cur hr hparent hrun halert =>
    refine ⟨?_, fun q => (hr q).ne_used (h.used q), (hr 0).live h.init, ?_, hrun, ?_⟩
    · intro q hq
      have hu : (s.proc q).state = .unused := by
        by_contra hne
        exact ((hr q).ne_unused_iff (h.used q)).mpr hne hq
      have heq := (hr q).unused hu
      rw [← hparent q] at heq
      exact heq.trans (h.free q hu)
    · intro q hq hu
      obtain ⟨r, hpar, hlive⟩ := h.parent q hq (((hr q).ne_unused_iff (h.used q)).mp hu)
      exact ⟨r, (hparent q).trans hpar, (hr r).live hlive⟩
    · intro q hq c hc hz
      rw [hparent c] at hc
      have hz' := ((hr c).zombie_iff (h.used c)).mp hz
      rcases halert q hq with hold | hnew
      · exact h.alert q hold c hc hz'
      · exact hnew c hc hz'
  | spent => exact ⟨h.free, h.used, h.init, h.parent, h.running, h.alert⟩
  | fork p np hp hnp =>
    have hlive := h.live_of_current hp
    have hne : ∀ q, (s.proc q).Live → q ≠ np := by
      intro q hq heq
      exact hq.ne_unused (heq ▸ hnp)
    have hset : ∀ q, q ≠ np → (s.proc.set np (.child p s.nextpid)) q = s.proc q :=
      fun q hq => Table.set_of_ne hq _ _
    refine ⟨?_, ?_, ?_, ?_, ?_, ?_⟩
    · intro q hq
      by_cases hqn : q = np
      · subst hqn
        simp [Proc.state, Proc.child] at hq
      · simp only [hset q hqn] at hq ⊢
        exact h.free q hq
    · intro q
      by_cases hqn : q = np
      · subst hqn
        simp [Proc.state, Proc.child]
      · simp only [hset q hqn]
        exact h.used q
    · simp only [hset 0 (hne 0 h.init)]
      exact h.init
    · intro q hq hu
      by_cases hqn : q = np
      · refine ⟨p, ?_, ?_⟩
        · subst hqn
          simp [Proc.child]
        · simp only [hset p (hne p hlive)]
          exact hlive
      · simp only [hset q hqn] at hu ⊢
        obtain ⟨r, hpar, hr⟩ := h.parent q hq hu
        refine ⟨r, hpar, ?_⟩
        rw [hset r (hne r hr)]
        exact hr
    · intro q
      by_cases hqn : q = np
      · subst hqn
        have hcur : s.current ≠ some q := fun hc => hne q (h.live_of_current hc) rfl
        simp [Proc.state, Proc.child, hcur]
      · simp only [hset q hqn]
        exact h.running q
    · intro q hq c hc
      by_cases hcn : c = np
      · subst hcn
        simp [Proc.state, Proc.child]
      · simp only [hset c hcn] at hc ⊢
        by_cases hqn : q = np
        · subst hqn
          simp [Sched.Asleep, Proc.child] at hq
        · simp only [hset q hqn] at hq
          exact h.alert q hq c hc
  | exit p status t hp hne hpid hstate hxstate hr hparent hrun halert =>
    have hkeep : ∀ q, (s.proc q).Live → q ≠ p → (t q).Live := fun q hq hqp => (hr q hqp).live hq
    refine ⟨?_, ?_, hkeep 0 h.init (Ne.symm hne), ?_, ?_, ?_⟩
    · intro q hq
      by_cases hqp : q = p
      · subst hqp
        exact absurd (hstate.symm.trans hq) (by simp)
      · have hu : (s.proc q).state = .unused := by
          by_contra hne'
          exact ((hr q hqp).ne_unused_iff (h.used q)).mpr hne' hq
        have hpar : (s.proc q).parent ≠ some p := fun hpar => h.ne_unused_of_parent hpar hu
        have heq := (hr q hqp).unused hu
        have hsame : (t q).parent = (s.proc q).parent := by rw [hparent q, if_neg hpar]
        rw [← hsame] at heq
        exact heq.trans (h.free q hu)
    · intro q
      by_cases hqp : q = p
      · subst hqp
        show (t q).state ≠ .used
        rw [hstate]
        simp
      · exact (hr q hqp).ne_used (h.used q)
    · intro q hq hu
      have hu' : (s.proc q).state ≠ .unused := by
        by_cases hqp : q = p
        · rw [hqp]
          exact (h.live_of_current hp).ne_unused
        · exact ((hr q hqp).ne_unused_iff (h.used q)).mp hu
      obtain ⟨r, hpar, hlive⟩ := h.parent q hq hu'
      by_cases hrp : r = p
      · refine ⟨0, ?_, hkeep 0 h.init (Ne.symm hne)⟩
        rw [hparent q, if_pos (hrp ▸ hpar)]
      · refine ⟨r, ?_, hkeep r hlive hrp⟩
        rw [hparent q, if_neg]
        · exact hpar
        · intro hp'
          exact hrp (Option.some.inj (hpar.symm.trans hp'))
    · intro q
      exact ⟨fun hq => absurd hq (hrun q), fun hq => by cases hq⟩
    · intro q hq c hc hz
      obtain ⟨hold, hnot, hzero⟩ := halert q hq
      by_cases hcp : c = p
      · exact hnot (hcp ▸ hc)
      · have hz' := ((hr c hcp).zombie_iff (h.used c)).mp hz
        rw [hparent c] at hc
        by_cases hchild : (s.proc c).parent = some p
        · rw [if_pos hchild] at hc
          exact hzero (Option.some.inj hc).symm c hchild
        · rw [if_neg hchild] at hc
          exact h.alert q hold c hc hz'
  | reap p q addr t hp hq hz hfree hr hparent hsched =>
    have hkeep : ∀ r, (s.proc r).Live → r ≠ q ∧ (t r).Live := by
      intro r hlive
      have hrq : r ≠ q := fun heq => hlive.ne_zombie (heq ▸ hz)
      exact ⟨hrq, (hr r hrq).live hlive⟩
    refine ⟨?_, ?_, (hkeep 0 h.init).2, ?_, ?_, ?_⟩
    · intro r hu
      by_cases hrq : r = q
      · rw [hrq]
        exact hfree
      · have hu' : (s.proc r).state = .unused := by
          by_contra hne'
          exact ((hr r hrq).ne_unused_iff (h.used r)).mpr hne' hu
        have heq := (hr r hrq).unused hu'
        rw [← hparent r hrq] at heq
        exact heq.trans (h.free r hu')
    · intro r
      by_cases hrq : r = q
      · show (t r).state ≠ .used
        rw [hrq, hfree]
        simp [Proc.state, Proc.free]
      · exact (hr r hrq).ne_used (h.used r)
    · intro r hr0 hu
      have hrq : r ≠ q := by
        intro heq
        rw [heq] at hu
        exact hu (by show (t q).state = _; rw [hfree]; rfl)
      obtain ⟨u, hpar, hlive⟩ := h.parent r hr0 (((hr r hrq).ne_unused_iff (h.used r)).mp hu)
      exact ⟨u, (hparent r hrq).trans hpar, (hkeep u hlive).2⟩
    · intro r
      by_cases hrq : r = q
      · have hcur : s.current ≠ some q := by
          intro hc
          exact (h.live_of_current hc).ne_zombie hz
        show (t r).state = .running ↔ _
        rw [hrq, hfree]
        simp [Proc.state, Proc.free, hcur]
      · show (t r).sched.state = .running ↔ _
        rw [hsched r hrq]
        exact h.running r
    · intro r hasleep c hc hzc
      have hrq : r ≠ q := by
        intro heq
        rw [heq] at hasleep
        have : (t q).sched.Asleep (.slot q) := hasleep
        rw [hfree] at this
        cases this.1
      have hcq : c ≠ q := by
        intro heq
        rw [heq] at hc
        have : (t q).parent = some r := hc
        rw [hfree] at this
        cases this
      have hasleep' : (t r).sched.Asleep (.slot r) := hasleep
      rw [hsched r hrq] at hasleep'
      exact h.alert r hasleep' c ((hparent c hcq).symm.trans hc)
        (((hr c hcq).zombie_iff (h.used c)).mp hzc)

end Xv6.Process
