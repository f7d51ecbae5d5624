import Xv6.Ipc.Pipe

/-!
# What holds of a pipe between two steps

The bytes that were accepted and not yet delivered are the queue in the ring; whoever sleeps on the
read position finds the ring empty and the write side open, and whoever sleeps on the write position
finds it full and the read side open.

Within a step the second part fails for a moment: `pipewrite` fills the ring while readers still
sleep and wakes them at the end. `Writing` and `Reading` say what the two loops keep instead.
-/

namespace Xv6.Ipc

open Process Data

variable {P : Type} [DecidableEq P] {s t : State P} {me p : P} {c d : Chan} {q : List UInt8} {i : Nat} {addr : UInt64}

/-! ## Wakeup and sleep -/

namespace State

@[simp] theorem setProc_self (x : Proc) : (s.setProc p x).proc p = x := by
  simp [setProc]

theorem setProc_of_ne {r : P} (h : r ≠ p) (x : Proc) : (s.setProc p x).proc r = s.proc r := by
  simp [setProc, h]

theorem asleep_wakeup :
    ((s.wakeup me c).proc p).sched.Asleep d ↔
      (s.proc p).sched.Asleep d ∧ (p = me ∨ c ≠ d) := by
  unfold wakeup
  by_cases hp : p = me
  · simp [hp]
  · simp [hp, Sched.asleep_wakeup]

theorem asleep_sleep {at' : Place} :
    ((s.sleep me c at').proc p).sched.Asleep d ↔
      (p = me ∧ c = d) ∨ (p ≠ me ∧ (s.proc p).sched.Asleep d) := by
  unfold sleep setProc
  by_cases hp : p = me
  · simp [hp, Sched.asleep_sleep]
  · simp [hp]

end State

section

variable (out : State P × Option Int)
include out

@[simp] theorem settle_pi : (settle me out).pi = out.1.pi := by
  unfold settle
  split <;> rfl

@[simp] theorem settle_accepted : (settle me out).accepted = out.1.accepted := by
  unfold settle
  split <;> rfl

@[simp] theorem settle_delivered : (settle me out).delivered = out.1.delivered := by
  unfold settle
  split <;> rfl

@[simp] theorem settle_sched : ((settle me out).proc p).sched = (out.1.proc p).sched := by
  unfold settle
  split
  · rfl
  · by_cases hp : p = me
    · simp [State.setProc, hp]
    · simp [State.setProc, hp]

end

/-! ## The queue -/

theorem pipesize_lt : PIPESIZE < 2 ^ 32 := by decide

theorem pipesize_dvd : PIPESIZE ∣ 2 ^ 32 := ⟨2 ^ 23, rfl⟩

/-- The bytes in the ring are those that were accepted and not yet delivered. -/
def Queue (s : State P) (q : List UInt8) : Prop :=
  s.accepted = s.delivered ++ q ∧ Window PIPESIZE s.pi.data s.pi.nread s.pi.nwrite q

omit [DecidableEq P] in
theorem Queue.push (h : Queue s q) (hroom : s.pi.nwrite ≠ s.pi.nread + UInt32.ofNat PIPESIZE)
    (ch : UInt8) : Queue (s.push ch) (q ++ [ch]) := by
  have hlen : q.length ≠ PIPESIZE := fun he => hroom ((h.2.full_iff pipesize_lt).mpr he)
  refine ⟨?_, h.2.push pipesize_dvd (lt_of_le_of_ne h.2.fits hlen) ch⟩
  show s.accepted ++ [ch] = s.delivered ++ (q ++ [ch])
  rw [h.1, List.append_assoc]

omit [DecidableEq P] in
theorem Queue.pop (h : Queue s q) (hne : s.pi.nread ≠ s.pi.nwrite) : ∃ q', Queue s.pop q' := by
  cases q with
  | nil => exact absurd ((h.2.empty_iff pipesize_lt).mpr rfl) hne
  | cons x q =>
    obtain ⟨hx, hq⟩ := h.2.pop pipesize_dvd
    refine ⟨q, ?_, hq⟩
    show s.accepted = (s.delivered ++ [s.pi.data (s.pi.nread.toNat % PIPESIZE)]) ++ q
    rw [h.1, hx, List.append_assoc]
    rfl

/-! ## The sleepers -/

/-- Whoever sleeps on the read position has nothing to read. -/
def Readers (s : State P) : Prop :=
  ∀ p, (s.proc p).sched.Asleep .nread → s.pi.nread = s.pi.nwrite ∧ s.pi.writeopen = true

/-- Whoever sleeps on the write position has no room. -/
def Writers (s : State P) : Prop :=
  ∀ p, (s.proc p).sched.Asleep .nwrite →
    s.pi.nwrite = s.pi.nread + UInt32.ofNat PIPESIZE ∧ s.pi.readopen = true

/-- What holds between two steps. -/
structure Quiet (s : State P) : Prop where
  queue : ∃ q, Queue s q
  readers : Readers s
  writers : Writers s

/-- What `pipewrite` keeps with `i` bytes done: readers may still sleep once it has written. -/
structure Writing (me : P) (i : Nat) (s : State P) : Prop where
  queue : ∃ q, Queue s q
  writers : Writers s
  awake : (s.proc me).sched.state ≠ .sleeping
  readers : Readers s ∨ 0 < i ∧ s.pi.readopen = true

/-- What the second loop of `piperead` keeps with `i` bytes done. -/
structure Reading (me : P) (i : Nat) (s : State P) : Prop where
  queue : ∃ q, Queue s q
  readers : Readers s
  awake : (s.proc me).sched.state ≠ .sleeping
  writers : Writers s ∨ 0 < i

theorem Quiet.settle {out : State P × Option Int} (h : Quiet out.1) : Quiet (settle me out) where
  queue := by simpa [Queue] using h.queue
  readers := by simpa [Readers] using h.readers
  writers := by simpa [Writers] using h.writers

/-! ## Writing -/

omit [DecidableEq P] in
theorem Writing.push (h : Writing me i s) (hopen : s.pi.readopen)
    (hroom : s.pi.nwrite ≠ s.pi.nread + UInt32.ofNat PIPESIZE) (ch : UInt8) :
    Writing me (i + 1) (s.push ch) where
  queue := by
    obtain ⟨q, hq⟩ := h.queue
    exact ⟨_, hq.push hroom ch⟩
  writers := fun p hp => absurd (h.writers p hp).1 hroom
  awake := h.awake
  readers := .inr ⟨Nat.succ_pos i, hopen⟩

theorem Writing.wakeup (h : Writing me i s) : Quiet (s.wakeup me .nread) where
  queue := h.queue
  readers := by
    intro p hp
    obtain ⟨hasleep, rfl | hne⟩ := State.asleep_wakeup.mp hp
    · exact absurd hasleep.1 h.awake
    · exact absurd rfl hne
  writers := fun p hp => h.writers p (State.asleep_wakeup.mp hp).1

theorem Writing.sleep {at' : Place} (h : Writing me i s) (hopen : s.pi.readopen)
    (hfull : s.pi.nwrite = s.pi.nread + UInt32.ofNat PIPESIZE) :
    Quiet ((s.wakeup me .nread).sleep me .nwrite at') where
  queue := h.queue
  readers := by
    intro p hp
    rcases State.asleep_sleep.mp hp with ⟨-, hc⟩ | ⟨-, hp⟩
    · cases hc
    · exact h.wakeup.readers p hp
  writers := fun _ _ => ⟨hfull, hopen⟩

theorem Writing.loop {copyin : UInt64 → Option UInt8} {n : Int} {k : Nat}
    (h : Writing me i s) : Quiet (pipewriteLoop me copyin addr n k i s).1 := by
  induction k generalizing i s with
  | zero => exact h.wakeup
  | succ k ih =>
    rw [pipewriteLoop]
    by_cases hopen : s.pi.readopen = false
    · -- nothing was written since the read side was closed
      rw [if_pos hopen]
      have hreaders : Readers s := by
        rcases h.readers with hr | ⟨-, hr⟩
        · exact hr
        · cases hopen.symm.trans hr
      exact ⟨h.queue, hreaders, h.writers⟩
    rw [if_neg hopen]
    rw [Bool.not_eq_false] at hopen
    by_cases hfull : s.pi.nwrite = s.pi.nread + UInt32.ofNat PIPESIZE
    · rw [if_pos hfull]
      exact h.sleep hopen hfull
    rw [if_neg hfull]
    cases copyin (addr + UInt64.ofNat i) with
    | some ch => exact ih (h.push hopen hfull ch)
    | none =>
      by_cases hi : i = 0
      · rw [if_pos hi]
        have hreaders : Readers s := by
          rcases h.readers with hr | ⟨hr, -⟩
          · exact hr
          · omega
        exact ⟨h.queue, hreaders, h.writers⟩
      · rw [if_neg hi]
        exact h.wakeup

/-! ## Reading -/

omit [DecidableEq P] in
theorem Reading.pop (h : Reading me i s) (hne : s.pi.nread ≠ s.pi.nwrite) :
    Reading me (i + 1) s.pop where
  queue := by
    obtain ⟨q, hq⟩ := h.queue
    exact hq.pop hne
  readers := fun p hp => absurd (h.readers p hp).1 hne
  awake := h.awake
  writers := .inr (Nat.succ_pos i)

/-- The exits of `piperead` that wake the writers. -/
theorem Reading.wakeup (h : Reading me i s) : Quiet (s.wakeup me .nwrite) where
  queue := h.queue
  readers := fun p hp => h.readers p (State.asleep_wakeup.mp hp).1
  writers := by
    intro p hp
    obtain ⟨hasleep, rfl | hne⟩ := State.asleep_wakeup.mp hp
    · exact absurd hasleep.1 h.awake
    · exact absurd rfl hne

theorem Reading.loop {copyout : UInt64 → Bool} {k : Nat}
    (h : Reading me i s) : Quiet (pipereadLoop me copyout addr k i s).1 := by
  induction k generalizing i s with
  | zero => exact h.wakeup
  | succ k ih =>
    rw [pipereadLoop]
    by_cases hempty : s.pi.nread = s.pi.nwrite
    · rw [if_pos hempty]
      exact h.wakeup
    rw [if_neg hempty]
    by_cases hcopy : copyout (addr + UInt64.ofNat i) = true
    · rw [if_pos hcopy]
      exact ih (h.pop hempty)
    rw [if_neg hcopy]
    by_cases hi : i = 0
    · rw [if_pos hi]
      have hwriters : Writers s := by
        rcases h.writers with hw | hw
        · exact hw
        · omega
      exact ⟨h.queue, h.readers, hwriters⟩
    · rw [if_neg hi]
      exact h.wakeup

theorem Quiet.sleep {at' : Place} (h : Quiet s) (hempty : s.pi.nread = s.pi.nwrite)
    (hopen : s.pi.writeopen) : Quiet (s.sleep me .nread at') where
  queue := h.queue
  readers := fun _ _ => ⟨hempty, hopen⟩
  writers := by
    intro p hp
    rcases State.asleep_sleep.mp hp with ⟨-, hc⟩ | ⟨-, hp⟩
    · cases hc
    · exact h.writers p hp

theorem Quiet.piperead {copyout : UInt64 → Bool} {n : Int} (h : Quiet s)
    (hawake : (s.proc me).sched.state ≠ .sleeping) : Quiet (piperead me copyout addr n s).1 := by
  unfold Ipc.piperead
  by_cases hwait : s.pi.nread = s.pi.nwrite ∧ s.pi.writeopen = true
  · rw [if_pos hwait]
    exact h.sleep hwait.1 hwait.2
  · rw [if_neg hwait]
    exact Reading.loop ⟨h.queue, h.readers, hawake, .inl h.writers⟩

/-! ## The other steps -/

omit [DecidableEq P] in
/-- A step that changes neither the ring nor the flags and puts nobody to sleep. -/
theorem Quiet.of_asleep (h : Quiet s) (hpi : t.pi = s.pi) (hacc : t.accepted = s.accepted)
    (hdel : t.delivered = s.delivered)
    (hasleep : ∀ p c, (t.proc p).sched.Asleep c → (s.proc p).sched.Asleep c) : Quiet t where
  queue := by
    obtain ⟨q, hq⟩ := h.queue
    refine ⟨q, ?_⟩
    rw [Queue, hpi, hacc, hdel]
    exact hq
  readers := by
    intro p hp
    rw [hpi]
    exact h.readers p (hasleep p _ hp)
  writers := by
    intro p hp
    rw [hpi]
    exact h.writers p (hasleep p _ hp)

theorem Quiet.setProc {x : Proc} (h : Quiet s)
    (hx : ∀ c, x.sched.Asleep c → (s.proc p).sched.Asleep c) : Quiet (s.setProc p x) := by
  refine h.of_asleep rfl rfl rfl ?_
  intro r c hr
  by_cases hrp : r = p
  · subst hrp
    rw [State.setProc_self] at hr
    exact hx c hr
  · rwa [State.setProc_of_ne hrp] at hr

theorem Quiet.setFds (h : Quiet s) (fds : Side → Nat) : Quiet (s.setFds p fds) :=
  h.setProc fun _ => id

/-- After `pipeclose` nobody but its caller could be asleep. -/
theorem Quiet.pipeclose {side : Side} (h : Quiet s)
    (hawake : (s.proc me).sched.state ≠ .sleeping) : Quiet (pipeclose me side s) := by
  have hnobody : ∀ p c, ¬ ((Ipc.pipeclose me side s).proc p).sched.Asleep c := by
    intro p c
    have hproc : (Ipc.pipeclose me side s).proc = ((s.wakeup me .nread).wakeup me .nwrite).proc := by
      unfold Ipc.pipeclose
      dsimp only
      split <;> rfl
    rw [hproc, State.asleep_wakeup, State.asleep_wakeup]
    rintro ⟨⟨hp, hread⟩, hwrite⟩
    by_cases hme : p = me
    · subst hme
      exact hawake hp.1
    · cases c with
      | nread => exact hread.resolve_left hme rfl
      | nwrite => exact hwrite.resolve_left hme rfl
  refine ⟨?_, fun p hp => absurd hp (hnobody p _), fun p hp => absurd hp (hnobody p _)⟩
  obtain ⟨q, hq⟩ := h.queue
  refine ⟨q, ?_⟩
  have hshut : Window PIPESIZE (s.pi.shut side).data (s.pi.shut side).nread (s.pi.shut side).nwrite q := by
    cases side <;> exact hq.2
  unfold Ipc.pipeclose
  dsimp only
  split <;> exact ⟨hq.1, hshut⟩

theorem Quiet.fileclose {side : Side} (h : Quiet s)
    (hawake : (s.proc me).sched.state ≠ .sleeping) : Quiet (fileclose me side s) := by
  unfold Ipc.fileclose
  have href : Quiet { s with ref := Function.update s.ref side (s.ref side - 1) } :=
    h.of_asleep rfl rfl rfl fun _ _ => id
  dsimp only
  split
  · exact href
  · exact href.pipeclose hawake

/-! ## Runs -/

theorem Quiet.awake (h : Quiet s) : Quiet (s.awake p) :=
  h.setProc fun c hc => absurd hc.2 (by simp)

theorem awake_state (hrun : (s.proc p).sched.state = .runnable) : ((s.awake p).proc p).sched.state ≠ .sleeping := by
  rw [State.awake, State.setProc_self, hrun]
  simp

theorem Quiet.pipewrite {copyin : UInt64 → Option UInt8} {n : Int}
    (h : Quiet s) (hawake : (s.proc me).sched.state ≠ .sleeping) :
    Quiet (pipewrite me copyin addr n i s).1 :=
  Writing.loop ⟨h.queue, h.writers, hawake, .inl h.readers⟩

theorem Proc.Ready.awake {x : Proc} (h : x.Ready) : x.sched.state ≠ .sleeping := by
  rw [h.2]
  simp

theorem Quiet.step {a : Action P} (h : Quiet s) (hstep : step s a = some t) : Quiet t := by
  cases a with
  | write p addr n copyin =>
    obtain ⟨⟨hready, -⟩, ⟨⟩⟩ := Option.ite_none_right_eq_some.mp hstep
    exact (h.pipewrite hready.awake).settle
  | read p addr n copyout =>
    obtain ⟨⟨hready, -⟩, ⟨⟩⟩ := Option.ite_none_right_eq_some.mp hstep
    exact (h.piperead hready.awake).settle
  | resume p copyin copyout =>
    obtain ⟨hrun, hplace⟩ := Option.ite_none_right_eq_some.mp hstep
    cases hp : (s.proc p).place with
    | user => rw [hp] at hplace; cases hplace
    | piperead addr n =>
      rw [hp] at hplace
      cases hplace
      exact (h.awake.piperead (awake_state hrun)).settle
    | pipewrite addr n i =>
      rw [hp] at hplace
      cases hplace
      exact (h.awake.pipewrite (awake_state hrun)).settle
  | kill p =>
    cases hstep
    exact h.setProc fun c hc => absurd hc (Sched.not_asleep_kill c)
  | dup p side =>
    obtain ⟨-, ⟨⟩⟩ := Option.ite_none_right_eq_some.mp hstep
    refine Quiet.setFds ?_ _
    exact h.of_asleep rfl rfl rfl fun _ _ => id
  | fork p child =>
    obtain ⟨-, ⟨⟩⟩ := Option.ite_none_right_eq_some.mp hstep
    refine Quiet.setFds ?_ _
    exact h.of_asleep rfl rfl rfl fun _ _ => id
  | close p side =>
    obtain ⟨⟨hready, -⟩, ⟨⟩⟩ := Option.ite_none_right_eq_some.mp hstep
    refine (h.setFds _).fileclose ?_
    rw [State.setFds, State.setProc_self]
    exact hready.awake

theorem Quiet.run {as : List (Action P)} (h : Quiet s) (hrun : run s as = some t) : Quiet t := by
  induction as generalizing s with
  | nil =>
    cases hrun
    exact h
  | cons a as ih =>
    obtain ⟨u, hu, hrest⟩ := Option.bind_eq_some_iff.mp hrun
    exact ih (h.step hu) hrest

theorem quiet_pipealloc (p : P) (data : Nat → UInt8) : Quiet (pipealloc p data) where
  queue := ⟨[], rfl, Window.nil data 0⟩
  readers := fun q hq => absurd hq.1 (by simp [pipealloc])
  writers := fun q hq => absurd hq.1 (by simp [pipealloc])

end Xv6.Ipc
