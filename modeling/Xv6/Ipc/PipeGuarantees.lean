import Mathlib.Tactic.Ring
import Xv6.Ipc.PipeInv

/-!
# Order of delivery and wakeups

The bytes come out in the order in which they went in, over any number of wraps of the counters, and
nobody sleeps on a condition that will not come. A call moves no process but its own.
-/

namespace Xv6.Ipc

open Process Data

variable {P : Type} [DecidableEq P] {s t : State P} {me p : P}

/-! ## First in, first out -/

/-- The action is a step of `piperead` at the user address `addr`. -/
def Reads (s : State P) (a : Action P) (addr : UInt64) (copyout : UInt64 → Bool) : Prop :=
  (∃ p n, a = .read p addr n copyout) ∨
    ∃ p n copyin, a = .resume p copyin copyout ∧ (s.proc p).place = .piperead addr n

/-- The bytes `bs` were taken from the pipe, each after it had been copied out. -/
structure Consumed (copyout : UInt64 → Bool) (addr : UInt64) (i : Nat) (s t : State P)
    (bs : List UInt8) : Prop where
  delivered : t.delivered = s.delivered ++ bs
  nread : t.pi.nread = s.pi.nread + UInt32.ofNat bs.length
  copied : ∀ j < bs.length, copyout (addr + UInt64.ofNat (i + j)) = true

omit [DecidableEq P] in
theorem Consumed.nil {copyout : UInt64 → Bool} {addr : UInt64} {i : Nat}
    (hdel : t.delivered = s.delivered) (hpi : t.pi = s.pi) : Consumed copyout addr i s t [] where
  delivered := by rw [hdel, List.append_nil]
  nread := by rw [hpi]; simp
  copied := by simp

theorem pipereadLoop_consumed (copyout : UInt64 → Bool) (addr : UInt64) (k i : Nat) (s : State P) :
    ∃ bs, Consumed copyout addr i s (pipereadLoop me copyout addr k i s).1 bs := by
  induction k generalizing i s with
  | zero => exact ⟨[], .nil rfl rfl⟩
  | succ k ih =>
    rw [pipereadLoop]
    by_cases hempty : s.pi.nread = s.pi.nwrite
    · rw [if_pos hempty]
      exact ⟨[], .nil rfl rfl⟩
    rw [if_neg hempty]
    by_cases hcopy : copyout (addr + UInt64.ofNat i) = true
    · rw [if_pos hcopy]
      obtain ⟨bs, hbs⟩ := ih (i + 1) s.pop
      refine ⟨s.pi.data (s.pi.nread.toNat % PIPESIZE) :: bs, ?_, ?_, ?_⟩
      · rw [hbs.delivered]
        simp [State.pop]
      · rw [hbs.nread, List.length_cons, Nat.add_comm, UInt32.ofNat_add, ← UInt32.add_assoc]
        rfl
      · intro j hj
        cases j with
        | zero => exact hcopy
        | succ j =>
          have := hbs.copied j (Nat.lt_of_succ_lt_succ hj)
          rwa [Nat.add_assoc, Nat.add_comm 1 j] at this
    · rw [if_neg hcopy]
      split
      · exact ⟨[], .nil rfl rfl⟩
      · exact ⟨[], .nil rfl rfl⟩

theorem piperead_consumed (me : P) (copyout : UInt64 → Bool) (addr : UInt64) (n : Int) (s : State P) :
    ∃ bs, Consumed copyout addr 0 s (settle me (piperead me copyout addr n s)) bs := by
  have hcall : ∃ bs, Consumed copyout addr 0 s (piperead me copyout addr n s).1 bs := by
    unfold piperead
    by_cases hwait : s.pi.nread = s.pi.nwrite ∧ s.pi.writeopen = true
    · rw [if_pos hwait]
      exact ⟨[], .nil rfl rfl⟩
    · rw [if_neg hwait]
      exact pipereadLoop_consumed copyout addr n.toNat 0 s
  obtain ⟨bs, hbs⟩ := hcall
  refine ⟨bs, ?_, ?_, hbs.copied⟩
  · rw [settle_delivered]
    exact hbs.delivered
  · rw [settle_pi]
    exact hbs.nread

theorem Reads.consumed {a : Action P} {addr : UInt64} {copyout : UInt64 → Bool}
    (hr : Reads s a addr copyout) (hstep : step s a = some t) :
    ∃ bs, Consumed copyout addr 0 s t bs := by
  rcases hr with ⟨p, n, rfl⟩ | ⟨p, n, copyin, rfl, hp⟩
  · obtain ⟨-, ⟨⟩⟩ := Option.ite_none_right_eq_some.mp hstep
    exact piperead_consumed p copyout addr n s
  · obtain ⟨-, hplace⟩ := Option.ite_none_right_eq_some.mp hstep
    rw [hp] at hplace
    cases hplace
    obtain ⟨bs, hbs⟩ := piperead_consumed p copyout addr n (s.awake p)
    exact ⟨bs, hbs.delivered, hbs.nread, hbs.copied⟩

/-- In every run, what was delivered is a prefix of what was accepted, the counters count what is in
between, and a step of `piperead` takes exactly the bytes that it could copy out. -/
theorem pipe_fifo (p : P) (data : Nat → UInt8) (as : List (Action P)) (s : State P)
    (hrun : run (pipealloc p data) as = some s) :
    s.delivered <+: s.accepted ∧
      (s.pi.nwrite - s.pi.nread).toNat ≤ PIPESIZE ∧
      (s.pi.nwrite - s.pi.nread).toNat = s.accepted.length - s.delivered.length ∧
      ∀ a t addr copyout, Reads s a addr copyout → step s a = some t →
        ∃ bs, Consumed copyout addr 0 s t bs := by
  obtain ⟨q, hsplit, hq⟩ := ((quiet_pipealloc p data).run hrun).queue
  have hcount := hq.toNat_sub pipesize_lt
  refine ⟨⟨q, hsplit.symm⟩, ?_, ?_, fun a t addr copyout hr hstep => hr.consumed hstep⟩
  · rw [hcount]
    exact hq.fits
  · rw [hcount, hsplit, List.length_append]
    omega

/-- Two processes: the first writes three bytes, the second cannot be given the third. -/
def shortRead : List (Action (Fin 2)) :=
  [.fork 0 1, .write 0 100 3 (fun a => some (a.toUInt8)), .read 1 200 3 (fun a => a < 202)]

theorem pipe_fifo_shortRead :
    ∃ s, run (pipealloc 0 fun _ => 0) shortRead = some s ∧ s.accepted = [100, 101, 102] ∧
      s.delivered = [100, 101] ∧ s.delivered <+: s.accepted := by
  refine ⟨_, rfl, by decide, by decide, ?_⟩
  exact (pipe_fifo 0 (fun _ => 0) shortRead _ rfl).1

/-! ## Sleepers -/

/-- In every run, whoever sleeps on the read position finds the ring empty and the write side open,
whoever sleeps on the write position finds it full and the read side open. -/
theorem sleepers_wait (p : P) (data : Nat → UInt8) (as : List (Action P)) (s : State P)
    (hrun : run (pipealloc p data) as = some s) (r : P) :
    ((s.proc r).sched.Asleep .nread → s.pi.nread = s.pi.nwrite ∧ s.pi.writeopen = true) ∧
      ((s.proc r).sched.Asleep .nwrite →
        s.pi.nwrite = s.pi.nread + UInt32.ofNat PIPESIZE ∧ s.pi.readopen = true) := by
  have h := (quiet_pipealloc p data).run hrun
  exact ⟨h.readers r, h.writers r⟩

/-- The second process reads from the empty pipe. -/
def emptyRead : List (Action (Fin 2)) := [.fork 0 1, .read 1 200 3 fun _ => true]

theorem sleepers_wait_emptyRead :
    ∃ s, run (pipealloc 0 fun _ => 0) emptyRead = some s ∧ (s.proc 1).sched.Asleep .nread ∧
      s.pi.nread = s.pi.nwrite := by
  refine ⟨_, rfl, by decide, ?_⟩
  exact ((sleepers_wait 0 (fun _ => 0) emptyRead _ rfl 1).1 (by decide)).1

/-! ## What a call leaves alone -/

theorem wakeup_place {c : Chan} (q : P) : ((s.wakeup me c).proc q).place = (s.proc q).place := by
  unfold State.wakeup
  dsimp only
  split <;> rfl

/-- The process `me` changed nothing about where the others stand. -/
def Keeps (me : P) (s t : State P) : Prop := ∀ q, q ≠ me → (t.proc q).place = (s.proc q).place

namespace Keeps

omit [DecidableEq P] in
theorem refl (s : State P) : Keeps me s s := fun _ _ => rfl

omit [DecidableEq P] in
theorem trans {u : State P} (h : Keeps me s t) (h' : Keeps me t u) : Keeps me s u :=
  fun q hq => (h' q hq).trans (h q hq)

theorem wakeup (c : Chan) : Keeps me s (s.wakeup me c) := fun q _ => wakeup_place q

theorem setProc {x : Proc} : Keeps me s (s.setProc me x) := fun q hq => by rw [State.setProc_of_ne hq]

theorem settle {out : State P × Option Int} (h : Keeps me s out.1) : Keeps me s (Ipc.settle me out) := by
  unfold Ipc.settle
  split
  · exact h
  · exact h.trans setProc

theorem pipewriteLoop (copyin : UInt64 → Option UInt8) (addr : UInt64) (n : Int) (k i : Nat)
    (s : State P) : Keeps me s (pipewriteLoop me copyin addr n k i s).1 := by
  induction k generalizing i s with
  | zero => exact wakeup .nread
  | succ k ih =>
    rw [Ipc.pipewriteLoop]
    split
    · exact refl s
    · split
      · exact (wakeup .nread).trans setProc
      · split
        · split
          · exact refl s
          · exact wakeup .nread
        · exact ih _ (s.push _)

theorem pipereadLoop (copyout : UInt64 → Bool) (addr : UInt64) (k i : Nat) (s : State P) :
    Keeps me s (pipereadLoop me copyout addr k i s).1 := by
  induction k generalizing i s with
  | zero => exact wakeup .nwrite
  | succ k ih =>
    rw [Ipc.pipereadLoop]
    split
    · exact wakeup .nwrite
    · split
      · exact ih _ s.pop
      · split
        · exact refl s
        · exact wakeup .nwrite

theorem piperead (copyout : UInt64 → Bool) (addr : UInt64) (n : Int) (s : State P) :
    Keeps me s (piperead me copyout addr n s).1 := by
  unfold Ipc.piperead
  split
  · exact setProc
  · exact pipereadLoop copyout addr n.toNat 0 s

end Keeps

theorem setFds_place (s : State P) (p : P) (fds : Side → Nat) (q : P) :
    ((s.setFds p fds).proc q).place = (s.proc q).place := by
  by_cases hq : q = p
  · rw [hq, State.setFds, State.setProc_self]
  · rw [State.setFds, State.setProc_of_ne hq]

theorem pipeclose_place (me : P) (side : Side) (s : State P) (q : P) :
    ((pipeclose me side s).proc q).place = (s.proc q).place := by
  have hproc : (pipeclose me side s).proc = ((s.wakeup me .nread).wakeup me .nwrite).proc := by
    unfold pipeclose
    dsimp only
    split <;> rfl
  rw [hproc]
  exact (wakeup_place q).trans (wakeup_place q)

variable {copyout : UInt64 → Bool} {addr : UInt64}

theorem pipereadLoop_count (k i : Nat) (s : State P) : ∃ bs,
    (pipereadLoop me copyout addr k (i + 1) s).1.delivered = s.delivered ++ bs ∧
      (pipereadLoop me copyout addr k (i + 1) s).2 = i + 1 + bs.length := by
  induction k generalizing i s with
  | zero => exact ⟨[], (List.append_nil _).symm, rfl⟩
  | succ k ih =>
    rw [pipereadLoop]
    split
    · exact ⟨[], (List.append_nil _).symm, rfl⟩
    split
    · obtain ⟨bs, hbs, hcount⟩ := ih (i + 1) s.pop
      exact ⟨_ :: bs, hbs.trans (List.append_assoc ..), hcount.trans (by grind)⟩
    · exact ⟨[], (List.append_nil _).symm, rfl⟩

/-- `piperead` sleeps, or it reports the end of the data, a first byte that cannot be copied or how much it delivered. -/
theorem piperead_reports {data : Nat → UInt8} {as : List (Action P)} (hrun : run (pipealloc p data) as = some s)
    {n : Int} (hn : 0 < n) : if s.delivered = s.accepted then
      (piperead me copyout addr n s).2 = if s.pi.writeopen then none else some 0
    else if copyout addr then ∃ b bs, (piperead me copyout addr n s).1.delivered = s.delivered ++ b :: bs ∧
      (piperead me copyout addr n s).2 = some (1 + bs.length : Int)
    else (piperead me copyout addr n s).2 = some (-1) := by
  obtain ⟨q, hsplit, hq⟩ := ((quiet_pipealloc p data).run hrun).queue
  obtain ⟨k, hk⟩ := Nat.exists_eq_add_one.mpr (Int.lt_toNat.mpr hn)
  rw [piperead, hk, pipereadLoop, hsplit]
  by_cases he : s.pi.nread = s.pi.nwrite
  · rw [(hq.empty_iff pipesize_lt).mp he]
    cases s.pi.writeopen <;> simp [he]
  · have hne := (hq.empty_iff pipesize_lt).not.mp he
    obtain ⟨bs, hbs, hcount⟩ := @pipereadLoop_count P _ me copyout addr k 0 s.pop
    cases hc : copyout addr with
    | false => simp [he, hc, hne]
    | true => simpa [he, hc, hne] using ⟨_, bs, hbs.trans (List.append_assoc ..), hcount⟩

theorem piperead_reports_shortRead : ∃ s, run (pipealloc 0 fun _ => 0) shortRead = some s ∧
    (piperead 1 (fun _ => false) 300 3 s).2 = some (-1) :=
  ⟨_, rfl, @piperead_reports _ _ _ 1 0 (fun _ => false) 300 (fun _ => 0) shortRead rfl 3 (by decide)⟩

end Xv6.Ipc
