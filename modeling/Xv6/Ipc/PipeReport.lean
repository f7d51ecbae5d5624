import Xv6.Ipc.PipeGuarantees

/-!
# What `pipewrite` reports

A long `pipewrite` sleeps whenever the ring is full, and other processes run in between. A call is followed from its
first step to its return, with the number of bytes that it has placed in the ring. The result is that number, except
when the call finds the read side closed: then it is -1, also after bytes have been placed.
-/

namespace Xv6.Ipc

open Process

variable {P : Type} [DecidableEq P]

/-- The number of bytes that were placed in the ring between two states. -/
def placed (s t : State P) : Nat := t.accepted.length - s.accepted.length

/-- The process `p` sleeps in `pipewrite(pi, addr, n)`, which has placed `c` bytes so far. -/
inductive InWrite (p : P) (addr : UInt64) (n : Int) : State P → Nat → Prop
  | start {s t : State P} {copyin : UInt64 → Option UInt8} : (s.proc p).Ready → 0 < (s.proc p).fds .write →
      pipewrite p copyin addr n 0 s = (t, none) → InWrite p addr n t (placed s t)
  | other {s t : State P} {a : Action P} {c : Nat} : InWrite p addr n s c →
      (∀ copyin copyout, a ≠ .resume p copyin copyout) → step s a = some t → InWrite p addr n t c
  | again {s t : State P} {copyin : UInt64 → Option UInt8} {i c : Nat} : InWrite p addr n s c →
      (s.proc p).sched.state = .runnable → (s.proc p).place = .pipewrite addr n i →
      pipewrite p copyin addr n i (s.awake p) = (t, none) → InWrite p addr n t (c + placed s t)

/-- `pipewrite(pi, addr, n)` returns `r` to the process `p` in a step from `s` to `t`, and has placed `c` bytes in
all. -/
inductive Returned (p : P) (addr : UInt64) (n : Int) : State P → State P → Int → Nat → Prop
  | first {s t : State P} {copyin : UInt64 → Option UInt8} {r : Int} : (s.proc p).Ready →
      0 < (s.proc p).fds .write → pipewrite p copyin addr n 0 s = (t, some r) → Returned p addr n s t r (placed s t)
  | last {s t : State P} {copyin : UInt64 → Option UInt8} {i c : Nat} {r : Int} : InWrite p addr n s c →
      (s.proc p).sched.state = .runnable → (s.proc p).place = .pipewrite addr n i →
      pipewrite p copyin addr n i (s.awake p) = (t, some r) → Returned p addr n s t r (c + placed s t)

variable {p me : P} {s t : State P} {addr : UInt64} {n r : Int} {k i c : Nat} {copyin : UInt64 → Option UInt8}

/-! ## One step of the call -/

/-- The step has placed `d` bytes; it sleeps with its count, or returns. -/
structure Outcome (me : P) (addr : UInt64) (n : Int) (k i : Nat) (s t : State P) (res : Option Int) (d : Nat) :
    Prop where
  grew : t.accepted.length = s.accepted.length + d
  sleeps : res = none → (t.proc me).place = .pipewrite addr n (i + d) ∧ d < k
  reports : ∀ r, res = some r → s.pi.readopen = true → r = ↑(i + d) ∨ r = -1 ∧ i + d = 0
  closed : ∀ r, res = some r → s.pi.readopen = false → d = 0 ∧ (0 < k → r = -1) ∧ (k = 0 → r = ↑i)

theorem pipewriteLoop_outcome (me : P) (copyin : UInt64 → Option UInt8) (addr : UInt64) (n : Int) (k i : Nat)
    (s : State P) : ∃ d, Outcome me addr n k i s (pipewriteLoop me copyin addr n k i s).1
      (pipewriteLoop me copyin addr n k i s).2 d := by
  induction k generalizing i s with
  | zero =>
    refine ⟨0, rfl, fun h => (by cases h), fun r hr _ => .inl ?_, fun r hr _ => ⟨rfl, fun h => absurd h (by omega),
      fun _ => ?_⟩⟩
    · cases hr
      rfl
    · cases hr
      rfl
  | succ k ih =>
    rw [pipewriteLoop]
    by_cases hclosed : s.pi.readopen = false
    · rw [if_pos hclosed]
      refine ⟨0, rfl, by simp, fun r hr hopen => ?_, fun r hr _ => ⟨rfl, fun _ => ?_, fun h => absurd h (by omega)⟩⟩
      · cases hclosed.symm.trans hopen
      · cases hr
        rfl
    rw [if_neg hclosed]
    by_cases hfull : s.pi.nwrite = s.pi.nread + UInt32.ofNat PIPESIZE
    · rw [if_pos hfull]
      refine ⟨0, rfl, fun _ => ⟨?_, by omega⟩, by simp, by simp⟩
      rw [State.sleep, State.setProc_self]
      rfl
    rw [if_neg hfull]
    cases hbyte : copyin (addr + UInt64.ofNat i) with
    | none =>
      dsimp only
      by_cases hi : i = 0
      · rw [if_pos hi]
        refine ⟨0, rfl, by simp, fun r hr _ => .inr ⟨?_, hi⟩, fun r _ h => absurd h hclosed⟩
        cases hr
        rfl
      · rw [if_neg hi]
        refine ⟨0, rfl, by simp, fun r hr _ => .inl ?_, fun r _ h => absurd h hclosed⟩
        cases hr
        rfl
    | some ch =>
      obtain ⟨d, hgrew, hsleeps, hreports, -⟩ := ih (i + 1) (s.push ch)
      have hcount : i + 1 + d = i + (d + 1) := by omega
      rw [hcount] at hsleeps hreports
      refine ⟨d + 1, ?_, fun hr => ⟨(hsleeps hr).1, by have := (hsleeps hr).2; omega⟩, hreports,
        fun r _ h => absurd h hclosed⟩
      have hpush : (s.push ch).accepted.length = s.accepted.length + 1 := List.length_append ..
      dsimp only
      omega

/-! ## The other processes -/

/-- A process that stands in a call stays there until it goes on itself. -/
theorem step_place {a : Action P} (hstep : step s a = some t) (hin : (s.proc p).place ≠ .user)
    (ha : ∀ copyin copyout, a ≠ .resume p copyin copyout) : (t.proc p).place = (s.proc p).place := by
  have hne : ∀ q, (s.proc q).Ready → p ≠ q := fun q hq heq => hin (heq ▸ hq.1)
  cases a with
  | write q addr n copyin =>
    obtain ⟨hq, ⟨⟩⟩ := Option.ite_none_right_eq_some.mp hstep
    exact (Keeps.pipewriteLoop copyin addr n _ 0 s).settle p (hne q hq.1)
  | read q addr n copyout =>
    obtain ⟨hq, ⟨⟩⟩ := Option.ite_none_right_eq_some.mp hstep
    exact (Keeps.piperead copyout addr n s).settle p (hne q hq.1)
  | resume q copyin copyout =>
    obtain ⟨-, hgo⟩ := Option.ite_none_right_eq_some.mp hstep
    have hpq : p ≠ q := fun heq => ha copyin copyout (heq ▸ rfl)
    have hawake : ((s.awake q).proc p).place = (s.proc p).place := by
      rw [State.awake, State.setProc_of_ne hpq]
    cases hplace : (s.proc q).place with
    | user =>
      rw [hplace] at hgo
      cases hgo
    | piperead addr n =>
      rw [hplace] at hgo
      cases hgo
      exact ((Keeps.piperead copyout addr n (s.awake q)).settle p hpq).trans hawake
    | pipewrite addr n i =>
      rw [hplace] at hgo
      cases hgo
      exact ((Keeps.pipewriteLoop copyin addr n _ i (s.awake q)).settle p hpq).trans hawake
  | kill q =>
    cases hstep
    by_cases hpq : p = q
    · rw [hpq, State.setProc_self]
    · rw [State.setProc_of_ne hpq]
  | dup q side =>
    obtain ⟨-, ⟨⟩⟩ := Option.ite_none_right_eq_some.mp hstep
    exact setFds_place _ q _ p
  | fork q child =>
    obtain ⟨-, ⟨⟩⟩ := Option.ite_none_right_eq_some.mp hstep
    exact setFds_place _ child _ p
  | close q side =>
    obtain ⟨-, ⟨⟩⟩ := Option.ite_none_right_eq_some.mp hstep
    rw [fileclose]
    dsimp only
    split
    · exact setFds_place s q _ p
    · rw [pipeclose_place q side _ p]
      exact setFds_place s q _ p

/-! ## Whole calls -/

/-- The count that the process keeps is the number of bytes it has placed. -/
theorem InWrite.count (h : InWrite p addr n s c) : (s.proc p).place = .pipewrite addr n c ∧ ↑c < n := by
  induction h with
  | @start s t copyin _ _ hrun =>
    obtain ⟨d, hgrew, hsleeps, -, -⟩ := pipewriteLoop_outcome p copyin addr n (n - (0 : Nat)).toNat 0 s
    rw [pipewrite] at hrun
    rw [hrun] at hgrew hsleeps
    obtain ⟨hplace, hd⟩ := hsleeps rfl
    have hplaced : placed s t = d := by
      unfold placed
      dsimp only at hgrew
      omega
    rw [hplaced]
    rw [Nat.zero_add] at hplace
    exact ⟨hplace, by omega⟩
  | other _ ha hstep ih =>
    rw [step_place hstep (by rw [ih.1]; exact nofun) ha]
    exact ih
  | @again s t copyin i c _ _ hplace hrun ih =>
    obtain ⟨hcount, hlt⟩ := ih
    rw [hcount] at hplace
    obtain rfl : c = i := by injection hplace
    obtain ⟨d, hgrew, hsleeps, -, -⟩ := pipewriteLoop_outcome p copyin addr n (n - c).toNat c (s.awake p)
    rw [pipewrite] at hrun
    rw [hrun] at hgrew hsleeps
    obtain ⟨hplace', hd⟩ := hsleeps rfl
    have hplaced : placed s t = d := by
      unfold placed
      have hawake : (s.awake p).accepted = s.accepted := rfl
      rw [hawake] at hgrew
      dsimp only at hgrew
      omega
    rw [hplaced]
    exact ⟨hplace', by omega⟩

/-- The value of a call of `pipewrite` is the number of bytes it has placed, and -1 only if it has placed none, if and
only if the last step of the call finds the read side open or the call has placed nothing. -/
theorem pipewrite_reports_iff (h : Returned p addr n s t r c) :
    (r = ↑c ∨ r = -1 ∧ c = 0) ↔ (s.pi.readopen = true ∨ c = 0) := by
  cases h with
  | first hready hfd hrun =>
    rename_i copyin
    obtain ⟨d, hgrew, -, hreports, hclosed⟩ := pipewriteLoop_outcome p copyin addr n (n - (0 : Nat)).toNat 0 s
    rw [pipewrite] at hrun
    rw [hrun] at hgrew hreports hclosed
    have hplaced : placed s t = d := by
      unfold placed
      dsimp only at hgrew
      omega
    rw [hplaced]
    cases hopen : s.pi.readopen with
    | true =>
      have hr := hreports r rfl hopen
      rw [Nat.zero_add] at hr
      exact iff_of_true hr (.inl rfl)
    | false =>
      obtain ⟨rfl, hpos, hzero⟩ := hclosed r rfl hopen
      have hr : r = 0 ∨ r = -1 := by
        rcases Nat.eq_zero_or_pos (n - (0 : Nat)).toNat with h0 | h0
        · exact .inl (hzero h0)
        · exact .inr (hpos h0)
      exact iff_of_true (hr.imp_right fun hr => ⟨hr, rfl⟩) (.inr rfl)
  | last hin hrunnable hplace hrun =>
    rename_i copyin i c'
    obtain ⟨hcount, hlt⟩ := hin.count
    rw [hcount] at hplace
    obtain rfl : c' = i := by injection hplace
    obtain ⟨d, hgrew, -, hreports, hclosed⟩ := pipewriteLoop_outcome p copyin addr n (n - c').toNat c' (s.awake p)
    rw [pipewrite] at hrun
    rw [hrun] at hgrew hreports hclosed
    have hpi : (s.awake p).pi = s.pi := rfl
    rw [hpi] at hreports hclosed
    have hplaced : placed s t = d := by
      unfold placed
      have hawake : (s.awake p).accepted = s.accepted := rfl
      rw [hawake] at hgrew
      dsimp only at hgrew
      omega
    rw [hplaced]
    cases hopen : s.pi.readopen with
    | true =>
      exact iff_of_true (hreports r rfl hopen) (.inl rfl)
    | false =>
      obtain ⟨rfl, hpos, -⟩ := hclosed r rfl hopen
      obtain rfl := hpos (by omega)
      simp

/-- A call with three bytes to an empty pipe places them all. -/
theorem pipewrite_reports_three : ∃ t, Returned (0 : Fin 2) 0 3 (pipealloc 0 fun _ => 0) t 3 3 ∧
    (((3 : Int) = ↑(3 : Nat) ∨ (3 : Int) = -1 ∧ 3 = 0) ↔
      ((pipealloc (0 : Fin 2) fun _ => 0).pi.readopen = true ∨ 3 = 0)) := by
  have hrun : pipewrite (0 : Fin 2) (fun _ => some 7) 0 3 0 (pipealloc 0 fun _ => 0) = (_, some 3) := rfl
  have hcall := Returned.first (by decide) (by decide) hrun
  exact ⟨_, hcall, pipewrite_reports_iff hcall⟩

/-- The first process keeps the write side and its child the read side. -/
def oneEndEach : List (Action (Fin 2)) := [.fork 0 1, .close 0 .read]

/-- The ring is full when the only reader closes; the writer has placed 512 bytes and is told -1. -/
theorem pipewrite_forgets : ∃ s₀ s t : State (Fin 2), run (pipealloc 0 fun _ => 0) oneEndEach = some s₀ ∧
    InWrite 0 0 513 s 512 ∧ Returned 0 0 513 s t (-1) 512 := by
  have heval : ((run (pipealloc (0 : Fin 2) fun _ => 0) oneEndEach).elim false fun s₀ =>
      let out := pipewrite 0 (fun _ => some 7) 0 513 0 s₀
      decide ((s₀.proc 0).Ready ∧ 0 < (s₀.proc 0).fds .write ∧ out.2 = none ∧ placed s₀ out.1 = 512) &&
        (step out.1 (.close 1 .read)).elim false fun s =>
          let last := pipewrite 0 (fun _ => some 7) 0 513 512 (s.awake 0)
          decide ((s.proc 0).sched.state = .runnable ∧ (s.proc 0).place = .pipewrite 0 513 512 ∧
            last.2 = some (-1) ∧ placed s last.1 = 0)) = true := by decide +kernel
  cases hrun : run (pipealloc (0 : Fin 2) fun _ => 0) oneEndEach with
  | none =>
    rw [hrun] at heval
    cases heval
  | some s₀ =>
    rw [hrun] at heval
    obtain ⟨hfirst, hrest⟩ := Bool.and_eq_true_iff.mp heval
    obtain ⟨hready, hfds, hsleeps, hplaced⟩ := of_decide_eq_true hfirst
    have hstart := InWrite.start hready hfds (Prod.ext rfl hsleeps)
    rw [hplaced] at hstart
    cases hclose : step (pipewrite 0 (fun _ => some 7) 0 513 0 s₀).1 (.close 1 .read) with
    | none =>
      rw [hclose] at hrest
      cases hrest
    | some s =>
      rw [hclose] at hrest
      obtain ⟨hrunnable, hplace, hresult, hnone⟩ := of_decide_eq_true hrest
      have hin : InWrite 0 0 513 s 512 := hstart.other (fun _ _ h => by cases h) hclose
      have hcall := Returned.last hin hrunnable hplace (Prod.ext rfl hresult)
      rw [hnone] at hcall
      exact ⟨s₀, s, _, rfl, hin, hcall⟩

end Xv6.Ipc
