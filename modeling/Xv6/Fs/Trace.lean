import Xv6.Fs.Syscall
import Xv6.Coop.Steady

/-!
# What every action of the file system keeps

A process is inside an operation or not, commits the log or not, and may have left the discipline
that a change of the disk belongs to an operation. These facts are its `Mode`, which no other
process changes. The invariant `Traced` ties the counters of the log to the modes, and ties what
the sleeping processes hold to what they sleep for.

Each function is verified once against this invariant. `Steady ⊥` says that a function may be
called anywhere, `Steady writing` that it calls `log_write` and so needs an operation.
-/

namespace Xv6.Fs

open Data Coop Prog Storage Logic Function

/-- The message of the panic in `log_write`. -/
abbrev OUTSIDE : String := "log_write outside of transaction"

/-- The message of the panic in `iget`. -/
abbrev NOINODES : String := "iget: no inodes"

/-- What the other processes do not change: whether the process is inside an operation, whether it
commits, and whether it has changed the disk where it was not inside. -/
structure Mode where
  inside : Bool
  commits : Bool
  loose : Bool

instance : Preorder Mode where
  le v v' := v.inside = v'.inside ∧ v.commits = v'.commits ∧ (v.loose = true → v'.loose = true)
  le_refl _ := ⟨rfl, rfl, fun h => h⟩
  le_trans _ _ _ h h' := ⟨h.1.trans h'.1, h.2.1.trans h'.2.1, fun hl => h'.2.2 (h.2.2 hl)⟩

/-- The modes in which `log_write` may be called. -/
def writing : UpperSet Mode where
  carrier := {v | v.inside = true ∨ v.loose = true}
  upper' _ _ h hv := hv.imp (fun hi => h.1 ▸ hi) h.2.2

def State.mode (s : State) (p : Pid) : Mode :=
  ⟨decide (p ∈ s.trace.inside), decide (s.trace.committer = some p),
    decide (p ∈ s.trace.unbracketed)⟩

variable {s s' : State} {q : Pid}

theorem mode_congr (hin : q ∈ s'.trace.inside ↔ q ∈ s.trace.inside)
    (hcom : s'.trace.committer = some q ↔ s.trace.committer = some q)
    (hloose : q ∈ s'.trace.unbracketed ↔ q ∈ s.trace.unbracketed) : s'.mode q = s.mode q := by
  unfold State.mode
  rw [decide_eq_decide.mpr hin, decide_eq_decide.mpr hcom, decide_eq_decide.mpr hloose]

def State.Loose (s : State) : Prop := s.trace.unbracketed ≠ ∅

structure Traced (s : State) : Prop where
  count : s.log.outstanding = s.trace.inside.card
  commits : s.log.committing = s.trace.committer.isSome
  empty : s.trace.inside = ∅ → s.trace.committer = none → s.log.lh = []
  stray : s.trace.stray = true → s.Loose
  waits : ∀ p w j, s.trace.waits p = some w → (s.icache j).lock = some p → (j, w) ∈ s.trace.nested
  outside : ∀ p, s.trace.waits p = some .admission →
    p ∉ s.trace.inside ∧ s.trace.committer ≠ some p
  closed : ∀ f, (s.ftable f).ref = 0 → (s.ftable f).type = .none

/-- A panic in `log_write` although nobody is loose, or in `iget` although an entry is free. -/
def Unexpected (m : String) (s : State) : Prop :=
  m = OUTSIDE ∧ ¬ s.Loose ∨ m = NOINODES ∧ ∃ i, (s.icache i).ref = 0

abbrev Other (m : String) : Prop := m ≠ OUTSIDE ∧ m ≠ NOINODES

theorem Other.not_unexpected {m : String} (h : Other m) (s : State) : ¬ Unexpected m s := by
  rintro (hbad | hbad)
  · exact h.1 hbad.1
  · exact h.2 hbad.1

/-- A process between two calls is not inside an operation. -/
def traceLogic : Logic State Unit Mode where
  inv w := Traced w.1
  view p w := w.1.mode p
  idle v := v.inside = false ∧ v.commits = false
  bad m s := Unexpected m s
  dead s := Traced s
  guar _ _ := True

theorem plain : traceLogic.Plain := ⟨fun _ _ => trivial, fun _ h => h⟩

variable {p : Pid} {A : UpperSet Mode} {b : Bool}

/-! ## Actions that the trace does not see -/

/-- The action leaves the log and the trace as they are, takes no lock and opens no file. -/
structure Silent (s s' : State) : Prop where
  log : s'.log = s.log
  trace : s'.trace = s.trace
  lock : ∀ i q, (s'.icache i).lock = some q → (s.icache i).lock = some q
  closed : (∀ f, (s.ftable f).ref = 0 → (s.ftable f).type = .none) →
    ∀ f, (s'.ftable f).ref = 0 → (s'.ftable f).type = .none

theorem Silent.mode (h : Silent s s') (q : Pid) : s'.mode q = s.mode q := by
  rw [State.mode, State.mode, h.trace]

theorem Silent.traced (h : Silent s s') (hs : Traced s) : Traced s' where
  count := by rw [h.log, h.trace]; exact hs.count
  commits := by rw [h.log, h.trace]; exact hs.commits
  empty := by rw [h.log, h.trace]; exact hs.empty
  stray := by rw [State.Loose, h.trace]; exact hs.stray
  waits q w j hw hj := by
    rw [h.trace] at hw ⊢
    exact hs.waits q w j hw (h.lock j q hj)
  outside := by rw [h.trace]; exact hs.outside
  closed := h.closed hs.closed

theorem Silent.kept (h : Silent s s') (hs : Traced s) : traceLogic.Kept p (· ≤ ·) (s, ()) (s', ()) :=
  ⟨h.traced hs, fun q _ => h.mode q, le_of_eq (h.mode p).symm⟩

theorem steady_silent {f : State → State} (h : ∀ s, Silent s (f s)) : traceLogic.Steady p A (modify f) :=
  turns_modify plain fun s _ hs _ => (h s).kept hs

theorem silent_setBlock (s : State) (b : Nat) (d : Block) : Silent s (s.setBlock b d) :=
  ⟨rfl, rfl, fun _ _ h => h, fun h => h⟩

theorem silent_setCwd (s : State) (q : Pid) (ip : Option (Fin NINODE)) : Silent s (s.setCwd q ip) :=
  ⟨rfl, rfl, fun _ _ h => h, fun h => h⟩

theorem silent_setAlive (s : State) (q : Pid) (b : Bool) : Silent s (s.setAlive q b) :=
  ⟨rfl, rfl, fun _ _ h => h, fun h => h⟩

theorem silent_setOfile (s : State) (q : Pid) (fd : Fin NOFILE) (f : Option (Fin NFILE)) :
    Silent s (s.setOfile q fd f) :=
  ⟨rfl, rfl, fun _ _ h => h, fun h => h⟩

theorem silent_modInode (s : State) (i : Fin NINODE) {g : Inode → Inode}
    (hg : ∀ ip q, (g ip).lock = some q → ip.lock = some q) : Silent s (s.modInode i g) := by
  refine ⟨rfl, rfl, ?_, fun h => h⟩
  intro j q hj
  by_cases hji : j = i
  · subst hji
    simp only [State.modInode, update_self] at hj
    exact hg _ q hj
  · simpa only [State.modInode, update_of_ne hji] using hj

theorem silent_modDin (s : State) (i : Fin NINODE) (g : Dinode → Dinode) : Silent s (s.modDin i g) :=
  silent_modInode s i fun _ _ h => h

/-- An entry of the file table without references has no type before and after. -/
theorem silent_modFile (s : State) (f : Fin NFILE) {g : File → File}
    (hg : ((s.ftable f).ref = 0 → (s.ftable f).type = .none) →
      (g (s.ftable f)).ref = 0 → (g (s.ftable f)).type = .none) : Silent s (s.modFile f g) := by
  refine ⟨rfl, rfl, fun _ _ h => h, ?_⟩
  intro hs f' href
  by_cases hf : f' = f
  · subst hf
    simp only [State.modFile, update_self] at href ⊢
    exact hg (hs f') href
  · simp only [State.modFile, update_of_ne hf] at href ⊢
    exact hs f' href

theorem steady_modDin (i : Fin NINODE) (g : Dinode → Dinode) : traceLogic.Steady p A (modify fun s => s.modDin i g) :=
  steady_silent fun s => silent_modDin s i g

theorem steady_modInode (i : Fin NINODE) {g : Inode → Inode} (hg : ∀ ip q, (g ip).lock = some q → ip.lock = some q) :
    traceLogic.Steady p A (modify fun s => s.modInode i g) :=
  steady_silent fun s => silent_modInode s i hg

theorem steady_putBlock (b : Nat) (d : Block) : traceLogic.Steady p A (putBlock b d) :=
  steady_silent fun s => silent_setBlock s b d

theorem steady_bread (b : Nat) : traceLogic.Steady p A (bread b) :=
  (steady_pause plain).bind fun _ => steady_gets _

/-- A panic with another message may happen. -/
theorem steady_test {c : State → Bool} {m : String} (hm : Other m) : traceLogic.Steady p A (check c m) :=
  steady_check plain fun s _ _ _ _ => hm.not_unexpected s

theorem steady_stop {α : Type} {m : String} (hm : Other m) : traceLogic.Steady p A (Prog.panic m : Prog State α) :=
  steady_panic plain hm.not_unexpected

/-! ## Sleeping -/

theorem mem_held {i : Fin NINODE} : i ∈ s.held q ↔ (s.icache i).lock = some q := by
  simp [State.held]

/-- What the process holds where it has to sleep is recorded. -/
theorem Traced.noteWait (hs : Traced s) {w : Wait}
    (hw : w = .admission → p ∉ s.trace.inside ∧ s.trace.committer ≠ some p) :
    Traced (s.noteWait p w) := by
  unfold State.noteWait
  split
  · exact hs
  refine { hs with waits := ?_, outside := ?_ }
  · intro q w' j hq hj
    simp only [State.modTrace] at hq hj ⊢
    by_cases hqp : q = p
    · subst hqp
      rw [update_self, Option.some.injEq] at hq
      subst hq
      exact List.mem_append_left _ (List.mem_map_of_mem (mem_held.mpr hj))
    · rw [update_of_ne hqp] at hq
      exact List.mem_append_right _ (hs.waits q w' j hq hj)
  · intro q hq
    simp only [State.modTrace] at hq ⊢
    by_cases hqp : q = p
    · subst hqp
      rw [update_self, Option.some.injEq] at hq
      exact hw hq
    · rw [update_of_ne hqp] at hq
      exact hs.outside q hq

theorem mode_noteWait (s : State) (q : Pid) (w : Wait) (r : Pid) : (s.noteWait q w).mode r = s.mode r := by
  unfold State.noteWait
  split <;> rfl

theorem steady_waitFor {w : Wait} (hw : w = .admission → ∀ v ∈ A, v.inside = false ∧ v.commits = false) :
    traceLogic.Steady p A (waitFor p w) := by
  refine Steady.bind (turns_modify plain fun s _ hs hv => ?_) fun _ => steady_await plain _
  refine ⟨hs.noteWait fun hadm => ?_, fun q _ => mode_noteWait s p w q,
    le_of_eq (mode_noteWait s p w p).symm⟩
  have hmode := hw hadm _ hv
  exact ⟨of_decide_eq_false hmode.1, of_decide_eq_false hmode.2⟩

theorem Traced.noteWake (hs : Traced s) : Traced (s.noteWake p) := by
  refine { hs with waits := ?_, outside := ?_ }
  · intro q w j hq hj
    by_cases hqp : q = p
    · subst hqp
      simp [State.noteWake, State.modTrace] at hq
    · simp only [State.noteWake, State.modTrace, update_of_ne hqp] at hq
      exact hs.waits q w j hq hj
  · intro q hq
    by_cases hqp : q = p
    · subst hqp
      simp [State.noteWake, State.modTrace] at hq
    · simp only [State.noteWake, State.modTrace, update_of_ne hqp] at hq
      exact hs.outside q hq

theorem Traced.lock (hs : Traced s) (i : Fin NINODE) :
    Traced ((s.noteWake p).modInode i fun ip => { ip with lock := some p }) := by
  refine { hs.noteWake with waits := ?_ }
  intro q w j hq hj
  by_cases hqp : q = p
  · subst hqp
    simp [State.noteWake, State.modTrace, State.modInode] at hq
  · refine hs.noteWake.waits q w j hq ?_
    by_cases hji : j = i
    · subst hji
      simp only [State.modInode, update_self, Option.some.injEq] at hj
      exact absurd hj.symm hqp
    · simpa only [State.modInode, update_of_ne hji] using hj

theorem steady_acquireInode (i : Fin NINODE) : traceLogic.Steady p A (acquireInode p i) :=
  (steady_waitFor fun h => (by cases h)).bind fun _ =>
    turns_modify plain fun _ _ hs _ => ⟨hs.lock i, fun _ _ => rfl, le_refl _⟩

theorem steady_releaseInode (i : Fin NINODE) : traceLogic.Steady p A (releaseInode i) :=
  steady_modInode i nofun

/-! ## Operations -/

theorem Traced.enter (hs : Traced s) (hp : p ∉ s.trace.inside)
    (hc : s.trace.committer ≠ some p) : Traced (enter s p) where
  count := by
    show s.log.outstanding + 1 = (insert p s.trace.inside).card
    rw [Finset.card_insert_of_notMem hp, hs.count]
  commits := hs.commits
  empty h := absurd h (Finset.insert_ne_empty p _)
  stray := hs.stray
  waits := hs.noteWake.waits
  outside q hq := by
    obtain ⟨hin, hcom⟩ := hs.noteWake.outside q hq
    refine ⟨?_, hcom⟩
    show q ∉ insert p s.trace.inside
    rw [Finset.mem_insert, not_or]
    refine ⟨?_, hin⟩
    rintro rfl
    simp [Fs.enter, State.noteWake, State.modTrace, State.setLog] at hq
  closed := hs.closed

theorem mode_enter (s : State) : (enter s p).mode p = { s.mode p with inside := true } := by
  show Mode.mk (decide (p ∈ insert p s.trace.inside)) _ _ = _
  rw [decide_eq_true (Finset.mem_insert_self p _)]
  rfl

theorem mode_enter_of_ne (s : State) (hq : q ≠ p) : (enter s p).mode q = s.mode q := by
  have hin : q ∈ insert p s.trace.inside ↔ q ∈ s.trace.inside := by simp [hq]
  exact mode_congr hin Iff.rfl Iff.rfl

/-- The modes with the given answers. -/
def within (inside commits : Bool) : UpperSet Mode where
  carrier := {v | v.inside = inside ∧ v.commits = commits}
  upper' _ _ h hv := ⟨h.1 ▸ hv.1, h.2.1 ▸ hv.2⟩

abbrev idling : UpperSet Mode := within false false

abbrev opened : UpperSet Mode := within true false

theorem turns_beginOp : traceLogic.Turns p idling (fun _ v' => v' ∈ opened) (beginOp p) := by
  refine Steady.bind_turns (steady_waitFor fun _ v hv => hv)
    (fun _ => turns_modify plain fun s _ hs hv => ?_) (fun v v' hv h => idling.upper h hv)
    (fun _ _ _ _ h => h)
  refine ⟨hs.enter (of_decide_eq_false hv.1) (of_decide_eq_false hv.2),
    fun q hq => mode_enter_of_ne s hq, ?_⟩
  show (enter s p).mode p ∈ opened
  rw [mode_enter]
  exact ⟨rfl, hv.2⟩

theorem committing_of_leave (h : leave p s = .ok (b, s')) : s.log.committing = false := by
  simp only [leave] at h
  split at h
  · cases h
  · exact Bool.eq_false_iff.mpr ‹_›

/-- The trace after `p` has left its operation. -/
theorem Traced.left (hs : Traced s) (hp : p ∈ s.trace.inside) (h : leave p s = .ok (b, s')) : Traced s' := by
  have hc := committing_of_leave h
  have hcard : s.log.outstanding - 1 = (s.trace.inside.erase p).card := by
    rw [Finset.card_erase_of_mem hp, hs.count]
  have hwait : ∀ q, s.trace.waits q = some .admission → q ≠ p ∧ q ∉ s.trace.inside.erase p := by
    intro q hq
    have hq' := (hs.outside q hq).1
    exact ⟨fun h => hq' (h ▸ hp), fun h => hq' (Finset.mem_of_mem_erase h)⟩
  unfold Fs.leave at h
  simp only [hc, Bool.false_eq_true, if_false] at h
  split at h
  · rename_i hzero
    obtain ⟨⟩ := h
    exact { hs with
      count := hcard
      commits := rfl
      empty := nofun
      outside := fun q hq => ⟨(hwait q hq).2, fun h => (hwait q hq).1 (Option.some.inj h).symm⟩ }
  · rename_i hzero
    obtain ⟨⟩ := h
    exact { hs with
      count := hcard
      commits := hc ▸ hs.commits
      empty := fun h => absurd (hcard.trans (Finset.card_eq_zero.mpr h)) hzero
      outside := fun q hq => ⟨(hwait q hq).2, (hs.outside q hq).2⟩ }

theorem mode_leave (h : leave p s = .ok (b, s')) :
    s'.mode p = { s.mode p with inside := false, commits := b || (s.mode p).commits } := by
  have hc := committing_of_leave h
  have hin : decide (p ∈ s.trace.inside.erase p) = false :=
    decide_eq_false (Finset.notMem_erase p _)
  simp only [leave, hc, Bool.false_eq_true, if_false] at h
  split at h
  · obtain ⟨⟩ := h
    show Mode.mk (decide (p ∈ s.trace.inside.erase p)) (decide (some p = some p)) _ = _
    rw [hin, decide_eq_true rfl]
    rfl
  · obtain ⟨⟩ := h
    show Mode.mk (decide (p ∈ s.trace.inside.erase p)) _ _ = _
    rw [hin]
    rfl

/-- Whoever leaves its operation changes no mode but its own: when it commits, nobody did. -/
theorem mode_leave_of_ne (hs : Traced s) (h : leave p s = .ok (b, s')) (hq : q ≠ p) : s'.mode q = s.mode q := by
  have hc := committing_of_leave h
  have hnone : s.trace.committer = none := by
    rw [hs.commits] at hc
    simpa using hc
  have hin : q ∈ s.trace.inside.erase p ↔ q ∈ s.trace.inside := by simp [hq]
  simp only [leave, hc, Bool.false_eq_true, if_false] at h
  split at h
  · obtain ⟨⟩ := h
    refine mode_congr hin ?_ Iff.rfl
    rw [hnone]
    simp [State.modTrace, State.setLog, Ne.symm hq]
  · obtain ⟨⟩ := h
    exact mode_congr hin Iff.rfl Iff.rfl

theorem Traced.emptied (hs : Traced s) : Traced (emptied s) :=
  { hs with
    commits := rfl
    empty := fun _ _ => rfl
    outside := fun q hq => ⟨(hs.outside q hq).1, nofun⟩ }

theorem turns_commit :
    traceLogic.Turns p (within false true) (fun _ v' => v' ∈ idling)
      (do pause; modify emptied) := by
  refine Steady.bind_turns (steady_pause plain)
    (fun _ => turns_modify plain fun s _ hs hv => ?_)
    (fun v v' hv h => (within false true).upper h hv) (fun _ _ _ _ h => h)
  refine ⟨hs.emptied, fun q hq => ?_, hv.1, rfl⟩
  -- the committer was `p`
  have hcom : s.trace.committer = some p := of_decide_eq_true hv.2
  refine mode_congr Iff.rfl ?_ Iff.rfl
  rw [hcom]
  simp [Fs.emptied, State.modTrace, State.setLog, Ne.symm hq]

theorem turns_endOp : traceLogic.Turns p opened (fun _ v' => v' ∈ idling) (endOp p) := by
  intro w0 w hw
  unfold endOp
  rw [safe_bind, safe_step]
  cases hl : leave p w.1 with
  | error m =>
    have hm : m = "log committing during end_op" := by
      simp only [leave] at hl
      split at hl
      · exact (Except.error.inj hl).symm
      · split at hl <;> cases hl
    have hother : Other m := by
      rw [hm]
      decide
    exact ⟨hother.not_unexpected _, hw.1, trivial⟩
  | ok r =>
    have hkept : traceLogic.Kept p
        (fun v v' => v' = { v with inside := false, commits := r.1 || v.commits }) w (r.2, ()) :=
      ⟨hw.1.left (of_decide_eq_true hw.2.2.1) hl, fun q hq => mode_leave_of_ne hw.1 hl hq,
        mode_leave hl⟩
    have hmid := hkept.mid plain hw
    refine ⟨(), ?_⟩
    cases hr : r.1 with
    | true =>
      refine safe_mono (turns_commit w0 (r.2, ()) ⟨hmid.1, hmid.2.1, ?_⟩) fun _ _ _ h => h
      rw [hmid.2.2, hr]
      exact ⟨rfl, rfl⟩
    | false =>
      refine ⟨hmid.1, hmid.2.1, ?_⟩
      rw [hmid.2.2, hr]
      exact ⟨rfl, hw.2.2.2⟩

/-! ## Changes of the disk -/

theorem card_pos_of_inside (hs : Traced s) (h : 1 ≤ s.log.outstanding) : s.trace.inside ≠ ∅ := by
  intro hempty
  rw [hs.count, hempty, Finset.card_empty] at h
  omega

/-- A process that may write is inside an operation, or loose. -/
theorem Traced.noteWrite (hs : Traced s) (hp : s.mode p ∈ writing) : Traced (s.noteWrite p) := by
  refine { hs with stray := fun h => ?_ }
  simp only [State.noteWrite, State.modTrace, Bool.or_eq_true, decide_eq_true_eq] at h
  rcases h with h | h
  · exact hs.stray h
  · rcases hp with hp | hp
    · exact absurd (of_decide_eq_true hp) h
    · exact Finset.ne_empty_of_mem (of_decide_eq_true hp)

theorem steady_logWrite (b : Nat) : traceLogic.Steady p writing (logWrite p b) := by
  refine Steady.bind (turns_modify plain fun s _ hs hv => ?_) fun _ => ?_
  · exact ⟨hs.noteWrite hv, fun _ _ => rfl, le_refl _⟩
  refine Steady.bind (steady_test (by decide)) fun _ => ?_
  -- the test and the change belong to one burst, so the log is not empty when it grows
  intro w0 w hw
  rw [safe_bind]
  refine safe_check (fun hc => ?_) fun hc => ⟨?_, hw.1, trivial⟩
  · have hin := card_pos_of_inside hw.1 (of_decide_eq_true hc)
    refine safe_modify () ⟨?_, hw.2.1, le_refl _⟩
    exact { hw.1 with empty := fun h => absurd h hin }
  · rintro (⟨-, hloose⟩ | ⟨hm, -⟩)
    · have hzero := of_decide_eq_false hc
      have hempty : w.1.trace.inside = ∅ := by
        rw [← Finset.card_eq_zero, ← (show Traced w.1 from hw.1).count]
        omega
      rcases hw.2.2 with hp | hp
      · have := of_decide_eq_true hp
        rw [hempty] at this
        cases this
      · exact hloose (Finset.ne_empty_of_mem (of_decide_eq_true hp))
    · exact absurd hm (by decide)

theorem mem_noteChange :
    q ∈ (s.noteChange p).trace.unbracketed ↔
      q ∈ s.trace.unbracketed ∨ q = p ∧ p ∉ s.trace.inside := by
  simp only [State.noteChange, State.modTrace]
  split
  · rename_i h
    simp [h]
  · rename_i h
    simp [h, or_comm]

/-- Whoever changes the disk is inside an operation, or loose from now on. -/
theorem turns_noteChange :
    traceLogic.Turns p Set.univ (fun v v' => v ≤ v' ∧ v' ∈ writing)
      (modify fun s => s.noteChange p) := by
  refine turns_modify plain fun s _ hs _ => ⟨?_, fun q hq => ?_, ⟨rfl, rfl, fun h => ?_⟩, ?_⟩
  · refine { hs with stray := fun h => ?_ }
    obtain ⟨q, hq⟩ := Finset.nonempty_iff_ne_empty.mpr (hs.stray h)
    exact Finset.ne_empty_of_mem (mem_noteChange.mpr (Or.inl hq))
  · have hmem : q ∈ (s.noteChange p).trace.unbracketed ↔ q ∈ s.trace.unbracketed := by
      rw [mem_noteChange]
      exact or_iff_left fun h => hq h.1
    exact mode_congr Iff.rfl Iff.rfl hmem
  · exact decide_eq_true (mem_noteChange.mpr (Or.inl (of_decide_eq_true h)))
  · by_cases hp : p ∈ s.trace.inside
    · exact Or.inl (decide_eq_true hp)
    · exact Or.inr (decide_eq_true (mem_noteChange.mpr (Or.inr ⟨rfl, hp⟩)))

/-- A change of the disk may be made anywhere once it is recorded. -/
theorem steady_change {α : Type} {x : Prog State α} (hx : traceLogic.Steady p writing x) :
    traceLogic.Steady p A (do modify fun s => s.noteChange p; x) :=
  Turns.mono (Turns.bind turns_noteChange (fun _ => hx) (fun _ _ _ h => h.2)
    fun _ _ _ h h' => le_trans h.1 h') (fun _ _ => trivial) fun _ _ h => h

end Xv6.Fs
