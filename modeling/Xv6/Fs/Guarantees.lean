import Xv6.Fs.Calls
import Mathlib.Data.Fintype.Lattice
import Mathlib.Data.Fintype.EquivFin

/-!
# What every run of the file system calls guarantees

From a mounted file system on which nobody has made a call, in every interleaving of the calls of
any number of processes:

* every `log_write` belongs to an operation of its process, as long as nobody reclaims an inode or
  allocates a block of a file outside of its operation. `sys_chdir`, which has no operation, does
  reclaim, and then the kernel panics;
* no set of processes sleeps for inode locks and for the admission to the log in a circle, as long
  as whoever has to sleep in `begin_op` holds no inode lock and whoever has to sleep for an inode
  lock holds only locks that come earlier in some order. `sys_unlink` of `.` sleeps for a lock that
  it holds.
-/

namespace Xv6.Fs

open Data Coop Prog Storage Logic

/-- A file system is mounted and no call has been made. The disk and its superblock may be any. -/
structure Initial (s : State) : Prop where
  outstanding : s.log.outstanding = 0
  committing : s.log.committing = false
  lh : s.log.lh = []
  icache : ∀ i, s.icache i = {}
  ftable : ∀ f, s.ftable f = {}
  ofile : ∀ p fd, s.ofile p fd = none
  cwd : ∀ p, s.cwd p = none
  trace : s.trace = {}

variable {s : State}

theorem Initial.traced (h : Initial s) : Traced s where
  count := by rw [h.outstanding, h.trace]; rfl
  commits := by rw [h.committing, h.trace]; rfl
  empty _ _ := h.lh
  stray := by rw [h.trace]; exact nofun
  waits p w j hw _ := by
    rw [h.trace] at hw
    cases hw
  outside p hw := by
    rw [h.trace] at hw
    cases hw
  closed f _ := by rw [h.ftable]

theorem Initial.idle (h : Initial s) (p : Pid) : traceLogic.idle (s.mode p) := by
  rw [State.mode, h.trace]
  exact ⟨rfl, rfl⟩

/-- The invariant holds in every state reached, also in the one in which the kernel panics. -/
theorem Initial.traced_of_reach (h : Initial s) {c : Config State Call Int} (hc : machine.Reach (.start s) c) :
    Traced c.mem ∧ ∀ m, c.halted = some m → ¬ Unexpected m c.mem := by
  have hgood := good_of_reach machine_verified (good_start (g := ()) h.traced h.idle) hc
  unfold Good at hgood
  cases hhalted : c.halted with
  | none =>
    rw [hhalted] at hgood
    obtain ⟨_, hlive⟩ := hgood
    exact ⟨hlive.1, nofun⟩
  | some m =>
    rw [hhalted] at hgood
    refine ⟨hgood.2, fun m' hm => ?_⟩
    cases hm
    exact hgood.1

/-! ## Changes of the disk belong to operations -/

/-- The entries `.` and `..`. -/
def dotEntries (self parent : UInt16) : List UInt8 :=
  Dirent.encode ⟨self, padName [DOT]⟩ ++ Dirent.encode ⟨parent, padName [DOT, DOT]⟩

def dirInode (size b : UInt32) : Dinode :=
  { type := T_DIR, nlink := 1, size := size, addrs := fun j => if j = 0 then b else 0 }

/-- The file system that a `mkdir` of `/d` leaves on an empty one. -/
def smallDisk (b : Nat) : Block :=
  if b = 32 then (dirInode 32 47).write ((dirInode 48 46).write Bytes.zero 1) 2
  else if b = 45 then Bytes.blit Bytes.zero 0 (List.replicate 6 255)
  else if b = 46 then Bytes.blit Bytes.zero 0 (dotEntries 1 1 ++ Dirent.encode ⟨2, padName [100]⟩)
  else if b = 47 then Bytes.blit Bytes.zero 0 (dotEntries 2 1)
  else Bytes.zero

def smallFs : State where
  sb := mkfsSuperblock
  disk := smallDisk
  log := { start := 2, size := 30, dev := ROOTDEV }
  icache := fun _ => {}
  ftable := fun _ => {}
  ofile := fun _ _ => none

theorem initial_smallFs : Initial smallFs :=
  ⟨rfl, rfl, rfl, fun _ => rfl, fun _ => rfl, fun _ _ => rfl, fun _ => rfl, rfl⟩

/-- `/d`, `/` and `/.`. -/
abbrev pathD : List UInt8 := [SLASH, 100]
abbrev pathRoot : List UInt8 := [SLASH]
abbrev pathDot : List UInt8 := [SLASH, DOT]

/-- The first process has gone to `/d`. -/
def inD : State := ((machine.code 1 (.chdir pathD)).run smallFs).state

/-- It has removed `/d`. -/
def removedD : State := ((machine.code 1 (.unlink pathD)).run inD).state

theorem removedD_parts :
    (((machine.code 1 (.chdir pathD)).run smallFs).isDone ∧ inD.alive 1 ∧
      ((machine.code 1 (.unlink pathD)).run inD).isDone) ∧
    (removedD.trace.unbracketed = ∅ ∧ removedD.alive 1 ∧ removedD.trace.nested = [] ∧
      (removedD.icache 5).ref = 0) ∧
    ((machine.code 1 (.chdir pathRoot)).run removedD).message = some "log_write outside of transaction" := by
  decide +kernel

theorem reach_removedD : machine.Reach (.start smallFs) (.start removedD) := by
  obtain ⟨⟨hcd, halive, hunlink⟩, -, -⟩ := removedD_parts
  have hin : machine.Reach (.start smallFs) (.start inD) :=
    Machine.reach_start_of_isDone ⟨rfl, nofun⟩ hcd
  exact hin.trans (Machine.reach_start_of_isDone ⟨halive, nofun⟩ hunlink)

/-- The processes one of which has to act before a sleeper for `w` may go on: those that are inside
an operation or commit, or the holder of the inode lock. -/
def Releases (s : State) : Wait → Pid → Prop
  | .admission, q => q ∈ s.trace.inside ∨ s.trace.committer = some q
  | .inode i, q => (s.icache i).lock = some q

/-- Each process of a nonempty set sleeps for what only processes of the set can release. -/
def Circular (s : State) : Prop :=
  ∃ S : Set Pid, S.Nonempty ∧ ∀ p ∈ S, ∃ w, s.trace.waits p = some w ∧ s.free w = false ∧
    ∀ q, Releases s w q → q ∈ S

/-- Whoever holds an inode lock and has to sleep does so only for the lock of an inode that comes
later in the order. -/
def Ordered (rank : Fin NINODE → Nat) (s : State) : Prop :=
  ∀ e ∈ s.trace.nested, ∃ i, e.2 = .inode i ∧ rank e.1 < rank i

/-- A log without operations and without a commit admits. -/
theorem Traced.admits (h : Traced s) (hin : s.trace.inside = ∅)
    (hcom : s.trace.committer = none) : s.free .admission := by
  have hcommitting : s.log.committing = false := by rw [h.commits, hcom]; rfl
  have hout : s.log.outstanding = 0 := by rw [h.count, hin]; rfl
  show Storage.admits s.log = true
  simp only [Storage.admits, hcommitting, hout, h.empty hin hcom]
  decide

/-- In such a set nobody sleeps for an inode lock: the holder of the last one in the order would
have to sleep for a later one. -/
theorem Traced.not_waits_inode (h : Traced s) {rank : Fin NINODE → Nat} (ho : Ordered rank s) {S : Set Pid}
    (hS : ∀ p ∈ S, ∃ w, s.trace.waits p = some w ∧ s.free w = false ∧
      ∀ q, Releases s w q → q ∈ S) (i : Fin NINODE) :
    ∀ p ∈ S, s.trace.waits p ≠ some (.inode i) := by
  -- the induction goes down from the greatest rank
  obtain ⟨top, htop⟩ := Finite.exists_max rank
  induction hk : rank top - rank i using Nat.strong_induction_on generalizing i with
  | _ k ih =>
  intro p hp hwait
  obtain ⟨w, hw, hbusy, hclosed⟩ := hS p hp
  obtain ⟨⟩ := Option.some.inj (hw.symm.trans hwait)
  obtain ⟨q, hq⟩ : ∃ q, (s.icache i).lock = some q := by
    have hne : (s.icache i).lock ≠ none := ne_of_beq_false hbusy
    exact Option.ne_none_iff_exists'.mp hne
  have hqS : q ∈ S := hclosed q hq
  obtain ⟨w', hw', -⟩ := hS q hqS
  obtain ⟨j, hj, hlt⟩ := ho _ (h.waits q w' i hw' hq)
  simp only at hj hlt
  rw [hj] at hw'
  have := htop j
  exact ih _ (by omega) j rfl q hqS hw'

/-- As long as the sleepers have kept to an order of the inode locks, and have held none where they
slept for the log, there is no circle. -/
theorem not_circular_of_ordered {s : State} (h : Initial s) {c : Config State Call Int}
    (hc : machine.Reach (.start s) c) (rank : Fin NINODE → Nat) (ho : Ordered rank c.mem) :
    ¬ Circular c.mem := by
  rintro ⟨S, ⟨p, hp⟩, hS⟩
  have htraced := (h.traced_of_reach hc).1
  have hnot := htraced.not_waits_inode ho hS
  -- so everybody sleeps for the log
  have hadm : ∀ q ∈ S, c.mem.trace.waits q = some .admission := by
    intro q hq
    obtain ⟨w, hw, -⟩ := hS q hq
    cases w with
    | admission => exact hw
    | inode i => exact absurd hw (hnot i q hq)
  obtain ⟨w, hw, hbusy, hclosed⟩ := hS p hp
  obtain ⟨⟩ := Option.some.inj (hw.symm.trans (hadm p hp))
  -- those that are inside an operation or commit do not
  have hout : ∀ q, ¬ Releases c.mem .admission q := by
    intro q hq
    obtain ⟨hin, hcom⟩ := htraced.outside q (hadm q (hclosed q hq))
    exact hq.elim hin hcom
  have hin : c.mem.trace.inside = ∅ := Finset.eq_empty_of_forall_notMem fun q hq => hout q (.inl hq)
  have hcom : c.mem.trace.committer = none :=
    Option.eq_none_iff_forall_ne_some.mpr fun q hq => hout q (.inr hq)
  cases (htraced.admits hin hcom).symm.trans hbusy

theorem not_circular_removedD : ¬ Circular removedD := by
  have ho : Ordered Fin.val removedD := by
    intro e he
    cases he
  exact not_circular_of_ordered initial_smallFs reach_removedD Fin.val ho

/-- `unlink` of `/.` finds the directory that it has locked, and locks it again. -/
theorem unlink_circular : ∃ c, machine.Reach (.start smallFs) c ∧ c.halted = none ∧
    Circular c.mem := by
  have hmay : machine.may 1 (.unlink pathDot) smallFs := ⟨rfl, nofun⟩
  obtain ⟨c, hc, hmem, hhalted⟩ := Machine.exists_reach_of_outcome
    (c := Config.start smallFs) rfl (Machine.Enabled.call rfl hmay)
  have hparts : (((machine.code 1 (.unlink pathDot)).run smallFs).state.trace.waits 1 = some (.inode 0) ∧
      (((machine.code 1 (.unlink pathDot)).run smallFs).state.icache 0).lock = some 1) ∧
      ((machine.code 1 (.unlink pathDot)).run smallFs).message = none := by decide +kernel
  obtain ⟨⟨hwait, hlock⟩, hmessage⟩ := hparts
  change c.mem = ((machine.code 1 (.unlink pathDot)).run smallFs).state at hmem
  rw [← hmem] at hwait hlock
  refine ⟨c, hc, hhalted.trans hmessage, {1}, Set.singleton_nonempty 1, ?_⟩
  rintro p rfl
  refine ⟨.inode 0, hwait, ?_, ?_⟩
  · show ((c.mem.icache 0).lock == none) = false
    rw [hlock]
    rfl
  · intro q hq
    exact Option.some.inj (hq.symm.trans hlock)

end Xv6.Fs
