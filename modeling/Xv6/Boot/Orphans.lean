import Xv6.Boot.Replay
import Xv6.Fs.Guarantees

/-!
# Inodes without links after a crash

A file that is removed while it is open keeps its inode, with `nlink` 0, until the last `iput`. The removal and
the reclaim are different operations, so a crash in between leaves the inode on the disk. `fsinit` replays the
log and looks at the root directory; it does not look at any other inode.
-/

namespace Xv6.Boot

open Data Coop Prog Storage Fs

variable {m m' : Machine} {p : Pid} {E : Option String → Machine → Prop} {Q : Unit → Machine → Prop}

/-- Every inode that is in use has a link. -/
def NoOrphans (sb : Superblock) (disk : Nat → Block) : Prop :=
  ∀ inum, 1 ≤ inum → inum < sb.ninodes.toNat →
    (dinodeAt sb disk inum).type ≠ 0 → (dinodeAt sb disk inum).nlink ≠ 0

/-! ## What `fsinit` does to the disk -/

/-- Outside of an operation `log_write` does not return. -/
theorem logWrite_stops : logWrite.ensures (fun _ => True) (fun _ _ => True) Q m := by
  unfold logWrite checkSb
  rw [ensures_bind]
  exact ensures_check.mpr ⟨fun _ => trivial, fun _ => trivial⟩

theorem bfreeRelease_stops (hp : m.proc = some p) {b : UInt32} :
    (bfreeRelease b).ensures (fun _ => True) (fun _ _ => True) Q m := by
  unfold bfreeRelease checkSb
  refine ensures_check_bind.mpr ⟨fun _ => ?_, fun _ => trivial⟩
  rw [ensures_bind, ensures_gets, ensures_bind]
  refine breadv_spec hp (fun _ m1 _ => ?_) fun _ _ _ => trivial
  rw [ensures_bind]
  exact ensures_check.mpr ⟨fun _ => logWrite_stops, fun _ => trivial⟩

/-- The reclaim of the root directory stops at its first `log_write`. -/
theorem reclaimRoot_stops (hp : m.proc = some p) : reclaimRoot.ensures (fun _ => True) (fun _ _ => True) Q m := by
  unfold reclaimRoot
  rw [ensures_bind]
  refine acquiresleep_spec hp (fun _ m1 h1 => ?_) fun _ _ _ => trivial
  have hp1 := h1.proc.trans hp
  rw [ensures_bind, ensures_gets]
  split
  · exact bfreeRelease_stops hp1
  · split
    · rw [ensures_bind, ensures_gets, ensures_bind]
      exact breadv_spec hp1 (fun _ _ _ => logWrite_stops) fun _ _ _ => trivial
    · rw [ensures_bind]
      refine breadv_spec hp1 (fun _ m2 h2 => ?_) fun _ _ _ => trivial
      have hp2 := h2.proc.trans hp1
      rw [ensures_bind, ensures_gets]
      split
      · exact bfreeRelease_stops hp2
      · rw [ensures_bind]
        refine brelse_spec hp2 (by rw [h2.locked]; exact List.mem_cons_self) fun m3 h3 => ?_
        exact bfreeRelease_stops (h3.proc.trans hp2)

theorem checkRoot_disk (hp : m.proc = some p) :
    checkRoot.ensures (fun _ => True) (fun _ _ => True) (fun _ m' => m'.disk = m.disk) m := by
  unfold checkRoot
  rw [ensures_bind]
  refine acquiresleep_spec hp (fun _ m1 h1 => ?_) fun _ _ _ => trivial
  rw [ensures_bind, ensures_gets, ensures_bind]
  refine breadv_spec (h1.proc.trans hp) (fun _ m2 h2 => ?_) fun _ _ _ => trivial
  rw [ensures_bind, ensures_gets, ensures_bind]
  have hp2 := h2.proc.trans (h1.proc.trans hp)
  refine brelse_spec hp2 (by rw [h2.locked]; exact List.mem_cons_self) fun m3 h3 => ?_
  have hp3 := h3.proc.trans hp2
  have hheld : Lock.root ∈ m3.locked := by
    rw [h3.locked, h2.locked, h1.locked, List.erase_cons_head]
    exact List.mem_cons_self
  have hdisk : m3.disk = m.disk := by rw [h3.eq, h2.eq, h1.eq]
  split
  · trivial
  · split
    · rw [ensures_bind]
      refine holdingsleep_spec hp3 hheld fun m4 h4 => ?_
      rw [if_pos rfl]
      unfold releasesleep
      rw [ensures_bind, ensures_modify]
      have hp4 := h4.proc.trans hp3
      have hdisk4 : m4.disk = m.disk := by rw [h4.eq, hdisk]
      split
      · rw [ensures_bind]
        exact reclaimRoot_stops hp4
      · exact hdisk4
    · trivial

theorem redo_congr (hdisk : m'.disk = m.disk) (hsb : m'.sb = m.sb) (hbehind : m'.behind = m.behind)
    (k : Nat) : m'.redo k = m.redo k := by
  induction k with
  | zero => exact hdisk
  | succ k ih =>
    have hword : m'.word k = m.word k := by rw [Machine.word, Machine.word, hdisk, hsb, hbehind]
    rw [Machine.redo, Machine.redo, ih, hword, hsb]

/-- What recovery leaves is determined by the disk and by what is behind the header in memory. -/
theorem recovered_congr (hdisk : m'.disk = m.disk) (hsb : m'.sb = m.sb) (hbehind : m'.behind = m.behind) :
    m'.recovered = m.recovered := by
  have hcount : m'.count = m.count := by rw [Machine.count, Machine.count, hdisk, hsb]
  rw [Machine.recovered, Machine.recovered, redo_congr hdisk hsb hbehind, hcount, hsb]

theorem initlog_disk (hp : m.proc = some p) (hl : m.locked = []) (ht : Touched 0 0 (fun _ => False) m.events) :
    initlog.ensures (fun _ => True) (fun _ _ => True)
      (fun _ m' => m'.disk = Machine.recovered { m with sb := Superblock.decode (m.disk 1) } ∧
        m'.proc = some p) m := by
  unfold initlog checkSb
  rw [ensures_bind]
  refine readsb_spec hp hl fun m1 h1 => ?_
  have hrec : m1.recovered = Machine.recovered { m with sb := Superblock.decode (m.disk 1) } := by
    apply recovered_congr
    · rw [h1.eq]
    · rw [h1.eq]
    · rw [h1.eq]
  refine ensures_check_bind.mpr ⟨fun _ => ?_, fun _ => trivial⟩
  refine ensures_check_bind.mpr ⟨fun _ => ?_, fun _ => trivial⟩
  refine ensures_check_bind.mpr ⟨fun _ => ?_, fun _ => trivial⟩
  have hp1 : m1.proc = some p := h1.proc.trans hp
  refine recoverFromLog_spec hp1 h1.locked (Touched.of_used h1 ht) (fun _ _ _ _ => trivial)
    (fun _ _ _ _ => trivial) fun _ m2 _ hdisk _ hproc _ => ?_
  exact ⟨hdisk.trans hrec, hproc.trans hp1⟩

section Mount

variable {disk : Nat → Block} {behind : Nat → UInt32} {waits : Nat → Bool}

/-- An unformatted disk is left alone; on another one the log is replayed, and that is all. -/
theorem fsinit_disk (h : fsinit.run (called p disk behind waits) = .done () m') :
    blank (Superblock.decode (disk 1)) ∧ m'.disk = disk ∨
      m'.disk = (superRead p disk behind waits).recovered := by
  have hspec : fsinit.ensures (fun _ => True) (fun _ _ => True)
      (fun _ m' => blank (Superblock.decode (disk 1)) = true ∧ m'.disk = disk ∨
        m'.disk = (superRead p disk behind waits).recovered) (called p disk behind waits) := by
    unfold fsinit
    rw [ensures_bind]
    refine breadv_spec rfl (fun _ m1 h1 => ?_) fun _ _ _ => trivial
    rw [ensures_bind, ensures_gets, ensures_bind]
    refine brelse_spec h1.proc (by rw [h1.locked]; exact List.mem_cons_self) fun m2 h2 => ?_
    have h12 := h1.trans h2
    rw [h1.locked, List.erase_cons_head] at h12
    have hdisk1 : m1.disk = disk := by
      rw [h1.eq]
      rfl
    have hdisk2 : m2.disk = disk := by
      rw [h12.eq]
      rfl
    rw [hdisk1]
    split
    · rename_i hblank
      exact .inl ⟨hblank, hdisk2⟩
    · rw [ensures_bind]
      refine readsb_spec h12.proc h12.locked fun m3 h3 => ?_
      have hp3 : m3.proc = some p := h3.proc.trans h12.proc
      have hdisk3 : m3.disk = disk := by rw [h3.eq, hdisk2]
      have hbehind3 : m3.behind = behind := by
        rw [h3.eq, h12.eq]
        rfl
      rw [ensures_bind]
      refine checkGeometry_spec fun _ => ?_
      have htouched2 : Touched 0 0 (fun _ => False) m2.events := by
        refine .of_used h12 ⟨fun k => ?_, fun k => ?_, fun b => ?_⟩
        · simp [called, powerOn]
        · simp [called, powerOn]
        · simp [called, powerOn]
      have htouched : Touched 0 0 (fun _ => False) m3.events := .of_used h3 htouched2
      rw [ensures_bind]
      refine ensures_mono (initlog_disk hp3 h3.locked htouched) fun _ m4 h4 => ?_
      obtain ⟨hdisk4, hp4⟩ := h4
      have hrec : Machine.recovered { m3 with sb := Superblock.decode (m3.disk 1) } =
          (superRead p disk behind waits).recovered := by
        apply recovered_congr
        · exact hdisk3
        · show Superblock.decode (m3.disk 1) = Superblock.decode (disk 1)
          rw [hdisk3]
        · exact hbehind3
      unfold note
      rw [ensures_bind, ensures_modify]
      refine ensures_mono (checkRoot_disk hp4) fun _ m5 h5 => .inr ?_
      exact h5.trans (hdisk4.trans hrec)
  have hend := of_run_eq_done hspec h
  exact hend

theorem ninodes_of_blank {sb : Superblock} (h : blank sb) : sb.ninodes.toNat = 0 := by
  unfold blank at h
  have hzero : sb.ninodes = 0 := by
    simp only [Bool.and_eq_true, beq_iff_eq] at h
    exact h.1.1.2
  rw [hzero]
  rfl

end Mount

/-! ## A directory that is removed while a process is in it -/

/-- The small file system with its superblock. -/
def bootableFs : State := { smallFs with disk := Function.update smallDisk 1 mkfsSuperblock.encode }

/-- The first process goes to `/d`, and then removes it. -/
def leftD : State := ((machine.code 1 (.chdir pathD)).run bootableFs).state
def orphanedD : State := ((machine.code 1 (.unlink pathD)).run leftD).state

def Orphan (disk : Nat → Block) (inum : Nat) : Prop :=
  (dinodeAt mkfsSuperblock disk inum).type ≠ 0 ∧ (dinodeAt mkfsSuperblock disk inum).nlink = 0

instance (disk : Nat → Block) (inum : Nat) : Decidable (Orphan disk inum) :=
  inferInstanceAs (Decidable (_ ∧ _))

theorem orphanedD_parts :
    (((machine.code 1 (.chdir pathD)).run bootableFs).isDone ∧ leftD.alive 1 ∧
      ((machine.code 1 (.unlink pathD)).run leftD).isDone) ∧
    orphanedD.log.lh = [] ∧ orphanedD.log.outstanding = 0 ∧ orphanedD.log.committing = false := by
  decide +kernel

theorem reach_orphanedD : machine.Reach (.start bootableFs) (.start orphanedD) := by
  obtain ⟨⟨hcd, halive, hunlink⟩, -⟩ := orphanedD_parts
  have hin : machine.Reach (.start bootableFs) (.start leftD) :=
    Machine.reach_start_of_isDone ⟨rfl, nofun⟩ hcd
  exact hin.trans (Machine.reach_start_of_isDone ⟨halive, nofun⟩ hunlink)

theorem orphanedD_mounts : Returns (fun m => Event.rootChecked ∈ m.events ∧ Orphan m.disk 2)
    (fsinit.run (called 1 orphanedD.disk (fun _ => 0) fun _ => false)) := by
  decide +kernel

end Xv6.Boot
