import Xv6.Boot.Mount
import Mathlib.Order.CompletePartialOrder
import Mathlib.Data.Set.Lattice
import Mathlib.Order.Interval.Set.Basic

/-!
# The boot, the geometry of the disk and the recovery of the log
-/

namespace Xv6.Boot

open Data Coop Prog Storage Fs

variable {m m' : Machine} {p : Pid} {E : Option String → Machine → Prop} {Q : Unit → Machine → Prop} {b : UInt32}

/-! ## The order of the boot -/

/-- The panics that name a geometry, a header or a root directory that is not accepted. -/
def explicitPanics : List String :=
  ["could not find virtio disk", "virtio disk has no queue 0", "virtio disk max queue too short",
    "invalid file system superblock", "invalid superblock size", "invalid log region",
    "log region out of range", "invalid inode region", "invalid bitmap region",
    "log: bad magic in superblock", "log: invalid log region", "log: log region out of range",
    "log: invalid header count", "log: impossible block number", "ilock: no type",
    "fsinit: root not a directory"]

/-- No sleep lock is used without a process. -/
def NeverAlone (m : Machine) : Prop := ∀ op, Event.sleepOp op none ∉ m.events

/-- The boot stops with an explicit panic, or publishes the first process after an unformatted disk was
left alone or after log and root directory were checked. -/
def Admitted : Outcome Machine Unit → Prop
  | .done _ m => NeverAlone m ∧ ∃ before, m.events = .published :: before ∧
      (.unmounted ∈ before ∨ .recovered ∈ before ∧ .rootChecked ∈ before)
  | .panicked msg m => NeverAlone m ∧ msg ∈ explicitPanics
  | .stuck _ => False

section Boot

variable {regs : Regs} {disk : Nat → Block} {behind : Nat → UInt32} {waits : Nat → Bool}

/-- Without a process the first access to a buffer traps. -/
theorem run_breadv_of_none (hp : m.proc = none) (hb : Lock.buf b ∉ m.locked) :
    (breadv b).run m = .panicked "unexpected supervisor exception"
      { m with events := .sleepOp .acquiresleep none :: m.events } := by
  have htrap : ∀ m' : Machine, m'.proc = none →
      currentPid.run m' = .panicked "unexpected supervisor exception" m' := by
    intro m' hm'
    exact run_check_of_false (by rw [hm']; rfl)
  unfold breadv acquiresleep
  refine run_bind_of_panicked ?_
  have hnote : (noteSleepOp .acquiresleep).run m =
      .done () { m with events := .sleepOp .acquiresleep none :: m.events } := by
    rw [← hp]
    rfl
  have hfree : ∀ events, (gets fun m : Machine => decide (Lock.buf b ∈ m.locked)).run
      { m with events := events } = .done false { m with events := events } := by
    intro events
    show Outcome.done (decide (Lock.buf b ∈ m.locked)) _ = _
    rw [decide_eq_false hb]
  rw [run_bind_of_done hnote, run_bind_of_done (hfree _)]
  exact run_bind_of_panicked (htrap _ hp)

theorem run_main_of_accepted (h : regs.Accepted) :
    main.run (powerOn regs disk behind waits) = .panicked "unexpected supervisor exception"
      { powerOn regs disk behind waits with events := [.sleepOp .acquiresleep none] } := by
  obtain ⟨hmagic, hversion, hdevice, hvendor, hmax⟩ := h
  have hne : regs.queueNumMax ≠ 0 := by
    intro h0
    rw [h0] at hmax
    exact absurd hmax (by decide)
  have hinit : virtioDiskInit.run (powerOn regs disk behind waits) = .done () (powerOn regs disk behind waits) := by
    unfold virtioDiskInit
    refine (run_bind_of_done (run_check_of_true ?_)).trans
      ((run_bind_of_done (run_check_of_true ?_)).trans (run_check_of_true ?_))
    · exact decide_eq_true ⟨hmagic, hversion, hdevice, hvendor⟩
    · exact bne_iff_ne.mpr hne
    · exact decide_eq_true hmax
  unfold main fsinit
  rw [run_bind_of_done hinit]
  refine run_bind_of_panicked (run_bind_of_panicked ?_)
  exact run_breadv_of_none rfl (by simp [powerOn])

theorem run_main_of_not_accepted (h : ¬ regs.Accepted) :
    ∃ msg ∈ explicitPanics, main.run (powerOn regs disk behind waits) =
      .panicked msg (powerOn regs disk behind waits) := by
  unfold main virtioDiskInit
  by_cases hid : regs.magic = 0x74726976 ∧ regs.version = 1 ∧ regs.deviceId = 2 ∧ regs.vendorId = 0x554d4551
  · by_cases hzero : regs.queueNumMax = 0
    · refine ⟨"virtio disk has no queue 0", by simp [explicitPanics], run_bind_of_panicked ?_⟩
      refine (run_bind_of_done (run_check_of_true ?_)).trans (run_bind_of_panicked (run_check_of_false ?_))
      · exact decide_eq_true hid
      · exact bne_eq_false_iff_eq.mpr hzero
    · have hshort : ¬ 8 ≤ regs.queueNumMax := fun hmax => h ⟨hid.1, hid.2.1, hid.2.2.1, hid.2.2.2, hmax⟩
      refine ⟨"virtio disk max queue too short", by simp [explicitPanics], run_bind_of_panicked ?_⟩
      refine (run_bind_of_done (run_check_of_true ?_)).trans
        ((run_bind_of_done (run_check_of_true ?_)).trans (run_check_of_false ?_))
      · exact decide_eq_true hid
      · exact bne_iff_ne.mpr hzero
      · exact decide_eq_false hshort
  · refine ⟨"could not find virtio disk", by simp [explicitPanics], run_bind_of_panicked ?_⟩
    refine run_bind_of_panicked (run_check_of_false ?_)
    exact decide_eq_false hid

/-- The registers of the block device that the kernel expects. -/
def blockDevice : Regs := ⟨0x74726976, 1, 2, 0x554d4551, 8⟩

end Boot

/-! ## Buffers

With a process the locks work; only a lock that the boot itself holds is never free. -/

/-- From `m` to `m'` only sleep locks have been used; `locked` are held at the end. -/
structure Used (m m' : Machine) (locked : List Lock) : Prop where
  eq : m' = { m with
    locked := locked
    events := m'.events }
  events : ∀ e, (∀ op q, e ≠ .sleepOp op q) → (e ∈ m'.events ↔ e ∈ m.events)

namespace Used

variable {l l' : List Lock}

theorem refl (m : Machine) : Used m m m.locked := ⟨rfl, fun _ _ => Iff.rfl⟩

theorem locked (h : Used m m' l) : m'.locked = l := by
  rw [h.eq]

theorem proc (h : Used m m' l) : m'.proc = m.proc := by
  rw [h.eq]

theorem trans {m'' : Machine} (h : Used m m' l) (h' : Used m' m'' l') : Used m m'' l' := by
  refine ⟨?_, fun e he => (h'.events e he).trans (h.events e he)⟩
  have heq := h'.eq
  rw [h.eq] at heq
  exact heq

theorem noteSleepOp (m : Machine) (op : SleepOp) :
    Used m { m with events := .sleepOp op m.proc :: m.events } m.locked := by
  refine ⟨rfl, fun e he => ?_⟩
  rw [List.mem_cons, or_iff_right (he op m.proc)]

end Used

section

variable (hp : m.proc = some p)
include hp

theorem currentPid_spec (hQ : Q () m) : currentPid.ensures (fun _ => True) E Q m := by
  refine ensures_check.mpr ⟨fun _ => hQ, fun h => ?_⟩
  rw [hp] at h
  cases h

theorem virtioDiskRw_spec (hQ : ∀ m', Used m m' m.locked → Q () m') : virtioDiskRw.ensures (fun _ => True) E Q m := by
  unfold virtioDiskRw
  rw [ensures_bind, ensures_gets]
  split
  · unfold sleepOn Boot.noteSleepOp
    rw [ensures_bind, ensures_modify, ensures_bind]
    refine currentPid_spec hp ⟨trivial, ?_⟩
    exact hQ _ (Used.noteSleepOp m .sleep)
  · exact hQ m (Used.refl m)

/-- A lock that is held already is waited for without end. -/
theorem acquiresleep_spec {l : Lock} (hQ : l ∉ m.locked → ∀ m', Used m m' (l :: m.locked) → Q () m')
    (hE : l ∈ m.locked → ∀ m', Used m m' m.locked → E none m') :
    (acquiresleep l).ensures (fun _ => True) E Q m := by
  unfold acquiresleep Boot.noteSleepOp
  rw [ensures_bind, ensures_modify, ensures_bind, ensures_gets]
  have hfirst := Used.noteSleepOp m .acquiresleep
  by_cases hl : l ∈ m.locked
  · rw [if_pos (decide_eq_true hl), ensures_bind]
    unfold sleepOn Boot.noteSleepOp
    rw [ensures_bind, ensures_modify, ensures_bind]
    refine currentPid_spec hp ⟨trivial, ?_⟩
    rw [if_neg (by simpa using hl)]
    exact hE hl _ (hfirst.trans (Used.noteSleepOp _ .sleep))
  · rw [if_neg (by simpa using hl), ensures_bind]
    refine currentPid_spec hp ?_
    refine hQ hl _ ⟨rfl, ?_⟩
    exact hfirst.events

theorem breadv_spec (hQ : .buf b ∉ m.locked → ∀ m', Used m m' (.buf b :: m.locked) → Q () m')
    (hE : .buf b ∈ m.locked → ∀ m', Used m m' m.locked → E none m') :
    (breadv b).ensures (fun _ => True) E Q m := by
  unfold breadv
  rw [ensures_bind]
  refine acquiresleep_spec hp (fun hb m1 h1 => ?_) hE
  refine virtioDiskRw_spec (h1.proc.trans hp) fun m2 h2 => hQ hb m2 ?_
  rw [h1.locked] at h2
  exact h1.trans h2

theorem holdingsleep_spec {l : Lock} {R : Bool → Machine → Prop}
    (hl : l ∈ m.locked) (hR : ∀ m', Used m m' m.locked → R true m') :
    (holdingsleep l).ensures (fun _ => True) E R m := by
  unfold holdingsleep Boot.noteSleepOp
  rw [ensures_bind, ensures_modify, ensures_bind]
  refine currentPid_spec hp ?_
  rw [ensures_gets, decide_eq_true hl]
  exact hR _ (Used.noteSleepOp m .holdingsleep)

theorem brelse_spec (hb : .buf b ∈ m.locked) (hQ : ∀ m', Used m m' (m.locked.erase (.buf b)) → Q () m') :
    (brelse b).ensures (fun _ => True) E Q m := by
  unfold brelse
  rw [ensures_bind]
  refine holdingsleep_spec hp hb fun m1 h1 => ?_
  rw [if_pos rfl]
  unfold releasesleep
  rw [ensures_modify]
  refine hQ _ ?_
  rw [← h1.locked]
  refine h1.trans ⟨rfl, fun _ _ => Iff.rfl⟩

theorem bwrite_spec {d : Machine → Block} (hb : .buf b ∈ m.locked) (hQ : ∀ m1 m', Used m m1 m.locked →
      Used { m1 with disk := Function.update m1.disk b.toNat (d m1) } m' m.locked → Q () m') :
    (bwrite b d).ensures (fun _ => True) E Q m := by
  unfold bwrite
  rw [ensures_bind]
  refine holdingsleep_spec hp hb fun m1 h1 => ?_
  rw [if_pos rfl, ensures_bind, ensures_modify]
  refine virtioDiskRw_spec (h1.proc.trans hp) fun m2 h2 => hQ m1 m2 h1 ?_
  rw [← h1.locked]
  exact h2

end

/-! ## The geometry of the disk -/

/-- A machine on which process `p` calls `fsinit`. -/
def called (p : Pid) (disk : Nat → Block) (behind : Nat → UInt32) (waits : Nat → Bool) : Machine :=
  { powerOn blockDevice disk behind waits with proc := some p }

theorem readsb_spec (hp : m.proc = some p) (hl : m.locked = [])
    (hQ : ∀ m', Used { m with sb := Superblock.decode (m.disk 1) } m' [] → Q () m') :
    readsb.ensures (fun _ => True) E Q m := by
  unfold readsb
  rw [ensures_bind]
  refine breadv_spec hp (fun _ m1 h1 => ?_) fun hin => ?_
  · rw [ensures_bind, ensures_modify]
    refine brelse_spec (h1.proc.trans hp) (by rw [h1.eq]; exact List.mem_cons_self) fun m2 h2 => hQ m2 ?_
    have herase : m1.locked.erase (.buf 1) = [] := by rw [h1.locked, hl, List.erase_cons_head]
    have h2' : Used _ m2 (m1.locked.erase (.buf 1)) := h2
    rw [herase] at h2'
    have hread : Used { m with sb := Superblock.decode (m.disk 1) }
        { m1 with sb := Superblock.decode (m1.disk 1) } m1.locked := by
      refine ⟨?_, h1.events⟩
      rw [h1.eq]
    exact hread.trans h2'
  · rw [hl] at hin
    cases hin

/-- The checks of `fsinit`. -/
structure Geometry (sb : Superblock) : Prop where
  magic : sb.magic = FSMAGIC
  size : 0 < sb.size ∧ sb.size ≤ UInt32.ofNat FSSIZE
  log : 0 < sb.nlog ∧ 1 < sb.logstart
  log_le : sb.logstart + sb.nlog ≤ sb.size
  inodes : sb.logstart + sb.nlog ≤ sb.inodestart ∧ sb.inodestart < sb.size
  bitmap : sb.inodestart ≤ sb.bmapstart ∧ sb.bmapstart < sb.size

theorem checkGeometry_spec (hQ : Geometry m.sb → Q () m) :
    checkGeometry.ensures (fun _ => True) (fun _ _ => True) Q m := by
  unfold checkGeometry checkSb
  refine ensures_check_bind.mpr ⟨fun hmagic => ?_, fun _ => trivial⟩
  refine ensures_check_bind.mpr ⟨fun hsize => ?_, fun _ => trivial⟩
  refine ensures_check_bind.mpr ⟨fun hlog => ?_, fun _ => trivial⟩
  refine ensures_check_bind.mpr ⟨fun hle => ?_, fun _ => trivial⟩
  refine ensures_check_bind.mpr ⟨fun hinodes => ?_, fun _ => trivial⟩
  refine ensures_check.mpr ⟨fun hbitmap => hQ ?_, fun _ => trivial⟩
  exact ⟨eq_of_beq hmagic, of_decide_eq_true hsize, of_decide_eq_true hlog, of_decide_eq_true hle,
    of_decide_eq_true hinodes, of_decide_eq_true hbitmap⟩

/-- What is mounted has passed the checks. -/
theorem fsinit_geometry {disk : Nat → Block} {behind : Nat → UInt32} {waits : Nat → Bool}
    (h : fsinit.run (called p disk behind waits) = .done () m') (hm : Event.recovered ∈ m'.events) :
    Geometry (Superblock.decode (disk 1)) := by
  have hspec : fsinit.ensures (fun _ => True) (fun _ _ => True)
      (fun _ m' => Event.recovered ∈ m'.events → Geometry (Superblock.decode (disk 1)))
      (called p disk behind waits) := by
    unfold fsinit
    rw [ensures_bind]
    refine breadv_spec rfl (fun _ m1 h1 => ?_) fun _ _ _ => trivial
    rw [ensures_bind, ensures_gets, ensures_bind]
    have hdisk : m1.disk 1 = disk 1 := by
      rw [h1.eq]
      rfl
    refine brelse_spec h1.proc (by rw [h1.locked]; exact List.mem_cons_self) fun m2 h2 => ?_
    have h12 := h1.trans h2
    rw [h1.locked, List.erase_cons_head] at h12
    split
    · -- nothing is mounted
      intro hin
      have hno : Event.recovered ∉ m2.events := by
        rw [h12.events _ (fun op q h => by cases h)]
        exact List.not_mem_nil
      exact absurd (List.mem_of_ne_of_mem (by decide) hin) hno
    · rw [ensures_bind]
      refine readsb_spec h12.proc h12.locked fun m3 h3 => ?_
      have hsb : m3.sb = Superblock.decode (disk 1) := by
        rw [h3.eq, ← hdisk, h2.eq]
      rw [ensures_bind]
      refine checkGeometry_spec fun hgeo => ?_
      rw [hsb] at hgeo
      exact ensures_of_forall (fun _ _ _ => hgeo) _ _
  exact of_run_eq_done hspec h hm

/-- The superblock, the log, the inodes and the bitmap. -/
def regions (sb : Superblock) : List (Set Nat) :=
  [{1}, Set.Ico sb.logstart.toNat (sb.logstart.toNat + sb.nlog.toNat),
    Set.Ico sb.inodestart.toNat (sb.inodestart.toNat + (sb.ninodes.toNat + IPB - 1) / IPB),
    Set.Ico sb.bmapstart.toNat (sb.bmapstart.toNat + (sb.size.toNat + BPB - 1) / BPB)]

/-- The regions lie apart from each other and on the disk. -/
structure Apart (sb : Superblock) : Prop where
  disjoint : (regions sb).Pairwise Disjoint
  below : ∀ r ∈ regions sb, ∀ b ∈ r, b < sb.size.toNat
  size : sb.size.toNat ≤ FSSIZE

/-- The checks over the natural numbers. The sum of `logstart` and `nlog` is taken modulo `2 ^ 32`. -/
structure Checked (sb : Superblock) : Prop where
  size : 0 < sb.size.toNat ∧ sb.size.toNat ≤ FSSIZE
  log : 0 < sb.nlog.toNat ∧ 1 < sb.logstart.toNat
  log_le : (sb.logstart.toNat + sb.nlog.toNat) % 2 ^ 32 ≤ sb.size.toNat
  inodes : (sb.logstart.toNat + sb.nlog.toNat) % 2 ^ 32 ≤ sb.inodestart.toNat
  bitmap : sb.inodestart.toNat ≤ sb.bmapstart.toNat ∧ sb.bmapstart.toNat < sb.size.toNat

theorem Geometry.checked {sb : Superblock} (h : Geometry sb) : Checked sb := by
  obtain ⟨-, hsize, hlog, hle, hinodes, hbitmap⟩ := h
  simp only [UInt32.lt_iff_toNat_lt, UInt32.le_iff_toNat_le, UInt32.toNat_add] at hsize hlog hle hinodes hbitmap
  exact ⟨hsize, hlog, hle, hinodes.1, hbitmap⟩

theorem Checked.apart_iff {sb : Superblock} (h : Checked sb) :
    Apart sb ↔ sb.logstart.toNat + sb.nlog.toNat < 2 ^ 32 ∧
      sb.inodestart.toNat + (sb.ninodes.toNat + IPB - 1) / IPB ≤ sb.bmapstart.toNat := by
  obtain ⟨⟨hpos, hsize⟩, ⟨hnlog, hstart⟩, hle, hinodes, hbitmap, hbelow⟩ := h
  have hone : (sb.size.toNat + BPB - 1) / BPB = 1 := by lia
  constructor
  · intro hapart
    have hlast : sb.logstart.toNat + sb.nlog.toNat - 1 < sb.size.toNat := by
      refine hapart.below _ (List.mem_cons_of_mem _ List.mem_cons_self) _ ⟨?_, ?_⟩ <;> omega
    refine ⟨by lia, ?_⟩
    by_contra hgt
    -- the first bitmap block is an inode block
    have hdis := hapart.disjoint
    simp only [regions, List.pairwise_cons] at hdis
    have hmeet := hdis.2.2.1 _ List.mem_cons_self
    have hin : sb.bmapstart.toNat ∈ Set.Ico sb.inodestart.toNat
        (sb.inodestart.toNat + (sb.ninodes.toNat + IPB - 1) / IPB) := ⟨hbitmap, by omega⟩
    exact Set.disjoint_left.mp hmeet hin ⟨Nat.le_refl _, by omega⟩
  · rintro ⟨hwrap, hfit⟩
    rw [Nat.mod_eq_of_lt hwrap] at hle hinodes
    refine ⟨?_, ?_, hsize⟩
    · simp only [regions, List.pairwise_cons, List.mem_cons, List.not_mem_nil, or_false, forall_eq_or_imp,
        forall_eq, Set.disjoint_left, Set.mem_singleton_iff, Set.mem_Ico, List.Pairwise.nil, and_true]
      refine ⟨⟨?_, ?_, ?_⟩, ⟨?_, ?_⟩, ?_, ?_⟩ <;> grind
    · simp only [regions, List.mem_cons, List.not_mem_nil, or_false, forall_eq_or_imp, forall_eq,
        Set.mem_singleton_iff, Set.mem_Ico]
      refine ⟨?_, ?_, ?_, ?_⟩ <;> omega

/-- A disk with an empty log and a root directory. -/
def formatted (sb : Superblock) (b : Nat) : Block :=
  if b = 1 then sb.encode
  else if b = inodeBlock sb ROOTINO then Dinode.write { type := T_DIR, nlink := 1 } Bytes.zero ROOTINO
  else Bytes.zero

/-- The program returns, in a state with `P`. -/
def Returns (P : Machine → Prop) : Outcome Machine Unit → Prop
  | .done _ m => P m
  | _ => False

instance (P : Machine → Prop) [DecidablePred P] : (o : Outcome Machine Unit) → Decidable (Returns P o)
  | .done _ m => inferInstanceAs (Decidable (P m))
  | .panicked _ _ => .isFalse id
  | .stuck _ => .isFalse id

theorem Returns.done {P : Machine → Prop} {o : Outcome Machine Unit} (h : Returns P o) :
    ∃ m', o = .done () m' ∧ P m' := by
  cases o with
  | done u m => exact ⟨m, rfl, h⟩
  | panicked msg m => exact h.elim
  | stuck m => exact h.elim

section Layout

variable {disk : Nat → Block} {behind : Nat → UInt32} {waits : Nat → Bool}

/-- Of what is mounted, the regions lie apart if and only if the end of the log was computed without
wrap-around and the inodes end before the bitmap. -/
theorem mounted_apart_iff (h : fsinit.run (called p disk behind waits) = .done () m')
    (hm : Event.recovered ∈ m'.events) :
    Apart (Superblock.decode (disk 1)) ↔
      (Superblock.decode (disk 1)).logstart.toNat + (Superblock.decode (disk 1)).nlog.toNat < 2 ^ 32 ∧
      (Superblock.decode (disk 1)).inodestart.toNat +
          ((Superblock.decode (disk 1)).ninodes.toNat + IPB - 1) / IPB ≤
        (Superblock.decode (disk 1)).bmapstart.toNat :=
  (fsinit_geometry h hm).checked.apart_iff

theorem apart_mkfsSuperblock : ∃ m',
    fsinit.run (called 1 (formatted mkfsSuperblock) (fun _ => 0) fun _ => false) = .done () m' ∧
    (Apart (Superblock.decode (formatted mkfsSuperblock 1)) ↔
      (Superblock.decode (formatted mkfsSuperblock 1)).logstart.toNat +
          (Superblock.decode (formatted mkfsSuperblock 1)).nlog.toNat < 2 ^ 32 ∧
      (Superblock.decode (formatted mkfsSuperblock 1)).inodestart.toNat +
          ((Superblock.decode (formatted mkfsSuperblock 1)).ninodes.toNat + IPB - 1) / IPB ≤
        (Superblock.decode (formatted mkfsSuperblock 1)).bmapstart.toNat) := by
  have hmounts : Returns (fun m => Event.recovered ∈ m.events)
      (fsinit.run (called 1 (formatted mkfsSuperblock) (fun _ => 0) fun _ => false)) := by
    decide +kernel
  obtain ⟨m', hrun, hm⟩ := hmounts.done
  exact ⟨m', hrun, mounted_apart_iff hrun hm⟩

/-- The layout of `mkfs` with the bitmap in place of the first inode block. -/
def bitmapOverInodes : Superblock := { mkfsSuperblock with bmapstart := 32 }

/-- It is mounted. -/
theorem overlap_mounted : ∃ m',
    fsinit.run (called 1 (formatted bitmapOverInodes) (fun _ => 0) fun _ => false) = .done () m' ∧
    Event.recovered ∈ m'.events ∧ ¬ Apart (Superblock.decode (formatted bitmapOverInodes 1)) := by
  have hmounts : Returns (fun m => Event.recovered ∈ m.events)
      (fsinit.run (called 1 (formatted bitmapOverInodes) (fun _ => 0) fun _ => false)) := by
    decide +kernel
  obtain ⟨m', hrun, hm⟩ := hmounts.done
  refine ⟨m', hrun, hm, fun hapart => ?_⟩
  have hfit := ((fsinit_geometry hrun hm).checked.apart_iff.mp hapart).2
  rw [show formatted bitmapOverInodes 1 = bitmapOverInodes.encode from if_pos rfl,
    Superblock.decode_encode] at hfit
  exact absurd hfit (by decide)

end Layout

end Xv6.Boot
