import Xv6.Boot.Geometry

/-!
# What the recovery of the log touches

`read_head` compares the number of logged blocks with the size of the log region, which comes from the
disk, and not with `LOGSIZE`; and the end of the log region, from which on blocks may be written, is
computed modulo `2 ^ 32`. Both matter: with more than `LOGSIZE` entries the copy leaves `log.lh.block`, and
with a sum that wraps around the blocks before the log may be written.
-/

namespace Xv6.Boot

open Data Coop Prog Storage Fs Function

variable {m m' : Machine} {p : Pid} {E : Option String → Machine → Prop} {Q : Unit → Machine → Prop}

/-! ## What has been touched -/

/-- The indices into the arrays are those below `h` and below `s`, the written home blocks are `H`. -/
structure Touched (h s : Nat) (H : UInt32 → Prop) (events : List Event) : Prop where
  head : ∀ k, .head k ∈ events ↔ k < h
  slot : ∀ k, .slot k ∈ events ↔ k < s
  home : ∀ b, .home b ∈ events ↔ H b

namespace Touched

variable {h s h' s' k : Nat} {H H' : UInt32 → Prop} {events : List Event} {l : List Lock}

theorem of_used (hu : Used m m' l) (ht : Touched h s H m.events) : Touched h s H m'.events := by
  refine ⟨fun k => ?_, fun k => ?_, fun b => ?_⟩
  · rw [hu.events _ fun op q h => by cases h]
    exact ht.head k
  · rw [hu.events _ fun op q h => by cases h]
    exact ht.slot k
  · rw [hu.events _ fun op q h => by cases h]
    exact ht.home b

theorem cons_head (ht : Touched h s H events) (hh : ∀ j, j < h' ↔ j = k ∨ j < h) :
    Touched h' s H (.head k :: events) := by
  refine ⟨fun j => ?_, fun j => ?_, fun b => ?_⟩
  · rw [List.mem_cons, ht.head, hh, Event.head.injEq]
  · rw [List.mem_cons, ht.slot, or_iff_right nofun]
  · rw [List.mem_cons, ht.home, or_iff_right nofun]

theorem cons_slot (ht : Touched h s H events) (hs : ∀ j, j < s' ↔ j = k ∨ j < s) :
    Touched h s' H (.slot k :: events) := by
  refine ⟨fun j => ?_, fun j => ?_, fun b => ?_⟩
  · rw [List.mem_cons, ht.head, or_iff_right nofun]
  · rw [List.mem_cons, ht.slot, hs, Event.slot.injEq]
  · rw [List.mem_cons, ht.home, or_iff_right nofun]

theorem cons_home {a : UInt32} (ht : Touched h s H events) (hH : ∀ b, H' b ↔ b = a ∨ H b) :
    Touched h s H' (.home a :: events) := by
  refine ⟨fun j => ?_, fun j => ?_, fun b => ?_⟩
  · rw [List.mem_cons, ht.head, or_iff_right nofun]
  · rw [List.mem_cons, ht.slot, or_iff_right nofun]
  · rw [List.mem_cons, ht.home, hH, Event.home.injEq]

end Touched

/-! ## Reading the header -/

/-- `hb->n`. -/
def Machine.count (m : Machine) : UInt32 := (m.disk m.sb.logstart.toNat).u32 0

/-- The header passes the checks of `read_head`. -/
structure Passes (m : Machine) : Prop where
  nonneg : 0 ≤ s32 m.count.toNat
  lt : s32 m.count.toNat < s32 m.sb.nlog.toNat
  possible : ∀ k, k < m.count.toNat → possible m.sb (m.word k) = true

/-- Between `m` and `m'` only the log header in memory and the trace have changed. -/
def Frame (m m' : Machine) : Prop :=
  m' = { m with
    locked := m'.locked
    n := m'.n
    lh := m'.lh
    events := m'.events }

theorem Frame.word (h : Frame m m') : m'.word = m.word := by
  rw [h]
  rfl

theorem Frame.sb (h : Frame m m') : m'.sb = m.sb := by
  rw [h]

theorem Frame.proc (h : Frame m m') : m'.proc = m.proc := by
  rw [h]

theorem Frame.of_used {l : List Lock} (h : Used m m' l) : Frame m m' := by
  unfold Frame
  rw [h.eq]

theorem Frame.trans {m'' : Machine} (h : Frame m m') (h' : Frame m' m'') : Frame m m'' := by
  unfold Frame at h'
  rw [h] at h'
  exact h'

/-- The first loop of `read_head`: before entry `k`, the entries before it have passed. -/
structure Validated (m : Machine) (l : List Lock) (k : Nat) (m' : Machine) : Prop where
  frame : Frame m m'
  locked : m'.locked = l
  touched : Touched k 0 (fun _ => False) m'.events
  possible : ∀ j, j < k → Boot.possible m.sb (m.word j) = true

theorem validate_spec {l : List Lock} {n : Nat} (h : Validated m l 0 m')
    (hE : ∀ msg m' k, k < n → Boot.possible m.sb (m.word k) = false → (∀ b, .home b ∉ m'.events) →
      E (some msg) m') :
    (loop validateBody 0 n).ensures (fun _ => True) E (fun _ => Validated m l n) m' := by
  have hloop := @ensures_loop Machine (fun _ => True) E m' validateBody (Validated m l) 0 n ?_ h
  · rwa [Nat.zero_add] at hloop
  · intro k m1 _ hk hv
    unfold validateBody note
    rw [ensures_bind, ensures_modify]
    have htouched : Touched (k + 1) 0 (fun _ => False) (.head k :: m1.events) :=
      hv.touched.cons_head fun j => by omega
    have hword : Machine.word { m1 with events := .head k :: m1.events } k = m.word k := by
      rw [← hv.frame.word]
      rfl
    refine ensures_check.mpr ⟨fun hok => ?_, fun hbad => ?_⟩
    · rw [hword] at hok
      have hok' : Boot.possible m.sb (m.word k) = true := by
        rw [← hv.frame.sb]
        exact hok
      refine ⟨hv.frame.trans rfl, hv.locked, htouched, fun j hj => ?_⟩
      rcases Nat.lt_succ_iff_lt_or_eq.mp hj with hj | rfl
      · exact hv.possible j hj
      · exact hok'
    · rw [hword] at hbad
      refine hE _ _ k (by omega) ?_ fun b => (htouched.home b).mp
      rw [← hv.frame.sb]
      exact hbad

/-- The second loop of `read_head`: the first `k` entries have been copied. -/
structure Copied (m : Machine) (l : List Lock) (n : UInt32) (k : Nat) (m' : Machine) : Prop where
  frame : Frame m m'
  locked : m'.locked = l
  count : m'.n = n
  touched : Touched n.toNat k (fun _ => False) m'.events
  lh : ∀ j, j < k → m'.lh j = m.word j

theorem copy_spec {l : List Lock} {n : UInt32} (h : Copied m l n 0 m') :
    (loop copyBody 0 n.toNat).ensures (fun _ => True) E (fun _ => Copied m l n n.toNat) m' := by
  have hloop := @ensures_loop Machine (fun _ => True) E m' copyBody (Copied m l n) 0 n.toNat ?_ h
  · rwa [Nat.zero_add] at hloop
  · intro k m1 _ hk hc
    unfold copyBody note
    rw [ensures_bind, ensures_modify, ensures_bind, ensures_modify, ensures_modify]
    have hhead : Touched n.toNat k (fun _ => False) (.head k :: m1.events) :=
      hc.touched.cons_head fun j => by omega
    have htouched : Touched n.toNat (k + 1) (fun _ => False) (.slot k :: .head k :: m1.events) :=
      hhead.cons_slot fun j => by omega
    refine ⟨hc.frame.trans rfl, hc.locked, hc.count, htouched, fun j hj => ?_⟩
    show update m1.lh k (m1.word k) j = m.word j
    by_cases hjk : j = k
    · rw [hjk, update_self, hc.frame.word]
    · rw [update_of_ne hjk]
      exact hc.lh j (by omega)

theorem readHead_spec (hp : m.proc = some p) (hl : m.locked = []) (ht : Touched 0 0 (fun _ => False) m.events)
    (hE : ∀ msg m', ¬ Passes m → (∀ b, .home b ∉ m'.events) → E (some msg) m')
    (hQ : Passes m → ∀ m', Copied m [] m.count m.count.toNat m' → Q () m') :
    readHead.ensures (fun _ => True) E Q m := by
  unfold readHead
  rw [ensures_bind, ensures_gets, ensures_bind]
  refine breadv_spec hp (fun _ m1 h1 => ?_) fun hin => ?_
  · rw [ensures_bind, ensures_gets]
    have hcount : (m1.disk m.sb.logstart.toNat).u32 0 = m.count := by
      rw [h1.eq]
      rfl
    have hheld : m1.locked = [.buf m.sb.logstart] := by rw [h1.locked, hl]
    rw [hcount]
    split
    · rename_i hbad
      rw [ensures_bind]
      refine brelse_spec (h1.proc.trans hp) (by rw [hheld]; exact List.mem_cons_self) fun m2 h2 => ?_
      rw [ensures_panic]
      refine hE _ _ (fun hpass => ?_) fun b => ((Touched.of_used h2 (.of_used h1 ht)).home b).mp
      have := hpass.nonneg
      have := hpass.lt
      omega
    · rename_i hcnt
      rw [not_or, Int.not_lt, Int.not_le] at hcnt
      rw [ensures_bind]
      have hval : Validated m [.buf m.sb.logstart] 0 m1 :=
        ⟨.of_used h1, hheld, .of_used h1 ht, fun j hj => absurd hj (Nat.not_lt_zero j)⟩
      refine ensures_mono (validate_spec hval fun msg m2 k hk hbad hno => ?_) fun _ m2 h2 => ?_
      · refine hE _ _ (fun hpass => ?_) hno
        cases (hpass.possible k hk).symm.trans hbad
      · rw [ensures_bind, ensures_modify, ensures_bind]
        have hcop : Copied m [.buf m.sb.logstart] m.count 0 { m2 with n := m.count } :=
          ⟨h2.frame.trans rfl, h2.locked, rfl, h2.touched, fun j hj => absurd hj (Nat.not_lt_zero j)⟩
        refine ensures_mono (copy_spec hcop) fun _ m3 h3 => ?_
        refine brelse_spec (h3.frame.proc.trans hp) (by rw [h3.locked]; exact List.mem_cons_self)
          fun m4 h4 => ?_
        rw [h3.locked, List.erase_cons_head] at h4
        refine hQ ⟨hcnt.1, hcnt.2, h2.possible⟩ m4 ⟨h3.frame.trans (.of_used h4), h4.locked, ?_,
          Touched.of_used h4 h3.touched, fun j hj => ?_⟩
        · rw [h4.eq]
          exact h3.count
        · rw [h4.eq]
          exact h3.lh j hj
  · rw [hl] at hin
    cases hin

/-! ## Installing the blocks -/

/-- The blocks that the first `k` entries name. -/
def Machine.homes (m : Machine) (k : Nat) (b : UInt32) : Prop := ∃ j, j < k ∧ b = m.word j

/-- The disk after the first `k` entries of the header have been installed. -/
def Machine.redo (m : Machine) : Nat → Nat → Block
  | 0 => m.disk
  | k + 1 => update (m.redo k) (m.word k).toNat
      (m.redo k (m.sb.logstart + UInt32.ofNat k + 1).toNat)

/-- The disk after recovery: all entries are installed and the header is cleared. -/
def Machine.recovered (m : Machine) : Nat → Block :=
  update (m.redo m.count.toNat) m.sb.logstart.toNat
    ((m.redo m.count.toNat m.sb.logstart.toNat).putU32 0 0)

/-- Before iteration `k` of `install_trans`. -/
structure Installed (m : Machine) (k : Nat) (m' : Machine) : Prop where
  disk : m'.disk = m.redo k
  sb : m'.sb = m.sb
  proc : m'.proc = m.proc
  locked : m'.locked = []
  lh : ∀ j, j < m.count.toNat → m'.lh j = m.word j
  touched : Touched m.count.toNat m.count.toNat (m.homes k) m'.events
  first : 0 < k → m.word 0 ≠ m.sb.logstart + 1

/-- After `k` iterations `install_trans` has returned, or it waits for the buffer of a log block that it
holds itself. -/
structure Ended (m : Machine) (k : Nat) (events : List Event) : Prop where
  le : k ≤ m.count.toNat
  touched : Touched m.count.toNat m.count.toNat (m.homes k) events
  first : 0 < k → m.word 0 ≠ m.sb.logstart + 1
  last : k = 0 → k < m.count.toNat → m.word 0 = m.sb.logstart + 1

section

variable (hp : m.proc = some p)
include hp

theorem installBody_spec {k : Nat} (hk : k < m.count.toNat) (h : Installed m k m')
    (hE : ∀ m', Ended m k m'.events → E none m') :
    (installBody k).ensures (fun _ => True) E (fun _ => Installed m (k + 1)) m' := by
  have hp' := h.proc.trans hp
  unfold installBody note
  rw [ensures_bind, ensures_gets, h.sb, ensures_bind]
  generalize hlbuf : m.sb.logstart + UInt32.ofNat k + 1 = lbuf
  have hlbuf0 : k = 0 → lbuf = m.sb.logstart + 1 := by
    intro hk0
    rw [← hlbuf, hk0, show UInt32.ofNat 0 = 0 from rfl, UInt32.add_zero]
  refine breadv_spec hp' (fun _ m1 h1 => ?_) fun hin => ?_
  · rw [h.locked] at h1
    rw [ensures_bind, ensures_modify, ensures_bind, ensures_gets, ensures_bind]
    have hslot : Touched m.count.toNat m.count.toNat (m.homes k) (.slot k :: m1.events) :=
      (Touched.of_used h1 h.touched).cons_slot fun j => by omega
    have hdbuf : m1.lh k = m.word k := by
      rw [h1.eq]
      exact h.lh k hk
    refine breadv_spec (h1.proc.trans hp') (fun hfree m2 h2 => ?_) fun hin m2 h2 => ?_
    · have hlocked : m2.locked = [.buf (m.word k), .buf lbuf] := by
        rw [h2.locked, ← hdbuf]
        exact congrArg _ h1.locked
      have hne : m.word k ≠ lbuf := by
        intro heq
        refine hfree ?_
        show Lock.buf (m1.lh k) ∈ m1.locked
        rw [h1.locked, hdbuf, heq]
        exact List.mem_cons_self
      have hp2 : m2.proc = some p := h2.proc.trans (h1.proc.trans hp')
      show Prog.ensures (fun _ => True) E (bwrite (m1.lh k) _ >>= _) _ m2
      rw [hdbuf, ensures_bind]
      refine bwrite_spec hp2 (by rw [hlocked]; exact List.mem_cons_self) fun m3 m4 h3 h4 => ?_
      rw [ensures_bind, ensures_modify, ensures_bind]
      have htouched : Touched m.count.toNat m.count.toNat (m.homes (k + 1)) (.home (m.word k) :: m4.events) := by
        have ht3 : Touched m.count.toNat m.count.toNat (m.homes k) m3.events :=
          .of_used h3 (.of_used h2 hslot)
        refine Touched.cons_home (.of_used h4 ht3) fun b => ?_
        constructor
        · rintro ⟨j, hj, rfl⟩
          rcases Nat.lt_succ_iff_lt_or_eq.mp hj with hj | rfl
          · exact .inr ⟨j, hj, rfl⟩
          · exact .inl rfl
        · rintro (rfl | ⟨j, hj, rfl⟩)
          · exact ⟨k, by omega, rfl⟩
          · exact ⟨j, by omega, rfl⟩
      have hlocked4 : m4.locked = [.buf (m.word k), .buf lbuf] := h4.locked.trans hlocked
      have hp4 : m4.proc = some p := h4.proc.trans (h3.proc.trans hp2)
      refine brelse_spec hp4 ?_ fun m5 h5 => ?_
      · show Lock.buf lbuf ∈ m4.locked
        rw [hlocked4]
        exact List.mem_cons_of_mem _ List.mem_cons_self
      have hlocked5 : m5.locked = [.buf (m.word k)] := by
        rw [h5.locked]
        show m4.locked.erase (.buf lbuf) = _
        rw [hlocked4, List.erase_cons_tail (by simpa using hne), List.erase_cons_head]
      refine brelse_spec (h5.proc.trans hp4) (by rw [hlocked5]; exact List.mem_cons_self) fun m6 h6 => ?_
      rw [hlocked5, List.erase_cons_head] at h6
      refine ⟨?_, ?_, h6.proc.trans (h5.proc.trans (hp4.trans hp.symm)), h6.locked, fun j hj => ?_,
        Touched.of_used h6 (.of_used h5 htouched), fun _ h0 => ?_⟩
      · have hdisk : m3.disk = m.redo k := by
          rw [h3.eq, h2.eq, h1.eq]
          exact h.disk
        rw [h6.eq, h5.eq, h4.eq, Machine.redo, ← hdisk, hlbuf]
      · rw [h6.eq, h5.eq, h4.eq, h3.eq, h2.eq, h1.eq]
        exact h.sb
      · rw [h6.eq, h5.eq, h4.eq, h3.eq, h2.eq, h1.eq]
        exact h.lh j hj
      · by_cases hk0 : k = 0
        · rw [← hlbuf0 hk0] at h0
          exact hne (by rw [hk0]; exact h0)
        · exact h.first (by omega) h0
    · -- the home block is the log block that is held already
      have heq : m.word k = lbuf := by
        have hin' : Lock.buf (m1.lh k) ∈ m1.locked := hin
        rw [h1.locked, hdbuf, List.mem_singleton] at hin'
        exact Lock.buf.inj hin'
      refine hE m2 ⟨Nat.le_of_lt hk, Touched.of_used h2 hslot, h.first, fun hk0 _ => ?_⟩
      rw [← hlbuf0 hk0, ← heq, hk0]
  · rw [h.locked] at hin
    cases hin

theorem installTrans_spec (hn : m'.n = m.count) (h : Installed m 0 m')
    (hE : ∀ k m', Ended m k m'.events → E none m') :
    installTrans.ensures (fun _ => True) E (fun _ => Installed m m.count.toNat) m' := by
  unfold installTrans
  rw [ensures_bind, ensures_gets, hn]
  have hloop := @ensures_loop Machine (fun _ => True) E m' installBody (Installed m) 0 m.count.toNat ?_ h
  · rwa [Nat.zero_add] at hloop
  · intro k m1 _ hk hi
    exact installBody_spec hp (by omega) hi (hE k)

theorem clearHead_spec {n s : Nat} {H : UInt32 → Prop} (hl : m.locked = []) (ht : Touched n s H m.events)
    (hQ : ∀ m', Touched n s H m'.events → Frame { m with disk := m'.disk } m' →
      m'.disk = update m.disk m.sb.logstart.toNat
        ((m.disk m.sb.logstart.toNat).putU32 0 0) → m'.locked = [] → Q () m') :
    clearHead.ensures (fun _ => True) E Q m := by
  unfold clearHead
  rw [ensures_bind, ensures_modify, ensures_bind, ensures_gets, ensures_bind]
  refine breadv_spec hp (fun _ m1 h1 => ?_) fun hin => ?_
  · have hheld : m1.locked = [.buf m.sb.logstart] := h1.locked.trans (congrArg _ hl)
    rw [ensures_bind]
    refine bwrite_spec (h1.proc.trans hp) (by rw [hheld]; exact List.mem_cons_self) fun m2 m3 h2 h3 => ?_
    refine brelse_spec (h3.proc.trans (h2.proc.trans (h1.proc.trans hp)))
      (by rw [h3.locked, hheld]; exact List.mem_cons_self) fun m4 h4 => ?_
    have ht2 : Touched n s H m2.events := .of_used h2 (.of_used h1 ht)
    refine hQ m4 (.of_used h4 (.of_used h3 ht2)) ?_ ?_ ?_
    · unfold Frame
      rw [h4.eq, h3.eq, h2.eq, h1.eq]
    · rw [h4.eq, h3.eq, h2.eq, h1.eq]
    · rw [h4.locked, h3.locked, hheld, List.erase_cons_head]
  · have hin' : Lock.buf m.sb.logstart ∈ m.locked := hin
    rw [hl] at hin'
    cases hin'

theorem recoverFromLog_spec (hl : m.locked = []) (ht : Touched 0 0 (fun _ => False) m.events)
    (hpanic : ∀ msg m', ¬ Passes m → (∀ b, .home b ∉ m'.events) → E (some msg) m')
    (hwait : Passes m → ∀ k m', Ended m k m'.events → E none m')
    (hQ : Passes m → ∀ m', Ended m m.count.toNat m'.events → m'.disk = m.recovered → m'.sb = m.sb →
      m'.proc = m.proc → m'.locked = [] → Q () m') :
    recoverFromLog.ensures (fun _ => True) E Q m := by
  unfold recoverFromLog
  rw [ensures_bind]
  refine readHead_spec hp hl ht hpanic fun hpass m1 h₁ => ?_
  rw [ensures_bind]
  have hinst : Installed m 0 m1 := by
    refine ⟨by rw [h₁.frame]; rfl, h₁.frame.sb, h₁.frame.proc, h₁.locked, h₁.lh, ⟨h₁.touched.head, h₁.touched.slot, fun b => ?_⟩,
      fun h0 => absurd h0 (Nat.lt_irrefl 0)⟩
    rw [h₁.touched.home]
    exact ⟨False.elim, fun ⟨j, hj, _⟩ => absurd hj (Nat.not_lt_zero j)⟩
  refine ensures_mono (installTrans_spec hp h₁.count hinst (hwait hpass)) fun _ m2 h2 => ?_
  refine clearHead_spec (h2.proc.trans hp) h2.locked h2.touched fun m3 ht3 hframe hdisk hlocked => ?_
  refine hQ hpass m3 ⟨Nat.le_refl _, ht3, h2.first, fun h0 h1 => absurd h1 (by omega)⟩ ?_
    (hframe.sb.trans h2.sb) (hframe.proc.trans h2.proc) hlocked
  rw [hdisk, h2.sb, h2.disk, Machine.recovered]

end

/-! ## What recovery is confined to -/

/-- The checks of `initlog`. -/
structure LogChecked (sb : Superblock) : Prop where
  magic : sb.magic = FSMAGIC
  log : 0 < sb.nlog ∧ 1 < sb.logstart
  log_le : sb.logstart + sb.nlog ≤ sb.size

/-- Every index is within its array, and every written home block is behind the log and on the disk. -/
structure InBounds (sb : Superblock) (events : List Event) : Prop where
  head : ∀ k, .head k ∈ events → 4 * k + 8 ≤ BSIZE
  slot : ∀ k, .slot k ∈ events → k < LOGSIZE
  home : ∀ b, .home b ∈ events → sb.Home b.toNat

/-- The machine stops before any home block is written, or stays within bounds. -/
def Confined (sb : Superblock) : Outcome Machine Unit → Prop
  | .done _ m => InBounds sb m.events
  | .panicked _ m => (∀ b, .home b ∉ m.events) ∨ InBounds sb m.events
  | .stuck m => InBounds sb m.events

/-- The header has room in memory, and if it names blocks at all, then the end of the log was computed
without wrap-around or the first of the blocks is the one that `install_trans` already holds. -/
def Safe (m : Machine) : Prop :=
  m.count.toNat ≤ LOGSIZE ∧ (m.count = 0 ∨ m.sb.logstart.toNat + m.sb.nlog.toNat < 2 ^ 32 ∨
    m.word 0 = m.sb.logstart + 1)

theorem home_of_possible {sb : Superblock} {b : UInt32} (h : possible sb b)
    (hwrap : sb.logstart.toNat + sb.nlog.toNat < 2 ^ 32) : sb.Home b.toNat := by
  obtain ⟨hle, hlt⟩ := of_decide_eq_true h
  rw [UInt32.le_iff_toNat_le, UInt32.toNat_add, Nat.mod_eq_of_lt (by omega)] at hle
  exact ⟨by omega, UInt32.lt_iff_toNat_lt.mp hlt⟩

theorem Ended.inBounds_iff {k : Nat} {events : List Event} (h : Ended m k events) (hpass : Passes m) :
    InBounds m.sb events ↔ Safe m := by
  constructor
  · intro hin
    refine ⟨?_, ?_⟩
    · by_contra hgt
      exact Nat.lt_irrefl LOGSIZE (hin.slot LOGSIZE ((h.touched.slot LOGSIZE).mpr (by omega)))
    · by_cases hk : k = 0
      · by_cases hcount : k < m.count.toNat
        · exact .inr (.inr (h.last hk hcount))
        · refine .inl (UInt32.toNat_inj.mp ?_)
          rw [show (0 : UInt32).toNat = 0 from rfl]
          omega
      · -- the first home block was written
        have hhome := hin.home (m.word 0) ((h.touched.home _).mpr ⟨0, by omega, rfl⟩)
        have hlt := (m.word 0).toNat_lt
        exact .inr (.inl (Nat.lt_of_le_of_lt hhome.1 hlt))
  · rintro ⟨hle, hsafe⟩
    refine ⟨fun j hj => ?_, fun j hj => ?_, fun b hb => ?_⟩
    · have := (h.touched.head j).mp hj
      lia
    · exact Nat.lt_of_lt_of_le ((h.touched.slot j).mp hj) hle
    · obtain ⟨j, hj, rfl⟩ := (h.touched.home b).mp hb
      have hle' := h.le
      rcases hsafe with hzero | hwrap | hfirst
      · rw [hzero] at hle'
        exact absurd (Nat.lt_of_lt_of_le hj hle') (Nat.not_lt_zero j)
      · exact home_of_possible (hpass.possible j (by omega)) hwrap
      · exact absurd hfirst (h.first (by omega))

section Initlog

variable {disk : Nat → Block} {behind : Nat → UInt32} {waits : Nat → Bool}

/-- A machine on which process `p` has called `initlog`, after `readsb`. -/
def superRead (p : Pid) (disk : Nat → Block) (behind : Nat → UInt32) (waits : Nat → Bool) : Machine :=
  { called p disk behind waits with sb := Superblock.decode (disk 1) }

theorem initlog_spec :
    initlog.ensures (fun _ => True)
      (fun msg m' => match msg with
        | some _ => ¬ (LogChecked (superRead p disk behind waits).sb ∧ Passes (superRead p disk behind waits)) ∧
            ∀ b, .home b ∉ m'.events
        | none => Passes (superRead p disk behind waits) ∧ LogChecked (superRead p disk behind waits).sb ∧
            ∃ k, Ended (superRead p disk behind waits) k m'.events)
      (fun _ m' => Passes (superRead p disk behind waits) ∧ LogChecked (superRead p disk behind waits).sb ∧
        ∃ k, Ended (superRead p disk behind waits) k m'.events)
      (called p disk behind waits) := by
  unfold initlog checkSb
  rw [ensures_bind]
  refine readsb_spec rfl rfl fun m1 h1 => ?_
  have hstart : Touched 0 0 (fun _ => False) m1.events := by
    refine .of_used h1 ⟨fun k => ?_, fun k => ?_, fun b => ?_⟩ <;> simp [called, powerOn]
  have hno : ∀ b, .home b ∉ m1.events := fun b => (hstart.home b).mp
  have hframe : Frame (superRead p disk behind waits) m1 := .of_used h1
  have hsb : m1.sb = (superRead p disk behind waits).sb := hframe.sb
  rw [ensures_bind, ensures_check, hsb]
  refine ⟨fun hmagic => ?_, fun hmagic => ⟨fun hall => ?_, hno⟩⟩
  · rw [ensures_bind, ensures_check, hsb]
    refine ⟨fun hlog => ?_, fun hlog => ⟨fun hall => ?_, hno⟩⟩
    · rw [ensures_bind, ensures_check, hsb]
      refine ⟨fun hle => ?_, fun hle => ⟨fun hall => ?_, hno⟩⟩
      · have hcheck : LogChecked (superRead p disk behind waits).sb :=
          ⟨eq_of_beq hmagic, of_decide_eq_true hlog, of_decide_eq_true hle⟩
        have hpasses : Passes m1 ↔ Passes (superRead p disk behind waits) := by
          rw [hframe]
          exact ⟨fun h => ⟨h.1, h.2, h.3⟩, fun h => ⟨h.1, h.2, h.3⟩⟩
        have hended : ∀ {k events}, Ended m1 k events → Ended (superRead p disk behind waits) k events := by
          intro k events h
          rw [hframe] at h
          exact ⟨h.le, h.touched, h.first, h.last⟩
        refine recoverFromLog_spec h1.proc h1.locked hstart (fun _ m' hbad hnone => ⟨fun hall => ?_, hnone⟩)
          (fun hpass k m' h => ⟨hpasses.mp hpass, hcheck, k, hended h⟩)
          fun hpass m' h _ _ _ _ => ⟨hpasses.mp hpass, hcheck, _, hended h⟩
        exact hbad (hpasses.mpr hall.2)
      · exact of_decide_eq_false hle hall.1.log_le
    · exact of_decide_eq_false hlog hall.1.log
  · exact ne_of_beq_false hmagic hall.1.magic

/-- Recovery is confined if and only if the header of a log that passes all checks is safe. -/
theorem confined_iff :
    Confined (Superblock.decode (disk 1)) (initlog.run (called p disk behind waits)) ↔
      (LogChecked (superRead p disk behind waits).sb → Passes (superRead p disk behind waits) →
        Safe (superRead p disk behind waits)) := by
  have hspec := ensures_run (@initlog_spec p disk behind waits)
  cases hrun : initlog.run (called p disk behind waits) with
  | done u m' =>
    rw [hrun] at hspec
    obtain ⟨hpass, hcheck, k, hended⟩ := hspec
    exact (hended.inBounds_iff hpass).trans ⟨fun h _ _ => h, fun h => h hcheck hpass⟩
  | panicked msg m' =>
    rw [hrun] at hspec
    exact ⟨fun _ hcheck hpass => absurd ⟨hcheck, hpass⟩ hspec.1, fun _ => .inl hspec.2⟩
  | stuck m' =>
    rw [hrun] at hspec
    obtain ⟨hpass, hcheck, k, hended⟩ := hspec
    exact (hended.inBounds_iff hpass).trans ⟨fun h _ _ => h, fun h => h hcheck hpass⟩

end Initlog

/-- A disk whose log header names the given blocks. -/
def logged (sb : Superblock) (blocks : List Nat) (b : Nat) : Block :=
  if b = 1 then sb.encode else if b = sb.logstart.toNat then encodeHead Bytes.zero blocks else Bytes.zero

/-- A log of 40 blocks. -/
def longLog : Superblock := { mkfsSuperblock with nlog := 40, inodestart := 42, bmapstart := 55 }

/-- A log at the end of the block numbers. -/
def wrappedLog : Superblock := { mkfsSuperblock with nlog := 2, logstart := 0xffffffff }

/-- A header with 31 entries is copied beyond the end of `log.lh.block`; and recovery with a log that wraps
around overwrites the superblock. -/
theorem recovery_unconfined :
    (∃ m', initlog.run (called 1 (logged longLog (List.replicate 31 60)) (fun _ => 0) fun _ => false) =
      .done () m' ∧ Event.slot LOGSIZE ∈ m'.events) ∧
    ∃ m', initlog.run (called 1 (logged wrappedLog [1]) (fun _ => 0) fun _ => false) = .done () m' ∧
      Event.home 1 ∈ m'.events ∧ ¬ wrappedLog.Home 1 ∧ (m'.disk 1).u32 0 ≠ FSMAGIC :=
  ⟨Returns.done (by decide +kernel), Returns.done (by decide +kernel)⟩

end Xv6.Boot
