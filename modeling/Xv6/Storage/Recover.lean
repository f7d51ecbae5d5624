import Xv6.Storage.Alone
import Xv6.Storage.Header

/-!
# Recovery

`initlog` runs before any other process uses the disk. From every recoverable disk it returns,
with the home blocks of the committed transactions in place and an empty header; whenever it
waits for the device the disk is recoverable.
-/

namespace Xv6.Storage

open Data Coop Prog Function

/-- What is true whenever recovery may be cut off. -/
structure Rebooting (sb : Superblock) (p : Pid) (s : Sys) : Prop where
  disk : Recoverable sb s.disk s.committed
  phase : s.phase = .recovering
  ops : ∀ q, s.ops q = .out
  chan : ∀ q, s.chan q = none
  pid : ∀ i, (s.buf i).locked = true → (s.buf i).pid = p

/-- The state of recovery between two of its actions. -/
structure Recovering (sb : Superblock) (p : Pid) (held : Finset (Fin NBUF)) (s : Sys) : Prop where
  alone : Alone p held s
  wf : ∀ i, (s.buf i).Wf
  clean : ∀ i, (s.buf i).valid = true → (s.buf i).data = s.disk (s.buf i).blockno
  pinned : ∀ i, (s.buf i).pinned = 0
  disk : Recoverable sb s.disk s.committed
  phase : s.phase = .recovering
  ops : ∀ q, s.ops q = .out
  dirty : ∀ i, s.dirty i = false
  last : ∀ b, s.last b = none
  group : s.group = []
  dev : s.log.dev = ROOTDEV

/-- The state after `modify` of the contents of a buffer and the write of it. -/
def wrote (s : Sys) (i : Fin NBUF) (d : Block) : Sys :=
  { s.mod i (Buf.fill d) with disk := update s.disk (s.buf i).blockno d }

@[simp] theorem wrote_disk (s : Sys) (i : Fin NBUF) (d : Block) :
    (wrote s i d).disk = update s.disk (s.buf i).blockno d := rfl

@[simp] theorem wrote_log (s : Sys) (i : Fin NBUF) (d : Block) : (wrote s i d).log = s.log := rfl

@[simp] theorem wrote_sb (s : Sys) (i : Fin NBUF) (d : Block) : (wrote s i d).sb = s.sb := rfl

@[simp] theorem wrote_committed (s : Sys) (i : Fin NBUF) (d : Block) :
    (wrote s i d).committed = s.committed := rfl

@[simp] theorem wrote_buf_self (s : Sys) (i : Fin NBUF) (d : Block) : (wrote s i d).buf i = (s.buf i).fill d :=
  s.mod_buf_self i _

theorem wrote_buf_of_ne (s : Sys) {i j : Fin NBUF} (d : Block) (h : j ≠ i) : (wrote s i d).buf j = s.buf j :=
  s.mod_buf_of_ne _ h

theorem devWrite_eq (s : Sys) {b : Nat} {d : Block} (hcom : ¬ (b = s.log.start ∧ headCount d ≠ 0)) :
    s.devWrite b d = { s with disk := update s.disk b d } := by
  unfold Sys.devWrite
  rw [if_neg hcom]

theorem devWrite_fill (s : Sys) (i : Fin NBUF) (d : Block)
    (hcom : ¬ ((s.buf i).blockno = s.log.start ∧ headCount d ≠ 0)) :
    (s.mod i (Buf.fill d)).devWrite ((s.mod i (Buf.fill d)).buf i).blockno
      ((s.mod i (Buf.fill d)).buf i).data = wrote s i d := by
  rw [Sys.mod_buf_self]
  exact devWrite_eq (s.mod i (Buf.fill d)) hcom

variable {committed : Nat → Block}

namespace Recovering

variable {sb : Superblock} {p : Pid} {held : Finset (Fin NBUF)} {s : Sys} {i : Fin NBUF}
  {E : Option String → Sys → Prop}

section

variable (h : Recovering sb p held s)
include h

theorem rebooting {s' : Sys} (hframe : SameBut s s')
    (hpid : ∀ i, (s'.buf i).locked → (s'.buf i).pid = p) : Rebooting sb p s' := by
  rw [hframe] at hpid ⊢
  exact ⟨h.disk, h.phase, h.ops, h.alone.chan, hpid⟩

/-- Two valid buffers of one block are one buffer. -/
theorem eq_of_blockno {j : Fin NBUF} (hi : (s.buf i).valid) (hj : (s.buf j).valid)
    (hb : (s.buf i).blockno = (s.buf j).blockno) : i = j := by
  by_contra hne
  rcases h.wf i with ⟨hdi, hai⟩ | ⟨-, -, hvi⟩
  · rcases h.wf j with ⟨hdj, -⟩ | ⟨-, -, hvj⟩
    · exact h.alone.bio.ident i j hai hne ⟨hdi.trans hdj.symm, hb⟩
    · cases hvj.symm.trans hj
  · cases hvi.symm.trans hi

theorem breadLog (hcard : held.card < NBUF) {f : Log → Nat} {b : Nat}
    (hf : f s.log = b) (hnew : ∀ i ∈ held, (s.buf i).blockno ≠ b) {Q : Fin NBUF → Sys → Prop}
    (hQ : ∀ i s', i ∉ held → Recovering sb p (insert i held) s' → SameBut s s' →
      (s'.buf i).blockno = b → (s'.buf i).valid → (s'.buf i).data = s.disk b →
      (∀ j ∈ held, s'.buf j = s.buf j) → Q i s') :
    (breadLog p f).ensures (Rebooting sb p) E Q s := by
  unfold Storage.breadLog
  rw [ensures_bind, ensures_gets, hf, h.dev]
  refine h.alone.bread (fun i hi hident => hnew i hi hident.2) ?_ (fun s' => h.rebooting) ?_
  · intro _
    obtain ⟨i, hi⟩ : ∃ i, i ∉ held := by
      by_contra hall
      push Not at hall
      have : held = Finset.univ := Finset.eq_univ_iff_forall.mpr hall
      rw [this, Finset.card_univ, Fintype.card_fin] at hcard
      exact absurd hcard (lt_irrefl _)
    exact ⟨i, hi, h.pinned i⟩
  · intro i s' hi halone hfetch
    have hs' := hfetch.frame
    have hdata : (s'.buf i).data = s.disk b := by
      rcases hfetch.source with ⟨hhit, hvalid, hdata⟩ | ⟨-, hdata⟩
      · rw [hdata, h.clean i hvalid]
        exact congrArg s.disk (BioInv.of_lookup_eq_some hhit).2
      · exact hdata
    have hdisk : s'.disk = s.disk := by rw [hs']
    have hrest : ∀ j, (s'.buf j).Wf ∧
        ((s'.buf j).valid = true → (s'.buf j).data = s.disk (s'.buf j).blockno) ∧
        (s'.buf j).pinned = 0 := by
      intro j
      by_cases hj : j = i
      · subst hj
        refine ⟨hfetch.wf rfl (h.wf j), fun _ => ?_, hfetch.pinned.trans (h.pinned j)⟩
        rw [hdata, hfetch.blockno_eq]
      · rw [hfetch.other j hj]
        exact ⟨h.wf j, h.clean j, h.pinned j⟩
    have hrec : Recovering sb p (insert i held) s' := by
      refine ⟨halone, fun j => (hrest j).1, ?_, fun j => (hrest j).2.2, ?_, ?_, ?_, ?_, ?_, ?_, ?_⟩
      · intro j hj
        rw [hdisk]
        exact (hrest j).2.1 hj
      · rw [hs']
        exact h.disk
      · rw [hs']
        exact h.phase
      · rw [hs']
        exact h.ops
      · rw [hs']
        exact h.dirty
      · rw [hs']
        exact h.last
      · rw [hs']
        exact h.group
      · rw [hs']
        exact h.dev
    refine hQ i s' hi hrec hs' hfetch.blockno_eq hfetch.valid hdata ?_
    intro j hj
    refine hfetch.other j ?_
    rintro rfl
    exact hi hj

theorem bwrite_fill (hi : i ∈ held) (hvalid : (s.buf i).valid) {d : Block}
    (hdisk : Recoverable sb (update s.disk (s.buf i).blockno d) s.committed)
    (hcom : ¬ ((s.buf i).blockno = s.log.start ∧ headCount d ≠ 0)) {Q : Unit → Sys → Prop}
    (hQ : Recovering sb p held (wrote s i d) → Q () (wrote s i d)) :
    (bwrite p i).ensures (Rebooting sb p) E Q (s.mod i (Buf.fill d)) := by
  have hbuf : ∀ j, ((wrote s i d).buf j).locked = (s.buf j).locked ∧
      ((wrote s i d).buf j).pid = (s.buf j).pid ∧
      ((wrote s i d).buf j).pinned = (s.buf j).pinned ∧
      ((s.buf j).Wf → ((wrote s i d).buf j).Wf) := by
    intro j
    by_cases hj : j = i
    · subst hj
      rw [wrote_buf_self]
      exact ⟨rfl, rfl, rfl, id⟩
    · rw [wrote_buf_of_ne s d hj]
      exact ⟨rfl, rfl, rfl, id⟩
  have halone : Alone p held (s.mod i (Buf.fill d)) := by
    refine ⟨h.alone.bio.fill d, h.alone.chan, ?_, ?_⟩
    · intro j
      rw [h.alone.held j, ← (hbuf j).1]
      rfl
    · intro j hj
      have hpid := h.alone.pid j ((hbuf j).1.symm.trans hj)
      exact (hbuf j).2.1.trans hpid
  have hrec : Recovering sb p held (wrote s i d) := by
    refine ⟨⟨halone.bio, halone.chan, halone.held, halone.pid⟩, ?_, ?_, ?_, hdisk, h.phase, h.ops,
      h.dirty, h.last, h.group, h.dev⟩
    · intro j
      exact (hbuf j).2.2.2 (h.wf j)
    · intro j hj
      by_cases hji : j = i
      · subst hji
        rw [wrote_buf_self]
        change d = update s.disk (s.buf j).blockno d (s.buf j).blockno
        rw [update_self]
      · rw [wrote_buf_of_ne s d hji] at hj ⊢
        have hne : (s.buf j).blockno ≠ (s.buf i).blockno := by
          intro hb
          exact hji (h.eq_of_blockno hj hvalid hb)
        simp only [wrote, update_of_ne hne]
        exact h.clean j hj
    · intro j
      exact (hbuf j).2.2.1.trans (h.pinned j)
  refine halone.bwrite hi ?_ ?_
  · rw [devWrite_fill s i d hcom]
    exact hrec.rebooting (SameBut.refl _) hrec.alone.pid
  · rw [devWrite_fill s i d hcom]
    exact hQ hrec

theorem brelse (hi : i ∈ held) {Q : Unit → Sys → Prop}
    (hQ : Recovering sb p (held.erase i) (Alone.released s i) → Q () (Alone.released s i)) :
    (brelse p i).ensures (Rebooting sb p) E Q s := by
  refine h.alone.brelse hi ?_
  intro halone
  have hcore := Alone.released_core s i
  refine hQ ⟨halone, ?_, ?_, ?_, h.disk, h.phase, h.ops, h.dirty, h.last, h.group, h.dev⟩
  · intro j
    have hwf : ((Alone.released s i).buf j).core.Wf := by
      rw [hcore j]
      exact h.wf j
    exact hwf
  · intro j hj
    have hv := congrArg Buf.valid (hcore j)
    have hd := congrArg Buf.data (hcore j)
    have hb := congrArg Buf.blockno (hcore j)
    simp only [Buf.core] at hv hd hb
    rw [hd, hb]
    exact h.clean j (hv.symm.trans hj)
  · intro j
    have hp := congrArg Buf.pinned (hcore j)
    exact hp.trans (h.pinned j)

theorem set_log (l : Log) (sb' : Superblock) (hdev : l.dev = ROOTDEV) :
    Recovering sb p held { s with log := l, sb := sb' } :=
  ⟨⟨h.alone.bio, h.alone.chan, h.alone.held, h.alone.pid⟩, h.wf, h.clean, h.pinned, h.disk,
    h.phase, h.ops, h.dirty, h.last, h.group, hdev⟩

end

/-! ## The functions -/

/-- What a function of recovery leaves alone. -/
structure Kept (s s' : Sys) : Prop where
  log : s'.log = s.log
  sb : s'.sb = s.sb
  disk : s'.disk = s.disk
  committed : s'.committed = s.committed

theorem Kept.of_sameBut {s s' : Sys} (h : SameBut s s') : Kept s s' := by
  rw [h]
  exact ⟨rfl, rfl, rfl, rfl⟩

theorem readsb_spec (h : Recovering sb p ∅ s) {Q : Unit → Sys → Prop}
    (hQ : ∀ s', Recovering sb p ∅ s' → s'.sb = sb → s'.log = s.log → s'.disk = s.disk →
      s'.committed = s.committed → Q () s') :
    (readsb p).ensures (Rebooting sb p) E Q s := by
  unfold readsb
  rw [ensures_bind]
  refine h.breadLog (by simp) rfl (by simp) ?_
  intro i s1 _ h1 hframe _ _ hdata _
  obtain ⟨hlog, -, hdisk, hcom⟩ := Kept.of_sameBut hframe
  rw [ensures_bind, ensures_modify]
  refine (h1.set_log _ _ h1.dev).brelse (by simp) ?_
  intro h2
  have herase : (insert i ∅ : Finset (Fin NBUF)).erase i = ∅ := by simp
  rw [herase] at h2
  refine hQ _ h2 ?_ hlog hdisk hcom
  change Superblock.decode (s1.buf i).data = sb
  rw [hdata]
  exact h.disk.super

/-- `log.start` and `log.size` are those of the superblock. -/
structure Mounted (sb : Superblock) (s : Sys) : Prop where
  sb_eq : s.sb = sb
  start_eq : s.log.start = sb.logstart.toNat
  size_eq : s.log.size = sb.nlog.toNat

theorem Mounted.of_eq {s s' : Sys} (h : Mounted sb s) (hlog : s'.log = s.log) (hsb : s'.sb = s.sb) : Mounted sb s' :=
  ⟨hsb.trans h.sb_eq, by rw [hlog]; exact h.start_eq, by rw [hlog]; exact h.size_eq⟩

theorem homeBlock_of_home (hv : sb.Valid) {l : Log} {b : Nat} (hstart : l.start = sb.logstart.toNat)
    (hsize : l.size = sb.nlog.toNat) (hb : sb.Home b) : homeBlock l sb b := by
  have hle := hv.log_le
  have hlt := sb.size.toNat_lt
  have hmod : (l.size + l.start) % 2 ^ 32 = l.size + l.start :=
    Nat.mod_eq_of_lt (by omega)
  simp only [homeBlock, hmod, decide_eq_true_eq]
  exact ⟨by have := hb.1; omega, hb.2⟩

theorem readHead_spec (hv : sb.Valid) (h : Recovering sb p ∅ s) (hm : Mounted sb s) {Q : Unit → Sys → Prop}
    (hQ : ∀ s', Recovering sb p ∅ s' → Mounted sb s' →
      s'.log.lh = headBlocks (s.disk sb.logstart.toNat) → s'.disk = s.disk →
      s'.committed = s.committed → s'.log = { s.log with lh := s'.log.lh } → Q () s') :
    (readHead p).ensures (Rebooting sb p) E Q s := by
  unfold readHead
  rw [ensures_bind]
  refine h.breadLog (by simp) hm.start_eq (by simp) ?_
  intro i s1 _ h1 hframe _ _ hdata _
  have hk := Kept.of_sameBut hframe
  have hm1 := hm.of_eq hk.log hk.sb
  rw [ensures_bind, ensures_gets, ensures_bind, ensures_gets, hdata]
  have hcount := h.disk.count_lt
  have hsmall := h.disk.count_le
  have hnlog := hv.nlog_lt
  have hn : s32 (headCount (s.disk sb.logstart.toNat)) = headCount (s.disk sb.logstart.toNat) :=
    s32_of_lt (by omega)
  have hsize : s32 s1.log.size = sb.nlog.toNat := by
    rw [hm1.size_eq]
    exact s32_of_lt hnlog
  rw [hn, hsize, if_neg (by omega), ensures_bind, ensures_check]
  refine ⟨fun _ => ?_, fun hf => ?_⟩
  · rw [ensures_bind, ensures_modify]
    refine (h1.set_log { s1.log with lh := headBlocks (s.disk sb.logstart.toNat) } s1.sb
      h1.dev).brelse (by simp) ?_
    intro h2
    have herase : (insert i ∅ : Finset (Fin NBUF)).erase i = ∅ := by simp
    rw [herase] at h2
    refine hQ _ h2 ⟨hm1.sb_eq, hm1.start_eq, hm1.size_eq⟩ rfl hk.disk hk.committed ?_
    change ({ s1.log with lh := _ } : Log) = _
    rw [hk.log]
    rfl
  · have hall : (headBlocks (s.disk sb.logstart.toNat)).all (homeBlock s1.log s1.sb) = true := by
      rw [List.all_eq_true]
      intro b hb
      rw [hm1.sb_eq]
      exact homeBlock_of_home hv hm1.start_eq hm1.size_eq (h.disk.home b hb)
    cases hall.symm.trans hf

/-- The first `k` logged blocks are in place; the header on the disk is the one in memory. -/
structure Installed (sb : Superblock) (p : Pid) (l : Log) (head : Block) (committed : Nat → Block)
    (k : Nat) (s : Sys) : Prop where
  running : Recovering sb p ∅ s
  mounted : Mounted sb s
  log_eq : s.log = l
  head_eq : s.disk sb.logstart.toNat = head
  committed_eq : s.committed = committed
  done : ∀ j, j < k → s.disk (headBlock head j) = committed (headBlock head j)

theorem installBody_spec (hv : sb.Valid) {l : Log} {head : Block} {k : Nat}
    (h : Installed sb p l head committed k s) (hlh : l.lh = headBlocks head)
    (hk : k < headCount head) :
    (installBody p true k).ensures (Rebooting sb p) E
      (fun _ => Installed sb p l head committed (k + 1)) s := by
  obtain ⟨hrec, hm, rfl, rfl, rfl, hdone⟩ := h
  have hhome := hrec.disk.headBlock_home hk
  have hcount := hrec.disk.count_lt
  have hslot := hrec.disk.slot k hk
  have hne : sb.logstart.toNat + k + 1 ≠ headBlock (s.disk sb.logstart.toNat) k := by
    intro heq
    exact Recoverable.not_inLog_of_home hhome (heq ▸ ⟨by omega, by omega⟩)
  unfold installBody
  rw [ensures_bind]
  refine hrec.breadLog (b := sb.logstart.toNat + k + 1) (by simp) (by rw [hm.start_eq]) (by simp) ?_
  intro lbuf s1 _ h1 hframe1 hlno hlvalid hldata _
  have hk1 := Kept.of_sameBut hframe1
  rw [ensures_bind]
  refine h1.breadLog (b := headBlock (s.disk sb.logstart.toNat) k) ?_ ?_ ?_ ?_
  · exact lt_of_le_of_lt (Finset.card_insert_le _ _) (by decide)
  · rw [hk1.log, hlh]
    exact getD_headBlocks hk
  · intro i hi
    rw [Finset.mem_insert] at hi
    rcases hi with rfl | hi
    · rw [hlno]
      exact hne
    · simp at hi
  intro dbuf s2 hdnot h2 hframe2 hdno hdvalid _ hkeep
  have hk2 := Kept.of_sameBut hframe2
  have hldata2 : (s2.buf lbuf).data = s.disk (sb.logstart.toNat + k + 1) := by
    rw [hkeep lbuf (by simp)]
    exact hldata
  have hdisk2 : s2.disk = s.disk := hk2.disk.trans hk1.disk
  have hcom2 : s2.committed = s.committed := hk2.committed.trans hk1.committed
  have hlog2 : s2.log = s.log := hk2.log.trans hk1.log
  rw [ensures_bind, ensures_modify, hldata2, ensures_bind]
  refine h2.bwrite_fill (by simp) hdvalid ?_ ?_ ?_
  · rw [hdisk2, hcom2, hdno]
    exact hrec.disk.install hv hk
  · rintro ⟨heq, -⟩
    rw [hdno, hlog2, hm.start_eq] at heq
    exact Recoverable.ne_logstart_of_home hhome hv heq
  intro h3
  change (Storage.brelse p lbuf >>= fun _ => Storage.brelse p dbuf).ensures _ _ _ _
  rw [ensures_bind]
  refine h3.brelse (by simp) ?_
  intro h4
  refine h4.brelse ?_ ?_
  · rw [Finset.mem_erase]
    refine ⟨?_, by simp⟩
    rintro rfl
    exact hdnot (by simp)
  intro h5
  have hempty : ((insert dbuf (insert lbuf ∅) : Finset (Fin NBUF)).erase lbuf).erase dbuf = ∅ := by
    ext j
    simp only [Finset.mem_erase, Finset.mem_insert, Finset.notMem_empty, or_false, iff_false]
    tauto
  rw [hempty] at h5
  refine ⟨h5, ?_, hlog2, ?_, hcom2, ?_⟩
  · exact hm.of_eq hlog2 (hk2.sb.trans hk1.sb)
  · simp only [Alone.released_disk, wrote_disk]
    rw [hdno, hdisk2, update_of_ne (Ne.symm (Recoverable.ne_logstart_of_home hhome hv))]
  · intro j hj
    simp only [Alone.released_disk, wrote_disk]
    rw [hdno, hdisk2]
    by_cases heq : headBlock (s.disk sb.logstart.toNat) j = headBlock (s.disk sb.logstart.toNat) k
    · rw [heq, update_self]
      exact hslot
    · rw [update_of_ne heq]
      refine hdone j ?_
      have : j ≠ k := by
        rintro rfl
        exact heq rfl
      omega

theorem installTrans_spec (hv : sb.Valid) {l : Log} {head : Block}
    (h : Installed sb p l head committed 0 s) (hlh : l.lh = headBlocks head) :
    (installTrans p true).ensures (Rebooting sb p) E
      (fun _ => Installed sb p l head committed (headCount head)) s := by
  unfold installTrans
  rw [ensures_bind, ensures_gets, h.log_eq, hlh, length_headBlocks]
  have hbody : ∀ k s', 0 ≤ k → k < 0 + headCount head → Installed sb p l head committed k s' →
      (installBody p true k).ensures (Rebooting sb p) E
        (fun _ => Installed sb p l head committed (k + 1)) s' := by
    intro k s' _ hk h'
    exact installBody_spec hv h' hlh (by omega)
  have hloop := ensures_loop (Installed sb p l head committed) hbody h
  rwa [Nat.zero_add] at hloop

/-- Clearing the header after every logged block is in place. -/
theorem writeHead_spec (hv : sb.Valid) (h : Recovering sb p ∅ s) (hm : Mounted sb s) (hlh : s.log.lh = [])
    (hdone : ∀ k, k < headCount (s.disk sb.logstart.toNat) →
      s.disk (headBlock (s.disk sb.logstart.toNat) k) =
        s.committed (headBlock (s.disk sb.logstart.toNat) k))
    {Q : Unit → Sys → Prop}
    (hQ : ∀ s', Recovering sb p ∅ s' → Mounted sb s' → s'.log = s.log →
      s'.committed = s.committed → headCount (s'.disk sb.logstart.toNat) = 0 → Q () s') :
    (writeHead p).ensures (Rebooting sb p) E Q s := by
  unfold writeHead
  rw [ensures_bind]
  refine h.breadLog (by simp) hm.start_eq (by simp) ?_
  intro i s1 _ h1 hframe hno hvalid hdata _
  have hk := Kept.of_sameBut hframe
  have hcount : headCount (encodeHead (s1.buf i).data []) = 0 := headCount_encodeHead (by simp)
  rw [ensures_bind, ensures_modify, ensures_bind, hk.log, hlh]
  refine h1.bwrite_fill (by simp) hvalid ?_ ?_ ?_
  · rw [hno, hk.disk, hk.committed]
    exact h.disk.clear_head hv hdone
  · rintro ⟨-, hne⟩
    exact hne hcount
  intro h2
  refine h2.brelse (by simp) ?_
  intro h3
  have herase : (insert i ∅ : Finset (Fin NBUF)).erase i = ∅ := by simp
  rw [herase] at h3
  have hm1 := hm.of_eq hk.log hk.sb
  refine hQ _ h3 ⟨hm1.sb_eq, hm1.start_eq, hm1.size_eq⟩ hk.log hk.committed ?_
  simp only [Alone.released_disk, wrote_disk]
  rw [hno, update_self]
  exact hcount

end Recovering

/-! ## The whole of `initlog` -/

/-- A freshly mounted disk: nothing cached differs from it, and its home blocks are those of the
committed transactions. -/
structure Ready (sb : Superblock) (committed : Nat → Block) (s : Sys) : Prop where
  bio : BioInv s.bcache s.chan none
  chan : ∀ q, s.chan q = none
  unlocked : ∀ i, (s.buf i).locked = false
  wf : ∀ i, (s.buf i).Wf
  clean : ∀ i, (s.buf i).valid = true → (s.buf i).data = s.disk (s.buf i).blockno
  pinned : ∀ i, (s.buf i).pinned = 0
  sb_eq : s.sb = sb
  log_eq : s.log = { start := sb.logstart.toNat, size := sb.nlog.toNat, dev := ROOTDEV }
  phase : s.phase = .up
  ops : ∀ q, s.ops q = .out
  dirty : ∀ i, s.dirty i = false
  last : ∀ b, s.last b = none
  group : s.group = []
  disk : Recoverable sb s.disk s.committed
  head : headCount (s.disk sb.logstart.toNat) = 0
  committed_eq : s.committed = committed

theorem recovering_boot {sb : Superblock} {disk : Nat → Block} (p : Pid) (hrec : Recoverable sb disk committed) :
    Recovering sb p ∅ { Sys.boot disk committed with
      log := { dev := ROOTDEV }, phase := .recovering } := by
  refine ⟨⟨BioInv.binit, fun _ => rfl, ?_, ?_⟩, ?_, ?_, fun _ => rfl, hrec, rfl, fun _ => rfl,
    fun _ => rfl, fun _ => rfl, rfl, rfl⟩
  · intro i
    simp [Sys.buf, Sys.boot, binit]
  · intro i hi
    simp [Sys.buf, Sys.boot, binit] at hi
  · intro i
    exact Or.inr ⟨rfl, rfl, rfl⟩
  · intro i hi
    simp [Sys.buf, Sys.boot, binit] at hi

theorem recoverFromLog_spec {sb : Superblock} {p : Pid} {s : Sys} {E : Option String → Sys → Prop}
    (hv : sb.Valid) (h : Recovering sb p ∅ s) (hm : Recovering.Mounted sb s)
    {Q : Unit → Sys → Prop}
    (hQ : ∀ s', Recovering sb p ∅ s' → Recovering.Mounted sb s' →
      s'.log = { s.log with lh := [] } → s'.committed = s.committed →
      headCount (s'.disk sb.logstart.toNat) = 0 → Q () s') :
    (recoverFromLog p).ensures (Rebooting sb p) E Q s := by
  unfold recoverFromLog
  rw [ensures_bind]
  refine Recovering.readHead_spec hv h hm ?_
  intro s1 h1 hm1 hlh hdisk1 hcom1 hlog1
  rw [ensures_bind]
  have hstart : Recovering.Installed sb p s1.log (s.disk sb.logstart.toNat) s.committed 0 s1 :=
    ⟨h1, hm1, rfl, by rw [hdisk1], hcom1, fun j hj => absurd hj (Nat.not_lt_zero j)⟩
  refine ensures_mono (Recovering.installTrans_spec hv hstart hlh) ?_
  rintro _ s2 ⟨h2, hm2, hlog2, hhead, hcom2, hdone⟩
  rw [ensures_bind]
  refine Recovering.writeHead_spec (s := { s2 with log := { s2.log with lh := [] }, group := [] })
    hv ?_ ⟨hm2.sb_eq, hm2.start_eq, hm2.size_eq⟩ rfl ?_ ?_
  · have h3 := h2.set_log { s2.log with lh := [] } s2.sb h2.dev
    exact ⟨⟨h3.alone.bio, h3.alone.chan, h3.alone.held, h3.alone.pid⟩, h3.wf, h3.clean, h3.pinned,
      h3.disk, h3.phase, h3.ops, h3.dirty, h3.last, rfl, h3.dev⟩
  · intro k hk
    change s2.disk (headBlock (s2.disk sb.logstart.toNat) k) =
      s2.committed (headBlock (s2.disk sb.logstart.toNat) k)
    change k < headCount (s2.disk sb.logstart.toNat) at hk
    rw [hhead] at hk ⊢
    rw [hcom2]
    exact hdone k hk
  · intro s' h' hm' hlog' hcom' hcount
    refine hQ s' h' hm' ?_ (hcom'.trans hcom2) hcount
    rw [hlog']
    change ({ s2.log with lh := [] } : Log) = _
    rw [hlog2, hlog1]

/-- **Recovery is total.** From every recoverable disk `initlog` returns with the committed
home blocks in place and an empty header. -/
theorem initlog_spec {sb : Superblock} {disk : Nat → Block} (hv : sb.Valid) (p : Pid)
    (hrec : Recoverable sb disk committed) :
    (initlog p ROOTDEV).ensures (Rebooting sb p) (fun _ _ => False)
      (fun _ => Ready sb committed) (Sys.boot disk committed) := by
  unfold initlog
  rw [ensures_bind, ensures_modify, ensures_bind]
  refine Recovering.readsb_spec (recovering_boot p hrec) ?_
  intro s1 h1 hsb hlog1 hdisk1 hcom1
  have hle := hv.log_le
  have hlt := sb.size.toNat_lt
  have hgt := hv.logstart_gt
  have hpos := hv.nlog_pos
  have hsum : (sb.logstart + sb.nlog).toNat = sb.logstart.toNat + sb.nlog.toNat := by
    rw [UInt32.toNat_add]
    omega
  rw [ensures_bind, ensures_check]
  refine ⟨fun _ => ?_, fun hf => ?_⟩
  swap
  · rw [hsb, hv.magic] at hf
    simp at hf
  rw [ensures_bind, ensures_check]
  refine ⟨fun _ => ?_, fun hf => ?_⟩
  swap
  · rw [hsb] at hf
    simp only [decide_eq_false_iff_not, UInt32.lt_iff_toNat_lt] at hf
    exact hf ⟨hpos, hgt⟩
  rw [ensures_bind, ensures_check]
  refine ⟨fun _ => ?_, fun hf => ?_⟩
  swap
  · rw [hsb] at hf
    simp only [decide_eq_false_iff_not, UInt32.le_iff_toNat_le, hsum] at hf
    exact hf hle
  rw [ensures_bind, ensures_modify, ensures_bind]
  refine recoverFromLog_spec hv (h1.set_log
    { s1.log with
      start := s1.sb.logstart.toNat
      size := s1.sb.nlog.toNat
      lh := []
      outstanding := 0
      committing := false } s1.sb h1.dev) ⟨hsb, ?_, ?_⟩ ?_
  · change s1.sb.logstart.toNat = _
    rw [hsb]
  · change s1.sb.nlog.toNat = _
    rw [hsb]
  intro s2 h2 hm2 hlog2 hcom2 hcount
  refine ⟨h2.alone.bio, h2.alone.chan, ?_, h2.wf, h2.clean, h2.pinned, hm2.sb_eq, ?_, rfl, h2.ops,
    h2.dirty, h2.last, h2.group, h2.disk, hcount, hcom2.trans hcom1⟩
  · intro i
    have hfree : (s2.buf i).locked = false := by
      simpa using mt (h2.alone.held i).mpr (by simp)
    exact hfree
  · change s2.log = _
    rw [hlog2]
    simp only [hsb, h1.dev]

end Xv6.Storage
