import Xv6.Storage.StoreCommit

/-!
# The stages of a commit

`write_log` copies the logged buffers into the log slots, `write_head` makes the transaction
durable, `install_trans` copies the slots to the home blocks, and a second `write_head` frees the
log. The disk is recoverable after each block write.
-/

namespace Xv6.Storage

open Data Coop Prog Function
open Logic (safe_seq safe_bind safe_mono safe_gets)

variable {sb : Superblock} {tight : Prop} {p q : Pid} {i j : Fin NBUF} {v : StoreView}
  {K K₀ : Commit} {w0 w : Sys × Nat}

namespace Committing

/-! ## What the invariant says about the commit part -/

section

variable (h : Committing sb tight p v K w0 w)
include h

theorem start_eq : K.log.start = sb.logstart.toNat := by
  rw [← h.log_eq]
  exact h.run.log.start_eq

theorem disk_recoverable : Recoverable sb K.disk K.committed := by
  rw [← h.disk_eq, ← h.committed_eq]
  exact h.run.log.disk

theorem len_lt : K.log.lh.length < sb.nlog.toNat := by
  rw [← h.log_eq]
  exact h.run.log.len_lt

theorem len_le : K.log.lh.length ≤ LOGSIZE := by
  rw [← h.log_eq]
  exact h.run.log.len_le

theorem nodup : K.log.lh.Nodup := by
  rw [← h.log_eq]
  exact h.run.log.nodup

theorem home {b : Nat} (hb : b ∈ K.log.lh) : sb.Home b := by
  rw [← h.log_eq] at hb
  exact h.run.log.home b hb

theorem last_home {b : Nat} {d : Block} (hb : K.last b = some d) : sb.Home b := by
  rw [← h.last_eq] at hb
  exact h.run.log.last_home b d hb

theorem getD_mem {k : Nat} (hk : k < K.log.lh.length) : sb.Home (K.log.lh.getD k 0) := by
  apply h.home
  rw [List.getD_eq_getElem _ _ hk]
  exact List.getElem_mem hk

/-- The contents of a held buffer that was not modified. -/
theorem data_eq {hd : Held} (hi : v.holds i = some hd) (hvalid : hd.valid) (hclean : hd.dirty = false) :
    (w.1.buf i).data = K.cur hd.blockno := by
  obtain ⟨-, rfl⟩ := h.holds hi
  obtain rfl := h.commit_eq
  exact h.run.log.data i hvalid hclean

end

end Committing

/-! ## `write_log` -/

/-- The first `k` logged blocks are in their slots; `K₀` is the beginning of the commit. -/
structure Logged (sb : Superblock) (K₀ K : Commit) (k : Nat) : Prop where
  log : K.log = K₀.log
  last : K.last = K₀.last
  committed : K.committed = K₀.committed
  tail : K.tail = K₀.tail
  head : K.disk sb.logstart.toNat = K₀.disk sb.logstart.toNat
  outside : ∀ b, ¬ sb.InLog b → K.disk b = K₀.disk b
  slot : ∀ j, j < k → K.disk (sb.logstart.toNat + j + 1) = K₀.cur (K₀.log.lh.getD j 0)

theorem Logged.cur_eq {k b : Nat} (h : Logged sb K₀ K k) (hb : sb.Home b) : K.cur b = K₀.cur b := by
  unfold Commit.cur
  rw [h.last, h.outside b (Recoverable.not_inLog_of_home hb)]

theorem writeLogBody_spec {k : Nat} (hv : sb.Valid) (h : Committing sb tight p v K w0 w)
    (hst : Logged sb K₀ K k) (hhead : headCount (K₀.disk sb.logstart.toNat) = 0)
    (hk : k < K₀.log.lh.length) :
    (storeLogic sb tight).safe p (writeLogBody p k)
      (fun _ w0' w' => ∃ K', Committing sb tight p v K' w0' w' ∧ Logged sb K₀ K' (k + 1)) w0 w := by
  have hlen := h.len_lt
  have hk' : k < K.log.lh.length := by
    rw [hst.log]
    exact hk
  have hhome := h.getD_mem hk'
  unfold writeLogBody
  refine safe_seq (h.breadLog (b := sb.logstart.toNat + k + 1) (by rw [h.start_eq])) ?_
  rintro dst w1 w2 ⟨hdst, hd1, h1, hno1, hclean1, hvalid1⟩
  refine safe_seq (h1.breadLog rfl) ?_
  rintro src w3 w4 ⟨hsrc, hd2, h2, hno2, hclean2, hvalid2⟩
  have hne : src ≠ dst := by
    rintro rfl
    simp [StoreView.hold] at hsrc
  have hdata := h2.data_eq (i := src) (by simp [StoreView.hold]) hvalid2 hclean2
  rw [hno2] at hdata
  rw [safe_bind]
  refine Logic.safe_modify w4.2 ?_
  rw [hdata]
  have hin : sb.InLog hd1.blockno := by
    rw [hno1]
    exact ⟨by omega, by omega⟩
  have hnostart : hd1.blockno ≠ sb.logstart.toNat := by
    rw [hno1]
    omega
  have hnolast : ∀ d', K.last hd1.blockno = some d' → d' = K.cur (K.log.lh.getD k 0) := by
    intro d' hd'
    exact absurd hin (Recoverable.not_inLog_of_home (h.last_home hd'))
  have hhold : ((v.hold dst (some hd1)).hold src (some hd2)).holds dst = some hd1 := by
    simp [StoreView.hold, Ne.symm hne]
  have hcom : K.committed = if hd1.blockno = K.log.start ∧
      headCount (K.cur (K.log.lh.getD k 0)) ≠ 0 then
      fun a => if a ∈ K.log.lh then K.cur a else K.committed a else K.committed := by
    rw [if_neg]
    rintro ⟨hs, -⟩
    exact hnostart (hs.trans h.start_eq)
  have hrec : Recoverable sb (update K.disk hd1.blockno (K.cur (K.log.lh.getD k 0))) K.committed := by
    apply h.disk_recoverable.write_slot hv ?_ hin hnostart
    rw [hst.head]
    exact hhead
  refine safe_seq (h2.bwrite hhold hvalid1 hcom hrec hnolast (Or.inl hin)) ?_
  intro _ w5 w6 h3
  refine safe_seq (h3.brelse (StoreView.hold_self _ dst _) hclean1) ?_
  intro _ w7 w8 h4
  have hsrc2 : (((((v.hold dst (some hd1)).hold src (some hd2)).hold dst
      (some { hd1 with data := K.cur (K.log.lh.getD k 0) })).hold dst none).holds src) = some hd2 := by
    rw [StoreView.hold_of_ne _ _ hne, StoreView.hold_of_ne _ _ hne, StoreView.hold_self]
  refine safe_mono (h4.brelse hsrc2 hclean2) ?_
  intro _ w9 w10 h5
  rw [StoreView.hold_idem, StoreView.hold_comm _ _ _ (Ne.symm hne), StoreView.hold_idem,
    StoreView.hold_none hsrc, StoreView.hold_idem, StoreView.hold_none hdst] at h5
  refine ⟨_, h5, hst.log, hst.last, hst.committed, hst.tail, ?_, ?_, ?_⟩
  · change update K.disk hd1.blockno _ _ = _
    rw [update_of_ne (Ne.symm hnostart)]
    exact hst.head
  · intro b hb
    have hbd : b ≠ hd1.blockno := by
      rintro rfl
      exact hb hin
    change update K.disk hd1.blockno _ _ = _
    rw [update_of_ne hbd]
    exact hst.outside b hb
  · intro l hl
    change update K.disk hd1.blockno _ _ = _
    rw [hno1]
    by_cases hlk : l = k
    · subst hlk
      rw [update_self, hst.cur_eq hhome, hst.log]
    · rw [update_of_ne (by omega)]
      exact hst.slot l (by omega)

theorem writeLog_spec (hv : sb.Valid) (h : Committing sb tight p v K w0 w)
    (hhead : headCount (K.disk sb.logstart.toNat) = 0) :
    (storeLogic sb tight).safe p (writeLog p)
      (fun _ w0' w' => ∃ K', Committing sb tight p v K' w0' w' ∧
        Logged sb K K' K.log.lh.length) w0 w := by
  unfold writeLog
  rw [safe_bind]
  refine safe_gets ?_
  rw [h.log_eq]
  have hbody : ∀ k w0 w, 0 ≤ k → k < 0 + K.log.lh.length →
      (∃ K', Committing sb tight p v K' w0 w ∧ Logged sb K K' k) →
      (storeLogic sb tight).safe p (writeLogBody p k)
        (fun _ w0 w => ∃ K', Committing sb tight p v K' w0 w ∧ Logged sb K K' (k + 1)) w0 w := by
    rintro k w0 w - hk ⟨K', h', hst⟩
    exact writeLogBody_spec hv h' hst hhead (by omega)
  have hloop := Logic.safe_loop (fun k w0 w => ∃ K', Committing sb tight p v K' w0 w ∧ Logged sb K K' k)
    hbody ⟨K, h, rfl, rfl, rfl, rfl, rfl, fun _ _ => rfl, fun l hl => absurd hl (Nat.not_lt_zero l)⟩
  rwa [Nat.zero_add] at hloop

/-! ## `write_head` -/

/-- The write of the header in memory, whatever it does to the committed contents. -/
theorem writeHead_store (h : Committing sb tight p v K w0 w) (hv : sb.Valid) (committed : Nat → Block)
    (hcom : ∀ d, committed = if sb.logstart.toNat = K.log.start ∧
      headCount (encodeHead d K.log.lh) ≠ 0 then
      fun a => if a ∈ K.log.lh then K.cur a else K.committed a else K.committed)
    (hrec : ∀ d, Recoverable sb
      (update K.disk sb.logstart.toNat (encodeHead d K.log.lh)) committed) :
    (storeLogic sb tight).safe p (writeHead p)
      (fun _ w0' w' => ∃ d, Committing sb tight p v { K with
        disk := update K.disk sb.logstart.toNat (encodeHead d K.log.lh)
        committed := committed } w0' w') w0 w := by
  have hin : sb.InLog sb.logstart.toNat := by
    have := hv.nlog_pos
    exact ⟨Nat.le_refl _, by omega⟩
  unfold writeHead
  refine safe_seq (h.breadLog h.start_eq) ?_
  rintro i w1 w2 ⟨hi, hd, h1, hno, hclean, hvalid⟩
  rw [safe_bind]
  refine Logic.safe_modify w2.2 ?_
  have hhold : (v.hold i (some hd)).holds i = some hd := by simp [StoreView.hold]
  have hlast : ∀ d', K.last hd.blockno = some d' → d' = encodeHead (w2.1.buf i).data K.log.lh := by
    intro d' hd'
    rw [hno] at hd'
    exact absurd hin (Recoverable.not_inLog_of_home (h.last_home hd'))
  rw [h1.log_eq]
  have hcom' : committed = if hd.blockno = K.log.start ∧
      headCount (encodeHead (w2.1.buf i).data K.log.lh) ≠ 0 then
      fun a => if a ∈ K.log.lh then K.cur a else K.committed a else K.committed := by
    rw [hno]
    exact hcom _
  have hrec' : Recoverable sb (update K.disk hd.blockno (encodeHead (w2.1.buf i).data K.log.lh)) committed := by
    rw [hno]
    exact hrec _
  refine safe_seq (h1.bwrite hhold hvalid hcom' hrec' hlast (by rw [hno]; exact Or.inl hin)) ?_
  intro _ w3 w4 h2
  refine safe_mono (h2.brelse (StoreView.hold_self _ i _) hclean) ?_
  intro _ w5 w6 h3
  refine ⟨(w2.1.buf i).data, ?_⟩
  rw [StoreView.hold_idem, StoreView.hold_idem, StoreView.hold_none hi, hno] at h3
  exact h3

/-! ## `install_trans` -/

/-- The first `k` logged blocks are installed and unpinned; the header and the slots are those of
the transaction `K₀`. -/
structure Installing (sb : Superblock) (K₀ K : Commit) (k : Nat) : Prop where
  log : K.log = K₀.log
  last : K.last = K₀.last
  committed : ∀ b ∈ K₀.log.lh, K.committed b = K₀.cur b
  tail : K.tail = k
  head : headBlocks (K.disk sb.logstart.toNat) = K₀.log.lh
  slot : ∀ j, j < K₀.log.lh.length →
    K.disk (sb.logstart.toNat + j + 1) = K₀.cur (K₀.log.lh.getD j 0)
  done : ∀ j, j < k → K.disk (K₀.log.lh.getD j 0) = K₀.cur (K₀.log.lh.getD j 0)

theorem Installing.headCount_eq {k : Nat} (h : Installing sb K₀ K k) :
    headCount (K.disk sb.logstart.toNat) = K₀.log.lh.length := by
  rw [← h.head, length_headBlocks]

theorem Installing.headBlock_eq {k j : Nat} (h : Installing sb K₀ K k) (hj : j < K₀.log.lh.length) :
    headBlock (K.disk sb.logstart.toNat) j = K₀.log.lh.getD j 0 := by
  rw [← h.head, getD_headBlocks (by rw [h.headCount_eq]; exact hj)]

theorem installStore_body {k : Nat} (hv : sb.Valid) (h : Committing sb tight p v K w0 w)
    (hst : Installing sb K₀ K k) (hk : k < K₀.log.lh.length) :
    (storeLogic sb tight).safe p (installBody p false k)
      (fun _ w0' w' => ∃ K', Committing sb tight p v K' w0' w' ∧ Installing sb K₀ K' (k + 1)) w0 w := by
  have hlen := h.len_lt
  rw [hst.log] at hlen
  have hhome : sb.Home (K₀.log.lh.getD k 0) := by
    have := h.getD_mem (by rw [hst.log]; exact hk)
    rwa [hst.log] at this
  have hcount : k < headCount (K.disk sb.logstart.toNat) := by
    rw [hst.headCount_eq]
    exact hk
  have hslotin : sb.InLog (sb.logstart.toNat + k + 1) := ⟨by omega, by omega⟩
  unfold installBody
  refine safe_seq (h.breadLog (by rw [h.start_eq])) ?_
  rintro lbuf w1 w2 ⟨hlbuf, hd1, h1, hno1, hclean1, hvalid1⟩
  refine safe_seq (h1.breadLog (by rw [hst.log])) ?_
  rintro dbuf w3 w4 ⟨hdbuf, hd2, h2, hno2, hclean2, hvalid2⟩
  have hne : dbuf ≠ lbuf := by
    rintro rfl
    rw [StoreView.hold_self] at hdbuf
    cases hdbuf
  have hlhold : ((v.hold lbuf (some hd1)).hold dbuf (some hd2)).holds lbuf = some hd1 := by
    rw [StoreView.hold_of_ne _ _ (Ne.symm hne), StoreView.hold_self]
  have hdata : (w4.1.buf lbuf).data = K₀.cur (K₀.log.lh.getD k 0) := by
    rw [h2.data_eq hlhold hvalid1 hclean1, hno1, ← hst.slot k hk]
    unfold Commit.cur
    cases hl : K.last (sb.logstart.toNat + k + 1) with
    | none => rfl
    | some d => exact absurd hslotin (Recoverable.not_inLog_of_home (h.last_home hl))
  rw [safe_bind]
  refine Logic.safe_modify w4.2 ?_
  rw [hdata]
  have hcom : K.committed = if hd2.blockno = K.log.start ∧
      headCount (K₀.cur (K₀.log.lh.getD k 0)) ≠ 0 then
      fun a => if a ∈ K.log.lh then K.cur a else K.committed a else K.committed := by
    rw [if_neg]
    rintro ⟨hs, -⟩
    rw [hno2, h.start_eq] at hs
    exact Recoverable.ne_logstart_of_home hhome hv hs
  have hrec : Recoverable sb (update K.disk hd2.blockno (K₀.cur (K₀.log.lh.getD k 0))) K.committed := by
    have hinst := h.disk_recoverable.install hv hcount
    rw [hst.headBlock_eq hk, hst.slot k hk] at hinst
    rw [hno2]
    exact hinst
  have hlast : ∀ d', K.last hd2.blockno = some d' → d' = K₀.cur (K₀.log.lh.getD k 0) := by
    intro d' hd'
    rw [hno2, hst.last] at hd'
    unfold Commit.cur
    rw [hd']
    rfl
  refine safe_seq (h2.bwrite (StoreView.hold_self _ dbuf _) hvalid2 hcom hrec hlast
    (by rw [hno2]; exact Or.inr hhome)) ?_
  intro _ w5 w6 h3
  rw [if_neg (by simp)]
  refine safe_seq (h3.bunpin hv (StoreView.hold_self _ dbuf _) hvalid2 ?_ ?_ ?_) ?_
  · change K.tail < K.log.lh.length
    rw [hst.tail, hst.log]
    exact hk
  · change K.log.lh.getD K.tail 0 = hd2.blockno
    rw [hst.tail, hst.log, hno2]
  · intro d hd'
    change update K.disk hd2.blockno _ hd2.blockno = d
    rw [update_self]
    exact (hlast d hd').symm
  intro _ w7 w8 h4
  have hlhold2 : (((v.hold lbuf (some hd1)).hold dbuf (some hd2)).hold dbuf
      (some { hd2 with data := K₀.cur (K₀.log.lh.getD k 0) })).holds lbuf = some hd1 := by
    rw [StoreView.hold_of_ne _ _ (Ne.symm hne)]
    exact hlhold
  refine safe_seq (h4.brelse hlhold2 hclean1) ?_
  intro _ w9 w10 h5
  have hdhold : ((((v.hold lbuf (some hd1)).hold dbuf (some hd2)).hold dbuf
      (some { hd2 with data := K₀.cur (K₀.log.lh.getD k 0) })).hold lbuf none).holds dbuf =
      some { hd2 with data := K₀.cur (K₀.log.lh.getD k 0) } := by
    rw [StoreView.hold_of_ne _ _ hne, StoreView.hold_self]
  refine safe_mono (h5.brelse hdhold hclean2) ?_
  intro _ w11 w12 h6
  rw [StoreView.hold_idem, StoreView.hold_comm _ _ _ (Ne.symm hne), StoreView.hold_idem,
    StoreView.hold_none hdbuf, StoreView.hold_idem, StoreView.hold_none hlbuf] at h6
  have hnostart := Recoverable.ne_logstart_of_home hhome hv
  refine ⟨_, h6, hst.log, hst.last, hst.committed, ?_, ?_, ?_, ?_⟩
  · change K.tail + 1 = k + 1
    rw [hst.tail]
  · change headBlocks (update K.disk hd2.blockno _ _) = _
    rw [hno2, update_of_ne (Ne.symm hnostart)]
    exact hst.head
  · intro l hl
    change update K.disk hd2.blockno _ _ = _
    have hl' : sb.InLog (sb.logstart.toNat + l + 1) := ⟨by omega, by omega⟩
    have hnel : sb.logstart.toNat + l + 1 ≠ hd2.blockno := by
      intro heq
      rw [hno2] at heq
      exact Recoverable.not_inLog_of_home hhome (heq ▸ hl')
    rw [update_of_ne hnel]
    exact hst.slot l hl
  · intro l hl
    change update K.disk hd2.blockno _ _ = _
    rw [hno2]
    by_cases heq : K₀.log.lh.getD l 0 = K₀.log.lh.getD k 0
    · rw [heq, update_self]
    · rw [update_of_ne heq]
      apply hst.done
      have hlk : l ≠ k := by
        rintro rfl
        exact heq rfl
      omega

theorem installTrans_store (hv : sb.Valid) (h : Committing sb tight p v K w0 w) (hst : Installing sb K₀ K 0) :
    (storeLogic sb tight).safe p (installTrans p false)
      (fun _ w0' w' => ∃ K', Committing sb tight p v K' w0' w' ∧
        Installing sb K₀ K' K₀.log.lh.length) w0 w := by
  unfold installTrans
  rw [safe_bind]
  refine safe_gets ?_
  rw [h.log_eq, hst.log]
  have hbody : ∀ k w0 w, 0 ≤ k → k < 0 + K₀.log.lh.length →
      (∃ K', Committing sb tight p v K' w0 w ∧ Installing sb K₀ K' k) →
      (storeLogic sb tight).safe p (installBody p false k)
        (fun _ w0 w => ∃ K', Committing sb tight p v K' w0 w ∧ Installing sb K₀ K' (k + 1)) w0 w := by
    rintro k w0 w - hk ⟨K', h', hst'⟩
    exact installStore_body hv h' hst' (by omega)
  have hloop := Logic.safe_loop
    (fun k w0 w => ∃ K', Committing sb tight p v K' w0 w ∧ Installing sb K₀ K' k) hbody ⟨K, h, hst⟩
  rwa [Nat.zero_add] at hloop

/-! ## `commit` and `end_op` -/

theorem writeHead_commit (hv : sb.Valid) (h : Committing sb tight p v K w0 w) (hst : Logged sb K₀ K K₀.log.lh.length)
    (hhead : headCount (K₀.disk sb.logstart.toNat) = 0) (htail : K₀.tail = 0)
    (hpos : 0 < K₀.log.lh.length) :
    (storeLogic sb tight).safe p (writeHead p)
      (fun _ w0' w' => ∃ K', Committing sb tight p v K' w0' w' ∧ Installing sb K₀ K' 0) w0 w := by
  have hlen := h.len_le
  have hsmall : ∀ a ∈ K.log.lh, a < 2 ^ 32 := fun a ha =>
    lt_trans (h.home ha).2 sb.size.toNat_lt
  have hhead' : headCount (K.disk sb.logstart.toNat) = 0 := by
    rw [hst.head]
    exact hhead
  refine safe_mono (writeHead_store h hv
    (fun a => if a ∈ K.log.lh then K.cur a else K.committed a) ?_ ?_) ?_
  · intro d
    rw [if_pos]
    rw [headCount_encodeHead hlen, h.start_eq, hst.log]
    exact ⟨rfl, Nat.pos_iff_ne_zero.mp hpos⟩
  · intro d
    apply h.disk_recoverable.write_head hv hhead' hlen h.len_lt h.nodup fun a => h.home
    intro k hk
    rw [hst.log] at hk ⊢
    rw [hst.slot k hk, hst.cur_eq]
    rw [← hst.log] at hk ⊢
    exact h.getD_mem hk
  · rintro _ w1 w2 ⟨d, h'⟩
    refine ⟨_, h', hst.log, hst.last, ?_, hst.tail.trans htail, ?_, ?_, ?_⟩
    · intro b hb
      rw [← hst.log] at hb
      change (if b ∈ K.log.lh then K.cur b else K.committed b) = _
      rw [if_pos hb, hst.cur_eq (h.home hb)]
    · change headBlocks (update K.disk sb.logstart.toNat _ sb.logstart.toNat) = _
      rw [update_self, headBlocks_encodeHead hlen hsmall, hst.log]
    · intro l hl
      change update K.disk sb.logstart.toNat _ _ = _
      rw [update_of_ne (by omega)]
      exact hst.slot l hl
    · intro l hl
      exact absurd hl (Nat.not_lt_zero l)

theorem writeHead_clear (hv : sb.Valid) (h : Committing sb tight p v K w0 w) (hlh : K.log.lh = [])
    (hdone : ∀ k, k < headCount (K.disk sb.logstart.toNat) →
      K.disk (headBlock (K.disk sb.logstart.toNat) k) =
        K.committed (headBlock (K.disk sb.logstart.toNat) k)) :
    (storeLogic sb tight).safe p (writeHead p)
      (fun _ w0' w' => ∃ K', Committing sb tight p v K' w0' w' ∧ K'.log.lh = [] ∧
        headCount (K'.disk sb.logstart.toNat) = 0) w0 w := by
  have hcount : ∀ d, headCount (encodeHead d []) = 0 := fun d => headCount_encodeHead (by simp)
  refine safe_mono (writeHead_store h hv K.committed ?_ ?_) ?_
  · intro d
    rw [hlh, hcount d, if_neg (by simp)]
  · intro d
    rw [hlh]
    exact h.disk_recoverable.clear_head hv hdone
  · rintro _ w1 w2 ⟨d, h'⟩
    refine ⟨_, h', hlh, ?_⟩
    change headCount (update K.disk sb.logstart.toNat _ sb.logstart.toNat) = 0
    rw [update_self, hlh]
    exact hcount d

theorem commit_store (hv : sb.Valid) (h : Committing sb tight p v K w0 w)
    (hhead : headCount (K.disk sb.logstart.toNat) = 0) (htail : K.tail = 0) :
    (storeLogic sb tight).safe p (commit p)
      (fun _ w0' w' => ∃ K', Committing sb tight p v K' w0' w' ∧ K'.log.lh = [] ∧
        headCount (K'.disk sb.logstart.toNat) = 0) w0 w := by
  unfold commit
  rw [safe_bind]
  refine safe_gets ?_
  rw [h.log_eq]
  by_cases hpos : 0 < K.log.lh.length
  · rw [if_pos hpos]
    refine safe_seq (writeLog_spec hv h hhead) ?_
    rintro _ w1 w2 ⟨K1, h1, hst1⟩
    refine safe_seq (writeHead_commit hv h1 hst1 hhead htail hpos) ?_
    rintro _ w3 w4 ⟨K2, h2, hst2⟩
    refine safe_seq (installTrans_store hv h2 hst2) ?_
    rintro _ w5 w6 ⟨K3, h3, hst3⟩
    refine safe_seq (h3.clearHead hv (by rw [hst3.tail, hst3.log])) ?_
    intro _ w7 w8 h4
    apply writeHead_clear hv h4 rfl
    intro k hk
    change k < headCount (K3.disk sb.logstart.toNat) at hk
    change K3.disk (headBlock (K3.disk sb.logstart.toNat) k) =
      K3.committed (headBlock (K3.disk sb.logstart.toNat) k)
    rw [hst3.headCount_eq] at hk
    rw [hst3.headBlock_eq hk, hst3.done k hk, hst3.committed]
    rw [List.getD_eq_getElem _ _ hk]
    exact List.getElem_mem hk
  · rw [if_neg hpos]
    exact ⟨K, h, List.length_eq_zero_iff.mp (by omega), hhead⟩

/-- `end_op`: the last process out commits. -/
theorem endOp_store (hv : sb.Valid) {w : Sys × Nat} (h : Run sb tight p v w w) (hwaits : v.waits = none)
    (hin : w.1.Inside p) (hclean : ∀ i, w.1.Holds p i → w.1.dirty i = false) :
    (storeLogic sb tight).safe p (endOp p)
      (fun _ => Run sb tight p { v with op := .out, commits := none }) w w := by
  have hc := h.log.not_committing hin
  have ht := h.log.tail_zero hc
  have hhead := h.log.head hc
  unfold endOp
  rw [safe_bind, Logic.safe_step]
  by_cases hlast : w.1.log.outstanding - 1 = 0
  · have hleave : leave p w.1 = .ok (true, { w.1 with log := { w.1.log with
        outstanding := w.1.log.outstanding - 1, committing := true } }.setOp p .committing) := by
      simp [leave, hc, hlast]
    have hrun := h.outside (h.log.leave_last hin hclean hlast)
      (fun hres => hres.leave (m := { w.1.log with
        outstanding := w.1.log.outstanding - 1, committing := true }) rfl
        (by simp) p (by simp)) rfl rfl rfl rfl
      (fun q hq => ⟨by simp [Sys.setOp, hq], fun hq' =>
        absurd hq' (h.log.op_ne_committing hc q)⟩)
    rw [hleave]
    refine ⟨w.2, ?_⟩
    have hcom : Committing sb tight p v (({ w.1 with log := { w.1.log with
        outstanding := w.1.log.outstanding - 1, committing := true } }.setOp p
          .committing).commit w.2) w ({ w.1 with log := { w.1.log with
        outstanding := w.1.log.outstanding - 1, committing := true } }.setOp p .committing, w.2) := by
      refine ⟨?_, hwaits⟩
      simpa [Sys.setOp, StoreView.at] using hrun
    refine safe_seq (commit_store hv hcom hhead ht) ?_
    rintro _ w1 w2 ⟨K, h', hlh, hhead'⟩
    have hfinish := h'.run.log.finish h'.op_eq (by rw [h'.log_eq]; exact hlh)
      (by rw [h'.disk_eq]; exact hhead')
    have hend := h'.run.outside hfinish
      (fun hres => hres.leave (m := { w2.1.log with committing := false }) rfl
        (fun _ _ => by change w2.1.log.lh = []; rw [h'.log_eq]; exact hlh) p (by simp)) rfl rfl rfl rfl
      (fun q hq => ⟨by simp [Sys.setOp, hq], fun hq' =>
        absurd (h'.run.log.committing_unique q p hq' h'.op_eq) hq⟩)
    refine ⟨w2.2, ?_⟩
    simpa [Sys.setOp, StoreView.at, Logic.safe] using hend
  · have hleave : leave p w.1 = .ok (false, { w.1 with log := { w.1.log with
        outstanding := w.1.log.outstanding - 1 } }.setOp p .out) := by
      simp [leave, hc, hlast]
    have hrun := h.outside (h.log.leave_other hin hclean)
      (fun hres => hres.leave (m := { w.1.log with outstanding := w.1.log.outstanding - 1 })
        (o := .out) rfl (fun h0 => absurd h0 hlast) p (by simp)) rfl rfl rfl rfl
      (fun q hq => ⟨by simp [Sys.setOp, hq], fun hq' =>
        absurd hq' (h.log.op_ne_committing hc q)⟩)
    rw [hleave]
    refine ⟨w.2, ?_⟩
    simpa [Sys.setOp, Logic.safe] using hrun

end Xv6.Storage
