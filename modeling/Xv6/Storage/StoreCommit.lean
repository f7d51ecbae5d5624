import Xv6.Storage.StoreOps

/-!
# The commit inside the store

While one process commits, the log, the disk and the contents last logged belong to it: its view
has them as a `Commit`. The stages of `commit` are predicates on that part of the view.
-/

namespace Xv6.Storage

open Data Coop Prog Function

variable {sb : Superblock} {tight : Prop} {p q : Pid} {s s' : Sys} {t t' : Nat} {i j : Fin NBUF}

/-! ## Single steps of the committing process -/

namespace LogInv

/-- Overwriting a buffer and writing it through, with contents that agree with what was last
logged for the block. -/
theorem write (h : LogInv sb s t) (hbio : BioInv s.bcache s.chan none)
    (hc : s.log.committing) (hvalid : (s.buf i).valid) {d : Block}
    {committed : Nat → Block}
    (hrec : Recoverable sb (update s.disk (s.buf i).blockno d) committed)
    (hlast : ∀ d', s.last (s.buf i).blockno = some d' → d' = d) :
    LogInv sb { s.mod i (Buf.fill d) with
      disk := update s.disk (s.buf i).blockno d, committed := committed } t := by
  have hself : ({ s.mod i (Buf.fill d) with
      disk := update s.disk (s.buf i).blockno d, committed := committed } : Sys).buf i =
      (s.buf i).fill d := s.mod_buf_self i _
  have hne : ∀ k, k ≠ i → ({ s.mod i (Buf.fill d) with
      disk := update s.disk (s.buf i).blockno d, committed := committed } : Sys).buf k =
      s.buf k := fun k hk => s.mod_buf_of_ne _ hk
  refine { h with wf := ?_, pinned := ?_, cached := ?_, data := ?_, dirty := ?_, settled := ?_,
                  disk := hrec, head := ?_ }
  · exact Bcache.forall_mod (fun _ => Buf.Wf) h.wf (h.wf i)
  · exact Bcache.forall_mod (fun _ x => x.pinned = pins (s.log.lh.drop t) x.blockno) h.pinned (h.pinned i)
  · exact fun b hb => (h.cached b hb).imp fun k hk => (Bcache.mod_congr (·.Caches b) rfl k).mpr hk
  · intro k hv hd
    unfold Sys.current
    by_cases hk : k = i
    · subst hk
      rw [hself]
      change d = (s.last (s.buf k).blockno).getD
        (update s.disk (s.buf k).blockno d (s.buf k).blockno)
      rw [update_self]
      cases hl : s.last (s.buf k).blockno with
      | none => rfl
      | some d' => exact (hlast d' hl).symm
    · rw [hne k hk] at hv ⊢
      have hno : (s.buf k).blockno ≠ (s.buf i).blockno := fun hno =>
        hk (h.eq_of_blockno hbio (h.dev_of_valid hv) (h.dev_of_valid hvalid) hno)
      change _ = (s.last (s.buf k).blockno).getD
        (update s.disk (s.buf i).blockno d (s.buf k).blockno)
      rw [update_of_ne hno]
      exact h.data k hv hd
  · exact Bcache.forall_mod (fun k x => s.dirty k → ∃ r, x.LockedBy r ∧ s.Inside r) h.dirty (h.dirty i)
  · intro b d' hb hd
    change update s.disk (s.buf i).blockno d b = d'
    by_cases hbi : b = (s.buf i).blockno
    · subst hbi
      rw [update_self]
      exact (hlast d' hd).symm
    · rw [update_of_ne hbi]
      exact h.settled b d' hb hd
  · intro hf
    exact absurd (hf.symm.trans hc) (by simp)

/-- Unpinning the next header block after it has been installed. -/
theorem unpin (h : LogInv sb s t) (hbio : BioInv s.bcache s.chan none) (hv : sb.Valid)
    (hc : s.log.committing) (hvalid : (s.buf i).valid) (ht : t < s.log.lh.length)
    (hb : s.log.lh.getD t 0 = (s.buf i).blockno)
    (hdone : ∀ d, s.last (s.buf i).blockno = some d → s.disk (s.buf i).blockno = d) :
    (s.buf i).pinned = 1 ∧ LogInv sb (s.mod i Buf.decPin) (t + 1) := by
  have hdrop : s.log.lh.drop t = (s.buf i).blockno :: s.log.lh.drop (t + 1) := by
    rw [List.drop_eq_getElem_cons ht, ← hb, List.getD_eq_getElem _ _ ht]
  have hnot : (s.buf i).blockno ∉ s.log.lh.drop (t + 1) := by
    have hnd : (s.log.lh.drop t).Nodup := h.nodup.sublist (List.drop_sublist t _)
    rw [hdrop, List.nodup_cons] at hnd
    exact hnd.1
  have hhome : sb.Home (s.buf i).blockno := by
    apply h.home
    rw [← hb, List.getD_eq_getElem _ _ ht]
    exact List.getElem_mem ht
  have hone : (s.buf i).pinned = 1 := by
    rw [h.pinned i, hdrop]
    exact pins_of_mem (by simp)
  refine ⟨hone, ?_⟩
  have hself : (s.mod i Buf.decPin).buf i = (s.buf i).decPin := s.mod_buf_self i _
  have hne : ∀ k, k ≠ i → (s.mod i Buf.decPin).buf k = s.buf k := fun k hk => s.mod_buf_of_ne _ hk
  refine { h with wf := ?_, tail_le := ht, tail_zero := ?_, pinned := ?_, cached := ?_, data := ?_,
                  dirty := ?_, settled := ?_ }
  · exact Bcache.forall_mod (fun _ => Buf.Wf) h.wf (h.wf i)
  · intro hf
    exact absurd (hf.symm.trans hc) (by simp)
  · intro k
    by_cases hk : k = i
    · subst hk
      rw [hself]
      change (s.buf k).pinned - 1 = pins (s.log.lh.drop (t + 1)) (s.buf k).blockno
      rw [hone, pins_of_notMem hnot]
    · rw [hne k hk, h.pinned k, hdrop]
      have hno : (s.buf k).blockno ≠ (s.buf i).blockno := fun hno =>
        hk (h.eq_of_home hbio hv hvalid hhome hno)
      change pins ((s.buf i).blockno :: s.log.lh.drop (t + 1)) (s.buf k).blockno =
        pins (s.log.lh.drop (t + 1)) (s.buf k).blockno
      unfold pins
      simp [hno]
  · intro b hb'
    have hmem : b ∈ s.log.lh.drop t := by
      rw [hdrop]
      exact List.mem_cons_of_mem _ hb'
    obtain ⟨k, h1, h2, h3⟩ := h.cached b hmem
    have hk : k ≠ i := by
      rintro rfl
      exact hnot (h2 ▸ hb')
    refine ⟨k, ?_⟩
    rw [hne k hk]
    exact ⟨h1, h2, h3⟩
  · exact Bcache.forall_mod (fun k x => x.valid → s.dirty k = false → x.data = s.current x.blockno) h.data (h.data i)
  · exact Bcache.forall_mod (fun k x => s.dirty k → ∃ r, x.LockedBy r ∧ s.Inside r) h.dirty (h.dirty i)
  · intro b d hb' hd
    by_cases hbi : b = (s.buf i).blockno
    · subst hbi
      exact hdone d hd
    · apply h.settled b d ?_ hd
      rw [hdrop]
      simp only [List.mem_cons, not_or]
      exact ⟨hbi, hb'⟩

theorem clear (h : LogInv sb s t) (hv : sb.Valid) (hc : s.log.committing) (ht : t = s.log.lh.length) :
    LogInv sb { s with log := { s.log with lh := [] }, group := [] } 0 := by
  have hempty : s.log.lh.drop t = [] := by simp [ht]
  refine { h with nodup := List.nodup_nil, home := ?_, len_le := Nat.zero_le _,
                  len_lt := hv.nlog_pos, group_eq := rfl, tail_le := Nat.zero_le _,
                  tail_zero := fun _ => rfl, pinned := ?_, cached := ?_, settled := ?_, head := ?_ }
  · intro b hb
    cases hb
  · intro k
    have hk := h.pinned k
    rw [hempty] at hk
    exact hk
  · intro b hb
    cases hb
  · intro b d _ hd
    exact h.settled b d (by rw [hempty]; simp) hd
  · intro hf
    exact absurd (hf.symm.trans hc) (by simp)

theorem finish (h : LogInv sb s t) (hp : s.ops p = .committing) (hlh : s.log.lh = [])
    (hhead : headCount (s.disk sb.logstart.toNat) = 0) :
    LogInv sb ({ s with log := { s.log with committing := false } }.setOp p .out) t := by
  have hc := h.committing_of_op p hp
  have hops : ∀ q, (({ s with log := { s.log with committing := false } } : Sys).setOp p
      .out).ops q ≠ .committing := by
    intro q
    by_cases hq : q = p
    · subst hq
      simp [Sys.setOp]
    · simp only [Sys.setOp, update_of_ne hq]
      intro hq'
      exact hq (h.committing_unique q p hq' hp)
  have hins : ∀ q, (({ s with log := { s.log with committing := false } } : Sys).setOp p
      .out).Inside q ↔ s.Inside q := by
    intro q
    by_cases hq : q = p
    · subst hq
      simp [Sys.Inside, Sys.setOp, hp]
    · simp [Sys.Inside, Sys.setOp, hq]
  refine { h with outstanding := ?_, committing_of_op := ?_, op_of_committing := ?_,
                  committing_unique := ?_, quiet := ?_, tail_zero := ?_, dirty := ?_, head := ?_ }
  · obtain ⟨A, hA, hcard⟩ := h.outstanding
    exact ⟨A, fun q => (hA q).trans (hins q).symm, hcard⟩
  · intro q hq
    exact absurd hq (hops q)
  · intro hf
    cases hf
  · intro q _ hq
    exact absurd hq (hops q)
  · intro hf
    cases hf
  · intro _
    have := h.tail_le
    rw [hlh] at this
    simpa using this
  · intro k hk
    obtain ⟨r, hheld, hr⟩ := h.dirty k hk
    exact ⟨r, hheld, (hins r).mpr hr⟩
  · intro _
    exact hhead

end LogInv

/-! ## Views of the committing process -/

namespace Commit

/-- What the log holds for a block, or the device. -/
def cur (K : Commit) (b : Nat) : Block := (K.last b).getD (K.disk b)

end Commit

/-- The view of a committing process with the commit part `K`. -/
def StoreView.at (v : StoreView) (K : Commit) : StoreView :=
  { v with op := .committing, commits := some K }

/-- A process that is not waiting. -/
structure Committing (sb : Superblock) (tight : Prop) (p : Pid) (v : StoreView) (K : Commit)
    (w₀ w : Sys × Nat) : Prop where
  run : Run sb tight p (v.at K) w₀ w
  waits : v.waits = none

namespace Committing

variable {v : StoreView} {K : Commit} {w₀ w : Sys × Nat} {hd : Held}

section

variable (h : Committing sb tight p v K w₀ w)
include h

theorem op_eq : w.1.ops p = .committing :=
  congrArg StoreView.op h.run.view

theorem commit_eq : w.1.commit w.2 = K := by
  have hc := congrArg StoreView.commits h.run.view
  simp only [storeView, h.op_eq, if_true, StoreView.at] at hc
  exact Option.some.inj hc

theorem log_eq : w.1.log = K.log := congrArg Commit.log h.commit_eq

theorem disk_eq : w.1.disk = K.disk :=
  congrArg Commit.disk h.commit_eq

theorem last_eq : w.1.last = K.last :=
  congrArg Commit.last h.commit_eq

theorem committed_eq : w.1.committed = K.committed :=
  congrArg Commit.committed h.commit_eq

theorem committing : w.1.log.committing :=
  h.run.log.committing_of_op p h.op_eq

theorem chan_eq : w.1.chan p = none :=
  chan_of_waits (by rw [h.run.view]; exact h.waits)

theorem holds (hi : v.holds i = some hd) : w.1.Holds p i ∧ w.1.held i = hd :=
  holds_eq_some (by rw [h.run.view]; exact hi)

theorem wake {w1 : Sys × Nat} (hinv : StoreInv sb tight w1.1 w1.2)
    (hview : storeView p w1.1 w1.2 = storeView p w.1 w.2) : Committing sb tight p v K w1 w1 := by
  refine ⟨run_of_wake hinv (hview.trans h.run.view) ⟨?_, Or.inr (Or.inl ?_)⟩, h.waits⟩
  · rw [← h.run.view]
    exact boots_eq_none h.run.log.phase
  · simp [StoreView.at]

/-- A step of the committing process: what the others see is unchanged. -/
theorem step {u : Sys} {r : Nat} {v' : StoreView} (hbio : BioInv u.bcache u.chan none) (hlog : LogInv sb u r)
    (hres : tight → Reserved u.log u.ops) (hchan : u.chan = w.1.chan)
    (hops : u.ops = w.1.ops) (hdirty : u.dirty = w.1.dirty) (hbounds : InBounds sb w.1 u)
    (hother : ∀ j, ¬ w.1.Holds p j → (u.buf j).locked = (w.1.buf j).locked ∧
      (u.buf j).pid = (w.1.buf j).pid ∧ (u.buf j).dev = (w.1.buf j).dev ∧
      (u.buf j).blockno = (w.1.buf j).blockno ∧ (u.buf j).valid = (w.1.buf j).valid ∧
      (u.buf j).data = (w.1.buf j).data)
    (hown : ∀ j, w.1.Holds p j → u.Holds p j ∧ (u.buf j).dev = (w.1.buf j).dev ∧
      (u.buf j).blockno = (w.1.buf j).blockno)
    (hholds : ∀ j, (u.buf j).heldBy p (u.dirty j) = v'.holds j)
    (hwaits : v'.waits = none) (hboots : v'.boots = none) :
    Committing sb tight p v' (u.commit r) w₀ (u, r) := by
  have hup := h.run.log.phase
  have hop : u.ops p = .committing := by
    rw [hops]
    exact h.op_eq
  have hident : ∀ j, (u.buf j).dev = (w.1.buf j).dev ∧ (u.buf j).blockno = (w.1.buf j).blockno := by
    intro j
    by_cases hj : w.1.Holds p j
    · exact (hown j hj).2
    · obtain ⟨-, -, h1, h2, -⟩ := hother j hj
      exact ⟨h1, h2⟩
  refine ⟨⟨hbio, hlog, hres, h.run.rel.trans ⟨?_, hbounds⟩, ?_⟩, hwaits⟩
  · intro q hq
    apply storeView_congr
    · exact congrFun hchan q
    · exact congrFun hops q
    · intro j _
      exact hident j
    · intro j
      by_cases hj : w.1.Holds p j
      · refine iff_of_false ?_ ?_
        · intro hqj
          exact hq (hqj.2.symm.trans (hown j hj).1.2)
        · intro hqj
          exact hq (hqj.2.symm.trans hj.2)
      · obtain ⟨h1, h2, -⟩ := hother j hj
        unfold Sys.Holds
        rw [h1, h2]
    · intro j hj
      have hnot : ¬ w.1.Holds p j := fun hp => hq (hj.2.symm.trans hp.2)
      obtain ⟨-, -, h1, h2, h3, h4⟩ := hother j hnot
      unfold Sys.held Buf.held
      rw [h1, h2, h3, h4, hdirty]
    · intro hc
      exact absurd (h.run.log.committing_unique q p hc h.op_eq) hq
    · intro _
      exact ⟨hup, hlog.phase⟩
  · apply StoreView.ext
    · change (u.chan p).map _ = v'.waits
      rw [hchan, h.chan_eq, hwaits]
      rfl
    · exact hop
    · funext j
      exact hholds j
    · exact if_pos hop
    · exact (boots_eq_none hlog.phase).trans hboots.symm

theorem boots_eq : v.boots = none := by
  have hb := congrArg StoreView.boots h.run.view
  rw [boots_eq_none h.run.log.phase] at hb
  exact hb.symm

theorem holds_eq (j : Fin NBUF) : (w.1.buf j).heldBy p (w.1.dirty j) = v.holds j :=
  congrFun (congrArg StoreView.holds h.run.view) j

end

/-! ## The actions -/

section

variable (h : Committing sb tight p v K w₀ w)
include h

/-- The write of a buffer whose contents were just overwritten. -/
theorem bwrite (hi : v.holds i = some hd) (hvalid : hd.valid) {d : Block} {committed : Nat → Block}
    (hcom : committed = if hd.blockno = K.log.start ∧ headCount d ≠ 0 then
      fun a => if a ∈ K.log.lh then K.cur a else K.committed a else K.committed)
    (hrec : Recoverable sb (update K.disk hd.blockno d) committed)
    (hlast : ∀ d', K.last hd.blockno = some d' → d' = d)
    (hin : sb.InLog hd.blockno ∨ sb.Home hd.blockno) :
    (storeLogic sb tight).safe p (bwrite p i)
      (fun _ => Committing sb tight p (v.hold i (some { hd with data := d }))
        { K with disk := update K.disk hd.blockno d, committed := committed }) w₀
      (w.1.mod i (Buf.fill d), w.2) := by
  obtain ⟨hheld, rfl⟩ := h.holds hi
  obtain rfl := h.commit_eq
  have hself : (w.1.mod i (Buf.fill d)).buf i = (w.1.buf i).fill d := w.1.mod_buf_self i _
  have hwrite : (w.1.mod i (Buf.fill d)).devWrite (w.1.buf i).blockno d = { w.1.mod i (Buf.fill d) with
        disk := update w.1.disk (w.1.buf i).blockno d, committed := committed } := by
    have hcommitted : ((w.1.mod i (Buf.fill d)).devWrite (w.1.buf i).blockno d).committed = committed := by
      have hgroup : (w.1.mod i (Buf.fill d)).group = w.1.log.lh := h.run.log.group_eq
      rw [hcom]
      unfold Sys.devWrite
      simp only [hgroup]
      rfl
    rw [← hcommitted]
    rfl
  have hlog := h.run.log.write h.run.bio h.committing hvalid hrec hlast
  have hnext : Committing sb tight p (v.hold i (some { w.1.held i with data := d })) { w.1.commit w.2 with
        disk := update w.1.disk (w.1.buf i).blockno d, committed := committed } w₀
      ({ w.1.mod i (Buf.fill d) with
        disk := update w.1.disk (w.1.buf i).blockno d, committed := committed }, w.2) := by
    apply h.step (h.run.bio.fill d) hlog h.run.reserved rfl rfl rfl
    · refine fun hup => ⟨hup, ?_⟩
      intro b hb
      by_cases hbi : b = (w.1.buf i).blockno
      · rw [hbi]
        exact hin
      · exact absurd (update_of_ne hbi d w.1.disk) hb
    · intro j hj
      have hji : j ≠ i := by
        rintro rfl
        exact hj hheld
      have hbuf : ({ w.1.mod i (Buf.fill d) with
          disk := update w.1.disk (w.1.buf i).blockno d, committed := committed } :
          Sys).buf j = w.1.buf j := w.1.mod_buf_of_ne _ hji
      rw [hbuf]
      exact ⟨rfl, rfl, rfl, rfl, rfl, rfl⟩
    · intro j hj
      have hbuf : ((w.1.mod i (Buf.fill d)).buf j).locked = (w.1.buf j).locked ∧
          ((w.1.mod i (Buf.fill d)).buf j).pid = (w.1.buf j).pid ∧
          ((w.1.mod i (Buf.fill d)).buf j).dev = (w.1.buf j).dev ∧
          ((w.1.mod i (Buf.fill d)).buf j).blockno = (w.1.buf j).blockno := by
        by_cases hji : j = i
        · subst hji
          rw [hself]
          exact ⟨rfl, rfl, rfl, rfl⟩
        · rw [w.1.mod_buf_of_ne _ hji]
          exact ⟨rfl, rfl, rfl, rfl⟩
      obtain ⟨h1, h2, h3, h4⟩ := hbuf
      exact ⟨⟨h1.trans hj.1, h2.trans hj.2⟩, h3, h4⟩
    · intro j
      change ((w.1.mod i (Buf.fill d)).buf j).heldBy p (w.1.dirty j) =
        update v.holds i (some { w.1.held i with data := d }) j
      by_cases hji : j = i
      · subst hji
        rw [hself, update_self]
        have hl : ((w.1.buf j).fill d).locked = true ∧ ((w.1.buf j).fill d).pid = p := hheld
        exact if_pos hl
      · rw [w.1.mod_buf_of_ne _ hji, update_of_ne hji]
        exact h.holds_eq j
    · exact h.waits
    · exact h.boots_eq
  unfold Storage.bwrite
  rw [Logic.safe_bind]
  apply Logic.safe_check
  · intro _
    unfold virtioWrite
    rw [Logic.safe_bind]
    refine Logic.safe_modify w.2 ?_
    rw [hself]
    change (storeLogic sb tight).safe p pause _ w₀
      ((w.1.mod i (Buf.fill d)).devWrite (w.1.buf i).blockno d, w.2)
    rw [hwrite]
    refine ⟨hnext.run.inv, hnext.run.rel, ?_⟩
    intro w1 hinv hview _
    exact hnext.wake hinv hview
  · intro hf
    have hheld' : (w.1.mod i (Buf.fill d)).Holds p i := by
      unfold Sys.Holds
      rw [hself]
      exact hheld
    exact absurd hheld' (by simpa [holdingsleep] using hf)

theorem bunpin (hv : sb.Valid) (hi : v.holds i = some hd) (hvalid : hd.valid) (ht : K.tail < K.log.lh.length)
    (hb : K.log.lh.getD K.tail 0 = hd.blockno)
    (hdone : ∀ d, K.last hd.blockno = some d → K.disk hd.blockno = d) :
    (storeLogic sb tight).safe p (bunpin i)
      (fun _ => Committing sb tight p v { K with tail := K.tail + 1 }) w₀ w := by
  obtain ⟨hheld, rfl⟩ := h.holds hi
  obtain rfl := h.commit_eq
  obtain ⟨hone, hlog⟩ := h.run.log.unpin h.run.bio hv h.committing hvalid ht hb hdone
  have hbuf : ∀ j, ((w.1.mod i Buf.decPin).buf j).locked = (w.1.buf j).locked ∧
      ((w.1.mod i Buf.decPin).buf j).pid = (w.1.buf j).pid ∧
      ((w.1.mod i Buf.decPin).buf j).dev = (w.1.buf j).dev ∧
      ((w.1.mod i Buf.decPin).buf j).blockno = (w.1.buf j).blockno ∧
      ((w.1.mod i Buf.decPin).buf j).valid = (w.1.buf j).valid ∧
      ((w.1.mod i Buf.decPin).buf j).data = (w.1.buf j).data := by
    intro j
    by_cases hji : j = i
    · subst hji
      rw [w.1.mod_buf_self]
      exact ⟨rfl, rfl, rfl, rfl, rfl, rfl⟩
    · rw [w.1.mod_buf_of_ne _ hji]
      exact ⟨rfl, rfl, rfl, rfl, rfl, rfl⟩
  have hnext : Committing sb tight p v { w.1.commit w.2 with tail := w.2 + 1 } w₀
      (w.1.mod i Buf.decPin, w.2 + 1) := by
    apply h.step h.run.bio.decPin hlog h.run.reserved rfl rfl rfl (inBounds_refl sb w.1)
    · intro j _
      exact hbuf j
    · intro j hj
      obtain ⟨h1, h2, h3, h4, -⟩ := hbuf j
      exact ⟨⟨h1.trans hj.1, h2.trans hj.2⟩, h3, h4⟩
    · intro j
      obtain ⟨h1, h2, h3, h4, h5, h6⟩ := hbuf j
      rw [← h.holds_eq j]
      unfold Buf.heldBy Buf.held
      rw [h1, h2, h3, h4, h5, h6]
      rfl
    · exact h.waits
    · exact h.boots_eq
  unfold Storage.bunpin
  rw [Logic.safe_bind]
  apply Logic.safe_check
  · intro _
    exact Logic.safe_modify (w.2 + 1) hnext
  · intro hf
    rw [hone] at hf
    simp at hf

theorem clearHead (hv : sb.Valid) (ht : K.tail = K.log.lh.length) :
    (storeLogic sb tight).safe p clearHead
      (fun _ => Committing sb tight p v { K with log := { K.log with lh := [] }, tail := 0 }) w₀ w := by
  obtain rfl := h.commit_eq
  refine Logic.safe_modify 0 ?_
  apply h.step (u := { w.1 with log := { w.1.log with lh := [] }, group := [] }) h.run.bio
    (h.run.log.clear hv h.committing ht)
    (fun htight => (h.run.reserved htight).clear (h.run.log.logged_eq_nil h.committing)) rfl rfl rfl
    (inBounds_refl sb w.1)
  · intro j _
    exact ⟨rfl, rfl, rfl, rfl, rfl, rfl⟩
  · intro j hj
    exact ⟨hj, rfl, rfl⟩
  · exact h.holds_eq
  · exact h.waits
  · exact h.boots_eq

theorem breadLog {f : Log → Nat} {b : Nat} (hb : f K.log = b) :
    (storeLogic sb tight).safe p (breadLog p f)
      (fun i w0' w' => v.holds i = none ∧ ∃ hd : Held,
        Committing sb tight p (v.hold i (some hd)) K w0' w' ∧ hd.blockno = b ∧ hd.dirty = false ∧
        hd.valid) w₀ w := by
  unfold Storage.breadLog
  rw [Logic.safe_bind]
  refine Logic.safe_gets ?_
  rw [h.run.log.dev_eq, h.log_eq, hb]
  apply Logic.safe_mono (bread_store b h.run h.waits)
  rintro i w1 w2 ⟨hnone, hd, hrun, -, hno, hclean, hvalid⟩
  exact ⟨hnone, hd, ⟨hrun, h.waits⟩, hno, hclean, hvalid⟩

theorem brelse (hi : v.holds i = some hd) (hclean : hd.dirty = false) :
    (storeLogic sb tight).safe p (brelse p i) (fun _ => Committing sb tight p (v.hold i none) K) w₀ w := by
  apply Logic.safe_mono (brelse_store h.run h.waits hi hclean)
  intro _ w1 w2 hrun
  exact ⟨hrun, h.waits⟩

end

end Committing

end Xv6.Storage
