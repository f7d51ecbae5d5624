import Xv6.Storage.StoreBio

/-!
# Operations inside the store

`begin_op`, `log_write` and the first part of `end_op` keep the invariant. While a process is
inside an operation nobody commits.
-/

namespace Xv6.Storage

open Data Coop Prog Function

variable {sb : Superblock} {tight : Prop} {p q : Pid} {s s' : Sys} {t t' : Nat} {i j : Fin NBUF} {w : Sys × Nat}
  {v : StoreView}

namespace LogInv

section

variable (h : LogInv sb s t)
include h

theorem outstanding_pos (hp : s.Inside p) : 0 < s.log.outstanding := by
  obtain ⟨A, hA, hcard⟩ := h.outstanding
  rw [hcard]
  exact Finset.card_pos.mpr ⟨p, (hA p).mpr hp⟩

/-- Nobody commits while somebody is inside an operation. -/
theorem not_committing (hp : s.Inside p) : s.log.committing = false := by
  by_contra hc
  have hquiet := h.quiet (by simpa using hc)
  have := h.outstanding_pos hp
  omega

theorem op_ne_committing (hc : s.log.committing = false) (q : Pid) : s.ops q ≠ .committing := by
  intro hq
  cases (h.committing_of_op q hq).symm.trans hc

/-- A process moves within the protocol without entering or leaving an operation. -/
theorem setOp {o : Op} (hp : s.ops p ≠ .committing) (ho : o ≠ .committing)
    (hin : (∃ l, o = .inside l) ↔ s.Inside p) : LogInv sb (s.setOp p o) t := by
  have hins : ∀ q, (s.setOp p o).Inside q ↔ s.Inside q := by
    intro q
    unfold Sys.Inside Sys.setOp
    by_cases hq : q = p
    · subst hq
      simpa [Sys.Inside] using hin
    · simp [hq]
  have hcom : ∀ q, (s.setOp p o).ops q = .committing ↔ s.ops q = .committing := by
    intro q
    unfold Sys.setOp
    by_cases hq : q = p
    · subst hq
      simp [ho, hp]
    · simp [hq]
  refine { h with outstanding := ?_, committing_of_op := ?_, op_of_committing := ?_,
                  committing_unique := ?_, dirty := ?_ }
  · obtain ⟨A, hA, hcard⟩ := h.outstanding
    exact ⟨A, fun q => (hA q).trans (hins q).symm, hcard⟩
  · intro q hq
    exact h.committing_of_op q ((hcom q).mp hq)
  · intro hc
    obtain ⟨q, hq⟩ := h.op_of_committing hc
    exact ⟨q, (hcom q).mpr hq⟩
  · intro q r hq hr
    exact h.committing_unique q r ((hcom q).mp hq) ((hcom r).mp hr)
  · intro k hk
    obtain ⟨r, hheld, hr⟩ := h.dirty k hk
    exact ⟨r, hheld, (hins r).mpr hr⟩

theorem entered (hp : ¬ s.Inside p) (hc : s.log.committing = false) :
    LogInv sb ({ s with log := { s.log with outstanding := s.log.outstanding + 1 } }.setOp p
      (.inside [])) t := by
  have hins : ∀ q, q ≠ p → (({ s with log := { s.log with outstanding := s.log.outstanding + 1 } }
      : Sys).setOp p (.inside [])).Inside q = s.Inside q := by
    intro q hq
    simp [Sys.Inside, Sys.setOp, hq]
  have hself : (({ s with log := { s.log with outstanding := s.log.outstanding + 1 } }
      : Sys).setOp p (.inside [])).Inside p := ⟨[], by simp [Sys.setOp]⟩
  have hcom : ∀ q, (({ s with log := { s.log with outstanding := s.log.outstanding + 1 } }
      : Sys).setOp p (.inside [])).ops q ≠ .committing := by
    intro q
    by_cases hq : q = p
    · subst hq
      simp [Sys.setOp]
    · simpa [Sys.setOp, hq] using h.op_ne_committing hc q
  refine { h with outstanding := ?_, committing_of_op := ?_, op_of_committing := ?_,
                  committing_unique := ?_, quiet := ?_, dirty := ?_ }
  · obtain ⟨A, hA, hcard⟩ := h.outstanding
    refine ⟨insert p A, ?_, ?_⟩
    · intro q
      rw [Finset.mem_insert]
      by_cases hq : q = p
      · subst hq
        exact iff_of_true (Or.inl rfl) hself
      · rw [hins q hq, ← hA q]
        simp [hq]
    · rw [Finset.card_insert_of_notMem (mt (hA p).mp hp), ← hcard]
      rfl
  · intro q hq
    exact absurd hq (hcom q)
  · intro hc'
    exact absurd (hc'.symm.trans hc) (by simp)
  · intro q _ hq
    exact absurd hq (hcom q)
  · intro hc'
    exact absurd (hc'.symm.trans hc) (by simp)
  · intro k hk
    obtain ⟨r, hheld, hr⟩ := h.dirty k hk
    refine ⟨r, hheld, ?_⟩
    by_cases hrp : r = p
    · subst hrp
      exact hself
    · rw [hins r hrp]
      exact hr

theorem modify (hp : s.Inside p) (hi : s.Holds p i) (d : Block) :
    LogInv sb { s.mod i (Buf.fill d) with dirty := update s.dirty i true } t := by
  refine { h with wf := ?_, pinned := ?_, cached := ?_, data := ?_, dirty := ?_ }
  · exact Bcache.forall_mod (fun _ => Buf.Wf) h.wf (h.wf i)
  · exact Bcache.forall_mod (fun _ x => x.pinned = pins (s.log.lh.drop t) x.blockno) h.pinned (h.pinned i)
  · exact fun b hb => (h.cached b hb).imp fun k hk => (Bcache.mod_congr (·.Caches b) rfl k).mpr hk
  · intro k hv hd
    have hk : k ≠ i := by
      rintro rfl
      simp at hd
    have hbuf := s.mod_buf_of_ne (Buf.fill d) hk
    exact hbuf ▸ h.data k (hbuf ▸ hv) (by simpa [hk] using hd)
  · intro k hk
    by_cases hki : k = i
    · subst hki
      exact ⟨p, (Bcache.mod_congr (·.LockedBy p) rfl k).mpr hi, hp⟩
    · obtain ⟨r, hheld, hr⟩ := h.dirty k (by simpa [hki] using hk)
      exact ⟨r, (Bcache.mod_congr (·.LockedBy r) rfl k).mpr hheld, hr⟩

end

/-! ### `log_write` -/

theorem home_ne_zero {b : Nat} (hb : sb.Home b) (hv : sb.Valid) : b ≠ 0 := by
  have := hv.nlog_pos
  have := hb.1
  omega

/-- Only the buffer itself has the block number of a valid buffer with a home block. -/
theorem eq_of_home (h : LogInv sb s t) (hbio : BioInv s.bcache s.chan none) (hv : sb.Valid)
    (hi : (s.buf i).valid) (hb : sb.Home (s.buf i).blockno)
    (hj : (s.buf j).blockno = (s.buf i).blockno) : j = i := by
  refine h.eq_of_blockno hbio ?_ (h.dev_of_valid hi) hj
  rcases h.wf j with hw | hw
  · exact hw.1
  · rw [hw.2.1] at hj
    exact absurd hj.symm (home_ne_zero hb hv)

end LogInv

/-- Append the block of a buffer to the header and pin the buffer. -/
def Sys.enlist (s : Sys) (i : Fin NBUF) : Sys :=
  { s with
    log := { s.log with lh := s.log.lh ++ [(s.buf i).blockno] }
    group := s.group ++ [(s.buf i).blockno] }.mod i Buf.incPin

/-- The contents of a buffer become those last logged. -/
def Sys.stamp (s : Sys) (p : Pid) (i : Fin NBUF) : Sys :=
  { s with
    last := update s.last (s.buf i).blockno (some (s.buf i).data)
    dirty := update s.dirty i false
    ops := update s.ops p ((s.ops p).log (s.buf i).blockno) }

theorem note_record_of_mem (hgroup : s.group = s.log.lh) (hb : (s.buf i).blockno ∈ s.log.lh) :
    (s.record i).note p i = s.stamp p i := by
  unfold Sys.record
  rw [if_pos hb]
  unfold Sys.note Sys.stamp addNew
  rw [if_pos (hgroup ▸ hb)]

theorem note_record_of_notMem (hgroup : s.group = s.log.lh) (hb : (s.buf i).blockno ∉ s.log.lh) :
    (s.record i).note p i = (s.enlist i).stamp p i := by
  unfold Sys.record
  rw [if_neg hb]
  have hbuf : ∀ s1 : Sys, s1.bcache = s.bcache →
      ((s1.mod i Buf.incPin).buf i).blockno = (s.buf i).blockno ∧
      ((s1.mod i Buf.incPin).buf i).data = (s.buf i).data := by
    intro s1 h1
    have hs : s1.buf i = s.buf i := congrFun (congrArg Bcache.buf h1) i
    rw [Sys.mod_buf_self, hs]
    exact ⟨rfl, rfl⟩
  have h1 := hbuf { s with log := { s.log with lh := s.log.lh ++ [(s.buf i).blockno] } } rfl
  have h2 := hbuf { s with
    log := { s.log with lh := s.log.lh ++ [(s.buf i).blockno] }
    group := s.group ++ [(s.buf i).blockno] } rfl
  unfold Sys.note Sys.stamp Sys.enlist
  rw [h1.1, h1.2, h2.1, h2.2]
  have hnew : addNew s.group (s.buf i).blockno = s.group ++ [(s.buf i).blockno] := by
    unfold addNew
    rw [if_neg (hgroup ▸ hb)]
  exact congrArg (fun g => { s with
    bcache := s.bcache.mod i Buf.incPin
    log := { s.log with lh := s.log.lh ++ [(s.buf i).blockno] }
    last := update s.last (s.buf i).blockno (some (s.buf i).data)
    dirty := update s.dirty i false
    group := g
    ops := update s.ops p ((s.ops p).log (s.buf i).blockno) }) hnew

namespace LogInv

theorem enlist (h : LogInv sb s 0) (hbio : BioInv s.bcache s.chan none) (hv : sb.Valid)
    (hvalid : (s.buf i).valid) (hb : sb.Home (s.buf i).blockno)
    (hfits : fits s.log) (hnew : (s.buf i).blockno ∉ s.log.lh) :
    LogInv sb (s.enlist i) 0 := by
  have hself : (s.enlist i).buf i = (s.buf i).incPin := Bcache.mod_buf_self _ i _
  have hne : ∀ k, k ≠ i → (s.enlist i).buf k = s.buf k := fun k hk => Bcache.mod_buf_of_ne _ _ hk
  have hlh : (s.enlist i).log.lh = s.log.lh ++ [(s.buf i).blockno] := rfl
  have hsize : s32 s.log.size = sb.nlog.toNat := by
    rw [h.size_eq]
    exact s32_of_lt hv.nlog_lt
  simp only [fits, hsize, decide_eq_true_eq] at hfits
  have hpins : ∀ k, (s.buf k).pinned = pins s.log.lh (s.buf k).blockno := fun k => h.pinned k
  refine { h with wf := ?_, nodup := ?_, home := ?_, len_le := ?_, len_lt := ?_, group_eq := ?_,
                  tail_le := Nat.zero_le _, pinned := ?_, cached := ?_, data := ?_, dirty := ?_,
                  settled := ?_ }
  · exact Bcache.forall_mod (fun _ => Buf.Wf) h.wf (h.wf i)
  · rw [hlh, List.nodup_append]
    refine ⟨h.nodup, by simp, ?_⟩
    intro a ha b hb' hab
    rw [List.mem_singleton] at hb'
    exact hnew (hb' ▸ hab ▸ ha)
  · intro b hb'
    rw [hlh, List.mem_append, List.mem_singleton] at hb'
    rcases hb' with hb' | rfl
    · exact h.home b hb'
    · exact hb
  · rw [hlh, List.length_append]
    exact hfits.1
  · rw [hlh, List.length_append, List.length_singleton]
    omega
  · change s.group ++ _ = s.log.lh ++ _
    rw [h.group_eq]
  · intro k
    rw [hlh, List.drop_zero]
    by_cases hk : k = i
    · subst hk
      rw [hself]
      have h0 := (hpins k).trans (pins_of_notMem hnew)
      change (s.buf k).pinned + 1 = pins _ (s.buf k).blockno
      rw [h0, pins_of_mem (by simp)]
    · rw [hne k hk, hpins k]
      have hno : (s.buf k).blockno ≠ (s.buf i).blockno := fun hno =>
        hk (h.eq_of_home hbio hv hvalid hb hno)
      unfold pins
      simp [hno]
  · intro b hb'
    rw [hlh, List.drop_zero, List.mem_append, List.mem_singleton] at hb'
    rcases hb' with hb' | rfl
    · obtain ⟨k, h1, h2, h3⟩ := h.cached b (by simpa using hb')
      refine ⟨k, ?_⟩
      by_cases hk : k = i
      · subst hk
        rw [hself]
        exact ⟨h1, h2, h3⟩
      · rw [hne k hk]
        exact ⟨h1, h2, h3⟩
    · refine ⟨i, ?_⟩
      rw [hself]
      exact ⟨h.dev_of_valid hvalid, rfl, hvalid⟩
  · exact Bcache.forall_mod (fun k x => x.valid → s.dirty k = false → x.data = s.current x.blockno) h.data (h.data i)
  · exact Bcache.forall_mod (fun k x => s.dirty k → ∃ r, x.LockedBy r ∧ s.Inside r) h.dirty (h.dirty i)
  · intro b d hb' hd
    refine h.settled b d ?_ hd
    intro hmem
    refine hb' ?_
    rw [hlh, List.drop_zero]
    exact List.mem_append_left _ (by simpa using hmem)

theorem stamp (h : LogInv sb s 0) (hbio : BioInv s.bcache s.chan none) (hv : sb.Valid)
    (hp : s.Inside p) (hvalid : (s.buf i).valid) (hb : sb.Home (s.buf i).blockno)
    (hmem : (s.buf i).blockno ∈ s.log.lh) : LogInv sb (s.stamp p i) 0 := by
  obtain ⟨l, hl⟩ := hp
  have hstate : LogInv sb { s with
      last := update s.last (s.buf i).blockno (some (s.buf i).data)
      dirty := update s.dirty i false } 0 := by
    refine { h with data := ?_, dirty := ?_, last_home := ?_, settled := ?_ }
    · intro k hvk hd
      change (s.buf k).data = (update s.last (s.buf i).blockno (some (s.buf i).data)
        (s.buf k).blockno).getD (s.disk (s.buf k).blockno)
      by_cases hk : k = i
      · subst hk
        rw [update_self]
        rfl
      · have hno : (s.buf k).blockno ≠ (s.buf i).blockno := fun hno =>
          hk (h.eq_of_home hbio hv hvalid hb hno)
        rw [update_of_ne hno]
        exact h.data k hvk (by simpa [hk] using hd)
    · intro k hk
      have hki : k ≠ i := by
        rintro rfl
        simp at hk
      exact h.dirty k (by simpa [hki] using hk)
    · intro b d hd
      by_cases hbi : b = (s.buf i).blockno
      · rw [hbi]
        exact hb
      · exact h.last_home b d (by simpa [hbi] using hd)
    · intro b d hb' hd
      have hbi : b ≠ (s.buf i).blockno := by
        rintro rfl
        exact hb' hmem
      exact h.settled b d hb' (by simpa [hbi] using hd)
  refine hstate.setOp ?_ ?_ ?_
  · simp [hl]
  · simp [hl, Op.log]
  · exact iff_of_true ⟨addNew l (s.buf i).blockno, by simp [hl, Op.log]⟩ ⟨l, hl⟩

theorem logWrite (h : LogInv sb s t) (hbio : BioInv s.bcache s.chan none) (hv : sb.Valid)
    (hp : s.Inside p) (hvalid : (s.buf i).valid) (hb : sb.Home (s.buf i).blockno)
    (hfits : fits s.log) : LogInv sb ((s.record i).note p i) t := by
  have ht : t = 0 := h.tail_zero (h.not_committing hp)
  subst ht
  by_cases hmem : (s.buf i).blockno ∈ s.log.lh
  · rw [note_record_of_mem h.group_eq hmem]
    exact h.stamp hbio hv hp hvalid hb hmem
  · rw [note_record_of_notMem h.group_eq hmem]
    have hbuf : (s.enlist i).buf i = (s.buf i).incPin := Bcache.mod_buf_self _ i _
    refine (h.enlist hbio hv hvalid hb hfits hmem).stamp hbio.incPin hv hp ?_ ?_ ?_
    · rw [hbuf]
      exact hvalid
    · rw [hbuf]
      exact hb
    · rw [hbuf]
      exact List.mem_append_right _ (List.mem_singleton.mpr rfl)

/-! ### `end_op` -/

/-- The last process leaves and becomes the one that commits. -/
theorem leave_last (h : LogInv sb s t) (hp : s.Inside p)
    (hclean : ∀ i, s.Holds p i → s.dirty i = false) (hone : s.log.outstanding - 1 = 0) :
    LogInv sb ({ s with log := { s.log with
      outstanding := s.log.outstanding - 1, committing := true } }.setOp p .committing) t := by
  have hc := h.not_committing hp
  have hpos := h.outstanding_pos hp
  obtain ⟨A, hA, hcard⟩ := h.outstanding
  have honly : ∀ q, s.Inside q → q = p := by
    intro q hq
    have hle : A.card ≤ 1 := by omega
    exact Finset.card_le_one.mp hle q ((hA q).mpr hq) p ((hA p).mpr hp)
  have hdirty : ∀ k, s.dirty k = false := by
    intro k
    by_contra hk
    obtain ⟨r, hheld, hr⟩ := h.dirty k (by simpa using hk)
    have := honly r hr
    subst this
    exact hk (hclean k hheld)
  have hops : ∀ q, (({ s with log := { s.log with
      outstanding := s.log.outstanding - 1, committing := true } } : Sys).setOp p
        .committing).ops q = .committing ↔ q = p := by
    intro q
    by_cases hq : q = p
    · subst hq
      simp [Sys.setOp]
    · simpa [Sys.setOp, hq] using h.op_ne_committing hc q
  refine { h with outstanding := ?_, committing_of_op := fun _ _ => rfl, op_of_committing := ?_,
                  committing_unique := ?_, quiet := fun _ => hone, tail_zero := ?_, dirty := ?_,
                  head := ?_ }
  · refine ⟨∅, ?_, hone⟩
    intro q
    refine iff_of_false (by simp) ?_
    rintro ⟨l, hl⟩
    by_cases hq : q = p
    · subst hq
      simp [Sys.setOp] at hl
    · exact hq (honly q ⟨l, by simpa [Sys.setOp, hq] using hl⟩)
  · intro _
    exact ⟨p, (hops p).mpr rfl⟩
  · intro q r hq hr
    rw [(hops q).mp hq, (hops r).mp hr]
  · intro hf
    cases hf
  · intro k hk
    have hk' : s.dirty k = true := hk
    cases (hdirty k).symm.trans hk'
  · intro hf
    cases hf

theorem leave_other (h : LogInv sb s t) (hp : s.Inside p) (hclean : ∀ i, s.Holds p i → s.dirty i = false) :
    LogInv sb ({ s with log := { s.log with
      outstanding := s.log.outstanding - 1 } }.setOp p .out) t := by
  have hc := h.not_committing hp
  have hins : ∀ q, q ≠ p → (({ s with log := { s.log with outstanding := s.log.outstanding - 1 } }
      : Sys).setOp p .out).Inside q = s.Inside q := by
    intro q hq
    simp [Sys.Inside, Sys.setOp, hq]
  have hops : ∀ q, (({ s with log := { s.log with outstanding := s.log.outstanding - 1 } }
      : Sys).setOp p .out).ops q ≠ .committing := by
    intro q
    by_cases hq : q = p
    · subst hq
      simp [Sys.setOp]
    · simpa [Sys.setOp, hq] using h.op_ne_committing hc q
  refine { h with outstanding := ?_, committing_of_op := ?_, op_of_committing := ?_,
                  committing_unique := ?_, quiet := ?_, dirty := ?_ }
  · obtain ⟨A, hA, hcard⟩ := h.outstanding
    refine ⟨A.erase p, ?_, ?_⟩
    · intro q
      rw [Finset.mem_erase]
      by_cases hq : q = p
      · subst hq
        refine iff_of_false (by simp) ?_
        rintro ⟨l, hl⟩
        simp [Sys.setOp] at hl
      · rw [hins q hq, ← hA q]
        simp [hq]
    · rw [Finset.card_erase_of_mem ((hA p).mpr hp), ← hcard]
      rfl
  · intro q hq
    exact absurd hq (hops q)
  · intro hf
    exact absurd (hf.symm.trans hc) (by simp)
  · intro q _ hq
    exact absurd hq (hops q)
  · intro hf
    exact absurd (hf.symm.trans hc) (by simp)
  · intro k hk
    obtain ⟨r, hheld, hr⟩ := h.dirty k hk
    have hrp : r ≠ p := by
      rintro rfl
      have hk' : s.dirty k = true := hk
      cases (hclean k hheld).symm.trans hk'
    refine ⟨r, hheld, ?_⟩
    rw [hins r hrp]
    exact hr

end LogInv

/-! ## Reservations -/

theorem LogInv.logged_eq_nil (h : LogInv sb s t) (hc : s.log.committing) (q : Pid) :
    (s.ops q).logged = [] := by
  cases hq : s.ops q with
  | inside l =>
    have hnot := h.not_committing ⟨l, hq⟩
    cases hc.symm.trans hnot
  | _ => rfl

theorem LogInv.card_le (h : LogInv sb s t) {A : Finset Pid} (hA : ∀ q ∈ A, s.Inside q) :
    A.card ≤ s.log.outstanding := by
  obtain ⟨B, hB, hcard⟩ := h.outstanding
  rw [hcard]
  apply Finset.card_le_card
  intro q hq
  exact (hB q).mpr (hA q hq)

namespace Reserved

variable {l : Log} {ops : Pid → Op}

section

variable (h : Reserved l ops)
include h

theorem length_le : l.lh.length ≤ LOGSIZE - 2 := by
  have hroom := h.room ∅ (by simp)
  rwa [Finset.sum_empty, Nat.add_zero] at hroom

theorem leave {m : Log} (hlh : m.lh = l.lh)
    (hidle : m.outstanding = 0 → m.committing = false → m.lh = []) (p : Pid) {o : Op}
    (ho : ∀ k, o ≠ .inside k) : Reserved m (update ops p o) := by
  refine ⟨?_, hidle, ?_⟩
  · intro q
    by_cases hq : q = p
    · subst hq
      rw [update_self]
      cases o with
      | inside k => exact absurd rfl (ho k)
      | _ => exact List.nil_subset _
    · rw [update_of_ne hq, hlh]
      exact h.named q
  · intro A hA
    have hne : ∀ q ∈ A, q ≠ p := by
      intro q hq hqp
      obtain ⟨k, hk⟩ := hA q hq
      rw [hqp, update_self] at hk
      exact ho k hk
    have hsame : ∀ q ∈ A, update ops p o q = ops q := fun q hq =>
      update_of_ne (hne q hq) _ _
    have hroom := h.room A fun q hq => hsame q hq ▸ hA q hq
    rw [hlh, Finset.sum_congr rfl fun q hq => by rw [hsame q hq]]
    exact hroom

theorem entered (hadm : admits l)
    (hcard : ∀ A : Finset Pid, (∀ q ∈ A, ∃ k, ops q = .inside k) → A.card ≤ l.outstanding)
    (p : Pid) :
    Reserved { l with outstanding := l.outstanding + 1 } (update ops p (.inside [])) := by
  simp only [admits, decide_eq_true_eq] at hadm
  refine ⟨?_, fun h0 => absurd h0 (Nat.succ_ne_zero _), ?_⟩
  · intro q
    by_cases hq : q = p
    · subst hq
      rw [update_self]
      exact List.nil_subset _
    · rw [update_of_ne hq]
      exact h.named q
  · intro A hA
    have hout := hcard (A.erase p) (by
      intro q hq
      obtain ⟨hne, hmem⟩ := Finset.mem_erase.mp hq
      obtain ⟨k, hk⟩ := hA q hmem
      exact ⟨k, by rwa [update_of_ne hne] at hk⟩)
    have hle : A.card - 1 ≤ (A.erase p).card := Finset.pred_card_le_card_erase
    have hsum : ∑ q ∈ A, (MAXOPBLOCKS - 1 - (update ops p (.inside []) q).logged.length) ≤
        A.card * (MAXOPBLOCKS - 1) := by
      apply Finset.sum_le_card_nsmul
      intro q _
      exact Nat.sub_le _ _
    change l.lh.length + _ ≤ 28
    have h9 : A.card * (MAXOPBLOCKS - 1) = A.card * 9 := rfl
    have h30 : l.lh.length + (l.outstanding + 1) * 10 ≤ 30 := hadm.2
    by_cases h0 : l.outstanding = 0
    · have hnil := h.idle h0 hadm.1
      rw [hnil, List.length_nil]
      omega
    · omega

/-- `log_write` inside an operation that stays below the bound. -/
theorem logWrite {p : Pid} {k : List Nat} {b : Nat} (hk : ops p = .inside k)
    (hlt : (addNew k b).length < MAXOPBLOCKS) (hout : l.outstanding ≠ 0) :
    Reserved { l with lh := addNew l.lh b } (update ops p ((ops p).log b)) := by
  have hop : (ops p).log b = .inside (addNew k b) := by rw [hk]; rfl
  have hmem : ∀ c, c ∈ addNew k b → c ∈ addNew l.lh b := by
    intro c hc
    have hkl : k ⊆ l.lh := by
      have := h.named p
      rwa [hk] at this
    unfold addNew at hc ⊢
    by_cases hbl : b ∈ l.lh
    · rw [if_pos hbl]
      by_cases hbk : b ∈ k
      · rw [if_pos hbk] at hc
        exact hkl hc
      · rw [if_neg hbk] at hc
        rcases List.mem_append.mp hc with hc | hc
        · exact hkl hc
        · rwa [List.mem_singleton.mp hc]
    · rw [if_neg hbl]
      rw [if_neg fun hbk => hbl (hkl hbk)] at hc
      rcases List.mem_append.mp hc with hc | hc
      · exact List.mem_append_left _ (hkl hc)
      · exact List.mem_append_right _ hc
  rw [hop]
  refine ⟨?_, fun h0 => absurd h0 hout, ?_⟩
  · intro q
    by_cases hq : q = p
    · subst hq
      rw [update_self]
      exact fun c hc => hmem c hc
    · rw [update_of_ne hq]
      intro c hc
      have := h.named q hc
      unfold addNew
      split
      · exact this
      · exact List.mem_append_left _ this
  · intro A hA
    -- the room of the other operations and that of `p`
    have hrest : ∑ q ∈ A.erase p, (MAXOPBLOCKS - 1 -
        (update ops p (.inside (addNew k b)) q).logged.length) =
        ∑ q ∈ A.erase p, (MAXOPBLOCKS - 1 - (ops q).logged.length) := by
      apply Finset.sum_congr rfl
      intro q hq
      rw [update_of_ne (Finset.ne_of_mem_erase hq)]
    have hall := h.room (insert p (A.erase p)) (by
      intro q hq
      by_cases hqp : q = p
      · exact ⟨k, hqp ▸ hk⟩
      · have hqA : q ∈ A := by simpa [hqp] using hq
        obtain ⟨m, hm⟩ := hA q hqA
        exact ⟨m, by rwa [update_of_ne hqp] at hm⟩)
    rw [Finset.sum_insert (Finset.notMem_erase p A), hk] at hall
    have hown : ∑ q ∈ A, (MAXOPBLOCKS - 1 -
        (update ops p (.inside (addNew k b)) q).logged.length) ≤
        (MAXOPBLOCKS - 1 - (addNew k b).length) +
          ∑ q ∈ A.erase p, (MAXOPBLOCKS - 1 - (ops q).logged.length) := by
      rw [← hrest]
      by_cases hp : p ∈ A
      · rw [← Finset.add_sum_erase A _ hp, update_self]
        exact Nat.le_refl _
      · rw [Finset.erase_eq_of_notMem hp]
        exact Nat.le_add_left _ _
    have hgrow : (addNew l.lh b).length + (MAXOPBLOCKS - 1 - (addNew k b).length) ≤
        l.lh.length + (MAXOPBLOCKS - 1 - k.length) := by
      have hkl : k ⊆ l.lh := by
        have := h.named p
        rwa [hk] at this
      change _ + (9 - _) ≤ _ + (9 - _)
      replace hlt : (addNew k b).length < 10 := hlt
      unfold addNew at hlt ⊢
      by_cases hbl : b ∈ l.lh
      · rw [if_pos hbl]
        split <;> simp
        omega
      · rw [if_neg fun hbk => hbl (hkl hbk), List.length_append, List.length_singleton] at hlt
        rw [if_neg hbl, if_neg fun hbk => hbl (hkl hbk)]
        simp only [List.length_append, List.length_singleton]
        omega
    change l.lh.length + ((MAXOPBLOCKS - 1 - k.length) + _) ≤ _ at hall
    change (addNew l.lh b).length + _ ≤ _
    omega

theorem clear (hno : ∀ p, (ops p).logged = []) : Reserved { l with lh := [] } ops := by
  refine ⟨fun p => ?_, fun _ _ => rfl, ?_⟩
  · rw [hno p]
    exact List.nil_subset _
  · intro A hA
    have hroom := h.room A hA
    change 0 + _ ≤ _
    omega

end

end Reserved

/-! ## The calls of a client -/

/-- What the logic asks of a returning call. -/
theorem run_final {w0 : Sys × Nat} (h : Run sb tight p v w0 w) (hwaits : v.waits = none)
    (hop : v.op = .out ∨ ∃ l, v.op = .inside l) (hvalid : ∀ i h, v.holds i = some h → h.valid) :
    (storeLogic sb tight).inv w ∧ (storeLogic sb tight).Rel p w0 w ∧
      (storeLogic sb tight).idle ((storeLogic sb tight).view p w) := by
  refine ⟨h.inv, h.rel, ?_⟩
  change (storeLogic sb tight).idle (storeView p w.1 w.2)
  rw [h.view]
  exact ⟨hwaits, hop, hvalid⟩

theorem beginOp_store (h : Run sb tight p v w w) (hop : v.op = .out) :
    (storeLogic sb tight).safe p (beginOp p)
      (fun _ => Run sb tight p { v with op := .inside [], commits := none }) w w := by
  have hopw : w.1.ops p = .out := by
    have := congrArg StoreView.op h.view
    exact this.trans hop
  have hup := h.log.phase
  have hentering : Run sb tight p { v with op := .entering, commits := none } w (w.1.setOp p .entering, w.2) := by
    have hrun := h.outside (s := w.1) (t := w.2) (u := w.1.setOp p .entering)
      (h.log.setOp (by simp [hopw]) (by simp) (by simp [Sys.Inside, hopw]))
      (fun hres => hres.leave rfl hres.idle p (by simp)) rfl rfl rfl rfl
      (fun q hq => ⟨by simp [Sys.setOp, hq], fun _ => rfl⟩)
    simpa [Sys.setOp] using hrun
  -- the last action, wherever the wait has ended
  have hadmit : ∀ w0 w1, Run sb tight p { v with op := .entering, commits := none } w0 w1 →
      admits w1.1.log = true → Run sb tight p { v with op := .inside [], commits := none } w0
        ({ w1.1 with log := { w1.1.log with outstanding := w1.1.log.outstanding + 1 } }.setOp p
          (.inside []), w1.2) := by
    intro w0 w1 hrun hadmits
    have hadm := hadmits
    simp only [admits, decide_eq_true_eq] at hadm
    have hopw1 : w1.1.ops p = .entering := congrArg StoreView.op hrun.view
    have hnext := hrun.outside
      (hrun.log.entered (by simp [Sys.Inside, hopw1]) hadm.1)
      (fun hres => hres.entered hadmits (fun A hA => hrun.log.card_le hA) p) rfl rfl rfl rfl
      (fun q hq => ⟨by simp [Sys.setOp, hq], fun hc =>
        absurd hc (hrun.log.op_ne_committing hadm.1 q)⟩)
    simpa [Sys.setOp] using hnext
  unfold beginOp
  rw [Logic.safe_bind]
  refine Logic.safe_modify w.2 ?_
  rw [Logic.safe_bind]
  refine Logic.safe_await ?_ ?_
  · intro hg
    exact ⟨w.2, hadmit _ _ hentering hg⟩
  · intro _
    refine ⟨hentering.inv, hentering.rel, ?_⟩
    intro w1 hinv hview1 hg
    have hanch : StoreView.Anchored { v with op := .entering, commits := none } :=
      ⟨by rw [← h.view]; exact boots_eq_none hup, Or.inr (Or.inl (by simp))⟩
    exact ⟨w1.2, hadmit _ _ (run_of_wake hinv (hview1.trans hentering.view) hanch) hg⟩

/-- A step of `p` on a buffer that it holds: the contents and the mark of the buffer, the log and
the own position of `p` may change, while nobody commits. -/
theorem run_of_touch (h : Run sb tight p v w w) (hi : w.1.Holds p i)
    (hc : w.1.log.committing = false) (hbio : BioInv s'.bcache s'.chan none)
    (hlog : LogInv sb s' t') (hres : tight → Reserved s'.log s'.ops)
    (hchan : s'.chan = w.1.chan) (hdisk : s'.disk = w.1.disk)
    (hops : ∀ q, q ≠ p → s'.ops q = w.1.ops q) (hop : s'.ops p ≠ .committing)
    (hother : ∀ j, j ≠ i → s'.buf j = w.1.buf j ∧ s'.dirty j = w.1.dirty j)
    (hsame : (s'.buf i).locked = (w.1.buf i).locked ∧ (s'.buf i).pid = (w.1.buf i).pid ∧
      (s'.buf i).dev = (w.1.buf i).dev ∧ (s'.buf i).blockno = (w.1.buf i).blockno) :
    Run sb tight p { v.hold i (some (s'.held i)) with op := s'.ops p, commits := none } w (s', t') := by
  have hup := h.log.phase
  have hident : ∀ j, (s'.buf j).dev = (w.1.buf j).dev ∧ (s'.buf j).blockno = (w.1.buf j).blockno := by
    intro j
    by_cases hj : j = i
    · subst hj
      exact ⟨hsame.2.2.1, hsame.2.2.2⟩
    · rw [(hother j hj).1]
      exact ⟨rfl, rfl⟩
  have hheld : ∀ q j, s'.Holds q j ↔ w.1.Holds q j := by
    intro q j
    unfold Sys.Holds
    by_cases hj : j = i
    · subst hj
      rw [hsame.1, hsame.2.1]
    · rw [(hother j hj).1]
  refine ⟨hbio, hlog, hres, storeRel_of_views hdisk (hlog.phase.trans hup.symm) ?_, ?_⟩
  · intro q hq
    refine storeView_congr (congrFun hchan q) (hops q hq) (fun j _ => hident j) (hheld q) ?_
      (fun hcom => absurd hcom (h.log.op_ne_committing hc q)) fun _ => ⟨hup, hlog.phase⟩
    intro j hj
    have hji : j ≠ i := by
      rintro rfl
      exact hq (hj.2.symm.trans hi.2)
    unfold Sys.held
    rw [(hother j hji).1, (hother j hji).2]
  · rw [← h.view]
    refine StoreView.ext ?_ rfl ?_ (if_neg hop) ?_
    · simp only [storeView, StoreView.hold, hchan, hident]
    · funext j
      change (s'.buf j).heldBy p (s'.dirty j) =
        update (storeView p w.1 w.2).holds i (some (s'.held i)) j
      by_cases hj : j = i
      · subst hj
        rw [update_self]
        exact Buf.heldBy_of_holds ((hheld p j).mpr hi) _
      · rw [update_of_ne hj, (hother j hj).1, (hother j hj).2]
        rfl
    · exact (boots_eq_none hlog.phase).trans (boots_eq_none hup).symm

theorem modify_store (h : Run sb tight p v w w) (hin : w.1.Inside p) (hi : w.1.Holds p i) (d : Block) :
    Run sb tight p { v.hold i (some { w.1.held i with data := d, dirty := true }) with
        op := w.1.ops p, commits := none } w
      ({ w.1.mod i (Buf.fill d) with dirty := update w.1.dirty i true }, w.2) := by
  have hself : ({ w.1.mod i (Buf.fill d) with
      dirty := update w.1.dirty i true } : Sys).buf i = (w.1.buf i).fill d :=
    w.1.mod_buf_self i _
  have hrun := run_of_touch h hi (h.log.not_committing hin) (h.bio.fill d)
    (h.log.modify hin hi d) h.reserved rfl rfl (fun _ _ => rfl)
    (h.log.op_ne_committing (h.log.not_committing hin) p)
    (fun j hj => ⟨w.1.mod_buf_of_ne _ hj, update_of_ne hj _ _⟩)
    (by
      rw [hself]
      exact ⟨rfl, rfl, rfl, rfl⟩)
  have hheld : ({ w.1.mod i (Buf.fill d) with
      dirty := update w.1.dirty i true } : Sys).held i =
      { w.1.held i with data := d, dirty := true } := by
    unfold Sys.held
    rw [hself]
    simp [Buf.held, Buf.fill]
  rw [hheld] at hrun
  exact hrun

/-- What `log_write` leaves alone. -/
theorem note_record_fields (s : Sys) (p : Pid) (i : Fin NBUF) :
    ((s.record i).note p i).chan = s.chan ∧ ((s.record i).note p i).disk = s.disk ∧
    ((s.record i).note p i).ops = update s.ops p ((s.ops p).log (s.buf i).blockno) ∧
    ((s.record i).note p i).dirty = update s.dirty i false ∧
    (∀ j, j ≠ i → ((s.record i).note p i).buf j = s.buf j) ∧
    (((s.record i).note p i).buf i = s.buf i ∨
      ((s.record i).note p i).buf i = (s.buf i).incPin) := by
  unfold Sys.record
  by_cases hb : (s.buf i).blockno ∈ s.log.lh
  · rw [if_pos hb]
    exact ⟨rfl, rfl, rfl, rfl, fun _ _ => rfl, Or.inl rfl⟩
  · rw [if_neg hb]
    have hbuf : ({ s with
        log := { s.log with lh := s.log.lh ++ [(s.buf i).blockno] } }.mod i Buf.incPin).buf i =
        (s.buf i).incPin := Bcache.mod_buf_self _ i _
    refine ⟨rfl, rfl, ?_, rfl, fun j hj => Bcache.mod_buf_of_ne _ _ hj, Or.inr hbuf⟩
    unfold Sys.note
    rw [hbuf]
    rfl

theorem note_record_log (s : Sys) (p : Pid) (i : Fin NBUF) : ((s.record i).note p i).log =
    { s.log with lh := addNew s.log.lh (s.buf i).blockno } := by
  unfold Sys.record addNew
  by_cases hb : (s.buf i).blockno ∈ s.log.lh
  · rw [if_pos hb, if_pos hb]
    rfl
  · rw [if_neg hb, if_neg hb]
    rfl

theorem bioInv_note_record (hbio : BioInv s.bcache s.chan none) :
    BioInv ((s.record i).note p i).bcache ((s.record i).note p i).chan none := by
  unfold Sys.record
  by_cases hb : (s.buf i).blockno ∈ s.log.lh
  · rw [if_pos hb]
    exact hbio
  · rw [if_neg hb]
    exact hbio.incPin

theorem logWrite_store (hv : sb.Valid) (h : Run sb tight p v w w)
    (hin : w.1.Inside p) (hi : w.1.Holds p i) (hvalid : (w.1.buf i).valid)
    (hb : sb.Home (w.1.buf i).blockno) (htight : tight → LOGSIZE ≤ sb.nlog.toNat ∧
      (addNew (w.1.ops p).logged (w.1.buf i).blockno).length < MAXOPBLOCKS) :
    (storeLogic sb tight).safe p (logWrite p i)
      (fun _ => Run sb tight p { v.hold i (some { w.1.held i with dirty := false }) with
        op := (w.1.ops p).log (w.1.buf i).blockno, commits := none }) w w := by
  unfold logWrite
  rw [Logic.safe_bind]
  refine Logic.safe_check ?_ ?_
  swap
  · intro hf
    refine ⟨?_, ⟨w.2, h.inv⟩, h.rel.2⟩
    rintro ⟨-, hbad⟩
    have ht := hbad rfl
    have hlen : w.1.log.lh.length ≤ 28 := (h.reserved ht).length_le
    have hsize : 30 ≤ sb.nlog.toNat := (htight ht).1
    simp only [fits, h.log.size_eq, s32_of_lt hv.nlog_lt, decide_eq_false_iff_not] at hf
    apply hf
    change w.1.log.lh.length < 30 ∧ _
    omega
  intro hfits
  rw [Logic.safe_bind]
  refine Logic.safe_check ?_ ?_
  swap
  · intro hf
    have := h.log.outstanding_pos hin
    simp at hf
    omega
  intro _
  obtain ⟨hchan, hdisk, hops, hdirty, hother, hself⟩ := note_record_fields w.1 p i
  obtain ⟨l, hl⟩ := hin
  have hop : ((w.1.record i).note p i).ops p = (w.1.ops p).log (w.1.buf i).blockno := by
    rw [hops, update_self]
  have hrun := run_of_touch h hi (h.log.not_committing ⟨l, hl⟩) (bioInv_note_record h.bio)
    (h.log.logWrite h.bio hv ⟨l, hl⟩ hvalid hb hfits)
    (fun ht => by
      rw [note_record_log, hops]
      refine (h.reserved ht).logWrite hl ?_ (Nat.ne_of_gt (h.log.outstanding_pos ⟨l, hl⟩))
      have hlt := (htight ht).2
      rwa [hl] at hlt) hchan hdisk
    (fun q hq => by rw [hops, update_of_ne hq])
    (by rw [hop, hl]; simp [Op.log])
    (fun j hj => ⟨hother j hj, by rw [hdirty, update_of_ne hj]⟩)
    (by rcases hself with he | he <;> rw [he] <;> exact ⟨rfl, rfl, rfl, rfl⟩)
  have hheld : ((w.1.record i).note p i).held i = { w.1.held i with dirty := false } := by
    unfold Sys.held
    rw [hdirty, update_self]
    rcases hself with he | he <;> rw [he] <;> rfl
  rw [hheld, hop] at hrun
  exact ⟨w.2, hrun⟩

end Xv6.Storage
