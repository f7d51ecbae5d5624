import Xv6.Storage.StoreView

/-!
# The buffer cache inside the store

`bread` and `brelse` keep the invariant of the log. What `bread` returns is what the block
should contain: a cached copy, or the device contents when no logged update is missing there.
-/

namespace Xv6.Storage

open Data Coop Prog

variable {sb : Superblock} {tight : Prop} {p q : Pid} {s s' : Sys} {t t' b : Nat} {i j : Fin NBUF} {w0 w : Sys × Nat}
  {v : StoreView}

/-! ## Changes of the cache that keep the invariant -/

abbrev Buf.Caches (x : Buf) (b : Nat) : Prop := x.dev = ROOTDEV ∧ x.blockno = b ∧ x.valid = true

/-- The end of a read from the device. -/
def Buf.fetch (d : Block) (x : Buf) : Buf := (x.fill d).validate

abbrev Buf.LockedBy (x : Buf) (q : Pid) : Prop := x.locked = true ∧ x.pid = q

namespace LogInv

section

variable (h : LogInv sb s t)
include h

/-- Locks and reference counts change, and modified buffers stay locked. -/
theorem of_core {c : Bcache} (hcore : ∀ i, (c.buf i).core = (s.buf i).core) (hdirty : ∀ i, s.dirty i →
      (c.buf i).locked = (s.buf i).locked ∧ (c.buf i).pid = (s.buf i).pid) :
    LogInv sb { s with bcache := c } t := by
  -- none of these looks at the lock or the count
  have hsame : ∀ {P : Buf → Prop} (i), P (s.buf i).core → P (c.buf i).core := by
    intro P i hi
    rwa [hcore i]
  refine { h with wf := fun i => hsame (P := Buf.Wf) i (h.wf i), pinned := ?_, cached := ?_, data := ?_, dirty := ?_ }
  · exact fun i => hsame (P := fun x => x.pinned = pins (s.log.lh.drop t) x.blockno) i (h.pinned i)
  · exact fun b hb => (h.cached b hb).imp fun i hi => hsame (P := (·.Caches b)) i hi
  · exact fun i => hsame (P := fun x => x.valid → s.dirty i = false → x.data = s.current x.blockno) i (h.data i)
  · intro i hi
    obtain ⟨r, hheld, hin⟩ := h.dirty i hi
    obtain ⟨h1, h2⟩ := hdirty i hi
    exact ⟨r, ⟨h1.trans hheld.1, h2.trans hheld.2⟩, hin⟩

theorem mod_core {f : Buf → Buf} (hf : (f (s.buf i)).core = (s.buf i).core) (hdirty : s.dirty i →
      (f (s.buf i)).locked = (s.buf i).locked ∧ (f (s.buf i)).pid = (s.buf i).pid) :
    LogInv sb (s.mod i f) t := by
  refine h.of_core (Bcache.mod_congr Buf.core hf) ?_
  exact Bcache.forall_mod (fun j x => s.dirty j → x.locked = (s.buf j).locked ∧ x.pid = (s.buf j).pid)
    (fun _ _ => ⟨rfl, rfl⟩) hdirty

theorem setChan (c : Option (Fin NBUF)) : LogInv sb (s.setChan p c) t :=
  { h with }

/-- Entries of the file-system device with one block number are one entry. -/
theorem eq_of_blockno {pend : Option (Fin NBUF)} (hbio : BioInv s.bcache s.chan pend) (hi : (s.buf i).dev = ROOTDEV)
    (hj : (s.buf j).dev = ROOTDEV) (hb : (s.buf i).blockno = (s.buf j).blockno) : i = j := by
  by_contra hne
  rcases h.wf i with ⟨-, hai⟩ | ⟨h0, -⟩
  · exact hbio.ident i j hai hne ⟨hi.trans hj.symm, hb⟩
  · cases h0.symm.trans hi

theorem dirty_eq_false (hi : (s.buf i).locked = false) : s.dirty i = false := by
  by_contra hd
  obtain ⟨r, hheld, -⟩ := h.dirty i (by simpa using hd)
  have := hheld.1
  cases hi.symm.trans this

theorem dev_of_valid (hi : (s.buf i).valid) : (s.buf i).dev = ROOTDEV := by
  rcases h.wf i with hw | hw
  · exact hw.1
  · cases hw.2.2.symm.trans hi

/-- A recycled entry was not pinned, and a logged block is never missing from the cache. -/
theorem assign (hbio : BioInv s.bcache s.chan none)
    (hn : s.bcache.lookup ROOTDEV b = none) (href : (s.buf i).refcnt = 0)
    (hpin : (s.buf i).pinned = 0) : LogInv sb (s.mod i (Buf.assign ROOTDEV b)) t := by
  have hmiss : b ∉ s.log.lh.drop t := by
    intro hb
    obtain ⟨k, hdev, hno, -⟩ := h.cached b hb
    exact hbio.of_lookup_eq_none hn k ⟨hdev, hno⟩
  have hold : (s.buf i).blockno ∉ s.log.lh.drop t := by
    intro hb
    have hone := h.pinned i
    rw [pins_of_mem hb, hpin] at hone
    cases hone
  have hclean : s.dirty i = false := h.dirty_eq_false (hbio.of_refcnt_eq_zero href).1
  refine { h with wf := Bcache.forall_mod (fun _ => Buf.Wf) h.wf (.inl ⟨rfl, rfl⟩), pinned := ?_, cached := ?_,
                  data := ?_, dirty := ?_ }
  · exact Bcache.forall_mod (fun _ x => x.pinned = pins (s.log.lh.drop t) x.blockno) h.pinned
      (hpin.trans (pins_of_notMem hmiss).symm)
  · intro a ha
    obtain ⟨k, hdev, hno, hv⟩ := h.cached a ha
    have hk : k ≠ i := by
      rintro rfl
      exact hold (hno ▸ ha)
    refine ⟨k, ?_⟩
    rw [Sys.mod_buf_of_ne _ _ hk]
    exact ⟨hdev, hno, hv⟩
  · exact Bcache.forall_mod (fun k x => x.valid → s.dirty k = false → x.data = s.current x.blockno) h.data nofun
  · exact Bcache.forall_mod (fun k x => s.dirty k → ∃ r, x.LockedBy r ∧ s.Inside r) h.dirty fun hd =>
      absurd (hclean.symm.trans hd) (by simp)

theorem disk_eq_current (hb : b ∉ s.log.lh.drop t) : s.disk b = s.current b := by
  unfold Sys.current
  cases hl : s.last b with
  | none => rfl
  | some d => exact h.settled b d hb hl

theorem fetch (hbio : BioInv s.bcache s.chan none) (hv : (s.buf i).valid = false) (hdev : (s.buf i).dev = ROOTDEV) :
    LogInv sb ((s.mod i (Buf.fill (s.disk (s.buf i).blockno))).mod i Buf.validate) t := by
  have hmiss : (s.buf i).blockno ∉ s.log.lh.drop t := by
    intro hb
    obtain ⟨k, hdk, hno, hvk⟩ := h.cached _ hb
    have := h.eq_of_blockno hbio hdk hdev hno
    subst this
    cases hv.symm.trans hvk
  have hwf : (((s.buf i).fill (s.disk (s.buf i).blockno)).validate).Wf := by
    rcases h.wf i with hw | hw
    · exact .inl hw
    · cases hw.1.symm.trans hdev
  have hmod : (s.mod i (Buf.fill (s.disk (s.buf i).blockno))).mod i Buf.validate =
      s.mod i (Buf.fetch (s.disk (s.buf i).blockno)) := by
    simp [Sys.mod, Bcache.mod, Buf.fetch]
  rw [hmod]
  refine { h with wf := ?_, pinned := ?_, cached := ?_, data := ?_, dirty := ?_ }
  · exact Bcache.forall_mod (fun _ => Buf.Wf) h.wf hwf
  · exact Bcache.forall_mod (fun _ x => x.pinned = pins (s.log.lh.drop t) x.blockno) h.pinned (h.pinned i)
  · intro a ha
    obtain ⟨k, hk⟩ := h.cached a ha
    exact ⟨k, Bcache.forall_mod (fun k x => (s.buf k).Caches a → x.Caches a) (fun _ hk => hk)
      (fun hk => ⟨hk.1, hk.2.1, rfl⟩) k hk⟩
  · exact Bcache.forall_mod (fun k x => x.valid → s.dirty k = false → x.data = s.current x.blockno) h.data
      fun _ _ => h.disk_eq_current hmiss
  · exact Bcache.forall_mod (fun k x => s.dirty k → ∃ r, x.LockedBy r ∧ s.Inside r) h.dirty (h.dirty i)

end

end LogInv

/-! ## `bread` -/

/-- Process `p` has got the buffer `i` for block `b`; before, its view was `v`. -/
def Took (sb : Superblock) (tight : Prop) (p : Pid) (v : StoreView) (b : Nat) (i : Fin NBUF) (w₀ w : Sys × Nat) :
    Prop :=
  v.holds i = none ∧ ∃ h : Held, Run sb tight p (v.hold i (some h)) w₀ w ∧ h.dev = ROOTDEV ∧
    h.blockno = b ∧ h.dirty = false

theorem took_of_lockBy (hbio : BioInv s.bcache s.chan (some i)) (hlog : LogInv sb s t)
    (hres : tight → Reserved s.log s.ops)
    (hrel : StoreRel sb p w0 (s, t)) (hview : storeView p s t = v) (hwaits : v.waits = none)
    (hdev : (s.buf i).dev = ROOTDEV) (hno : (s.buf i).blockno = b)
    (hlock : (s.buf i).locked = false) : Took sb tight p v b i w0 (s.mod i (Buf.lockBy p), t) := by
  have hchan : s.chan p = none := chan_of_waits (hview ▸ hwaits)
  have hclean := hlog.dirty_eq_false hlock
  refine ⟨hview ▸ holds_eq_none hlock, s.held i, ⟨hbio.lockBy hlock, ?_, hres, ?_, ?_⟩, hdev, hno, hclean⟩
  · refine hlog.mod_core rfl ?_
    intro hd
    cases hclean.symm.trans hd
  · refine hrel.trans (storeRel_of_views rfl rfl ?_)
    intro q hq
    refine storeView_mod hlog.phase (fun _ => ⟨rfl, rfl⟩) (Or.inl ⟨?_, ?_⟩)
    · rintro ⟨hl, -⟩
      cases hlock.symm.trans hl
    · rintro ⟨-, hpid⟩
      rw [Sys.mod_buf_self] at hpid
      exact hq hpid.symm
  · rw [← hview, storeView_mod_self hlog.phase hchan, Buf.heldBy, if_pos ⟨rfl, rfl⟩]
    rfl

theorem acquiresleep_store (hbio : BioInv s.bcache s.chan (some i)) (hlog : LogInv sb s t)
    (hres : tight → Reserved s.log s.ops)
    (hrel : StoreRel sb p w0 (s, t)) (hview : storeView p s t = v) (hwaits : v.waits = none)
    (hdev : (s.buf i).dev = ROOTDEV) (hno : (s.buf i).blockno = b) :
    (storeLogic sb tight).safe p (acquiresleep p i) (fun _ => Took sb tight p v b i) w0 (s, t) := by
  have hchan : s.chan p = none := chan_of_waits (hview ▸ hwaits)
  refine safe_acquiresleep ?_ ?_
  · exact took_of_lockBy hbio hlog hres hrel hview hwaits hdev hno
  · intro _
    have hrun : Run sb tight p { v with waits := some (i, ROOTDEV, b) } w0 (s.setChan p (some i), t) := by
      refine ⟨hbio.setChan_some hchan, hlog.setChan _, hres, ?_, ?_⟩
      · refine hrel.trans (storeRel_of_views rfl rfl ?_)
        intro q hq
        exact storeView_setChan hlog.phase _ hq
      · rw [storeView_setChan_self hlog.phase, hview, Option.map_some, hdev, hno]
    refine ⟨hrun.inv, hrun.rel, ?_⟩
    rintro ⟨s1, t1⟩ hinv hview1 hlock
    have hanch : StoreView.Anchored { v with waits := some (i, ROOTDEV, b) } :=
      ⟨hview ▸ boots_eq_none hlog.phase, Or.inl (by simp)⟩
    have hwake := run_of_wake hinv (hview1.trans hrun.view) hanch
    have hv1 := hwake.view
    have hw1 : (storeView p s1 t1).waits = some (i, ROOTDEV, b) := by rw [hv1]
    obtain ⟨j, hj, hji⟩ := Option.map_eq_some_iff.mp hw1
    simp only [Prod.mk.injEq] at hji
    obtain ⟨rfl, hdev1, hno1⟩ := hji
    refine took_of_lockBy (BioInv.setChan_none hwake.bio hj) (hwake.log.setChan none) hwake.reserved ?_ ?_ hwaits
      hdev1 hno1 hlock
    · refine storeRel_of_views rfl rfl ?_
      intro q hq
      exact storeView_setChan hwake.log.phase _ hq
    · rw [storeView_setChan_self hwake.log.phase, hv1]
      simp only [Option.map_none, ← hwaits]

theorem bget_store (b : Nat) (h : Run sb tight p v w0 w) (hwaits : v.waits = none) :
    (storeLogic sb tight).safe p (bget p ROOTDEV b) (fun i => Took sb tight p v b i) w0 w := by
  refine safe_bget ?_ ?_ ?_
  · intro i hi
    obtain ⟨hdev, hno⟩ := BioInv.of_lookup_eq_some hi
    have hsame : ∀ q, storeView q (w.1.mod i Buf.incRef) w.2 = storeView q w.1 w.2 := fun q =>
      storeView_mod h.log.phase (fun _ => ⟨rfl, rfl⟩) (Or.inr ⟨rfl, rfl, rfl, rfl, rfl, rfl⟩)
    refine acquiresleep_store h.bio.incRef (h.log.mod_core rfl fun _ => ⟨rfl, rfl⟩) h.reserved ?_
      ((hsame p).trans h.view) hwaits ?_ ?_
    · exact h.rel.trans (storeRel_of_views rfl rfl fun q _ => hsame q)
    · rw [Sys.mod_buf_self]
      exact hdev
    · rw [Sys.mod_buf_self]
      exact hno
  · intro i hn hi
    obtain ⟨href, hpin⟩ := BioInv.of_victim_eq_some hi
    obtain ⟨hlock, hchan, -⟩ := h.bio.of_refcnt_eq_zero href
    have hsame : ∀ q, storeView q (w.1.mod i (Buf.assign ROOTDEV b)) w.2 = storeView q w.1 w.2 := by
      intro q
      refine storeView_mod h.log.phase (fun hq => absurd hq (hchan q)) (Or.inl ⟨?_, ?_⟩)
      · rintro ⟨hl, -⟩
        exact absurd (hl.symm.trans hlock) (by simp)
      · rintro ⟨hl, -⟩
        rw [Sys.mod_buf_self] at hl
        exact absurd (hl.symm.trans hlock) (by simp)
    refine acquiresleep_store (h.bio.assign hn href) (h.log.assign h.bio hn href hpin) h.reserved ?_
      ((hsame p).trans h.view) hwaits ?_ ?_
    · exact h.rel.trans (storeRel_of_views rfl rfl fun q _ => hsame q)
    · rw [Sys.mod_buf_self]
      rfl
    · rw [Sys.mod_buf_self]
      rfl
  · intro _ _
    exact ⟨fun hbad => hbad.1 rfl, ⟨w.2, h.inv⟩, h.rel.2⟩

/-- Process `p` has got the buffer `i` for block `b` with its contents. -/
def Has (sb : Superblock) (tight : Prop) (p : Pid) (v : StoreView) (b : Nat) (i : Fin NBUF) (w₀ w : Sys × Nat) :
    Prop :=
  v.holds i = none ∧ ∃ h : Held, Run sb tight p (v.hold i (some h)) w₀ w ∧ h.dev = ROOTDEV ∧
    h.blockno = b ∧ h.dirty = false ∧ h.valid = true

theorem fetch_store {h : Held}
    (hrun : Run sb tight p (v.hold i (some h)) w w) (hwaits : v.waits = none) (hnone : v.holds i = none)
    (hdev : h.dev = ROOTDEV) (hclean : h.dirty = false) (hv : h.valid = false) :
    Has sb tight p v h.blockno i w
      ((w.1.mod i (Buf.fill (w.1.disk h.blockno))).mod i Buf.validate, w.2) := by
  obtain ⟨hheld, heq⟩ := holds_eq_some (show (storeView p w.1 w.2).holds i = some h by
    rw [hrun.view]
    simp [StoreView.hold])
  have hchan : w.1.chan p = none := chan_of_waits (by rw [hrun.view]; exact hwaits)
  subst heq
  have hup := hrun.log.phase
  have hbuf : (w.1.mod i (Buf.fill (w.1.disk (w.1.held i).blockno))).Holds p i := by
    simpa [Sys.Holds, Buf.fill] using hheld
  refine ⟨hnone, { w.1.held i with valid := true, data := w.1.disk (w.1.held i).blockno },
    ⟨(hrun.bio.fill _).validate, hrun.log.fetch hrun.bio hv hdev, hrun.reserved, ?_, ?_⟩, hdev, rfl, hclean, rfl⟩
  · refine storeRel_of_views rfl rfl ?_
    intro q hq
    have hne : ∀ s : Sys, s.Holds p i → ¬ s.Holds q i := by
      rintro s ⟨-, h1⟩ ⟨-, h2⟩
      exact hq (h2.symm.trans h1)
    have hbuf' : ((w.1.mod i (Buf.fill (w.1.disk (w.1.held i).blockno))).mod i Buf.validate).Holds p i := by
      simpa [Sys.Holds, Buf.validate] using hbuf
    have hup' : (w.1.mod i (Buf.fill (w.1.disk (w.1.held i).blockno))).phase = .up := hup
    exact (storeView_mod hup' (fun _ => ⟨rfl, rfl⟩) (Or.inl ⟨hne _ hbuf, hne _ hbuf'⟩)).trans
      (storeView_mod hup (fun _ => ⟨rfl, rfl⟩) (Or.inl ⟨hne _ hheld, hne _ hbuf⟩))
  · have hlast := storeView_mod_self (p := p) (t := w.2) (f := Buf.validate) (i := i)
      (s := w.1.mod i (Buf.fill (w.1.disk (w.1.held i).blockno))) hup hchan
    rw [hlast, storeView_mod_self hup hchan, hrun.view]
    simp only [StoreView.hold, Function.update_idem, Sys.mod_buf_self]
    congr 2
    have hlocked : (((w.1.buf i).fill (w.1.disk (w.1.held i).blockno)).validate).locked = true ∧
      (((w.1.buf i).fill (w.1.disk (w.1.held i).blockno)).validate).pid = p := hheld
    rw [Buf.heldBy, if_pos hlocked]
    rfl

theorem bread_store (b : Nat) (h : Run sb tight p v w0 w) (hwaits : v.waits = none) :
    (storeLogic sb tight).safe p (bread p ROOTDEV b) (fun i => Has sb tight p v b i) w0 w := by
  unfold bread
  refine Logic.safe_seq (bget_store b h hwaits) ?_
  rintro i w1 w2 ⟨hnone, hd, hrun, hdev, hno, hclean⟩
  have hheld := holds_eq_some (show (storeView p w2.1 w2.2).holds i = some hd by
    rw [hrun.view]
    simp [StoreView.hold])
  rw [Logic.safe_bind]
  refine Logic.safe_gets ?_
  have hv : (w2.1.buf i).valid = hd.valid := congrArg Held.valid hheld.2
  cases hvalid : hd.valid with
  | true =>
    rw [hv, hvalid]
    exact ⟨hnone, hd, hrun, hdev, hno, hclean, hvalid⟩
  | false =>
    rw [hv, hvalid]
    refine ⟨hrun.inv, hrun.rel, ?_⟩
    intro w3 hinv hview _
    have hanch : (v.hold i (some hd)).Anchored :=
      ⟨hrun.view ▸ boots_eq_none hrun.log.phase, Or.inr (Or.inr ⟨i, by simp [StoreView.hold]⟩)⟩
    have hwake := run_of_wake hinv (hview.trans hrun.view) hanch
    subst hno
    exact ⟨w3.2, w3.2, fetch_store hwake hwaits hnone hdev hclean hvalid⟩

/-! ## `brelse` -/

/-- A process may release a buffer that it has not modified since it was logged. -/
theorem brelse_store {h : Held} (hrun : Run sb tight p v w0 w)
    (hwaits : v.waits = none) (hi : v.holds i = some h) (hclean : h.dirty = false) :
    (storeLogic sb tight).safe p (brelse p i) (fun _ => Run sb tight p (v.hold i none)) w0 w := by
  obtain ⟨hheld, heq⟩ := holds_eq_some (show (storeView p w.1 w.2).holds i = some h by
    rw [hrun.view]
    exact hi)
  subst heq
  have hup := hrun.log.phase
  have hchan : w.1.chan p = none := chan_of_waits (by rw [hrun.view]; exact hwaits)
  have hself : (Alone.released w.1 i).buf i = (w.1.buf i).unlock.decRef := by
    rw [Alone.released_buf, if_pos rfl]
  have hother : ∀ j, j ≠ i → (Alone.released w.1 i).buf j = w.1.buf j := by
    intro j hj
    rw [Alone.released_buf, if_neg hj]
  have hcore := Alone.released_core w.1 i
  have hfinal : Run sb tight p (v.hold i none) w0 (Alone.released w.1 i, w.2) := by
    refine ⟨(hrun.bio.unlock hheld.1).unref, ?_, hrun.reserved, ?_, ?_⟩
    · refine hrun.log.of_core hcore ?_
      intro j hd
      have hj : j ≠ i := by
        rintro rfl
        exact absurd (hd.symm.trans hclean) (by simp)
      exact ⟨congrArg Buf.locked (hother j hj), congrArg Buf.pid (hother j hj)⟩
    · refine hrun.rel.trans (storeRel_of_views rfl rfl ?_)
      intro q hq
      refine storeView_cache hup ?_ ?_ ?_
      · intro j _
        have hdev := congrArg Buf.dev (hcore j)
        have hno := congrArg Buf.blockno (hcore j)
        exact ⟨hdev, hno⟩
      · intro j
        by_cases hj : j = i
        · subst hj
          refine iff_of_false ?_ ?_
          · rintro ⟨hl, -⟩
            have hl' : ((Alone.released w.1 j).buf j).locked = true := hl
            rw [hself] at hl'
            cases hl'
          · rintro ⟨-, hpid⟩
            exact hq (hpid.symm.trans hheld.2)
        · have hj' : (Alone.released w.1 i).Holds q j ↔ w.1.Holds q j := by
            unfold Sys.Holds
            rw [hother j hj]
          exact hj'
      · intro j _
        have hdev := congrArg Buf.dev (hcore j)
        have hno := congrArg Buf.blockno (hcore j)
        have hvalid := congrArg Buf.valid (hcore j)
        have hdata := congrArg Buf.data (hcore j)
        exact ⟨hdev, hno, hvalid, hdata⟩
    · rw [← hrun.view]
      unfold storeView StoreView.hold
      congr 1
      · change (w.1.chan p).map _ = (w.1.chan p).map _
        rw [hchan]
        rfl
      · funext j
        by_cases hj : j = i
        · subst hj
          rw [Function.update_self]
          exact Buf.heldBy_of_not_holds (fun hl => by
            have := hl.1
            rw [hself] at this
            cases this) _
        · rw [Function.update_of_ne hj, hother j hj]
          rfl
      · have hup' : (Alone.released w.1 i).phase = .up := hup
        simp [hup, hup']
  unfold brelse
  rw [Logic.safe_bind]
  refine Logic.safe_check ?_ ?_
  · intro _
    exact ⟨w.2, w.2, hfinal⟩
  · intro hf
    exact absurd hheld (by simpa [holdingsleep] using hf)

end Xv6.Storage
