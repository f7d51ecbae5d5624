import Xv6.Storage.BioInv
import Xv6.Coop.Sequential

/-!
# The buffer cache with one process running

`Alone p held s` says that nobody but `p` holds or waits for a buffer. Then no `acquiresleep`
waits, and `bread` and `brelse` return.
-/

namespace Xv6.Storage

open Data Coop Prog

/-- An entry was recycled for the file-system device, or it was never used. -/
def Buf.Wf (b : Buf) : Prop :=
  (b.dev = ROOTDEV ∧ b.assigned = true) ∨ (b.dev = 0 ∧ b.blockno = 0 ∧ b.valid = false)

/-- An entry without its lock and its reference count. -/
def Buf.core (b : Buf) : Buf := { b with locked := false, pid := 0, refcnt := 0 }

/-- Only the cache differs. -/
def SameBut (s s' : Sys) : Prop := s' = { s with bcache := s'.bcache }

structure Alone (p : Pid) (held : Finset (Fin NBUF)) (s : Sys) : Prop where
  bio : BioInv s.bcache s.chan none
  chan : ∀ q, s.chan q = none
  held : ∀ i, i ∈ held ↔ (s.buf i).locked = true
  pid : ∀ i, (s.buf i).locked = true → (s.buf i).pid = p

/-- The buffer `i` of `s'` was got from `s` for the block. -/
structure Fetched (s s' : Sys) (dev blockno : Nat) (i : Fin NBUF) : Prop where
  frame : SameBut s s'
  dev_eq : (s'.buf i).dev = dev
  blockno_eq : (s'.buf i).blockno = blockno
  other : ∀ j, j ≠ i → s'.buf j = s.buf j
  pinned : (s'.buf i).pinned = (s.buf i).pinned
  wf : dev = ROOTDEV → (s.buf i).Wf → (s'.buf i).Wf
  valid : (s'.buf i).valid = true
  /-- A valid cached copy, or the contents of the device. -/
  source : (s.bcache.lookup dev blockno = some i ∧ (s.buf i).valid = true ∧
      (s'.buf i).data = (s.buf i).data) ∨
    ((s.bcache.lookup dev blockno = none ∨ (s.buf i).valid = false) ∧
      (s'.buf i).data = s.disk blockno)

theorem SameBut.mod {s s' : Sys} (h : SameBut s s') (i : Fin NBUF) (f : Buf → Buf) : SameBut s (s'.mod i f) := by
  unfold SameBut at *
  rw [h]
  rfl

theorem SameBut.refl (s : Sys) : SameBut s s := rfl

namespace Alone

variable {p : Pid} {held : Finset (Fin NBUF)} {s : Sys} {i : Fin NBUF}
  {Y : Sys → Prop} {E : Option String → Sys → Prop}

theorem holds (h : Alone p held s) (hi : i ∈ held) : s.Holds p i :=
  ⟨(h.held i).mp hi, h.pid i ((h.held i).mp hi)⟩

theorem refcnt (h : Alone p held s) (i : Fin NBUF) : (s.buf i).refcnt = if (s.buf i).locked then 1 else 0 := by
  obtain ⟨W, hW, hr⟩ := h.bio.refs
  have hempty : W i = ∅ := by
    ext q
    simp [hW, h.chan]
  have hi := hr i
  simp only [reduceCtorEq, if_false, Nat.add_zero, hempty, Finset.card_empty] at hi
  exact hi

/-- What is left of `bget` once the reference is counted. -/
theorem acquiresleep {s : Sys} (hbio : BioInv s.bcache s.chan (some i))
    (hchan : ∀ q, s.chan q = none) (hheld : ∀ j, j ∈ held ↔ (s.buf j).locked)
    (hpid : ∀ j, (s.buf j).locked → (s.buf j).pid = p) (hi : (s.buf i).locked = false)
    {Q : Unit → Sys → Prop}
    (hQ : Alone p (insert i held) (s.mod i (Buf.lockBy p)) → Q () (s.mod i (Buf.lockBy p))) :
    (acquiresleep p i).ensures Y E Q s := by
  unfold Storage.acquiresleep
  rw [ensures_bind, ensures_gets, hi]
  refine hQ ⟨hbio.lockBy hi, hchan, ?_, ?_⟩
  · intro j
    by_cases hj : j = i
    · subst hj
      simp [Buf.lockBy]
    · rw [s.mod_buf_of_ne _ hj, ← hheld j]
      simp [hj]
  · intro j hlock
    by_cases hj : j = i
    · subst hj
      simp [Buf.lockBy]
    · rw [s.mod_buf_of_ne _ hj] at hlock ⊢
      exact hpid j hlock

/-- What `bget` has done to the entry that it returns: `f` is the hit or the assignment. -/
theorem after_bget {f : Buf → Buf} {dev blockno : Nat}
    (hbio : BioInv (s.bcache.mod i f) s.chan (some i)) (h : Alone p held s)
    (hi : (s.buf i).locked = false) (hlock : (f (s.buf i)).locked = (s.buf i).locked)
    (hdev : (f (s.buf i)).dev = dev) (hno : (f (s.buf i)).blockno = blockno)
    (hpin : (f (s.buf i)).pinned = (s.buf i).pinned)
    (hwf : dev = ROOTDEV → (s.buf i).Wf → ∀ d, ((f (s.buf i)).fill d).validate.Wf)
    (hsource : (s.bcache.lookup dev blockno = some i ∧ f (s.buf i) = (s.buf i).incRef) ∨
      (s.bcache.lookup dev blockno = none ∧ (f (s.buf i)).valid = false))
    (hY : ∀ s', SameBut s s' → (∀ i, (s'.buf i).locked → (s'.buf i).pid = p) → Y s')
    {Q : Fin NBUF → Sys → Prop}
    (hQ : ∀ s', Alone p (insert i held) s' → Fetched s s' dev blockno i → Q i s') :
    (Storage.acquiresleep p i).ensures Y E (fun _ s' =>
      (do
        let valid ← gets fun s => (s.buf i).valid
        if valid then
          pure i
        else
          virtioRead blockno i
          modify fun s => s.mod i Buf.validate
          pure i : Prog Sys (Fin NBUF)).ensures Y E Q s') (s.mod i f) := by
  have hlocked : ∀ j, ((s.mod i f).buf j).locked = (s.buf j).locked := by
    intro j
    by_cases hj : j = i
    · subst hj
      simpa using hlock
    · rw [s.mod_buf_of_ne _ hj]
  have hpid : ∀ j, ((s.mod i f).buf j).locked = true → ((s.mod i f).buf j).pid = p := by
    intro j hj
    have hji : j ≠ i := by
      rintro rfl
      rw [hlocked, hi] at hj
      cases hj
    rw [hlocked] at hj
    rw [s.mod_buf_of_ne _ hji]
    exact h.pid j hj
  refine acquiresleep (s := s.mod i f) hbio h.chan (fun j => by rw [hlocked]; exact h.held j) hpid
    (by rw [hlocked]; exact hi) ?_
  intro halone
  have hframe : SameBut s ((s.mod i f).mod i (Buf.lockBy p)) := ((SameBut.refl s).mod i f).mod i _
  have hother : ∀ j, j ≠ i → ((s.mod i f).mod i (Buf.lockBy p)).buf j = s.buf j := by
    intro j hj
    rw [Sys.mod_buf_of_ne _ _ hj, Sys.mod_buf_of_ne _ _ hj]
  have hbuf : ((s.mod i f).mod i (Buf.lockBy p)).buf i = (f (s.buf i)).lockBy p := by simp
  rw [ensures_bind, ensures_gets, hbuf]
  cases hv : ((f (s.buf i)).lockBy p).valid with
  | true =>
    replace hv : (f (s.buf i)).valid = true := hv
    rcases hsource with ⟨hhit, hf⟩ | ⟨-, hf⟩
    · refine hQ _ halone ⟨hframe, ?_, ?_, hother, ?_, ?_, ?_, Or.inl ⟨hhit, ?_, ?_⟩⟩
      · rw [hbuf]
        exact hdev
      · rw [hbuf]
        exact hno
      · rw [hbuf]
        exact hpin
      · intro hroot hw
        have := hwf hroot hw (f (s.buf i)).data
        rw [hbuf]
        simpa [Buf.Wf, Buf.fill, Buf.validate, Buf.lockBy, hv] using this
      · rw [hbuf]
        exact hv
      · rw [hf] at hv
        exact hv
      · rw [hbuf, hf]
        rfl
    · cases hf.symm.trans hv
  | false =>
    replace hv : (f (s.buf i)).valid = false := hv
    unfold virtioRead
    refine ⟨hY _ hframe halone.pid, ?_⟩
    have hbuf' : ((((s.mod i f).mod i (Buf.lockBy p)).mod i (Buf.fill (s.disk blockno))).mod i
        Buf.validate).buf i = (((f (s.buf i)).lockBy p).fill (s.disk blockno)).validate := by
      simp
    refine hQ _ ⟨(halone.bio.fill _).validate, h.chan, ?_, ?_⟩
      ⟨(hframe.mod i _).mod i _, ?_, ?_, ?_, ?_, ?_, ?_, Or.inr ⟨?_, ?_⟩⟩
    · intro j
      rw [halone.held j]
      by_cases hj : j = i
      · subst hj
        simp [Buf.validate, Buf.fill]
      · rw [Sys.mod_buf_of_ne _ Buf.validate hj, Sys.mod_buf_of_ne _ (Buf.fill _) hj]
    · intro j
      by_cases hj : j = i
      · subst hj
        simp [Buf.validate, Buf.fill, Buf.lockBy]
      · rw [Sys.mod_buf_of_ne _ Buf.validate hj, Sys.mod_buf_of_ne _ (Buf.fill _) hj]
        exact halone.pid j
    · exact (congrArg Buf.dev hbuf').trans hdev
    · exact (congrArg Buf.blockno hbuf').trans hno
    · intro j hj
      rw [Sys.mod_buf_of_ne _ Buf.validate hj, Sys.mod_buf_of_ne _ (Buf.fill _) hj]
      exact hother j hj
    · exact (congrArg Buf.pinned hbuf').trans hpin
    · intro hroot hw
      have := hwf hroot hw (s.disk blockno)
      have hgoal : (((f (s.buf i)).lockBy p).fill (s.disk blockno)).validate.Wf := this
      exact hbuf' ▸ hgoal
    · exact congrArg Buf.valid hbuf'
    · rcases hsource with ⟨-, hf⟩ | ⟨hmiss, -⟩
      · rw [hf] at hv
        exact Or.inr hv
      · exact Or.inl hmiss
    · exact congrArg Buf.data hbuf'

theorem bread (h : Alone p held s) {dev blockno : Nat}
    (hnew : ∀ i ∈ held, ¬ ((s.buf i).dev = dev ∧ (s.buf i).blockno = blockno))
    (hroom : s.bcache.lookup dev blockno = none → ∃ i, i ∉ held ∧ (s.buf i).pinned = 0)
    (hY : ∀ s', SameBut s s' → (∀ i, (s'.buf i).locked → (s'.buf i).pid = p) → Y s')
    {Q : Fin NBUF → Sys → Prop}
    (hQ : ∀ i s', i ∉ held → Alone p (insert i held) s' → Fetched s s' dev blockno i → Q i s') :
    (bread p dev blockno).ensures Y E Q s := by
  have hfree : ∀ i, i ∉ held → (s.buf i).locked = false := by
    intro i hi
    have := mt (h.held i).mpr hi
    simpa using this
  unfold Storage.bread bget
  rw [ensures_bind, ensures_bind, ensures_step]
  cases hl : s.bcache.lookup dev blockno with
  | some i =>
    have hident := BioInv.of_lookup_eq_some hl
    have hi : i ∉ held := fun hi => hnew i hi hident
    refine (ensures_bind _ _ _ _).mpr (after_bget h.bio.incRef h (hfree i hi) rfl hident.1
      hident.2 rfl ?_ (Or.inl ⟨hl, rfl⟩) hY fun s' => hQ i s' hi)
    rintro rfl (hw | hw) d
    · exact Or.inl hw
    · have h0 : (0 : Nat) = ROOTDEV := hw.1.symm.trans hident.1
      cases h0
  | none =>
    obtain ⟨k, hk, hpin⟩ := hroom hl
    cases hv : s.bcache.victim with
    | none =>
      have hz : (s.buf k).refcnt = 0 := by
        rw [h.refcnt, hfree k hk]
        rfl
      exact absurd ⟨hz, hpin⟩ (h.bio.of_victim_eq_none hv k)
    | some i =>
      obtain ⟨href, -⟩ := BioInv.of_victim_eq_some hv
      have hlock := (h.bio.of_refcnt_eq_zero href).1
      have hi : i ∉ held := by
        intro hi
        have hl' := (h.held i).mp hi
        cases (show (s.buf i).locked = false from hlock).symm.trans hl'
      exact (ensures_bind _ _ _ _).mpr (after_bget (h.bio.assign hl href) h hlock rfl rfl rfl rfl
        (fun hroot _ _ => Or.inl ⟨hroot, rfl⟩) (Or.inr ⟨hl, rfl⟩) hY fun s' => hQ i s' hi)

theorem bwrite (h : Alone p held s) (hi : i ∈ held)
    (hY : Y (s.devWrite (s.buf i).blockno (s.buf i).data)) {Q : Unit → Sys → Prop}
    (hQ : Q () (s.devWrite (s.buf i).blockno (s.buf i).data)) :
    (bwrite p i).ensures Y E Q s := by
  unfold Storage.bwrite
  rw [ensures_bind, ensures_check]
  have hheld : holdingsleep p i s = true := by simpa [holdingsleep] using h.holds hi
  refine ⟨fun _ => ⟨hY, hQ⟩, fun hf => ?_⟩
  cases hheld.symm.trans hf

/-- The cache after `brelse`. -/
def released (s : Sys) (i : Fin NBUF) : Sys :=
  { s.mod i Buf.unlock with bcache := (s.mod i Buf.unlock).bcache.unref i }

@[simp] theorem released_disk (s : Sys) (i : Fin NBUF) : (released s i).disk = s.disk := rfl

@[simp] theorem released_log (s : Sys) (i : Fin NBUF) : (released s i).log = s.log := rfl

@[simp] theorem released_sb (s : Sys) (i : Fin NBUF) : (released s i).sb = s.sb := rfl

@[simp] theorem released_committed (s : Sys) (i : Fin NBUF) :
    (released s i).committed = s.committed := rfl

theorem released_buf (s : Sys) (i j : Fin NBUF) :
    (released s i).buf j = if j = i then (s.buf j).unlock.decRef else s.buf j := by
  have hbuf : (released s i).buf j = ((s.mod i Buf.unlock).mod i Buf.decRef).buf j :=
    Bcache.unref_buf _ i j
  rw [hbuf]
  by_cases hj : j = i
  · subst hj
    simp
  · rw [Sys.mod_buf_of_ne _ _ hj, Sys.mod_buf_of_ne _ _ hj, if_neg hj]

theorem released_core (s : Sys) (i j : Fin NBUF) : ((released s i).buf j).core = (s.buf j).core := by
  rw [released_buf]
  split
  · rfl
  · rfl

theorem brelse (h : Alone p held s) (hi : i ∈ held) {Q : Unit → Sys → Prop}
    (hQ : Alone p (held.erase i) (released s i) → Q () (released s i)) :
    (brelse p i).ensures Y E Q s := by
  unfold Storage.brelse
  rw [ensures_bind, ensures_check]
  have hheld : holdingsleep p i s = true := by simpa [holdingsleep] using h.holds hi
  have hlock : ∀ j, ((released s i).buf j).locked = true ↔ j ≠ i ∧ (s.buf j).locked = true := by
    intro j
    rw [released_buf]
    by_cases hj : j = i
    · simp [hj, Buf.unlock, Buf.decRef]
    · simp [hj]
  refine ⟨fun _ => hQ ⟨?_, h.chan, ?_, ?_⟩, fun hf => ?_⟩
  · exact (h.bio.unlock (h.holds hi).1).unref
  · intro j
    rw [Finset.mem_erase, hlock j, h.held j]
  · intro j hj
    have hji := ((hlock j).mp hj).1
    rw [released_buf, if_neg hji]
    exact h.pid j ((hlock j).mp hj).2
  · cases hheld.symm.trans hf

end Alone

end Xv6.Storage
