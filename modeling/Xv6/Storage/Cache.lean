import Xv6.Storage.BioInv
import Mathlib.Data.Set.Card

/-!
# The buffer cache under any interleaving

Processes call `bread`, `bwrite`, `brelse`, `bpin` and `bunpin` in any order, and write into
the buffers that they hold. A process passes to `bwrite` and to `brelse` only buffers that it
holds, so it releases each buffer that `bread` gave it once.

`cacheLogic` instantiates the program logic with `BioInv`. The view of a process is the
buffer that it waits for and the buffers that it holds.
-/

namespace Xv6.Storage

open Data Coop Prog

inductive BioCall
  | bread (dev blockno : Nat)
  | bwrite (i : Fin NBUF)
  | brelse (i : Fin NBUF)
  | bpin (i : Fin NBUF)
  | bunpin (i : Fin NBUF)
  | fill (i : Fin NBUF) (d : Block)

def bioCode (p : Pid) : BioCall → Prog Sys (Option (Fin NBUF))
  | .bread dev blockno => do return some (← bread p dev blockno)
  | .bwrite i => do bwrite p i; return none
  | .brelse i => do brelse p i; return none
  | .bpin i => do bpin i; return none
  | .bunpin i => do bunpin i; return none
  | .fill i d => do modify fun s => s.mod i (Buf.fill d); return none

def bioMay (p : Pid) : BioCall → Sys → Prop
  | .bread _ _, _ => True
  | .bwrite i, s => s.Holds p i
  | .brelse i, s => s.Holds p i
  | .bpin _, _ => True
  | .bunpin _, _ => True
  | .fill i _, s => s.Holds p i

def bioMachine : Machine Sys BioCall (Option (Fin NBUF)) where
  code := bioCode
  may := bioMay
  fail := fun _ _ => False

/-! ## What a process relies on -/

structure CacheView where
  waits : Option (Fin NBUF × Nat × Nat)
  holds : Fin NBUF → Option (Nat × Nat × Bool)

def cacheView (p : Pid) (s : Sys) : CacheView where
  waits := (s.chan p).map fun i => (i, (s.buf i).dev, (s.buf i).blockno)
  holds := fun i =>
    if s.Holds p i then some ((s.buf i).dev, (s.buf i).blockno, (s.buf i).valid) else none

/-- No referenced or pinned entry changes its identity. -/
def KeepsIdent (s s' : Sys) : Prop :=
  ∀ i, 0 < (s.buf i).refcnt ∨ 0 < (s.buf i).pinned →
    (s'.buf i).dev = (s.buf i).dev ∧ (s'.buf i).blockno = (s.buf i).blockno

def cacheLogic : Logic Sys Unit CacheView where
  inv := fun w => BioInv w.1.bcache w.1.chan none
  view := fun p w => cacheView p w.1
  idle := fun v => v.waits = none
  bad := fun _ _ => False
  dead := fun s => BioInv s.bcache s.chan none
  guar := KeepsIdent

/-- When `bread` returns, the caller has the buffer locked, valid and with the identity it
asked for. -/
def bioPost (p : Pid) : BioCall → Option (Fin NBUF) → Sys → Prop
  | .bread dev blockno, r, s => ∃ i, r = some i ∧ (s.buf i).dev = dev ∧
      (s.buf i).blockno = blockno ∧ (s.buf i).valid = true ∧ s.Holds p i
  | _, _, _ => True

variable {q : Pid}

theorem cacheView_congr {s s' : Sys} (hchan : s'.chan q = s.chan q) (hwait : ∀ i, s.chan q = some i →
      (s'.buf i).dev = (s.buf i).dev ∧ (s'.buf i).blockno = (s.buf i).blockno)
    (hold : ∀ i, s'.Holds q i ↔ s.Holds q i)
    (hheld : ∀ i, s.Holds q i → (s'.buf i).dev = (s.buf i).dev ∧
      (s'.buf i).blockno = (s.buf i).blockno ∧ (s'.buf i).valid = (s.buf i).valid) :
    cacheView q s' = cacheView q s := by
  unfold cacheView
  congr 1
  · rw [hchan]
    cases hc : s.chan q with
    | none => rfl
    | some i =>
      obtain ⟨h1, h2⟩ := hwait i hc
      simp [h1, h2]
  · funext i
    by_cases hi : s.Holds q i
    · obtain ⟨h1, h2, h3⟩ := hheld i hi
      rw [if_pos hi, if_pos ((hold i).mpr hi), h1, h2, h3]
    · rw [if_neg hi, if_neg (mt (hold i).mp hi)]

/-- A change of one entry that no other process holds before or after, and that keeps its
identity if it is referenced. -/
theorem cacheView_mod {s : Sys} {i : Fin NBUF} {f : Buf → Buf}
    (hold : ¬ s.Holds q i) (hold' : ¬ (s.mod i f).Holds q i)
    (hwait : s.chan q = some i → (f (s.buf i)).dev = (s.buf i).dev ∧
      (f (s.buf i)).blockno = (s.buf i).blockno) :
    cacheView q (s.mod i f) = cacheView q s := by
  have hne : ∀ j, j ≠ i → (s.mod i f).buf j = s.buf j := fun j hj => s.mod_buf_of_ne f hj
  refine cacheView_congr rfl ?_ ?_ ?_
  · intro j hj
    by_cases hji : j = i
    · subst hji
      simpa using hwait hj
    · rw [hne j hji]
      exact ⟨rfl, rfl⟩
  · intro j
    by_cases hji : j = i
    · subst hji
      exact iff_of_false hold' hold
    · simp only [Sys.Holds, hne j hji]
  · intro j hj
    by_cases hji : j = i
    · subst hji
      exact absurd hj hold
    · rw [hne j hji]
      exact ⟨rfl, rfl, rfl⟩

/-! ## The functions keep the invariant -/

section functions

variable {p : Pid} {i : Fin NBUF} {s₀ s : Sys} {dev blockno : Nat}

/-- The bounds of a burst of `p` that began in `s₀`. -/
abbrev CacheRel (p : Pid) (s₀ s : Sys) : Prop := cacheLogic.Rel p (s₀, ()) (s, ())

theorem keepsIdent_refl (s : Sys) : KeepsIdent s s := fun _ _ => ⟨rfl, rfl⟩

theorem cacheRel_refl (p : Pid) (s : Sys) : CacheRel p s s := ⟨fun _ _ => rfl, keepsIdent_refl s⟩

/-- Another change of one entry in the same burst, which leaves its identity alone. -/
theorem CacheRel.mod {f : Buf → Buf} (h : CacheRel p s₀ s)
    (hold : ∀ q, q ≠ p → (¬ s.Holds q i ∧ ¬ (s.mod i f).Holds q i) ∨
      ((f (s.buf i)).valid = (s.buf i).valid ∧ (f (s.buf i)).locked = (s.buf i).locked ∧
        (f (s.buf i)).pid = (s.buf i).pid))
    (hdev : (f (s.buf i)).dev = (s.buf i).dev)
    (hno : (f (s.buf i)).blockno = (s.buf i).blockno) : CacheRel p s₀ (s.mod i f) := by
  have hident : ∀ j, ((s.mod i f).buf j).dev = (s.buf j).dev ∧ ((s.mod i f).buf j).blockno = (s.buf j).blockno := by
    intro j
    by_cases hj : j = i
    · subst hj
      simp [hdev, hno]
    · simp [s.mod_buf_of_ne f hj]
  refine ⟨?_, ?_⟩
  · intro q hq
    rw [← h.1 q hq]
    rcases hold q hq with ⟨h1, h2⟩ | ⟨hv, hl, hpid⟩
    · exact cacheView_mod h1 h2 fun _ => ⟨hdev, hno⟩
    · have hsame : ∀ j, (s.mod i f).Holds q j ↔ s.Holds q j := by
        intro j
        by_cases hj : j = i
        · subst hj
          simp [Sys.Holds, hl, hpid]
        · simp [Sys.Holds, s.mod_buf_of_ne f hj]
      refine cacheView_congr rfl (fun j _ => hident j) hsame ?_
      intro j _
      refine ⟨(hident j).1, (hident j).2, ?_⟩
      by_cases hj : j = i
      · subst hj
        simp [hv]
      · simp [s.mod_buf_of_ne f hj]
  · intro j hj
    rw [(hident j).1, (hident j).2]
    exact h.2 j hj

theorem CacheRel.setChan {c : Option (Fin NBUF)} (h : CacheRel p s₀ s) : CacheRel p s₀ (s.setChan p c) := by
  refine ⟨?_, h.2⟩
  intro q hq
  rw [← h.1 q hq]
  exact cacheView_congr (by simp [hq]) (fun _ _ => ⟨rfl, rfl⟩) (fun _ => Iff.rfl)
    (fun _ _ => ⟨rfl, rfl, rfl⟩)

theorem not_holds_of_unlocked (h : (s.buf i).locked = false) : ¬ s.Holds q i := by
  rintro ⟨hl, -⟩
  cases h.symm.trans hl

theorem not_holds_of_holds (h : s.Holds p i) (hq : q ≠ p) : ¬ s.Holds q i := by
  rintro ⟨-, hpid⟩
  exact hq (hpid.symm.trans h.2)

theorem holds_lockBy : (s.mod i (Buf.lockBy p)).Holds p i := by
  simp [Sys.Holds, Buf.lockBy]

theorem CacheRel.lockBy (h : CacheRel p s₀ s) (hi : (s.buf i).locked = false) :
    CacheRel p s₀ (s.mod i (Buf.lockBy p)) := by
  refine h.mod ?_ rfl rfl
  intro q hq
  exact Or.inl ⟨not_holds_of_unlocked hi, not_holds_of_holds holds_lockBy hq⟩

/-- The buffer is locked by `p` for the block that it asked for. -/
def Got (p : Pid) (dev blockno : Nat) (i : Fin NBUF) (w₀ w : Sys × Unit) : Prop :=
  BioInv w.1.bcache w.1.chan none ∧ CacheRel p w₀.1 w.1 ∧ w.1.chan p = none ∧ w.1.Holds p i ∧
    (w.1.buf i).dev = dev ∧ (w.1.buf i).blockno = blockno

theorem acquiresleep_spec (hinv : BioInv s.bcache s.chan (some i))
    (hrel : CacheRel p s₀ s) (hchan : s.chan p = none) (hdev : (s.buf i).dev = dev)
    (hno : (s.buf i).blockno = blockno) :
    cacheLogic.safe p (acquiresleep p i) (fun _ => Got p dev blockno i) (s₀, ()) (s, ()) := by
  refine safe_acquiresleep ?_ ?_
  · intro hl
    exact ⟨hinv.lockBy hl, hrel.lockBy hl, hchan, holds_lockBy, by simpa [Buf.lockBy] using hdev,
      by simpa [Buf.lockBy] using hno⟩
  · intro _
    refine ⟨hinv.setChan_some hchan, hrel.setChan, ?_⟩
    rintro ⟨s1, g⟩ hinv1 hview hl
    have hw : (cacheView p s1).waits = some (i, dev, blockno) := by
      rw [show cacheView p s1 = cacheView p (s.setChan p (some i)) from hview]
      simp [cacheView, hdev, hno]
    obtain ⟨j, hj, hji⟩ := Option.map_eq_some_iff.mp hw
    simp only [Prod.mk.injEq] at hji
    obtain ⟨rfl, hdev1, hno1⟩ := hji
    have hrel1 : CacheRel p s1 (s1.setChan p none) := (cacheRel_refl p s1).setChan
    exact ⟨(BioInv.setChan_none hinv1 hj).lockBy hl, hrel1.lockBy hl, by simp, holds_lockBy,
      by simpa [Buf.lockBy] using hdev1, by simpa [Buf.lockBy] using hno1⟩

theorem bget_spec (hinv : BioInv s.bcache s.chan none) (hchan : s.chan p = none) :
    cacheLogic.safe p (bget p dev blockno) (fun i => Got p dev blockno i) (s, ()) (s, ()) := by
  refine safe_bget ?_ ?_ ?_
  · intro i hi
    obtain ⟨hdev, hno⟩ := BioInv.of_lookup_eq_some hi
    refine acquiresleep_spec hinv.incRef ?_ hchan (by rw [Sys.mod_buf_self]; exact hdev)
      (by rw [Sys.mod_buf_self]; exact hno)
    exact (cacheRel_refl p s).mod (fun _ _ => Or.inr ⟨rfl, rfl, rfl⟩) rfl rfl
  · intro i hn hi
    obtain ⟨href, hpin⟩ := BioInv.of_victim_eq_some hi
    obtain ⟨hlock, hwait, -⟩ := hinv.of_refcnt_eq_zero href
    refine acquiresleep_spec (hinv.assign hn href) ⟨?_, ?_⟩ hchan (by simp [Buf.assign])
      (by simp [Buf.assign])
    · intro q _
      refine cacheView_mod (not_holds_of_unlocked hlock) (not_holds_of_unlocked ?_) ?_
      · rw [Sys.mod_buf_self]
        exact hlock
      · exact fun h => absurd h (hwait q)
    · intro j hj
      have hji : j ≠ i := by
        rintro rfl
        rcases hj with hj | hj
        · exact absurd href (Nat.ne_of_gt hj)
        · exact absurd hpin (Nat.ne_of_gt hj)
      simp [s.mod_buf_of_ne _ hji]
  · intro _ _
    exact ⟨id, hinv, keepsIdent_refl s⟩

theorem Got.of_view {w0 w w1 : Sys × Unit} (h : Got p dev blockno i w0 w)
    (hinv : cacheLogic.inv w1) (hview : cacheLogic.view p w1 = cacheLogic.view p w) :
    Got p dev blockno i w1 w1 := by
  obtain ⟨-, -, hchan, hheld, hdev, hno⟩ := h
  change cacheView p w1.1 = cacheView p w.1 at hview
  have hwaits : (cacheView p w1.1).waits = none := by
    rw [hview]
    simp [cacheView, hchan]
  have hholds : (cacheView p w1.1).holds i = some (dev, blockno, (w.1.buf i).valid) := by
    rw [hview]
    simp [cacheView, hheld, hdev, hno]
  simp only [cacheView, Option.ite_none_right_eq_some, Option.some.injEq, Prod.mk.injEq] at hholds
  exact ⟨hinv, cacheRel_refl p w1.1, by simpa [cacheView] using hwaits, hholds.1, hholds.2.1,
    hholds.2.2.1⟩

/-- A change by `p` of the contents of a buffer that it holds. -/
theorem CacheRel.mod_held {f : Buf → Buf} (h : CacheRel p s₀ s) (hheld : s.Holds p i)
    (hlock : (f (s.buf i)).locked = (s.buf i).locked) (hpid : (f (s.buf i)).pid = (s.buf i).pid)
    (hdev : (f (s.buf i)).dev = (s.buf i).dev)
    (hno : (f (s.buf i)).blockno = (s.buf i).blockno) : CacheRel p s₀ (s.mod i f) := by
  refine h.mod ?_ hdev hno
  intro q hq
  have hheld' : (s.mod i f).Holds p i := by
    simpa [Sys.Holds, hlock, hpid] using hheld
  exact Or.inl ⟨not_holds_of_holds hheld hq, not_holds_of_holds hheld' hq⟩

/-- `bread`: the buffer, read from the device if it was not valid. -/
theorem bread_spec (hinv : BioInv s.bcache s.chan none) (hchan : s.chan p = none) :
    cacheLogic.safe p (bread p dev blockno)
      (fun i w0 w => Got p dev blockno i w0 w ∧ (w.1.buf i).valid) (s, ()) (s, ()) := by
  refine Logic.safe_seq (bget_spec hinv hchan) ?_
  intro i w0 w hgot
  rw [Logic.safe_bind]
  refine Logic.safe_gets ?_
  cases hv : (w.1.buf i).valid with
  | true => exact ⟨hgot, hv⟩
  | false =>
    refine ⟨hgot.1, hgot.2.1, ?_⟩
    intro w1 hinv1 hview _
    obtain ⟨hbio, hrel, hchan1, hheld, hdev, hno⟩ := hgot.of_view hinv1 hview
    have hheld1 : (w1.1.mod i (Buf.fill (w1.1.disk blockno))).Holds p i := by
      simpa [Sys.Holds, Buf.fill] using hheld
    refine ⟨(), (), ⟨(hbio.fill _).validate, ?_, hchan1, ?_, ?_, ?_⟩, ?_⟩
    · exact (hrel.mod_held hheld rfl rfl rfl rfl).mod_held hheld1 rfl rfl rfl rfl
    · simpa [Sys.Holds, Buf.validate] using hheld1
    · simpa [Buf.validate, Buf.fill] using hdev
    · simpa [Buf.validate, Buf.fill] using hno
    · simp [Buf.validate]

theorem CacheRel.unref (h : CacheRel p s₀ s) : CacheRel p s₀ { s with bcache := s.bcache.unref i } := by
  have hbuf : ∀ j, ({ s with bcache := s.bcache.unref i } : Sys).buf j = (s.mod i Buf.decRef).buf j :=
    fun j => s.bcache.unref_buf i j
  have hdec : CacheRel p s₀ (s.mod i Buf.decRef) :=
    h.mod (fun _ _ => Or.inr ⟨rfl, rfl, rfl⟩) rfl rfl
  refine ⟨?_, ?_⟩
  · intro q hq
    rw [← hdec.1 q hq]
    refine cacheView_congr rfl ?_ ?_ ?_
    · intro j _
      simp only [hbuf, and_self]
    · intro j
      simp only [Sys.Holds, hbuf]
    · intro j _
      simp only [hbuf, and_self]
  · intro j hj
    rw [hbuf]
    exact hdec.2 j hj

theorem waits_of_view {w w1 : Sys × Unit} (hchan : w.1.chan p = none)
    (hview : cacheLogic.view p w1 = cacheLogic.view p w) : (cacheView p w1.1).waits = none := by
  rw [show cacheView p w1.1 = cacheView p w.1 from hview]
  simp [cacheView, hchan]

end functions

/-- Every call of the cache keeps the invariant at each of its sleep points. -/
theorem cacheLogic_verified : cacheLogic.Verified bioMachine bioPost where
  call := by
    rintro p call ⟨s, g⟩ hinv hidle hmay
    have hchan : s.chan p = none := by
      simpa [cacheLogic, cacheView] using hidle
    refine ⟨g, ?_⟩
    cases call with
    | bread dev blockno =>
      refine Logic.safe_seq (bread_spec hinv hchan) ?_
      rintro i w0 w ⟨⟨hinv', hrel, hchan', hheld, hdev, hno⟩, hv⟩
      exact ⟨hinv', hrel, by simp [cacheLogic, cacheView, hchan'], i, rfl, hdev, hno, hv, hheld⟩
    | bwrite i =>
      have hheld : s.Holds p i := hmay
      refine Logic.safe_seq (R := fun _ => cacheLogic.Mid p fun v => v.waits = none) ?_
        (fun _ _ _ h => ⟨h.1, h.2.1, h.2.2, trivial⟩)
      refine Logic.safe_seq (Logic.safe_check (Q := fun _ w0 w => w0 = (s, g) ∧ w = (s, g))
        (fun _ => ⟨rfl, rfl⟩) fun h => ?_) ?_
      · exact absurd hheld (by simpa [holdingsleep] using h)
      rintro _ w0 w ⟨rfl, rfl⟩
      refine ⟨g, hinv, cacheRel_refl p s, ?_⟩
      intro w1 hinv1 hview _
      exact ⟨hinv1, cacheRel_refl p w1.1, waits_of_view hchan hview⟩
    | brelse i =>
      have hheld : s.Holds p i := hmay
      refine Logic.safe_seq (R := fun _ => cacheLogic.Mid p fun v => v.waits = none) ?_
        (fun _ _ _ h => ⟨h.1, h.2.1, h.2.2, trivial⟩)
      refine Logic.safe_seq (Logic.safe_check (Q := fun _ w0 w => w0 = (s, g) ∧ w = (s, g))
        (fun _ => ⟨rfl, rfl⟩) fun h => ?_) ?_
      · exact absurd hheld (by simpa [holdingsleep] using h)
      rintro _ w0 w ⟨rfl, rfl⟩
      refine ⟨(), (), (hinv.unlock hheld.1).unref, ?_, by simp [cacheLogic, cacheView, hchan]⟩
      refine CacheRel.unref ((cacheRel_refl p s).mod ?_ rfl rfl)
      intro q hq
      exact Or.inl ⟨not_holds_of_holds hheld hq, not_holds_of_unlocked (by simp [Buf.unlock])⟩
    | bpin i =>
      exact ⟨(), hinv.incPin, (cacheRel_refl p s).mod (fun _ _ => Or.inr ⟨rfl, rfl, rfl⟩) rfl rfl,
        by simp [cacheLogic, cacheView, hchan], trivial⟩
    | bunpin i =>
      refine Logic.safe_seq (R := fun _ => cacheLogic.Mid p fun v => v.waits = none) ?_
        (fun _ _ _ h => ⟨h.1, h.2.1, h.2.2, trivial⟩)
      refine Logic.safe_seq (Logic.safe_check (Q := fun _ w0 w => w0 = (s, g) ∧ w = (s, g))
        (fun _ => ⟨rfl, rfl⟩) fun _ => ⟨id, hinv, keepsIdent_refl s⟩) ?_
      rintro _ w0 w ⟨rfl, rfl⟩
      exact ⟨(), hinv.decPin, (cacheRel_refl p s).mod (fun _ _ => Or.inr ⟨rfl, rfl, rfl⟩) rfl rfl,
        by simp [cacheLogic, cacheView, hchan]⟩
    | fill i d =>
      exact ⟨(), hinv.fill d, (cacheRel_refl p s).mod (fun _ _ => Or.inr ⟨rfl, rfl, rfl⟩) rfl rfl,
        by simp [cacheLogic, cacheView, hchan], trivial⟩
  fail := fun _ _ _ h => h.elim
  refl := keepsIdent_refl

/-! ## The theorem -/

/-- The number of holders and of waiters of an entry. -/
theorem BioInv.encard_eq {s : Sys} (h : BioInv s.bcache s.chan none) (i : Fin NBUF) :
    {p | s.Holds p i}.encard + {p | s.chan p = some i}.encard = (s.buf i).refcnt := by
  obtain ⟨W, hW, hr⟩ := h.refs
  have hwaiters : {p | s.chan p = some i} = (W i : Set Pid) := by
    ext p
    simp [hW]
  have hholders : {p | s.Holds p i}.encard = if (s.buf i).locked then 1 else 0 := by
    cases hl : (s.buf i).locked with
    | false => simp [Sys.Holds, hl]
    | true =>
      have hset : {p | s.Holds p i} = {(s.buf i).pid} := by
        ext p
        simp [Sys.Holds, hl, eq_comm]
      simp [hset]
  rw [hwaiters, hholders, Set.encard_coe_eq_coe_finsetCard]
  have hri : (s.buf i).refcnt = (if (s.buf i).locked then 1 else 0) + (W i).card := by
    have hi := hr i
    exact hi
  rw [hri]
  cases (s.buf i).locked <;> simp

/-- When nobody waits for a buffer that they hold themselves, this is the number of processes
that hold the entry or wait for it. -/
theorem BioInv.encard_or_eq {s : Sys} (h : BioInv s.bcache s.chan none) (i : Fin NBUF)
    (hself : ∀ p, s.Holds p i → s.chan p ≠ some i) :
    {p | s.Holds p i ∨ s.chan p = some i}.encard = (s.buf i).refcnt := by
  rw [← h.encard_eq i, Set.ofPred_or, Set.encard_union_eq]
  rw [Set.disjoint_left]
  intro p hp
  exact hself p hp

abbrev BioConfig : Type 1 := Config Sys BioCall (Option (Fin NBUF))

theorem cacheLogic_good {s : Sys} (hbcache : s.bcache = binit) (hchan : s.chan = fun _ => none) {c : BioConfig}
    (hreach : bioMachine.Reach (.start s) c) : cacheLogic.Good bioPost c := by
  refine Logic.good_of_reach cacheLogic_verified (Logic.good_start (g := ()) ?_ fun p => ?_) hreach
  · change BioInv s.bcache s.chan none
    rw [hbcache, hchan]
    exact BioInv.binit
  · simp [cacheLogic, cacheView, hchan]

theorem bioInv_of_reach {s : Sys} (hbcache : s.bcache = binit) (hchan : s.chan = fun _ => none) {c : BioConfig}
    (hreach : bioMachine.Reach (.start s) c) : BioInv c.mem.bcache c.mem.chan none := by
  have hgood := cacheLogic_good hbcache hchan hreach
  simp only [Logic.Good] at hgood
  cases hh : c.halted with
  | none =>
    simp only [hh] at hgood
    exact hgood.choose_spec.1
  | some m =>
    simp only [hh] at hgood
    exact hgood.2

/-- **The buffer cache.** Whatever processes do after `binit`, the list is one ring through
the sentinel with every entry once, identities are unique, reference counts are the numbers of
holders and waiters (a process that waits for a buffer that it holds counts twice),
referenced and pinned entries keep their identity in every step, and
`bread` returns the buffer asked for, valid and locked by its caller. -/
theorem cache_invariant {s : Sys} (hbcache : s.bcache = binit) (hchan : s.chan = fun _ => none)
    {c : Config Sys BioCall (Option (Fin NBUF))} (hreach : bioMachine.Reach (.start s) c) :
    (∃ l : List (Fin NBUF), Ring c.mem.bcache.links l ∧ ∀ i, l.count i = 1) ∧
    (∀ i j, (c.mem.buf i).assigned = true → (c.mem.buf j).assigned = true → i ≠ j →
      ¬ ((c.mem.buf i).dev = (c.mem.buf j).dev ∧ (c.mem.buf i).blockno = (c.mem.buf j).blockno)) ∧
    (∀ i, {p | c.mem.Holds p i}.encard + {p | c.mem.chan p = some i}.encard =
      (c.mem.buf i).refcnt) ∧
    (∀ i, (∀ p, c.mem.Holds p i → c.mem.chan p ≠ some i) →
      {p | c.mem.Holds p i ∨ c.mem.chan p = some i}.encard = (c.mem.buf i).refcnt) ∧
    (∀ c', bioMachine.Step c c' → KeepsIdent c.mem c'.mem) ∧
    (∀ p dev blockno r t, bioMachine.Returns c p (.bread dev blockno) r t →
      ∃ i, r = some i ∧ (t.buf i).dev = dev ∧ (t.buf i).blockno = blockno ∧
        (t.buf i).valid = true ∧ t.Holds p i) := by
  have hgood := cacheLogic_good hbcache hchan hreach
  have hinv := bioInv_of_reach hbcache hchan hreach
  refine ⟨?_, ?_, hinv.encard_eq, hinv.encard_or_eq, ?_, ?_⟩
  · obtain ⟨l, hl, hall⟩ := hinv.ring
    exact ⟨l, hl, fun i => List.count_eq_one_of_mem hl.nodup (hall i)⟩
  · intro i j hi _ hij
    exact hinv.ident i j hi hij
  · intro c' hstep
    cases hstep with
    | burst p i x hlive hx => exact Logic.guar_of_burst cacheLogic_verified hgood hlive hx
    | fail s hs => exact hs.elim
  · intro p dev blockno r t hret
    exact (Logic.post_of_returns cacheLogic_verified hgood hret).1

/-- The list after the first burst of a `bread` on a blank disk. -/
theorem cache_invariant_first_bread :
    ∃ c, bioMachine.Step (.start (Sys.boot (fun _ => Bytes.zero) fun _ => Bytes.zero)) c ∧
      ∃ l : List (Fin NBUF), Ring c.mem.bcache.links l ∧ ∀ i, l.count i = 1 := by
  have hmay : bioMachine.may 1 (.bread 1 2) (Sys.boot (fun _ => Bytes.zero) fun _ => Bytes.zero) :=
    trivial
  have hstep := Machine.Step.burst
    (c := .start (Sys.boot (fun _ => Bytes.zero) fun _ => Bytes.zero)) 1 _ _ rfl (.call rfl hmay)
  exact ⟨_, hstep, (cache_invariant rfl rfl (.single hstep)).1⟩

end Xv6.Storage
