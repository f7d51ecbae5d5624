import Xv6.Storage.Store

/-!
# Steps and views

What one action of a process does to the views of the others, and how a process finds the
state again after it has slept.
-/

namespace Xv6.Storage

open Data Coop Prog Function

variable {sb : Superblock} {tight : Prop} {p q : Pid} {s s' : Sys} {t t' : Nat} {i : Fin NBUF} {v : StoreView}

/-! ## When a view is unchanged -/

theorem storeView_congr (hchan : s'.chan q = s.chan q) (hop : s'.ops q = s.ops q) (hwait : ∀ i, s.chan q = some i →
      (s'.buf i).dev = (s.buf i).dev ∧ (s'.buf i).blockno = (s.buf i).blockno)
    (hold : ∀ i, s'.Holds q i ↔ s.Holds q i) (hheld : ∀ i, s.Holds q i → s'.held i = s.held i)
    (hcommit : s.ops q = .committing → s'.commit t' = s.commit t)
    (hboot : q = initproc → s.phase = .up ∧ s'.phase = .up) :
    storeView q s' t' = storeView q s t := by
  unfold storeView
  congr 1
  · rw [hchan]
    cases hc : s.chan q with
    | none => rfl
    | some i =>
      obtain ⟨h1, h2⟩ := hwait i hc
      simp [h1, h2]
  · funext i
    by_cases hi : s.Holds q i
    · rw [Buf.heldBy_of_holds hi, Buf.heldBy_of_holds ((hold i).mpr hi)]
      exact congrArg some (hheld i hi)
    · rw [Buf.heldBy_of_not_holds hi, Buf.heldBy_of_not_holds (mt (hold i).mp hi)]
  · rw [hop]
    by_cases hc : s.ops q = .committing
    · rw [if_pos hc, if_pos hc, hcommit hc]
    · rw [if_neg hc, if_neg hc]
  · by_cases hq : q = initproc
    · obtain ⟨h1, h2⟩ := hboot hq
      simp [h1, h2]
    · simp [hq]

theorem storeView_cache {c : Bcache} (hup : s.phase = .up) (hwait : ∀ i, s.chan q = some i →
      (c.buf i).dev = (s.buf i).dev ∧ (c.buf i).blockno = (s.buf i).blockno)
    (hlock : ∀ i, ((c.buf i).locked ∧ (c.buf i).pid = q) ↔ s.Holds q i)
    (hheld : ∀ i, s.Holds q i → (c.buf i).dev = (s.buf i).dev ∧
      (c.buf i).blockno = (s.buf i).blockno ∧ (c.buf i).valid = (s.buf i).valid ∧
      (c.buf i).data = (s.buf i).data) :
    storeView q { s with bcache := c } t = storeView q s t := by
  refine storeView_congr rfl rfl hwait hlock ?_ (fun _ => rfl) fun _ => ⟨hup, hup⟩
  intro i hi
  obtain ⟨h1, h2, h3, h4⟩ := hheld i hi
  change Held.mk (c.buf i).dev (c.buf i).blockno (c.buf i).valid (c.buf i).data (s.dirty i) = _
  rw [h1, h2, h3, h4]
  rfl

/-- A change of one entry: other processes do not hold it, or nothing that they see of it
changes. -/
theorem storeView_mod {f : Buf → Buf} (hup : s.phase = .up)
    (hwait : s.chan q = some i → (f (s.buf i)).dev = (s.buf i).dev ∧
      (f (s.buf i)).blockno = (s.buf i).blockno)
    (hold : (¬ s.Holds q i ∧ ¬ (s.mod i f).Holds q i) ∨
      ((f (s.buf i)).locked = (s.buf i).locked ∧ (f (s.buf i)).pid = (s.buf i).pid ∧
        (f (s.buf i)).dev = (s.buf i).dev ∧ (f (s.buf i)).blockno = (s.buf i).blockno ∧
        (f (s.buf i)).valid = (s.buf i).valid ∧ (f (s.buf i)).data = (s.buf i).data)) :
    storeView q (s.mod i f) t = storeView q s t := by
  have hne : ∀ j, j ≠ i → (s.bcache.mod i f).buf j = s.buf j := fun j hj =>
    s.bcache.mod_buf_of_ne f hj
  have hself : (s.bcache.mod i f).buf i = f (s.buf i) := s.bcache.mod_buf_self i f
  refine storeView_cache hup ?_ ?_ ?_
  · intro j hj
    by_cases hji : j = i
    · subst hji
      rw [hself]
      exact hwait hj
    · rw [hne j hji]
      exact ⟨rfl, rfl⟩
  · intro j
    by_cases hji : j = i
    · subst hji
      rcases hold with ⟨h1, h2⟩ | ⟨hl, hp, -⟩
      · exact iff_of_false h2 h1
      · rw [hself, hl, hp]
        rfl
    · rw [hne j hji]
      rfl
  · intro j hj
    by_cases hji : j = i
    · subst hji
      rcases hold with ⟨h1, -⟩ | ⟨-, -, hsame⟩
      · exact absurd hj h1
      · rw [hself]
        exact hsame
    · rw [hne j hji]
      exact ⟨rfl, rfl, rfl, rfl⟩

/-! ## The view of the process itself -/

def StoreView.hold (v : StoreView) (i : Fin NBUF) (h : Option Held) : StoreView :=
  { v with holds := update v.holds i h }

theorem StoreView.hold_self (v : StoreView) (i : Fin NBUF) (h : Option Held) : (v.hold i h).holds i = h := by
  simp [StoreView.hold]

theorem StoreView.hold_of_ne (v : StoreView) {i j : Fin NBUF} (h : Option Held) (hj : j ≠ i) :
    (v.hold i h).holds j = v.holds j := by
  simp [StoreView.hold, hj]

theorem StoreView.hold_idem (v : StoreView) (i : Fin NBUF) (h h' : Option Held) :
    (v.hold i h).hold i h' = v.hold i h' := by
  simp [StoreView.hold]

theorem StoreView.hold_comm (v : StoreView) {i j : Fin NBUF} (h h' : Option Held) (hij : i ≠ j) :
    (v.hold i h).hold j h' = (v.hold j h').hold i h := by
  simp only [StoreView.hold]
  rw [update_comm hij]

theorem StoreView.hold_none {i : Fin NBUF} (hi : v.holds i = none) : v.hold i none = v := by
  simp only [StoreView.hold]
  rw [← hi, update_eq_self]

section

variable (hup : s.phase = .up)
include hup

theorem storeView_mod_self {f : Buf → Buf} (hchan : s.chan p = none) :
    storeView p (s.mod i f) t = (storeView p s t).hold i ((f (s.buf i)).heldBy p (s.dirty i)) := by
  have hup' : (s.mod i f).phase = .up := hup
  unfold storeView StoreView.hold
  congr 1
  · simp [hchan]
  · funext j
    by_cases hj : j = i
    · subst hj
      rw [update_self, Sys.mod_buf_self]
      rfl
    · rw [update_of_ne hj, Sys.mod_buf_of_ne _ _ hj]
      rfl
  · simp [hup, hup']

theorem storeView_setChan_self (c : Option (Fin NBUF)) :
    storeView p (s.setChan p c) t = { storeView p s t with
      waits := c.map fun i => (i, (s.buf i).dev, (s.buf i).blockno) } := by
  have hup' : (s.setChan p c).phase = .up := hup
  unfold storeView
  congr 1
  · simp
  · simp [hup, hup']

theorem storeView_setChan (c : Option (Fin NBUF)) (hq : q ≠ p) : storeView q (s.setChan p c) t = storeView q s t :=
  storeView_congr (by simp [hq]) rfl (fun _ _ => ⟨rfl, rfl⟩) (fun _ => Iff.rfl) (fun _ _ => rfl)
    (fun _ => rfl) fun _ => ⟨hup, hup⟩

theorem storeView_self_of_eq {u : Sys} {r : Nat} (hup' : u.phase = .up)
    (hcache : u.bcache = s.bcache) (hchan : u.chan p = s.chan p) (hdirty : u.dirty = s.dirty) :
    storeView p u r = { storeView p s t with
      op := u.ops p
      commits := if u.ops p = .committing then some (u.commit r) else none } := by
  have hbuf : ∀ i, u.buf i = s.buf i := fun i => congrFun (congrArg Bcache.buf hcache) i
  unfold storeView
  congr 1
  · simp only [hchan, hbuf]
  · funext i
    rw [hbuf, hdirty]
  · simp [hup, hup']

theorem boots_eq_none : (storeView p s t).boots = none := by
  simp [storeView, hup]

end

theorem chan_of_waits (h : (storeView p s t).waits = none) : s.chan p = none := by
  simpa [storeView] using h

theorem holds_eq_none (h : (s.buf i).locked = false) : (storeView p s t).holds i = none := by
  simp [storeView, Buf.heldBy, h]

theorem holds_eq_some {h : Held} (hi : (storeView p s t).holds i = some h) : s.Holds p i ∧ s.held i = h := by
  simp only [storeView, Buf.heldBy, Option.ite_none_right_eq_some, Option.some.injEq] at hi
  exact hi

theorem holds_of_holds (h : s.Holds p i) : (storeView p s t).holds i = some (s.held i) :=
  Buf.heldBy_of_holds h _

/-! ## Bursts -/

/-- The bounds of a burst. -/
abbrev StoreRel (sb : Superblock) (p : Pid) (w₀ w : Sys × Nat) : Prop :=
  (∀ q, q ≠ p → storeView q w.1 w.2 = storeView q w₀.1 w₀.2) ∧ InBounds sb w₀.1 w.1

theorem inBounds_refl (sb : Superblock) (s : Sys) : InBounds sb s s :=
  fun hup => ⟨hup, fun _ h => absurd rfl h⟩

theorem InBounds.trans {s0 s1 s2 : Sys} (h1 : InBounds sb s0 s1) (h2 : InBounds sb s1 s2) : InBounds sb s0 s2 := by
  intro hup
  obtain ⟨hup1, hb1⟩ := h1 hup
  obtain ⟨hup2, hb2⟩ := h2 hup1
  refine ⟨hup2, ?_⟩
  intro b hb
  by_cases h : s2.disk b = s1.disk b
  · exact hb1 b (h ▸ hb)
  · exact hb2 b h

theorem storeRel_refl (sb : Superblock) (p : Pid) (w : Sys × Nat) : StoreRel sb p w w :=
  ⟨fun _ _ => rfl, inBounds_refl sb w.1⟩

theorem StoreRel.trans {w0 w1 w2 : Sys × Nat} (h1 : StoreRel sb p w0 w1)
    (h2 : StoreRel sb p w1 w2) : StoreRel sb p w0 w2 :=
  ⟨fun q hq => (h2.1 q hq).trans (h1.1 q hq), h1.2.trans h2.2⟩

/-- An action that does not write to the device. -/
theorem storeRel_of_views (hdisk : s'.disk = s.disk) (hphase : s'.phase = s.phase)
    (hview : ∀ q, q ≠ p → storeView q s' t' = storeView q s t) :
    StoreRel sb p (s, t) (s', t') :=
  ⟨hview, fun hup => ⟨hphase.trans hup, fun b hb => absurd (congrFun hdisk b) hb⟩⟩

/-- A process in the middle of a call, after the log has been initialised. -/
structure Run (sb : Superblock) (tight : Prop) (p : Pid) (v : StoreView) (w₀ w : Sys × Nat) :
    Prop where
  bio : BioInv w.1.bcache w.1.chan none
  log : LogInv sb w.1 w.2
  reserved : tight → Reserved w.1.log w.1.ops
  rel : StoreRel sb p w₀ w
  view : storeView p w.1 w.2 = v

theorem Run.inv {w0 w : Sys × Nat} (h : Run sb tight p v w0 w) : StoreInv sb tight w.1 w.2 := by
  unfold StoreInv
  rw [h.log.phase]
  exact ⟨h.bio, h.log, h.reserved⟩

theorem Run.outside {u : Sys} {r : Nat} {w0 : Sys × Nat} (h : Run sb tight p v w0 (s, t)) (hlog : LogInv sb u r)
    (hres : Reserved s.log s.ops → Reserved u.log u.ops) (hcache : u.bcache = s.bcache) (hchan : u.chan = s.chan)
    (hdirty : u.dirty = s.dirty) (hdisk : u.disk = s.disk)
    (hother : ∀ q, q ≠ p → u.ops q = s.ops q ∧ (s.ops q = .committing → u.commit r = s.commit t)) :
    Run sb tight p { v with
      op := u.ops p
      commits := if u.ops p = .committing then some (u.commit r) else none } w0 (u, r) := by
  have hup : s.phase = .up := h.log.phase
  have hbuf : ∀ i, u.buf i = s.buf i := fun i => congrFun (congrArg Bcache.buf hcache) i
  refine ⟨?_, hlog, fun ht => hres (h.reserved ht), h.rel.trans (storeRel_of_views hdisk (hlog.phase.trans hup.symm) ?_), ?_⟩
  · change BioInv u.bcache u.chan none
    rw [hcache, hchan]
    exact h.bio
  · intro q hq
    obtain ⟨hop, hcom⟩ := hother q hq
    exact storeView_congr (congrFun hchan q) hop (fun i _ => by simp [hbuf])
      (fun i => by simp [Sys.Holds, hbuf]) (fun i _ => by simp [Sys.held, hbuf, hdirty]) hcom
      fun _ => ⟨hup, hlog.phase⟩
  · have hself := storeView_self_of_eq (t := t) (r := r) hup hlog.phase hcache (congrFun hchan p) hdirty
    rw [show storeView p s t = v from h.view] at hself
    exact hself

/-- The view tells a process that the log is initialised. -/
def StoreView.Anchored (v : StoreView) : Prop :=
  v.boots = none ∧ (v.waits ≠ none ∨ v.op ≠ .out ∨ ∃ i, v.holds i ≠ none)

/-- Where a sleeping process finds itself when it wakes. -/
theorem run_of_wake {w : Sys × Nat} (hinv : StoreInv sb tight w.1 w.2)
    (hview : storeView p w.1 w.2 = v) (hanch : v.Anchored) : Run sb tight p v w w := by
  obtain ⟨hboots, hrest⟩ := hanch
  have hup : w.1.phase = .up := by
    by_contra hne
    subst hview
    by_cases hp : p = initproc
    · simp [storeView, hp, hne] at hboots
    · unfold StoreInv at hinv
      cases hphase : w.1.phase with
      | up => exact hne hphase
      | down =>
        simp only [hphase] at hinv
        rw [hinv.2.1] at hrest
        simp [storeView, Sys.boot, Buf.heldBy, Sys.buf, binit] at hrest
      | recovering =>
        simp only [hphase] at hinv
        replace hinv := hinv.2
        rcases hrest with h | h | ⟨i, h⟩
        · simp [storeView, hinv.chan] at h
        · exact h (hinv.ops p)
        · simp only [storeView, Buf.heldBy, ne_eq, ite_eq_right_iff, reduceCtorEq, imp_false, Decidable.not_not] at h
          exact hp (h.2.symm.trans (hinv.pid i h.1))
  unfold StoreInv at hinv
  rw [hup] at hinv
  exact ⟨hinv.1, hinv.2.1, hinv.2.2, storeRel_refl sb p w, hview⟩

end Xv6.Storage
