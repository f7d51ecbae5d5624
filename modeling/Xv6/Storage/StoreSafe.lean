import Xv6.Storage.StoreStages

/-!
# Every call of the storage machine is safe

`initlog` runs while no other process takes part, so its specification as a program that runs
alone carries over; the other calls were treated one by one. `storeLogic_verified` collects them.
-/

namespace Xv6.Storage

open Data Coop Prog

variable {sb : Superblock} {tight : Prop} {ok : Pid → Fin NBUF → Sys → Prop} {p : Pid} {s : Sys}
  {committed : Nat → Block}

/-! ## Recovery -/

/-- The view of a process that takes no part. -/
def StoreView.blank : StoreView := ⟨none, .out, fun _ => none, none, none⟩

theorem storeView_eq_blank (hchan : s.chan p = none) (hop : s.ops p = .out)
    (hheld : ∀ i, ¬ s.Holds p i) (hboots : p = initproc → s.phase = .up) (t : Nat) :
    storeView p s t = .blank := by
  apply StoreView.ext
  · simp [storeView, StoreView.blank, hchan]
  · exact hop
  · funext i
    exact Buf.heldBy_of_not_holds (hheld i) _
  · simp [storeView, StoreView.blank, hop]
  · simp only [storeView, StoreView.blank, ite_eq_right_iff, reduceCtorEq, imp_false, not_and, Decidable.not_not]
    exact hboots

theorem Ready.storeView_eq (h : Ready sb committed s) (p : Pid) (t : Nat) : storeView p s t = .blank :=
  storeView_eq_blank (h.chan p) (h.ops p)
    (fun i hi => absurd (hi.1.symm.trans (h.unlocked i)) (by simp)) (fun _ => h.phase) t

theorem Ready.logInv (h : Ready sb committed s) (hv : sb.Valid) : LogInv sb s 0 := by
  have hlh : s.log.lh = [] := by rw [h.log_eq]
  have hcom : s.log.committing = false := by rw [h.log_eq]
  have hout : s.log.outstanding = 0 := by rw [h.log_eq]
  have hinside : ∀ q, ¬ s.Inside q := by
    rintro q ⟨l, hl⟩
    cases (h.ops q).symm.trans hl
  constructor
  · exact h.phase
  · exact h.sb_eq
  · rw [h.log_eq]
  · rw [h.log_eq]
  · rw [h.log_eq]
  · exact h.wf
  · rw [hlh]
    exact List.nodup_nil
  · simp [hlh]
  · simp [hlh]
  · rw [hlh]
    exact hv.nlog_pos
  · rw [hlh]
    exact h.group
  · exact ⟨∅, fun q => iff_of_false (Finset.notMem_empty q) (hinside q), hout⟩
  · intro q hq
    cases (h.ops q).symm.trans hq
  · intro hc
    cases hcom.symm.trans hc
  · intro q _ hq
    cases (h.ops q).symm.trans hq
  · intro _
    exact hout
  · exact Nat.zero_le _
  · intro _
    rfl
  · intro i
    rw [h.pinned i, hlh]
    rfl
  · simp [hlh]
  · intro i hi _
    rw [h.clean i hi, Sys.current, h.last]
    rfl
  · intro i hi
    cases (h.dirty i).symm.trans hi
  · intro b d hb
    cases (h.last b).symm.trans hb
  · intro b d _ hb
    cases (h.last b).symm.trans hb
  · exact h.disk
  · intro _
    exact h.head

theorem Ready.reserved (h : Ready sb committed s) : Reserved s.log s.ops := by
  have hlh : s.log.lh = [] := by rw [h.log_eq]
  refine ⟨fun q => ?_, fun _ _ => hlh, fun A hA => ?_⟩
  · rw [h.ops q]
    exact List.nil_subset _
  · have hempty : A = ∅ := by
      apply Finset.eq_empty_of_forall_notMem
      intro q hq
      obtain ⟨k, hk⟩ := hA q hq
      cases (h.ops q).symm.trans hk
    rw [hempty, hlh, Finset.sum_empty]
    decide

/-- What a call establishes when it returns. -/
def storePost (sb : Superblock) (p : Pid) : Call → Option (Fin NBUF) → Sys → Prop
  | .initlog, _, s => ∀ b, ¬ sb.InLog b → s.disk b = s.committed b
  | .bread b, r, s => ∃ i, r = some i ∧ s.Holds p i ∧ (s.buf i).dev = ROOTDEV ∧
      (s.buf i).blockno = b ∧ (s.buf i).valid = true ∧ (s.buf i).data = s.current b
  | _, _, _ => True

/-- The phases in which the mounting process sees everything. -/
def Booting (s : Sys) : Prop :=
  s.phase ≠ .up ∧ ∀ q, q ≠ initproc → ∀ t, storeView q s t = .blank

theorem booting_boot (disk committed : Nat → Block) : Booting (Sys.boot disk committed) := by
  refine ⟨by simp [Sys.boot], ?_⟩
  intro q hq t
  apply storeView_eq_blank rfl rfl
  · intro i hi
    exact absurd hi.1 (by simp [Sys.boot, Sys.buf, binit])
  · exact fun h => absurd h hq

theorem Rebooting.booting (h : Rebooting sb initproc s) : Booting s := by
  refine ⟨by simp [h.phase], ?_⟩
  intro q hq t
  apply storeView_eq_blank (h.chan q) (h.ops q)
  · intro i hi
    exact hq (hi.2.symm.trans (h.pid i hi.1))
  · exact fun h => absurd h hq

variable (tight) in
theorem initlog_store (hv : sb.Valid) {disk : Nat → Block} (hrec : Recoverable sb disk committed) :
    (storeLogic sb tight).safe initproc (storeCode initproc .initlog)
      ((storeLogic sb tight).Final (storePost sb) initproc .initlog)
      (Sys.boot disk committed, 0) (Sys.boot disk committed, 0) := by
  have hspec : (storeCode initproc .initlog).ensures (Rebooting sb initproc) (fun _ _ => False)
      (fun _ => Ready sb committed) (Sys.boot disk committed) :=
    ensures_seq (initlog_spec hv initproc hrec) fun _ _ h => h
  apply Logic.safe_of_ensures (fun _ h => h.booting) ?_ ?_ ?_ ?_
    (booting_boot disk committed) hspec
  · intro u hu
    change StoreInv sb tight u 0
    unfold StoreInv
    rw [hu.phase]
    exact ⟨rfl, hu⟩
  · intro u u' hu hu'
    refine ⟨fun q hq => ?_, fun hup => absurd hup hu.1⟩
    exact (hu'.booting.2 q hq 0).trans (hu.2 q hq 0).symm
  · intro u hu w _ hview
    -- while it recovers, the view of the mounting process is the state itself
    have hboots : (storeView initproc w.1 w.2).boots = some (u, 0) := by
      have := congrArg StoreView.boots hview
      refine this.trans ?_
      simp [storeLogic, storeView, hu.phase]
    simp only [storeView, Option.ite_none_right_eq_some, Option.some.injEq] at hboots
    exact hboots.2
  · intro _ u u' hu hu'
    refine ⟨?_, ⟨fun q hq => ?_, fun hup => absurd hup hu.1⟩, ?_, ?_⟩
    · change StoreInv sb tight u' 0
      unfold StoreInv
      rw [hu'.phase]
      exact ⟨hu'.bio, hu'.logInv hv, fun _ => hu'.reserved⟩
    · exact (hu'.storeView_eq q 0).trans (hu.2 q hq 0).symm
    · change (storeLogic sb tight).idle (storeView initproc u' 0)
      rw [hu'.storeView_eq]
      exact ⟨rfl, Or.inl rfl, fun i h hi => by cases hi⟩
    · intro b hb
      exact hu'.disk.disk_eq hu'.head hb

/-! ## The machine -/

/-- A process that is about to issue a call after recovery. -/
theorem run_of_idle {w : Sys × Nat} (hinv : StoreInv sb tight w.1 w.2) (hup : w.1.phase = .up) :
    Run sb tight p (storeView p w.1 w.2) w w := by
  unfold StoreInv at hinv
  rw [hup] at hinv
  exact ⟨hinv.1, hinv.2.1, hinv.2.2, storeRel_refl sb p w, rfl⟩

theorem StoreView.hold_valid {v : StoreView} {i : Fin NBUF} {o : Option Held}
    (hv : ∀ j h, v.holds j = some h → h.valid) (ho : ∀ h, o = some h → h.valid) :
    ∀ j h, (v.hold i o).holds j = some h → h.valid := by
  intro j h hj
  by_cases hji : j = i
  · subst hji
    simp only [StoreView.hold, Function.update_self] at hj
    exact ho h hj
  · simp only [StoreView.hold, Function.update_of_ne hji] at hj
    exact hv j h hj

/-- **Every call is safe**, and a power failure leaves a recoverable disk. -/
theorem storeLogic_verified (hv : sb.Valid) (htight : tight → LOGSIZE ≤ sb.nlog.toNat ∧ ∀ p i s, ok p i s →
      (addNew (s.ops p).logged (s.buf i).blockno).length < MAXOPBLOCKS) :
    (storeLogic sb tight).Verified (storeMachine ok) (storePost sb) := by
  refine ⟨?_, ?_, inBounds_refl sb⟩
  · intro p i w hinv hidle hmay
    obtain ⟨hwaits, hop, hvalid⟩ := hidle
    refine ⟨w.2, ?_⟩
    cases i with
    | initlog =>
      obtain ⟨rfl, hdown⟩ := hmay
      change StoreInv sb tight w.1 w.2 at hinv
      unfold StoreInv at hinv
      rw [hdown] at hinv
      obtain ⟨h0, hboot, hrec⟩ := hinv
      obtain ⟨s, t⟩ := w
      obtain rfl : t = 0 := h0
      have h := initlog_store tight hv hrec
      rw [← hboot] at h
      exact h
    | beginOp =>
      obtain ⟨hup, hout⟩ := hmay
      refine Logic.safe_seq (beginOp_store (run_of_idle hinv hup) hout) ?_
      intro _ w1 w2 hrun
      obtain ⟨h1, h2, h3⟩ := run_final hrun hwaits (Or.inr ⟨[], rfl⟩) hvalid
      exact ⟨h1, h2, h3, trivial⟩
    | endOp =>
      obtain ⟨hup, hin, hclean⟩ := hmay
      refine Logic.safe_seq (endOp_store hv (run_of_idle hinv hup) hwaits hin hclean) ?_
      intro _ w1 w2 hrun
      obtain ⟨h1, h2, h3⟩ := run_final hrun hwaits (Or.inl rfl) hvalid
      exact ⟨h1, h2, h3, trivial⟩
    | bread b =>
      refine Logic.safe_seq (bread_store b (run_of_idle hinv hmay) hwaits) ?_
      rintro i w1 w2 ⟨-, h, hrun, hdev, hno, hclean, hv'⟩
      obtain ⟨h1, h2, h3⟩ := run_final hrun hwaits hop
        (StoreView.hold_valid hvalid fun _ ho => by cases ho; exact hv')
      obtain ⟨hheld, rfl⟩ := holds_eq_some (show (storeView p w2.1 w2.2).holds i = some h by
        rw [hrun.view]
        simp [StoreView.hold])
      refine ⟨h1, h2, h3, i, rfl, hheld, hdev, hno, hv', ?_⟩
      rw [← hno]
      exact hrun.log.data i hv' hclean
    | modify i d =>
      obtain ⟨hup, hin, hheld⟩ := hmay
      have hrun := modify_store (run_of_idle hinv hup) hin hheld d
      have hold := hvalid i _ (holds_of_holds hheld)
      obtain ⟨h1, h2, h3⟩ := run_final hrun hwaits (Or.inr hin)
        (StoreView.hold_valid hvalid fun _ ho => by cases ho; exact hold)
      exact ⟨w.2, h1, h2, h3, trivial⟩
    | logWrite i =>
      obtain ⟨hup, hin, hheld, hhome, hok⟩ := hmay
      have hrun := run_of_idle (p := p) hinv hup
      have hold := hvalid i _ (holds_of_holds hheld)
      rw [hrun.log.sb_eq] at hhome
      refine Logic.safe_seq (logWrite_store hv hrun hin hheld hold hhome fun ht =>
        ⟨(htight ht).1, (htight ht).2 p i w.1 hok⟩) ?_
      intro _ w1 w2 hrun'
      obtain ⟨l, hl⟩ := hin
      obtain ⟨h1, h2, h3⟩ := run_final hrun' hwaits (Or.inr ⟨_, by rw [hl]; rfl⟩)
        (StoreView.hold_valid hvalid fun _ ho => by cases ho; exact hold)
      exact ⟨h1, h2, h3, trivial⟩
    | brelse i =>
      obtain ⟨hup, hheld, hclean⟩ := hmay
      refine Logic.safe_seq (brelse_store (run_of_idle hinv hup) hwaits (holds_of_holds hheld)
        hclean) ?_
      intro _ w1 w2 hrun
      obtain ⟨h1, h2, h3⟩ := run_final hrun hwaits hop
        (StoreView.hold_valid hvalid fun _ ho => by cases ho)
      exact ⟨h1, h2, h3, trivial⟩
  · intro s s' hs hfail
    have hrec : Recoverable sb s.disk s.committed := by
      rcases hs with ⟨g, hg⟩ | ⟨t, ht⟩
      · exact StoreInv.disk hg
      · exact ht.disk
    obtain rfl : s' = s.crash := hfail
    refine ⟨0, ⟨rfl, rfl, hrec⟩, ?_⟩
    intro p
    refine ⟨rfl, Or.inl rfl, ?_⟩
    intro i h hi
    exact absurd (holds_eq_some hi).1.1 (by simp [Sys.crash, Sys.boot, Sys.buf, binit])

/-! ## Reachable configurations -/

/-- A disk with the superblock `sb` and an empty log. -/
structure Formatted (sb : Superblock) (disk : Nat → Block) : Prop where
  super : Superblock.decode (disk 1) = sb
  head : headCount (disk sb.logstart.toNat) = 0

variable {disk : Nat → Block} {c : Config Sys Call (Option (Fin NBUF))}

theorem Formatted.recoverable (h : Formatted sb disk) (hv : sb.Valid) : Recoverable sb disk disk where
  super := h.super
  count_le := by
    rw [h.head]
    exact Nat.zero_le _
  count_lt := by
    rw [h.head]
    exact hv.nlog_pos
  nodup := by simp [headBlocks, h.head]
  home := by simp [headBlocks, h.head]
  kept := fun _ _ _ => rfl
  slot := by simp [h.head]

theorem good_boot (hv : sb.Valid) (hdisk : Formatted sb disk) :
    (storeLogic sb tight).Good (storePost sb)
      (Config.start (Sys.boot disk disk) : Config Sys Call (Option (Fin NBUF))) := by
  refine Logic.good_start ⟨rfl, rfl, hdisk.recoverable hv⟩ fun q => ⟨rfl, Or.inl rfl, ?_⟩
  intro i h hi
  exact absurd (holds_eq_some hi).1.1 (by simp [Sys.boot, Sys.buf, binit])

/-- The invariant in every reachable configuration, halted ones included. -/
theorem storeInv_of_good (hgood : (storeLogic sb tight).Good (storePost sb) c) : ∃ t, StoreInv sb tight c.mem t := by
  unfold Logic.Good at hgood
  cases hhalt : c.halted with
  | none =>
    simp only [hhalt] at hgood
    obtain ⟨t, ht⟩ := hgood
    exact ⟨t, ht.1⟩
  | some m =>
    simp only [hhalt] at hgood
    exact hgood.2

theorem halted_of_good (hgood : (storeLogic sb tight).Good (storePost sb) c) {m : String}
    (hm : c.halted = some m) : ¬ (storeLogic sb tight).bad m c.mem := by
  unfold Logic.Good at hgood
  simp only [hm] at hgood
  exact hgood.1

theorem good_of_boot (hv : sb.Valid) (hdisk : Formatted sb disk)
    (hreach : (storeMachine ok).Reach (.start (Sys.boot disk disk)) c) :
    (storeLogic sb False).Good (storePost sb) c :=
  Logic.good_of_reach (storeLogic_verified hv False.elim) (good_boot hv hdisk) hreach

theorem logInv_of_storeInv {s : Sys} {t : Nat} (h : StoreInv sb tight s t) (hup : s.phase = .up) :
    BioInv s.bcache s.chan none ∧ LogInv sb s t ∧ (tight → Reserved s.log s.ops) := by
  unfold StoreInv at h
  rwa [hup] at h

end Xv6.Storage
