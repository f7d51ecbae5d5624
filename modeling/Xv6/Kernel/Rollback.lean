import Xv6.Kernel.Fork
import Xv6.Vm.Safe

/-!
# A `fork` that fails

`fork` allocates a trap frame, a page table with its two fixed mappings and the copies of the pages. When an
allocation fails, what was allocated before is given back and the slot is free again. There is one exception: the
mappings are made by `uvmmap`, which panics when it finds no page for a table.
-/

namespace Xv6.Kernel

open Coop Prog Vm Data Process Multiset
open Option (bind_eq_some_iff ite_none_right_eq_some)

variable {kend kt trampoline usertrap : UInt64} {initcode : Fin 512 → UInt64} {kernel all X P P' : Multiset UInt64}
  {m₀ m m' : Mem} {x x₀ y : Space} {s s' : Sys} {acts : List Act} {p q np : Slot}

/-! ## The memory -/

theorem Shift.ram (h : Shift m m' X P P') (hram : ∀ pg ∈ P + ↑m.free, Ram m.kend pg) (hk : m'.kend = m.kend) :
    ∀ pg ∈ P' + ↑m'.free, Ram m'.kend pg := by
  intro pg hpg
  rw [h.pages] at hpg
  rw [hk]
  exact hram pg hpg

/-- `fork` does not panic on its memory, unless the page tables of the two fixed mappings cannot be allocated. -/
theorem forkMem_safe (hp : Pool m X) (hfits : SpaceFits m trampoline x) (hX : spacePages m x ⊆ X)
    (hram : ∀ pg ∈ m.free, Ram m.kend pg) (h2 : m.free.length ≠ 2) (h3 : m.free.length ≠ 3) :
    Safe (forkMem trampoline x) m := by
  rw [forkMem]
  refine (kalloc_safe m).seq (ensures_and (kalloc_shift hp) (kalloc_length m)) fun r m1 hr hk1 => ?_
  obtain ⟨hr, -, hlen1⟩ := hr
  rcases hr with ⟨rfl, rfl⟩ | ⟨tf, rfl, hs1, -, hframe⟩
  · rfl
  have hlen1 := hlen1 fun h0 => by cases h0
  have hp1 : Pool m1 ({tf} + X) := hs1.pool (by rwa [zero_add])
  have hram1 := hs1.ram (by rwa [zero_add]) hk1
  have htf := hram1 tf (mem_add.mpr (.inl (mem_singleton_self tf)))
  refine (uvmcreate_safe m1).seq (ensures_and (uvmcreate_shift hp1) (uvmcreate_fresh m1)) fun r m2 hr hk2 => ?_
  obtain ⟨hr, -, hfresh⟩ := hr
  rcases hr with ⟨rfl, rfl⟩ | ⟨pt, rfl, hT, hleaf, hs2⟩
  · exact (kfree_safe htf).seq (after_any _ _) fun _ _ _ _ => rfl
  have hlen2 := (hfresh pt rfl).2
  refine (mapFrames_safe hT hleaf (by omega)).seq (mapFrames_after hT hleaf) fun _ m3 h₃ hk3 => ?_
  have hs3 := hs2.trans (shift_of_moved h₃.2 h₃.1)
  have hram3 := hs3.ram (fun pg hpg => hram1 pg (by rw [zero_add] at hpg; exact mem_add.mpr (.inr hpg)))
    (hk3.trans hk2)
  have hsub : X ⊆ {tf} + X := fun q hq => mem_add.mpr (.inr hq)
  have hsame : Same m m3 2 x.pagetable := by
    refine .of_agree ((hs1.agree.trans (hs3.agree.mono hsub)).mono fun q hq => hX ?_)
    exact mem_add.mpr (.inr (mem_add.mpr (.inl hq)))
  have hold : tabs m3 2 x.pagetable ⊆ {tf} + X := by
    rw [hsame.tabs]
    exact fun q hq => hsub (hX (mem_add.mpr (.inr (mem_add.mpr (.inl hq)))))
  refine (uvmcopy_safe (frames_fixed trampoline tf) h₃.1 (hsame.shape hfits.fits.shape) hold hram3
    hfits.fits.bound).seq (uvmcopy_after (frames_fixed trampoline tf) h₃.1 hfits.fits.bound) fun ok m4 h4 hk4 => ?_
  rcases h4 with ⟨rfl, himg, hmoved⟩ | ⟨rfl, himg, hmoved⟩
  · rfl
  · rw [if_neg (by decide)]
    have hram4 := (shift_of_moved hmoved himg).ram hram3 hk4
    refine (unmapFrames_safe himg.tree).seq himg.unmapFrames_after fun _ m5 h5 hk5 => ?_
    have hram5 := (shift_of_moved h5.2 h5.1).ram hram4 hk5
    have himg5 := h5.1
    rw [singleton_add] at himg5
    have htf5 : Ram m5.kend tf := by
      rw [hk5, hk4, hk3, hk2]
      exact htf
    refine (kfree_safe htf5).seq himg5.kfree_after fun _ m6 h6 hk6 => ?_
    obtain ⟨himg6, hsame6, hfree6, -⟩ := h6
    refine (uvmfree_safe himg6 fun pg hpg => ?_).seq (after_any _ _) fun _ _ _ _ => rfl
    rw [hsame6, hfree6, add_cons, mem_cons] at hpg
    rw [hk6]
    rcases hpg with rfl | hpg
    · exact htf5
    · exact hram5 pg hpg

/-- With two or three free pages there is no way for `fork` to return. -/
theorem forkMem_panics (hp : Pool m X) (hlen : m.free.length = 2 ∨ m.free.length = 3) :
    After (forkMem trampoline x) (fun _ _ => False) m := by
  rw [forkMem]
  refine ensures_seq (ensures_and (kalloc_shift hp) (kalloc_length m)) fun r m1 hr => ?_
  obtain ⟨hr, hnone1, hlen1⟩ := hr
  rcases hr with ⟨rfl, rfl⟩ | ⟨tf, rfl, hs1, -, -⟩
  · rw [hnone1 rfl] at hlen
    simp at hlen
  have hlen1 := hlen1 fun h0 => by cases h0
  have hp1 : Pool m1 ({tf} + X) := hs1.pool (by rwa [zero_add])
  refine ensures_seq (ensures_and (uvmcreate_shift hp1) (uvmcreate_fresh m1)) fun r m2 hr => ?_
  obtain ⟨hr, hnone2, hfresh⟩ := hr
  rcases hr with ⟨rfl, rfl⟩ | ⟨pt, rfl, hT, hleaf, hs2⟩
  · rw [hnone2 rfl, List.length_nil] at hlen1
    omega
  obtain ⟨htabs, hlen2⟩ := hfresh pt rfl
  exact ensures_seq (mapFrames_panics hT htabs (by omega)) fun _ _ h => h.elim

/-! ## The end of the kernel -/

section End

variable {α : Type} {f : Fin NFILE}

theorem fixed_forkMem (trampoline : UInt64) (x : Space) : Fixed (forkMem trampoline x) := by
  refine fixed_kalloc.bind fun r => ?_
  cases r with
  | none => exact fixed_pure _
  | some tf =>
    refine fixed_uvmcreate.bind fun r => ?_
    cases r with
    | none => exact (fixed_kfree tf).bind fun _ => fixed_pure _
    | some pt =>
      refine (fixed_mapFrames trampoline pt tf).bind fun _ => (fixed_copyLoop _ pt _ _).bind fun ok => ?_
      refine fixed_ite (Fixed.bind ?_ fun _ => fixed_pure _) ?_
      · exact fixed_modify fun _ => rfl
      · exact (fixed_unmapFrames pt).bind fun _ => (fixed_kfree tf).bind fun _ =>
          (fixed_uvmfree pt 0).bind fun _ => fixed_pure _

theorem fixed_reapMem (x : Space) : Fixed (reapMem x) :=
  (fixed_unmapFrames _).bind fun _ => (fixed_kfree _).bind fun _ => fixed_uvmfree _ _

theorem fixed_fetchArgs (n : Nat) (args : List Arg) (argv : List UInt64) : Fixed (fetchArgs n args argv) := by
  induction n generalizing args argv with
  | zero => exact fixed_pure _
  | succ n ih =>
    rcases args with - | ⟨- | ⟨ok, page⟩, rest⟩
    · exact fixed_pure _
    · exact fixed_pure _
    · refine fixed_kalloc.bind fun r => ?_
      cases r with
      | none => exact fixed_pure _
      | some pg =>
        refine Fixed.bind ?_ fun _ => fixed_ite (ih _ _) (fixed_pure _)
        exact fixed_modify fun _ => rfl

theorem fixed_freeArgs (argv : List UInt64) : Fixed (freeArgs argv) := by
  induction argv with
  | nil => exact fixed_pure _
  | cons pg rest ih => exact (fixed_kfree pg).bind fun _ => ih

theorem fixed_execStart (args : List Arg) : Fixed (execStart args) :=
  (fixed_fetchArgs _ _ _).bind fun _ => fixed_ite (fixed_pure _) ((fixed_freeArgs _).bind fun _ => fixed_pure _)

theorem fixed_execFail (e : Exec) : Fixed (execFail e) := by
  unfold execFail
  cases e.table with
  | none => exact (fixed_freeArgs _).bind fun _ => fixed_pure _
  | some pt =>
    exact (fixed_unmapFrames pt).bind fun _ => (fixed_uvmfree pt _).bind fun _ =>
      (fixed_freeArgs _).bind fun _ => fixed_pure _

theorem fixed_execCreate (trampoline tf : UInt64) (e : Exec) : Fixed (execCreate trampoline tf e) := by
  refine fixed_uvmcreate.bind fun r => ?_
  cases r with
  | none => exact fixed_execFail e
  | some pt => exact (fixed_mapFrames trampoline pt tf).bind fun _ => fixed_pure _

theorem fixed_execSegment (ph : Segment) (pt : UInt64) (e : Exec) : Fixed (execSegment ph pt e) :=
  fixed_ite (fixed_execFail e) ((fixed_uvmalloc pt _ _ _).bind fun _ => fixed_ite (fixed_execFail _) (fixed_pure _))

theorem fixed_execStack (pt : UInt64) (e : Exec) : Fixed (execStack pt e) :=
  (fixed_uvmalloc pt _ _ _).bind fun _ => fixed_ite (fixed_execFail _)
    ((fixed_uvmunmap pt _ _ _).bind fun _ => fixed_pure _)

theorem fixed_execCommit (x : Space) (e : Exec) (entry sp : UInt64) : Fixed (execCommit x e entry sp) := by
  refine (fixed_unmapFrames _).bind fun _ => (fixed_uvmfree _ _).bind fun _ => ?_
  refine Fixed.bind (fixed_modify ?_) fun _ => Fixed.bind (fixed_modify ?_) fun _ =>
    Fixed.bind (fixed_modify ?_) fun _ => fixed_freeArgs _
  · exact fun _ => rfl
  · exact fun _ => rfl
  · exact fun _ => rfl

theorem fixed_writeUser (pt va : UInt64) (page : Fin 512 → UInt64) : Fixed (writeUser pt va page) := by
  refine (fixed_walkaddr pt va).bind fun pa => fixed_ite (fixed_pure _) ?_
  exact fixed_modify fun _ => rfl

theorem fixed_pipeclose (pi : UInt64) (w : Bool) : Fixed (pipeclose pi w) := by
  refine Fixed.bind (fixed_modify ?_) fun _ => (fixed_gets _).bind fun closed => fixed_ite ?_ (fixed_pure _)
  · exact fun _ => rfl
  · exact (fixed_kfree pi).bind fun _ => fixed_pure _

theorem fixed_uvmfirst (pt : UInt64) (src : Fin 512 → UInt64) : Fixed (uvmfirst pt src) := by
  refine fixed_kalloc.bind fun r => ?_
  cases r with
  | none => exact fixed_pure _
  | some mem =>
    refine Fixed.bind (fixed_modify ?_) fun _ => (fixed_mappages pt _ _ mem _).bind fun ok => ?_
    · exact fun _ => rfl
    · exact fixed_ite (fixed_pure _) ((fixed_kfree mem).bind fun _ => fixed_pure _)

theorem fixed_userinitMem (trampoline usertrap : UInt64) (initcode : Fin 512 → UInt64) :
    Fixed (userinitMem trampoline usertrap initcode) := by
  refine fixed_kalloc.bind fun r => ?_
  cases r with
  | none => exact fixed_panic _
  | some tf =>
    refine fixed_uvmcreate.bind fun r => ?_
    cases r with
    | none => exact fixed_panic _
    | some pt =>
      refine (fixed_mapFrames trampoline pt tf).bind fun _ => (fixed_uvmfirst pt initcode).bind fun ok => ?_
      refine fixed_ite (Fixed.bind (fixed_modify ?_) fun _ => fixed_pure _) (fixed_panic _)
      exact fun _ => rfl

theorem runMem_kend {z : Prog Mem α} {a : α} (hz : Fixed z) (hs : s.runMem z = some (a, s')) :
    s'.mem.kend = s.mem.kend := by
  obtain ⟨hdone, -⟩ := runMem_eq_some hs
  have hkend := of_run_eq_done (hz s.mem) hdone
  exact hkend

theorem execStep_kend {z : Prog Mem (Option Exec)} (hz : Fixed z) (hs : s.execStep p z = some s') :
    s'.mem.kend = s.mem.kend := by
  obtain ⟨⟨e, s1⟩, hrun, hs⟩ := bind_eq_some_iff.mp hs
  cases hs
  have hkend := runMem_kend hz hrun
  exact hkend

theorem fileclose_kend (hs : s.fileclose f = some s') : s'.mem.kend = s.mem.kend := by
  unfold Sys.fileclose at hs
  split at hs
  · cases hs
  split at hs
  · cases hs
    rfl
  split at hs
  · cases hs
    rfl
  · obtain ⟨⟨freed, s1⟩, hrun, hs⟩ := bind_eq_some_iff.mp hs
    cases hs
    have hkend := runMem_kend (fixed_pipeclose _ _) hrun
    exact hkend

theorem closeBoth_kend {rf wf : Fin NFILE} (hs : s.closeBoth rf wf = some s') : s'.mem.kend = s.mem.kend := by
  obtain ⟨s1, hr, hs⟩ := bind_eq_some_iff.mp hs
  exact (fileclose_kend hs).trans (fileclose_kend hr)

theorem sysClose_kend {fd : Fin NOFILE} (hs : s.sysClose p fd = some s') : s'.mem.kend = s.mem.kend := by
  unfold Sys.sysClose at hs
  split at hs
  · cases hs
    rfl
  · have hkend := fileclose_kend hs
    exact hkend

theorem closeAll_kend (hs : s.closeAll p = some s') : s'.mem.kend = s.mem.kend := by
  unfold Sys.closeAll at hs
  generalize List.finRange NOFILE = fds at hs
  induction fds generalizing s with
  | nil =>
    cases hs
    rfl
  | cons fd fds ih =>
    rw [List.foldlM_cons] at hs
    obtain ⟨s1, hclose, hs⟩ := bind_eq_some_iff.mp hs
    exact (ih hs).trans (sysClose_kend hclose)

theorem filealloc_kend (hs : s.filealloc = some (f, s')) : s'.mem.kend = s.mem.kend := by
  unfold Sys.filealloc at hs
  split at hs
  · cases hs
  · cases hs
    rfl

theorem fdalloc_kend {fd : Fin NOFILE} (hs : s.fdalloc p f = some (fd, s')) : s'.mem.kend = s.mem.kend := by
  unfold Sys.fdalloc at hs
  split at hs
  · cases hs
  · cases hs
    rfl

theorem pipealloc_kend {r : Option (Fin NFILE × Fin NFILE)} (hs : s.pipealloc = some (r, s')) :
    s'.mem.kend = s.mem.kend := by
  unfold Sys.pipealloc at hs
  split at hs
  · cases hs
    rfl
  rename_i rf s1 hr
  split at hs
  · obtain ⟨s2, hclose, hs⟩ := bind_eq_some_iff.mp hs
    cases hs
    exact (fileclose_kend hclose).trans (filealloc_kend hr)
  rename_i wf s2 hw
  have hboth := (filealloc_kend hw).trans (filealloc_kend hr)
  obtain ⟨⟨o, s3⟩, hrun, hs⟩ := bind_eq_some_iff.mp hs
  have halloc := (runMem_kend fixed_kalloc hrun).trans hboth
  cases o with
  | none =>
    obtain ⟨s4, hclose, hs⟩ := bind_eq_some_iff.mp hs
    obtain ⟨s5, hclose', hs⟩ := bind_eq_some_iff.mp hs
    cases hs
    exact ((fileclose_kend hclose').trans (fileclose_kend hclose)).trans halloc
  | some pi =>
    cases hs
    exact halloc

theorem sysPipe_kend {copyout : Bool} (hs : s.sysPipe p copyout = some s') : s'.mem.kend = s.mem.kend := by
  obtain ⟨⟨r, s1⟩, halloc, hs⟩ := bind_eq_some_iff.mp hs
  have h1 := pipealloc_kend halloc
  cases r with
  | none =>
    cases hs
    exact h1
  | some ends =>
    obtain ⟨rf, wf⟩ := ends
    dsimp only at hs
    split at hs
    · exact (closeBoth_kend hs).trans h1
    rename_i fd0 s2 hfd
    have h2 := (fdalloc_kend hfd).trans h1
    split at hs
    · exact (closeBoth_kend hs).trans h2
    rename_i fd1 s3 hfd'
    have h3 := (fdalloc_kend hfd').trans h2
    split at hs
    · cases hs
      exact h3
    · exact (closeBoth_kend hs).trans h3

theorem sysDup_kend {fd : Fin NOFILE} (hs : s.sysDup p fd = some s') : s'.mem.kend = s.mem.kend := by
  unfold Sys.sysDup at hs
  split at hs
  · cases hs
    rfl
  split at hs
  · cases hs
    rfl
  · rename_i fd' s1 hfd
    obtain ⟨-, hdup⟩ := Option.ite_none_left_eq_some.mp hs
    cases hdup
    have hkend := fdalloc_kend hfd
    exact hkend

theorem procStep_kend {a : Process.Action} (hs : s.procStep a = some s') : s'.mem.kend = s.mem.kend := by
  obtain ⟨⟨ps, es⟩, -, hs⟩ := bind_eq_some_iff.mp hs
  dsimp only at hs
  split at hs
  · cases hs
    rfl
  · obtain ⟨x, -, hs⟩ := bind_eq_some_iff.mp hs
    obtain ⟨⟨u, s1⟩, hrun, hs⟩ := bind_eq_some_iff.mp hs
    cases hs
    have hkend := runMem_kend (fixed_reapMem x) hrun
    exact hkend

theorem fork_kend (hs : s.fork p = some s') : s'.mem.kend = s.mem.kend := by
  obtain ⟨x, -, hs⟩ := bind_eq_some_iff.mp hs
  split at hs
  · cases hs
    rfl
  obtain ⟨⟨r, s1⟩, hrun, hs⟩ := bind_eq_some_iff.mp hs
  have h1 := runMem_kend (fixed_forkMem _ x) hrun
  cases r with
  | noFrames =>
    cases hs
    exact h1
  | noCopy =>
    cases hs
    exact h1
  | child y =>
    obtain ⟨file, ofile, rfl⟩ := dupAll_frame hs
    exact h1

theorem ExecPart.fixed {z : Prog Mem (Option Exec)} (h : ExecPart s p z) : Fixed z := by
  cases h with
  | start args hu => exact fixed_execStart args
  | create hin hx htable => exact fixed_execCreate _ _ _
  | segment ph hin htable => exact fixed_execSegment ph _ _
  | stack hin htable => exact fixed_execStack _ _
  | fail hin => exact fixed_execFail _

theorem step_kend {act : Act} (hs : Kernel.step s act = some s') : s'.mem.kend = s.mem.kend := by
  cases taken_of_step hs with
  | exit ha hu hclose hs => exact (procStep_kend hs).trans (closeAll_kend hclose)
  | proc ha hexit hsleep hs => exact procStep_kend hs
  | fork hu hs => exact fork_kend hs
  | exec hz hs => exact execStep_kend hz.fixed hs
  | commit hact hin hx htable hrun =>
    have hkend := runMem_kend (fixed_execCommit _ _ _ _) hrun
    exact hkend
  | store hx hrun => exact runMem_kend (fixed_writeUser _ _ _) hrun
  | load hin htable hrun => exact runMem_kend (fixed_writeUser _ _ _) hrun
  | pipe hu hs => exact sysPipe_kend hs
  | close hu hs => exact sysClose_kend hs
  | dup hu hs => exact sysDup_kend hs
  | pipeCall hs =>
    obtain ⟨f, pi, -, -, rfl⟩ := pipeCall_eq_some hs
    rfl
  | pipeGo hin => rfl
  | pipeReturn p => rfl

/-- No run moves the end of the kernel. -/
theorem run_kend (hs : run s acts = some s') : s'.mem.kend = s.mem.kend := by
  induction acts generalizing s with
  | nil =>
    cases hs
    rfl
  | cons a as ih =>
    obtain ⟨s1, hstep, hs⟩ := bind_eq_some_iff.mp hs
    exact (ih hs).trans (step_kend hstep)

end End

/-! ## The system call -/

/-- The call has left no trace but a process identifier. -/
structure RolledBack (s s' : Sys) : Prop where
  procs : s'.ps.proc = s.ps.proc ∧ s'.ps.current = s.ps.current
  free : (s'.mem.free : Multiset UInt64) = ↑s.mem.free
  spaces : s'.space = s.space ∧ s'.exec = s.exec
  files : s'.file = s.file ∧ s'.ofile = s.ofile
  pages : ∀ q x, s.space q = some x → Agree s.mem s'.mem (spacePages s.mem x)

theorem fork_current {t : Process.State} (p : Slot) (frames copied : Bool) :
    (t.fork p frames copied).1.current = t.current := by
  unfold State.fork State.allocproc
  cases (List.finRange NPROC).find? fun q => (t.proc q).state = .unused with
  | none => rfl
  | some np => cases frames <;> cases copied <;> rfl

/-- A `fork` that finds a slot but not the pages. -/
theorem Own.rolled_back (h : Own kt kernel all s) (hx : s.space p = some x)
    (hfind : (List.finRange NPROC).find? (fun q => (s.ps.proc q).state = .unused) = some np)
    {r : Forked} {m1 : Mem} (hdone : (forkMem s.trampoline x).run s.mem = .done r m1)
    (hfail : ∀ y, r ≠ .child y) :
    ∃ s', s.fork p = some s' ∧ forkResult s s' = -1 ∧ RolledBack s s' := by
  have hnp : (s.ps.proc np).state = .unused := by simpa using List.find?_some hfind
  obtain ⟨hspace, -, hheld⟩ := h.unused_slot hnp
  have hpool := h.pool np
  rw [hheld, zero_add] at hpool
  have hbound := ((h.slot p).space x hx).fits.bound
  have hpost := of_run_eq_done (forkMem_shift hpool hbound) hdone
  have hrun : s.runMem (forkMem s.trampoline x) = some (r, { s with mem := m1 }) := by
    unfold Sys.runMem
    rw [hdone]
  -- what both ways to fail have in common
  have hback : ∀ frames copied, frames = false ∨ copied = false → Shift s.mem m1 (others kernel s np) 0 0 →
      forkResult s { s with mem := m1, ps := (s.ps.fork p frames copied).1 } = -1 ∧
        RolledBack s { s with mem := m1, ps := (s.ps.fork p frames copied).1 } := by
    intro frames copied hf hshift
    have hprocs := @fork_failed p s.ps np h.tree hfind frames copied hf
    refine ⟨?_, ⟨hprocs, fork_current p frames copied⟩, ?_, ⟨rfl, rfl⟩, ⟨rfl, rfl⟩, fun q z hz => ?_⟩
    · unfold forkResult
      rw [hfind]
      dsimp only
      rw [hprocs, if_pos hnp]
    · have hpages := hshift.pages
      rw [zero_add, zero_add] at hpages
      exact hpages
    · refine hshift.agree.mono (spacePages_subset_others ?_ hz)
      rintro rfl
      cases hspace.symm.trans hz
  unfold Sys.fork
  rw [hx]
  cases r with
  | noFrames =>
    refine ⟨_, ?_, hback false false (.inl rfl) hpost⟩
    simp only [Option.bind_eq_bind, Option.bind_some, hfind, hrun]
    rfl
  | noCopy =>
    refine ⟨_, ?_, hback true false (.inr rfl) hpost⟩
    simp only [Option.bind_eq_bind, Option.bind_some, hfind, hrun]
    rfl
  | child y => exact absurd rfl (hfail y)

theorem Own.rolled_back_iff (h : Own kt kernel all s) (hram : ∀ pg ∈ s.mem.free, Ram s.mem.kend pg)
    (hx : s.space p = some x)
    (hfail : ∀ y m', (forkMem s.trampoline x).run s.mem ≠ .done (.child y) m') :
    (∃ s', s.fork p = some s' ∧ forkResult s s' = -1 ∧ RolledBack s s') ↔
      (∀ q, (s.ps.proc q).state ≠ .unused) ∨ (s.mem.free.length ≠ 2 ∧ s.mem.free.length ≠ 3) := by
  cases hfind : (List.finRange NPROC).find? fun q => (s.ps.proc q).state = .unused with
  | none =>
    refine ⟨fun _ => .inl fun q => ?_, fun _ => ⟨s, ?_, ?_, ?_⟩⟩
    · simpa using List.find?_eq_none.mp hfind q (List.mem_finRange q)
    · unfold Sys.fork
      rw [hx]
      simp only [Option.bind_eq_bind, Option.bind_some, hfind]
      rfl
    · unfold forkResult
      rw [hfind]
    · exact ⟨⟨rfl, rfl⟩, rfl, ⟨rfl, rfl⟩, ⟨rfl, rfl⟩, fun _ _ _ => .refl _ _⟩
  | some np =>
    have hnp : (s.ps.proc np).state = .unused := by simpa using List.find?_some hfind
    obtain ⟨hspace, -, hheld⟩ := h.unused_slot hnp
    have hne : p ≠ np := by
      rintro rfl
      cases hspace.symm.trans hx
    have hpool := h.pool np
    rw [hheld, zero_add] at hpool
    constructor
    · rintro ⟨s', hs, -, -⟩
      refine .inr (not_or.mp fun hlen => ?_)
      obtain ⟨x', hx', hs⟩ := bind_eq_some_iff.mp hs
      obtain rfl : x = x' := Option.some.inj (hx.symm.trans hx')
      rw [hfind] at hs
      obtain ⟨⟨r, s1⟩, hrun, -⟩ := bind_eq_some_iff.mp hs
      exact of_run_eq_done (forkMem_panics hpool hlen) (runMem_eq_some hrun).1
    · intro hlen
      obtain ⟨h2, h3⟩ := hlen.resolve_left fun hall => hall np hnp
      obtain ⟨r, m1, hdone, -⟩ := exists_done_of_ensures (forkMem_safe hpool ((h.slot p).space x hx)
        (spacePages_subset_others hne hx) hram h2 h3)
      refine h.rolled_back hx hfind hdone fun y hy => ?_
      rw [hy] at hdone
      exact hfail y m1 hdone

theorem InRam.ram {pg : UInt64} (h : InRam kend pg) (hlow : kend.toNat ≤ PHYSTOP) : Ram kend pg := by
  obtain ⟨hmod, hge, hlt⟩ := h
  rw [toNat_PGROUNDUP (by lia)] at hge
  exact ⟨hmod, UInt64.le_iff_toNat_le.mpr (by omega), hlt⟩

/-- The free pages lie in the memory behind the kernel. -/
theorem ram_of_run (hboot : Booted kend kt m₀)
    (hinit : (userinitMem trampoline usertrap initcode).run m₀ = .done x₀ m)
    (hrun : run (start trampoline x₀ m) acts = some s) (hend : m₀.kend = kend) (hlow : kend.toNat ≤ PHYSTOP) :
    ∀ pg ∈ s.mem.free, Ram s.mem.kend pg := by
  intro pg hpg
  have hkend : s.mem.kend = kend := by
    have hfirst := of_run_eq_done (fixed_userinitMem trampoline usertrap initcode m₀) hinit
    exact (run_kend hrun).trans (hfirst.trans hend)
  rw [hkend]
  refine (inRam_of_count hboot.pages ?_).ram hlow
  rw [← ((own_start hboot hinit).run hrun).pages]
  simp only [mem_add]
  exact .inl (.inl (.inl hpg))

/-- When the pages do not suffice, `fork` fails and leaves everything as it was, unless there are two or three free
pages: then there is a page table for the child, but no page for the tables below it, and `uvmmap` panics. -/
theorem fork_rolls_back_iff (hboot : Booted kend kt m₀)
    (hinit : (userinitMem trampoline usertrap initcode).run m₀ = .done x₀ m)
    (hrun : run (start trampoline x₀ m) acts = some s) (hend : m₀.kend = kend)
    (hlow : kend.toNat ≤ PHYSTOP) (hx : s.space p = some x)
    (hfail : ∀ y m', (forkMem s.trampoline x).run s.mem ≠ .done (.child y) m') :
    (∃ s', s.fork p = some s' ∧ forkResult s s' = -1 ∧ RolledBack s s') ↔
      (∀ q, (s.ps.proc q).state ≠ .unused) ∨ (s.mem.free.length ≠ 2 ∧ s.mem.free.length ≠ 3) := by
  exact ((own_start hboot hinit).run hrun).rolled_back_iff (ram_of_run hboot hinit hrun hend hlow) hx hfail

/-- The first process is alone with one free page. -/
theorem fork_rolls_back_first : ∃ x₀ m s s',
    (userinitMem 0x80000000 0 fun _ => 0).run (emptyRam 8) = .done x₀ m ∧
    run (start 0x80000000 x₀ m) [.proc (.dispatch 0)] = some s ∧ s.mem.free.length = 1 ∧
    s.fork 0 = some s' ∧ forkResult s s' = -1 ∧ RolledBack s s' := by
  have hreach : reached [.proc (.dispatch 0)] (fun _ s => decide (s.mem.free.length = 1) &&
      (s.space 0).elim false fun x => ((forkMem s.trampoline x).run s.mem).returned fun r _ =>
        r.casesOn (motive := fun _ => Bool) true true fun _ => false)
      ((userinitMem 0x80000000 0 fun _ => 0).run (emptyRam 8)) = true := by decide +kernel
  obtain ⟨x₀, m, s, hinit, hrun, hs⟩ := reached_eq_true hreach
  simp only [Bool.and_eq_true, decide_eq_true_eq] at hs
  obtain ⟨hlen, hs⟩ := hs
  cases hx : s.space 0 with
  | none =>
    rw [hx] at hs
    cases hs
  | some x =>
    rw [hx, Option.elim_some] at hs
    have hfail : ∀ y m', (forkMem s.trampoline x).run s.mem ≠ .done (.child y) m' := by
      intro y m' hdone
      rw [hdone] at hs
      cases hs
    obtain ⟨s', hs'⟩ := (fork_rolls_back_iff (booted_emptyRam (by decide)) hinit hrun rfl (by decide) hx hfail).mpr
      (.inr (by omega))
    exact ⟨x₀, m, s, s', hinit, hrun, hlen, hs'⟩

/-- With three free pages the first process stops the machine with its `fork`. -/
theorem fork_panics : ∃ x₀ m s x m', Booted (ramPage 10) (ramPage 10) (emptyRam 10) ∧
    (userinitMem 0x80000000 0 fun _ => 0).run (emptyRam 10) = .done x₀ m ∧
    run (start 0x80000000 x₀ m) [.proc (.dispatch 0)] = some s ∧ s.user = some 0 ∧ s.space 0 = some x ∧
    (s.ps.proc 1).state = .unused ∧ (forkMem s.trampoline x).run s.mem = .panicked "uvmmap" m' := by
  have hreach : reached [.proc (.dispatch 0)] (fun _ s => decide (s.user = some 0 ∧ (s.ps.proc 1).state = .unused) &&
      (s.space 0).elim false fun x => ((forkMem s.trampoline x).run s.mem).panics "uvmmap")
      ((userinitMem 0x80000000 0 fun _ => 0).run (emptyRam 10)) = true := by decide +kernel
  obtain ⟨x₀, m, s, hinit, hrun, hs⟩ := reached_eq_true hreach
  simp only [Bool.and_eq_true, decide_eq_true_eq] at hs
  obtain ⟨⟨huser, hslot⟩, hs⟩ := hs
  cases hx : s.space 0 with
  | none =>
    rw [hx] at hs
    cases hs
  | some x =>
    rw [hx, Option.elim_some] at hs
    obtain ⟨m', hdone⟩ := Outcome.exists_panicked_of_panics hs
    exact ⟨x₀, m, s, x, m', booted_emptyRam (by decide), hinit, hrun, huser, hx, hslot, hdone⟩

end Xv6.Kernel
