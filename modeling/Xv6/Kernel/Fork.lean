import Xv6.Fs.Syscall
import Xv6.Fs.Walk
import Xv6.Kernel.Guarantees
import Xv6.Vm.Copy

/-!
# The child of a `fork`

A child has the memory of its parent: at every address below the size it finds the same permissions and the
same byte, on pages of its own. Its trap frame differs from that of the parent in `a0` only, and it shares the
open files and the current directory, with one more reference for each of them.
-/

namespace Xv6.Fs

open Coop Prog Function Multiset

variable {p q : Pid} {s s1 s' : State} {n : Nat} {f : Fin NFILE}

/-! ## Descriptors and the current directory -/

/-- The number of descriptors of `p` below `n` that refer to the file `f`. -/
def fdCount (s : State) (p : Pid) (n : Nat) (f : Fin NFILE) : Nat :=
  (Finset.univ.filter fun fd : Fin NOFILE => fd.val < n ∧ s.ofile p fd = some f).card

theorem fdCount_zero (s : State) (p : Pid) (f : Fin NFILE) : fdCount s p 0 f = 0 := by
  rw [fdCount, Finset.card_eq_zero, Finset.filter_eq_empty_iff]
  intro fd _ h
  omega

theorem fdCount_succ (hn : n < NOFILE) :
    fdCount s p (n + 1) f = fdCount s p n f + if s.ofile p ⟨n, hn⟩ = some f then 1 else 0 := by
  by_cases hf : s.ofile p ⟨n, hn⟩ = some f
  · have hset : (Finset.univ.filter fun fd : Fin NOFILE => fd.val < n + 1 ∧ s.ofile p fd = some f) =
        insert ⟨n, hn⟩ (Finset.univ.filter fun fd : Fin NOFILE => fd.val < n ∧ s.ofile p fd = some f) := by
      ext fd
      simp only [Finset.mem_filter, Finset.mem_univ, true_and, Finset.mem_insert]
      constructor
      · intro ⟨hlt, hfd⟩
        rcases Nat.lt_or_ge fd.val n with h | h
        · exact .inr ⟨h, hfd⟩
        · exact .inl (Fin.ext (show fd.val = n by omega))
      · rintro (rfl | ⟨hlt, hfd⟩)
        · exact ⟨Nat.lt_succ_self n, hf⟩
        · exact ⟨by omega, hfd⟩
    rw [fdCount, fdCount, hset, if_pos hf, Finset.card_insert_of_notMem]
    simp
  · have hset : (Finset.univ.filter fun fd : Fin NOFILE => fd.val < n + 1 ∧ s.ofile p fd = some f) =
        Finset.univ.filter fun fd : Fin NOFILE => fd.val < n ∧ s.ofile p fd = some f := by
      refine Finset.filter_congr fun fd _ => ?_
      refine ⟨fun ⟨hlt, hfd⟩ => ⟨?_, hfd⟩, fun ⟨hlt, hfd⟩ => ⟨by omega, hfd⟩⟩
      by_contra hge
      have heq : fd = ⟨n, hn⟩ := Fin.ext (show fd.val = n by omega)
      exact hf (heq ▸ hfd)
    rw [fdCount, fdCount, hset, if_neg hf, Nat.add_zero]

/-- The descriptors below `n` have been duplicated for `q`. -/
structure Inherited (s s' : State) (p q : Pid) (n : Nat) : Prop where
  child : ∀ fd : Fin NOFILE, fd.val < n → s'.ofile q fd = s.ofile p fd
  rest : ∀ fd : Fin NOFILE, n ≤ fd.val → s'.ofile q fd = none
  others : ∀ r, r ≠ q → s'.ofile r = s.ofile r
  refs : ∀ f, (s'.ftable f).ref = (s.ftable f).ref + fdCount s p n f
  cwd : s'.cwd = s.cwd
  icache : s'.icache = s.icache

theorem Inherited.forkDup (h : Inherited s s1 p q n) (hpq : p ≠ q) (hn : n < NOFILE) :
    May (forkDup p q n) (fun _ s' => Inherited s s' p q (n + 1)) s1 := by
  have hparent : s1.ofile p ⟨n, hn⟩ = s.ofile p ⟨n, hn⟩ := congrFun (h.others p hpq) _
  unfold Fs.forkDup
  rw [dif_pos hn]
  rw [May, ensures_bind, ensures_gets, hparent]
  cases hf : s.ofile p ⟨n, hn⟩ with
  | none =>
    refine ⟨fun fd hfd => ?_, fun fd hfd => h.rest fd (by omega), h.others, fun f => ?_, h.cwd, h.icache⟩
    · rcases Nat.lt_or_ge fd.val n with hlt | hge
      · exact h.child fd hlt
      · obtain rfl : fd = ⟨n, hn⟩ := Fin.ext (show fd.val = n by omega)
        rw [hf]
        exact h.rest _ (Nat.le_refl n)
    · rw [fdCount_succ hn, hf, if_neg (by simp), Nat.add_zero]
      exact h.refs f
  | some g =>
    unfold filedup
    refine ensures_seq (R := fun _ s2 => s2 = s1.modFile g fun ff => { ff with ref := ff.ref + 1 }) ?_ ?_
    · exact ensures_check_bind.mpr ⟨fun _ => rfl, fun _ => trivial⟩
    · rintro _ s2 rfl
      refine ⟨fun fd hfd => ?_, fun fd hfd => ?_, fun r hr => ?_, fun f => ?_, h.cwd, h.icache⟩
      · show update s1.ofile q _ q fd = _
        rw [update_self]
        by_cases heq : fd = ⟨n, hn⟩
        · rw [heq, update_self, hf]
        · rw [update_of_ne heq]
          exact h.child fd (Nat.lt_of_le_of_ne (by omega) fun hv => heq (Fin.ext hv))
      · show update s1.ofile q _ q fd = _
        have heq : fd ≠ ⟨n, hn⟩ := fun hv => absurd (congrArg Fin.val hv) (by simp; omega)
        rw [update_self, update_of_ne heq]
        exact h.rest fd (by omega)
      · show update s1.ofile q _ r = _
        rw [update_of_ne hr]
        exact h.others r hr
      · show (update s1.ftable g _ f).ref = _
        rw [fdCount_succ hn, hf, ← Nat.add_assoc, ← h.refs f]
        by_cases hfg : f = g
        · rw [hfg, update_self, if_pos rfl]
        · rw [update_of_ne hfg, if_neg fun hv => hfg (Option.some.inj hv).symm, Nat.add_zero]

/-- `q` has the descriptors and the current directory of `p`, and there are as many more references to the files
and to the inode. -/
structure Inherits (s s' : State) (p q : Pid) : Prop where
  files : s'.ofile q = s.ofile p
  cwd : s'.cwd q = s.cwd p
  ownFiles : s'.ofile p = s.ofile p
  ownCwd : s'.cwd p = s.cwd p
  fileRefs : ∀ f, (s'.ftable f).ref =
    (s.ftable f).ref + (Finset.univ.filter fun fd : Fin NOFILE => s.ofile p fd = some f).card
  inodeRefs : ∀ i, (s'.icache i).ref = (s.icache i).ref + if s.cwd p = some i then 1 else 0

theorem forkFiles_inherits (hpq : p ≠ q) (hfiles : ∀ fd, s.ofile q fd = none) (hcwd : s.cwd q = none) :
    May (forkFiles p q) (fun _ s' => Inherits s s' p q) s := by
  unfold forkFiles
  refine ensures_seq (R := fun _ s1 => Inherited s s1 p q (0 + NOFILE)) ?_ fun _ s1 h => ?_
  · refine ensures_loop (fun n s1 => Inherited s s1 p q n) (fun n s1 _ hn h => h.forkDup hpq (by omega)) ?_
    exact ⟨fun fd hfd => absurd hfd (Nat.not_lt_zero _), fun fd _ => hfiles fd, fun _ _ => rfl,
      fun f => by rw [fdCount_zero, Nat.add_zero], rfl, rfl⟩
  · have hcount : ∀ f, fdCount s p (0 + NOFILE) f =
        (Finset.univ.filter fun fd : Fin NOFILE => s.ofile p fd = some f).card := by
      intro f
      refine congrArg Finset.card (Finset.filter_congr fun fd _ => ⟨fun hfd => hfd.2, fun hfd => ⟨?_, hfd⟩⟩)
      have := fd.isLt
      omega
    have hchild : s1.ofile q = s.ofile p := by
      ext fd : 1
      exact h.child fd (by have := fd.isLt; omega)
    have hparent : s1.ofile p = s.ofile p := h.others p hpq
    have hrefs : ∀ f, (s1.ftable f).ref =
        (s.ftable f).ref + (Finset.univ.filter fun fd : Fin NOFILE => s.ofile p fd = some f).card := by
      intro f
      rw [h.refs f, hcount f]
    rw [ensures_bind, ensures_gets, h.cwd]
    cases hc : s.cwd p with
    | none =>
      refine ⟨hchild, ?_, hparent, ?_, hrefs, fun i => ?_⟩
      · show s1.cwd q = s.cwd p
        rw [h.cwd, hcwd, hc]
      · show s1.cwd p = s.cwd p
        rw [h.cwd]
      · show (s1.icache i).ref = _
        rw [h.icache, if_neg (by simp [hc]), Nat.add_zero]
    | some c =>
      refine ⟨hchild, ?_, hparent, ?_, hrefs, fun i => ?_⟩
      · show update s1.cwd q (some c) q = s.cwd p
        rw [update_self, hc]
      · show update s1.cwd q (some c) p = s.cwd p
        rw [update_of_ne hpq, h.cwd]
      · show (update s1.icache c _ i).ref = _
        by_cases hi : i = c
        · rw [hi, update_self, if_pos hc, h.icache]
        · rw [update_of_ne hi, if_neg, h.icache, Nat.add_zero]
          rw [hc]
          exact fun hv => hi (Option.some.inj hv).symm

end Xv6.Fs

namespace Xv6.Kernel

open Coop Prog Vm Data Process Function Multiset

variable {kend kt trampoline usertrap : UInt64} {initcode : Fin 512 → UInt64} {kernel all X : Multiset UInt64}
  {m₀ m m' : Mem} {x x₀ y : Space} {s s' : Sys} {acts : List Act} {p q np : Slot}

/-! ## The memory of the child -/

/-- What a user program finds at an address, if it is mapped: the flags of the leaf and the byte. -/
def userByte (m : Mem) (pt va : UInt64) : Option (UInt64 × Nat) :=
  (leaf m pt (vpn va)).map fun e =>
    (PTE_FLAGS e, (m.page (PTE2PA e) (Fin.ofNat 512 (va.toNat / 8))).toNat / 256 ^ (va.toNat % 8) % 256)

theorem userByte_of_copyLeaf {old pt va : UInt64} (h : CopyLeaf m m' (leaf m old (vpn va)) (leaf m' pt (vpn va))) :
    userByte m' pt va = userByte m old va := by
  unfold userByte
  cases ho : leaf m old (vpn va) with
  | none =>
    rw [ho] at h
    cases hn : leaf m' pt (vpn va) with
    | none => rfl
    | some e' =>
      rw [hn] at h
      cases h
  | some e =>
    rw [ho] at h
    cases hn : leaf m' pt (vpn va) with
    | none =>
      rw [hn] at h
      cases h
    | some e' =>
      rw [hn] at h
      cases h with
      | some hc => rw [Option.map_some, Option.map_some, hc.1, hc.2]

/-- The child's pages are copies, and so is its trap frame but for `a0`. -/
structure Copied (m m' : Mem) (x y : Space) : Prop where
  sz : y.sz = x.sz
  leaves : ∀ v, v < npages x.sz → CopyLeaf m m' (leaf m x.pagetable v) (leaf m' y.pagetable v)
  frame : ∀ i : Fin 512, i.val < 36 → m'.page y.trapframe i = if i = 14 then 0 else m.page x.trapframe i

/-- A process among the pages in use is a source for a copy. -/
theorem source_of_subset (hX : spacePages m x ⊆ X) : Source m x.pagetable (npages x.sz) X := by
  refine ⟨fun q hq => hX ?_, fun v e hv he => hX ?_⟩
  · exact mem_add.mpr (.inr (mem_add.mpr (.inl hq)))
  · exact mem_add.mpr (.inr (mem_add.mpr (.inr (mem_span hv he))))

theorem forkMem_copies (hp : Pool m X) (hsz : npages x.sz ≤ frameVpn) (hX : spacePages m x ⊆ X) :
    After (forkMem trampoline x) (fun r m' => ∀ y, r = .child y → Copied m m' x y) m := by
  rw [forkMem]
  refine ensures_seq (kalloc_shift hp) fun r m1 hr => ?_
  rcases hr with ⟨rfl, rfl⟩ | ⟨tf, rfl, hs1, -, hframe⟩
  · intro y hy
    cases hy
  have hp1 : Pool m1 ({tf} + X) := hs1.pool (by rwa [zero_add])
  refine ensures_seq (uvmcreate_shift hp1) fun r m2 hr => ?_
  rcases hr with ⟨rfl, rfl⟩ | ⟨pt, rfl, hT, hleaf, hs2⟩
  · exact ensures_seq (kfree_shift hp1) fun _ _ _ y hy => by cases hy
  refine ensures_seq (mapFrames_after hT hleaf) fun _ m3 h3 => ?_
  have hsub : X ⊆ {tf} + X := fun q hq => mem_add.mpr (.inr hq)
  have hagree3 : Agree m m3 X := hs1.agree.trans ((hs2.agree.trans h3.2.agree).mono hsub)
  have hsrc := (source_of_subset hX).agree hagree3
  have hT3 := h3.1.tree
  rw [span_self, zero_add] at hT3
  have hfresh : ∀ v, v < npages x.sz → leaf m3 pt v = none := by
    intro v hv
    rw [h3.1.high v (Nat.zero_le v)]
    exact (frames_fixed trampoline tf).none v (by omega)
  refine ensures_seq (ensures_and (uvmcopy_after (frames_fixed trampoline tf) h3.1 hsz)
    (uvmcopy_copies hT3 (hsrc.mono hsub) hfresh hsz)) fun ok m4 h4 => ?_
  cases ok with
  | false =>
    refine ensures_seq (after_any _ _) fun _ m5 _ => ensures_seq (after_any _ _) fun _ m6 _ => ?_
    exact ensures_seq (after_any _ _) fun _ _ _ y hy => by cases hy
  | true =>
    obtain ⟨himg, hcopy⟩ := h4
    obtain ⟨-, himg, -⟩ := himg.resolve_right fun h => (by cases h.1)
    obtain ⟨hagree4, hcopy⟩ := hcopy rfl
    have hnd := himg.nodup
    rw [singleton_add, add_cons] at hnd
    have hnot := (nodup_cons.mp hnd).1
    simp only [img, mem_add, not_or] at hnot
    rw [if_pos rfl, ensures_bind, ensures_modify]
    intro y hy
    cases hy
    refine ⟨rfl, fun v hv => ?_, fun i hi => ?_⟩
    · have hsame : Same m4 (copyFrame m4 tf x.trapframe) 2 pt := .of_agree (.write hnot.1.1.1 _)
      show CopyLeaf m _ _ (leaf (copyFrame m4 tf x.trapframe) pt v)
      rw [hsame.leaf]
      refine ((source_of_subset hX).copyLeaf hagree3 hv (hcopy v hv)).write fun e he => ?_
      exact fun heq => hnot.1.1.2 (heq ▸ mem_span hv he)
    · have hparent : m4.page x.trapframe = m.page x.trapframe :=
        (hagree3.trans (hagree4.mono hsub)) _ (hX (mem_add.mpr (.inl (mem_singleton_self _))))
      show update m4.page tf _ tf i = _
      rw [update_self]
      by_cases h14 : i = 14
      · rw [h14, update_self, if_pos rfl]
      · rw [update_of_ne h14, if_neg h14, if_pos hi, hparent]

/-! ## The system call -/

/-- What `fork` returns when it is called in `s` and ends in `s'`: the identifier of the child, or -1. -/
def forkResult (s s' : Sys) : Int32 :=
  match (List.finRange NPROC).find? fun q => (s.ps.proc q).state = .unused with
  | none => -1
  | some np => if (s'.ps.proc np).state = .unused then -1 else (s'.ps.proc np).pid

/-- A page table of the process in slot `q`: the one in use, or the one that `exec` is building. -/
def TableOf (s : Sys) (q : Slot) (pt : UInt64) : Prop :=
  (∃ z, s.space q = some z ∧ z.pagetable = pt) ∨ ∃ e, s.exec q = some e ∧ e.table = some pt

/-- The process in slot `np` with the memory `y` is new, and a copy of the one in slot `p` with the memory `x`.
The page of the trampoline, which belongs to the kernel, is in every page table. -/
structure Clone (s s' : Sys) (p np : Slot) (x y : Space) : Prop where
  new : s.space np = none
  child : s'.space np = some y
  sz : y.sz = x.sz
  bytes : ∀ va : UInt64, va < x.sz → userByte s'.mem y.pagetable va = userByte s.mem x.pagetable va
  alone : ∀ (va : UInt64) e q pt v e', va < x.sz → leaf s'.mem y.pagetable (vpn va) = some e →
    TableOf s' q pt → leaf s'.mem pt v = some e' → v ≠ frameVpn + 1 → PTE2PA e' = PTE2PA e →
    pt = y.pagetable ∧ v = vpn va
  frame : ∀ i : Fin 512, i.val < 36 →
    s'.mem.page y.trapframe i = if i = 14 then 0 else s.mem.page x.trapframe i
  parent : s'.space p = some x
  same : Agree s.mem s'.mem (spacePages s.mem x)

/-- What the page tables of a process refer to is held by it. -/
theorem Own.mem_held_of_leaf (h : Own kt kernel all s) {pt e : UInt64} {v : Nat} (ht : TableOf s q pt)
    (he : leaf s.mem pt v = some e) (hv : v ≠ frameVpn + 1) : PTE2PA e ∈ held s q := by
  rcases ht with ⟨z, hz, rfl⟩ | ⟨ex, hex, htable⟩
  · have hfits := (h.slot q).space z hz
    rcases leaf_cases hfits.fits hfits.frame he hv with ⟨-, hin⟩ | ⟨-, heq⟩
    · exact (mem_held hz).2.2 _ hin
    · rw [heq]
      exact (mem_held hz).1
  · obtain ⟨z, hz, hok⟩ := (h.slot q).exec ex hex
    have hframe := ((h.slot q).space z hz).frame
    rcases leaf_cases (hok.fits pt htable) hframe he hv with ⟨-, hin⟩ | ⟨-, heq⟩
    · rw [held, hz, hex, slotPages_exec, execPages_some htable, img]
      simp only [mem_add]
      exact .inr (.inr (.inr hin))
    · rw [heq]
      exact (mem_held hz).1

/-- The user memory of a process is mapped nowhere else. -/
theorem Own.alone (h : Own kt kernel all s) (hy : s.space np = some y) (hexec : s.exec np = none) {u v : Nat}
    {e e' pt : UInt64} (hu : u < npages y.sz) (he : leaf s.mem y.pagetable u = some e) (ht : TableOf s q pt)
    (he' : leaf s.mem pt v = some e') (hv : v ≠ frameVpn + 1) (heq : PTE2PA e' = PTE2PA e) :
    pt = y.pagetable ∧ v = u := by
  have hin := mem_span hu he
  have hq : q = np := by
    by_contra hne
    refine (h.only ((mem_held hy).2.2 _ hin)).2.2 q hne ?_
    rw [← heq]
    exact h.mem_held_of_leaf ht he' hv
  subst hq
  obtain rfl : y.pagetable = pt := by
    rcases ht with ⟨z, hz, hpt⟩ | ⟨ex, hex, -⟩
    · rw [← hpt, Option.some.inj (hy.symm.trans hz)]
    · cases hexec.symm.trans hex
  have hfits := (h.slot q).space y hy
  refine ⟨rfl, ?_⟩
  rcases leaf_cases hfits.fits hfits.frame he' hv with ⟨hlt, -⟩ | ⟨-, hframe⟩
  · have hnd := (nodup_add.mp (nodup_add.mp (h.pool q).nodup).2.1).1
    rw [held, hy] at hnd
    have hspace := (nodup_add.mp hnd).1
    have himg := (nodup_add.mp hspace).2.1
    exact span_inj (nodup_add.mp himg).2.1 (Finset.mem_Ico.mpr ⟨Nat.zero_le u, hu⟩)
      (Finset.mem_Ico.mpr ⟨Nat.zero_le v, hlt⟩) he he' heq
  · rw [← heq] at hin
    exact absurd hframe (h.span_apart hy hin).1

theorem vpn_lt_npages {va sz : UInt64} (h : va < sz) : vpn va < npages sz := by
  have hlt := UInt64.lt_iff_toNat_lt.mp h
  unfold vpn npages
  omega

/-- The pages of a process are among those that slot `np` does not hold. -/
theorem spacePages_subset_others (hne : q ≠ np) (hx : s.space q = some x) :
    spacePages s.mem x ⊆ others kernel s np := by
  intro pg hpg
  have hin : pg ∈ held s q := by
    rw [held, hx]
    exact mem_add.mpr (.inl hpg)
  simp only [others, mem_add]
  exact .inl (.inr (subset_of_le (le_rest hne) hin))

theorem Own.clone_of_fork (h : Own kt kernel all s) (hp : s.ps.current = some p) (hx : s.space p = some x)
    (hs : s.fork p = some s') (hret : 0 < forkResult s s') :
    ∃ np y, (s'.ps.proc np).pid = forkResult s s' ∧ Clone s s' p np x y := by
  have hown := (h.fork hp hs).1
  obtain ⟨x', hx', hs⟩ := Option.bind_eq_some_iff.mp hs
  obtain rfl : x = x' := Option.some.inj (hx.symm.trans hx')
  unfold forkResult at hret ⊢
  cases hfind : (List.finRange NPROC).find? fun q => (s.ps.proc q).state = .unused with
  | none =>
    rw [hfind] at hret
    cases (show ¬ (0 : Int32) < -1 by decide) hret
  | some np =>
    rw [hfind] at hs hret
    have hnp : (s.ps.proc np).state = .unused := by simpa using List.find?_some hfind
    obtain ⟨hspace, hexec, hheld⟩ := h.unused_slot hnp
    have hne : p ≠ np := by
      rintro rfl
      cases hspace.symm.trans hx
    have hpool := h.pool np
    rw [hheld, zero_add] at hpool
    have hX : spacePages s.mem x ⊆ others kernel s np := spacePages_subset_others hne hx
    have hbound := ((h.slot p).space x hx).fits.bound
    obtain ⟨⟨r, s1⟩, hrun, hs⟩ := Option.bind_eq_some_iff.mp hs
    obtain ⟨hdone, heq⟩ := runMem_eq_some hrun
    obtain ⟨m1, rfl⟩ : ∃ m1, s1 = { s with mem := m1 } := ⟨_, heq⟩
    -- a slot that is unused again means the result -1
    have hfail : ∀ frames copied, frames = false ∨ copied = false →
        ((s.ps.fork p frames copied).1.proc np).state = .unused := by
      intro frames copied hf
      rw [fork_failed h.tree hfind hf]
      exact hnp
    cases r with
    | noFrames =>
      cases hs
      dsimp only at hret
      rw [if_pos (hfail false false (.inl rfl))] at hret
      exact absurd hret (by decide)
    | noCopy =>
      cases hs
      dsimp only at hret
      rw [if_pos (hfail true false (.inr rfl))] at hret
      exact absurd hret (by decide)
    | child y =>
      have hcopied := of_run_eq_done (forkMem_copies hpool hbound hX) hdone y rfl
      obtain ⟨-, hshift⟩ := of_run_eq_done (forkMem_shift hpool hbound) hdone
      obtain ⟨file, ofile, rfl⟩ := dupAll_frame hs
      have hused : ((s.ps.fork p true true).1.proc np).state ≠ .unused := by
        rw [(@fork_succeeded p s.ps np hfind np).1 rfl]
        decide
      have hy : update s.space np (some y) np = some y := update_self ..
      refine ⟨np, y, (if_neg hused).symm, hspace, hy, hcopied.sz, fun va hva => ?_, ?_, hcopied.frame, ?_, ?_⟩
      · exact userByte_of_copyLeaf (hcopied.leaves _ (vpn_lt_npages hva))
      · intro va e q pt v e' hva he ht he' hv hpage
        rw [← hcopied.sz] at hva
        exact hown.alone hy hexec (vpn_lt_npages hva) he ht he' hv hpage
      · exact (update_of_ne hne _ _).trans hx
      · exact hshift.agree.mono hX

end Xv6.Kernel
