import Xv6.Kernel.Pipes
import Xv6.Kernel.Slots

/-!
# Every page has one owner

`Own` is the invariant of all runs: the free pages, those of the kernel, those that the slots of the
process table hold and those of the live pipes are together the pages there are, each once. A step of a
process moves pages between the free list and one slot, or between the free list and the pipes; `slotStep`
and `pipeStep` say once what that means for the others.
-/

namespace Xv6.Kernel

open Coop Prog Vm Data Process Function Multiset

/-! ## The pages of a slot -/

/-- The pages of a process and of its `exec`, if it is in one. -/
def slotPages (m : Mem) (o : Option Space) (e : Option Exec) : Multiset UInt64 :=
  o.elim 0 (spacePages m) + e.elim 0 fun e => execPages m e (npages e.sz)

structure SlotOk (m : Mem) (trampoline : UInt64) (o : Option Space) (e : Option Exec) : Prop where
  space : ∀ x, o = some x → SpaceFits m trampoline x
  exec : ∀ e', e = some e' → ∃ x, o = some x ∧ ExecOk m trampoline x.trapframe e'

variable {m m' : Mem} {trampoline : UInt64} {o : Option Space} {e : Option Exec}

theorem slotPages_none (m : Mem) : slotPages m none none = 0 := rfl

theorem slotPages_some (m : Mem) (x : Space) : slotPages m (some x) none = spacePages m x :=
  add_zero _

theorem slotPages_exec (m : Mem) (x : Space) (e : Exec) :
    slotPages m (some x) (some e) = spacePages m x + execPages m e (npages e.sz) := rfl

theorem SpaceFits.agree {x : Space} (h : SpaceFits m trampoline x) (hagree : Agree m m' (spacePages m x)) :
    SpaceFits m' trampoline x ∧ spacePages m' x = spacePages m x := by
  obtain ⟨hfits, hsame⟩ := h.fits.agree (hagree.mono fun q hq => mem_add.mpr (.inr hq))
  refine ⟨⟨hfits, h.frame⟩, ?_⟩
  rw [spacePages, spacePages, hsame]

theorem ExecOk.agree {tf : UInt64} {e : Exec} (h : ExecOk m trampoline tf e)
    (hagree : Agree m m' (execPages m e (npages e.sz))) :
    ExecOk m' trampoline tf e ∧ execPages m' e (npages e.sz) = execPages m e (npages e.sz) := by
  cases htable : e.table with
  | none =>
    refine ⟨⟨fun pt hpt => ?_, h.sz⟩, ?_⟩
    · cases htable.symm.trans hpt
    · rw [execPages_none htable, execPages_none htable]
  | some pt =>
    rw [execPages_some htable] at hagree
    obtain ⟨hfits, hsame⟩ := (h.fits pt htable).agree
      (hagree.mono fun q hq => mem_add.mpr (.inr hq))
    refine ⟨⟨fun pt' hpt' => ?_, h.sz⟩, ?_⟩
    · obtain rfl : pt = pt' := Option.some.inj (htable.symm.trans hpt')
      exact hfits
    · rw [execPages_some htable, execPages_some htable, hsame]

theorem SlotOk.agree (h : SlotOk m trampoline o e) (hagree : Agree m m' (slotPages m o e)) :
    SlotOk m' trampoline o e ∧ slotPages m' o e = slotPages m o e := by
  have hspace : ∀ x, o = some x → SpaceFits m' trampoline x ∧ spacePages m' x = spacePages m x := by
    rintro x rfl
    exact (h.space x rfl).agree (hagree.mono fun q hq => mem_add.mpr (.inl hq))
  have hexec : ∀ e', e = some e' → ∃ x, o = some x ∧ ExecOk m' trampoline x.trapframe e' ∧
      execPages m' e' (npages e'.sz) = execPages m e' (npages e'.sz) := by
    rintro e' rfl
    obtain ⟨x, hx, hok⟩ := h.exec e' rfl
    exact ⟨x, hx, hok.agree (hagree.mono fun q hq => mem_add.mpr (.inr hq))⟩
  refine ⟨⟨fun x hx => (hspace x hx).1, ?_⟩, ?_⟩
  · intro e' he'
    obtain ⟨x, hx, hok, -⟩ := hexec e' he'
    exact ⟨x, hx, hok⟩
  · unfold slotPages
    refine congrArg₂ (· + ·) ?_ ?_
    · cases o with
      | none => rfl
      | some x => exact (hspace x rfl).2
    · cases e with
      | none => rfl
      | some e' =>
        obtain ⟨-, -, -, hsame⟩ := hexec e' rfl
        exact hsame

/-! ## The pages of the kernel -/

/-- The pages of the kernel stacks, one for each slot. -/
def stackPages (m : Mem) (kt : UInt64) : Multiset UInt64 :=
  total fun p : Slot => pageOf (leaf m kt (KSTACK p / PGSIZE))

/-- The pages of the kernel page table `kt` and of the stacks that it maps. -/
def kernelPages (m : Mem) (kt : UInt64) : Multiset UInt64 := tabs m 2 kt + stackPages m kt

theorem kernelPages_agree {kt : UInt64} (hagree : Agree m m' (kernelPages m kt)) :
    kernelPages m' kt = kernelPages m kt := by
  have hsame : Same m m' 2 kt := .of_agree (hagree.mono fun q hq => mem_add.mpr (.inl hq))
  rw [kernelPages, kernelPages, stackPages, stackPages, hsame.tabs, hsame.leaf]

/-! ## The invariant -/

def held (s : Sys) (p : Slot) : Multiset UInt64 := slotPages s.mem (s.space p) (s.exec p)

/-- `kernel` are the pages of the kernel, whose page table is `kt`; `all` are all the pages. -/
structure Own (kt : UInt64) (kernel all : Multiset UInt64) (s : Sys) : Prop where
  pages : ↑s.mem.free + kernel + total (held s) + pipePages s.file = all
  nodup : all.Nodup
  good : ∀ pg ∈ s.mem.free, IsPage pg
  kernel : kernelPages s.mem kt = kernel
  slot : ∀ p, SlotOk s.mem s.trampoline (s.space p) (s.exec p)
  files : FilesOk s.mem s.file
  tree : Tree s.ps
  used : ∀ p, (s.ps.proc p).state = .unused ↔ s.space p = none
  live : ∀ p, s.exec p ≠ none → (s.ps.proc p).Live ∧ ¬ Exiting (s.ps.proc p)

variable {kt : UInt64} {kernel all : Multiset UInt64} {s s' : Sys} {p q : Slot}

/-- The pages in use other than those of slot `p`. -/
def others (kernel : Multiset UInt64) (s : Sys) (p : Slot) : Multiset UInt64 :=
  kernel + rest (held s) p + pipePages s.file

theorem Own.pool (h : Own kt kernel all s) (p : Slot) : Pool s.mem (held s p + others kernel s p) := by
  refine ⟨?_, h.good⟩
  have hnd := h.nodup
  rw [← h.pages, total_eq_add_rest (held s) p] at hnd
  convert hnd using 1
  rw [others]
  abel

theorem Own.piped (h : Own kt kernel all s) : Piped s (kernel + total (held s)) := by
  refine ⟨⟨?_, h.good⟩, h.files⟩
  have hnd := h.nodup
  rw [← h.pages] at hnd
  convert hnd using 1
  abel

/-- A process that has the same memory before and after has the same pages. -/
def Keeps (s s' : Sys) : Prop :=
  ∀ q x, s.space q = some x → s'.space q = some x → spacePages s'.mem x = spacePages s.mem x

/-- Pages move between the free list and slot `p`. -/
theorem Own.slotStep (h : Own kt kernel all s) {ps : Process.State}
    (hs : Shift s.mem m' (others kernel s p) (held s p) (slotPages m' o e))
    (hkeep : ∀ x, s.space p = some x → o = some x → spacePages m' x = spacePages s.mem x)
    (hok : SlotOk m' s.trampoline o e) (htree : Tree ps)
    (hused : ∀ q, (ps.proc q).state = .unused ↔ update s.space p o q = none)
    (hlive : ∀ q, update s.exec p e q ≠ none → (ps.proc q).Live ∧ ¬ Exiting (ps.proc q)) :
    Own kt kernel all
      { s with
        ps := ps
        mem := m'
        space := update s.space p o
        exec := update s.exec p e } ∧
    Keeps s
      { s with
        ps := ps
        mem := m'
        space := update s.space p o
        exec := update s.exec p e } := by
  -- the other slots are as before
  have hagree : ∀ q, q ≠ p → Agree s.mem m' (held s q) := by
    intro q hq
    refine hs.agree.mono fun pg hpg => ?_
    have hrest := subset_of_le (@le_rest _ _ _ (held s) _ _ _ hq) hpg
    simp only [others, mem_add]
    exact .inl (.inr hrest)
  have hother : ∀ q, q ≠ p → SlotOk m' s.trampoline (s.space q) (s.exec q) ∧
      slotPages m' (s.space q) (s.exec q) = held s q := fun q hq => (h.slot q).agree (hagree q hq)
  have hpages : total (fun q => slotPages m' (update s.space p o q)
      (update s.exec p e q)) = slotPages m' o e + rest (held s) p := by
    rw [total_eq_add_rest _ p, update_self, update_self]
    refine congrArg _ (rest_congr fun q hq => ?_)
    rw [update_of_ne hq, update_of_ne hq]
    exact (hother q hq).2
  have hkernel : kernelPages m' kt = kernel := by
    rw [← h.kernel]
    refine kernelPages_agree (hs.agree.mono fun pg hpg => ?_)
    rw [h.kernel] at hpg
    simp only [others, mem_add]
    exact .inl (.inl hpg)
  refine ⟨⟨?_, h.nodup, hs.good, hkernel, ?_, ?_, htree, hused, hlive⟩, ?_⟩
  · show ↑m'.free + kernel + total (fun q => slotPages m' (update s.space p o q)
      (update s.exec p e q)) + pipePages s.file = all
    rw [hpages, ← h.pages, total_eq_add_rest (held s) p]
    calc ↑m'.free + kernel + (slotPages m' o e + rest (held s) p) + pipePages s.file
        = (slotPages m' o e + ↑m'.free) + (kernel + rest (held s) p + pipePages s.file) := by abel
      _ = (held s p + ↑s.mem.free) + (kernel + rest (held s) p + pipePages s.file) := by rw [hs.pages]
      _ = ↑s.mem.free + kernel + (held s p + rest (held s) p) + pipePages s.file := by abel
  · intro q
    show SlotOk m' s.trampoline (update s.space p o q) (update s.exec p e q)
    by_cases hq : q = p
    · subst hq
      rw [update_self, update_self]
      exact hok
    · rw [update_of_ne hq, update_of_ne hq]
      exact (hother q hq).1
  · refine h.files.agree (hs.agree.mono fun pg hpg => ?_)
    exact mem_add.mpr (.inr hpg)
  · intro q x hx hx'
    have hx' : update s.space p o q = some x := hx'
    by_cases hq : q = p
    · subst hq
      rw [update_self] at hx'
      exact hkeep x hx hx'
    · refine (((h.slot q).space x hx).agree ((hagree q hq).mono fun pg hpg => ?_)).2
      rw [held, hx]
      exact mem_add.mpr (.inl hpg)

/-- Pages move between the free list and the pipes. -/
theorem Own.pipeStep (h : Own kt kernel all s) (hs : PipeStep s s' (kernel + total (held s))) :
    Own kt kernel all s' ∧ Keeps s s' := by
  have hagree : ∀ q, Agree s.mem s'.mem (held s q) := fun q =>
    hs.shift.agree.mono fun pg hpg => mem_add.mpr (.inr (mem_total.mpr ⟨q, hpg⟩))
  have hslot : ∀ q, SlotOk s'.mem s'.trampoline (s'.space q) (s'.exec q) ∧ held s' q = held s q := by
    intro q
    rw [held, hs.trampoline, hs.space, hs.exec]
    exact (h.slot q).agree (hagree q)
  have hkernel : kernelPages s'.mem kt = kernel := by
    rw [← h.kernel]
    refine kernelPages_agree (hs.shift.agree.mono fun pg hpg => ?_)
    rw [h.kernel] at hpg
    exact mem_add.mpr (.inl hpg)
  refine ⟨⟨?_, h.nodup, hs.shift.good, hkernel, fun q => (hslot q).1, hs.files, ?_, ?_, ?_⟩, ?_⟩
  · rw [total_congr fun q => (hslot q).2, ← h.pages]
    calc ↑s'.mem.free + kernel + total (held s) + pipePages s'.file
        = (pipePages s'.file + ↑s'.mem.free) + (kernel + total (held s)) := by abel
      _ = (pipePages s.file + ↑s.mem.free) + (kernel + total (held s)) := by rw [hs.shift.pages]
      _ = ↑s.mem.free + kernel + total (held s) + pipePages s.file := by abel
  · rw [hs.ps]
    exact h.tree
  · rw [hs.ps, hs.space]
    exact h.used
  · rw [hs.ps, hs.exec]
    exact h.live
  · intro q x hx _
    refine (((h.slot q).space x hx).agree ((hagree q).mono fun pg hpg => ?_)).2
    rw [held, hx]
    exact mem_add.mpr (.inl hpg)

end Xv6.Kernel
