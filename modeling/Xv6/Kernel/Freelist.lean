import Xv6.Kernel.Boot
import Xv6.Kernel.PipeCall

/-!
# The list of free pages

`kernel/kalloc.c` with the list as it is kept: the first double word of a free page is the address of the next one, and
the rest of the page is poison. The functions of `Vm.Model` keep the list beside the memory instead. The calls come in any
order, and a caller writes to the pages that it has been given.
-/

namespace Xv6.Kernel

open Vm Function Multiset

/-! ## The code -/

/-- The physical memory and `kmem.freelist`; 0 is the null pointer. -/
structure Kmem where
  page : UInt64 → Fin 512 → UInt64
  freelist : UInt64

namespace Kmem

/-- `none` is a panic. -/
def kfree (kend : UInt64) (k : Kmem) (pa : UInt64) : Option Kmem :=
  if pa.toNat % PGSIZE ≠ 0 ∨ pa < kend ∨ PHYSTOP ≤ pa.toNat then none
  else
    let page := update k.page pa fun _ => poison
    some ⟨update page pa (update (page pa) 0 k.freelist), pa⟩

def kalloc (k : Kmem) : UInt64 × Kmem :=
  let r := k.freelist
  if r = 0 then (r, k) else (r, ⟨update k.page r fun _ => 0, k.page r 0⟩)

def freerange (kend paStart paEnd : UInt64) (k : Kmem) : Option Kmem :=
  let p := PGROUNDUP paStart
  if paEnd ≤ paStart then none
  else if PHYSTOP < paEnd.toNat then none
  else (List.range ((paEnd.toNat - p.toNat) / PGSIZE)).foldlM (fun k i => k.kfree kend (p + 4096 * UInt64.ofNat i)) k

def kinit (kend : UInt64) (k : Kmem) : Option Kmem := k.freerange kend kend (UInt64.ofNat PHYSTOP)

end Kmem

/-- The allocator and the pages that its callers have. -/
structure Client where
  k : Kmem
  owned : List UInt64

inductive Op
  | kalloc
  | kfree (pa : UInt64)
  | write (pa : UInt64) (i : Fin 512) (w : UInt64)

/-- Only a page that is allocated is freed or written to. -/
def Client.step (kend : UInt64) (c : Client) : Op → Option Client
  | .kalloc => let (r, k) := c.k.kalloc; some ⟨k, if r = 0 then c.owned else r :: c.owned⟩
  | .kfree pa => if pa ∈ c.owned then (c.k.kfree kend pa).map fun k => ⟨k, c.owned.erase pa⟩ else none
  | .write pa i w =>
    if pa ∈ c.owned then some { c with k.page := update c.k.page pa (update (c.k.page pa) i w) } else none

def Client.run (kend : UInt64) (c : Client) (ops : List Op) : Option Client := ops.foldlM (Client.step kend) c

/-! ## The list in the memory -/

/-- The links from `r` on lead through these pages to the null pointer. -/
def Linked (page : UInt64 → Fin 512 → UInt64) : UInt64 → List UInt64 → Prop
  | r, [] => r = 0
  | r, pg :: l => r = pg ∧ r ≠ 0 ∧ Linked page (page r 0) l

variable {page : UInt64 → Fin 512 → UInt64} {kend r pa : UInt64} {l : List UInt64} {k k' : Kmem} {c c' : Client}

/-- Other pages are not part of the list. -/
theorem Linked.update (h : Linked page r l) (hpa : pa ∉ l) (f : Fin 512 → UInt64) : Linked (update page pa f) r l := by
  induction l generalizing r with
  | nil => exact h
  | cons pg l ih =>
    obtain ⟨rfl, hr, hl⟩ := h
    rw [List.mem_cons, not_or] at hpa
    refine ⟨rfl, hr, ?_⟩
    rw [update_of_ne (Ne.symm hpa.1)]
    exact ih hl hpa.2

theorem Linked.kalloc_nil (h : Linked k.page k.freelist []) : k.kalloc = (0, k) := by
  have hr : k.freelist = 0 := h
  rw [Kmem.kalloc, hr, if_pos rfl]

theorem Linked.kalloc_cons (h : Linked k.page k.freelist (pa :: l)) :
    k.kalloc = (pa, ⟨Function.update k.page pa fun _ => 0, k.page pa 0⟩) := by
  obtain ⟨hr, h0, -⟩ := h
  rw [Kmem.kalloc, if_neg h0, hr]

/-- A page is put in front. -/
theorem Linked.kfree (h : Linked k.page k.freelist l) (hpa : pa ∉ l) (h0 : pa ≠ 0) (halign : pa.toNat % PGSIZE = 0)
    (hlow : kend ≤ pa) (hhigh : pa.toNat < PHYSTOP) :
    ∃ k', k.kfree kend pa = some k' ∧ Linked k'.page k'.freelist (pa :: l) := by
  rw [Kmem.kfree, if_neg (by rw [not_or, not_or]; exact ⟨not_not.mpr halign, UInt64.not_lt.mpr hlow, by omega⟩)]
  refine ⟨_, rfl, rfl, h0, ?_⟩
  simp only [update_self]
  exact (h.update hpa _).update hpa _

/-- The free pages `l` and the allocated ones are the pages there are, each of them once. -/
structure Client.Holds (kend : UInt64) (c : Client) (l : List UInt64) : Prop where
  linked : Linked c.k.page c.k.freelist l
  pages : ∀ pg, (l ++ c.owned).count pg = if InRam kend pg then 1 else 0

namespace Client.Holds

section

variable (h : c.Holds kend l)
include h

theorem of_perm {k : Kmem} {l' owned : List UInt64} (hlinked : Linked k.page k.freelist l')
    (hperm : (l' ++ owned).Perm (l ++ c.owned)) : Holds kend ⟨k, owned⟩ l' :=
  ⟨hlinked, fun pg => (hperm.count_eq pg).trans (h.pages pg)⟩

theorem nodup : (l ++ c.owned).Nodup := by
  rw [List.nodup_iff_count_le_one]
  intro pg
  rw [h.pages pg]
  split <;> omega

theorem notMem (hpa : pa ∈ c.owned) : pa ∉ l :=
  fun hl => (List.nodup_append.mp h.nodup).2.2 pa hl pa hpa rfl

theorem inRam (hpa : pa ∈ c.owned) : InRam kend pa := by
  by_contra hram
  have hcount := h.pages pa
  rw [if_neg hram] at hcount
  exact List.count_eq_zero.mp hcount (List.mem_append_right l hpa)

variable (h0 : 0 < kend.toNat) (hend : kend.toNat < PHYSTOP)
include h0 hend

/-- An allocated page may be freed. -/
theorem kfree (hpa : pa ∈ c.owned) :
    ∃ k, c.k.kfree kend pa = some k ∧ Linked k.page k.freelist (pa :: l) := by
  obtain ⟨halign, hlow, hhigh⟩ := h.inRam hpa
  have hround := toNat_PGROUNDUP (a := kend) (by lia)
  refine h.linked.kfree (h.notMem hpa) ?_ halign (UInt64.le_iff_toNat_le.mpr (by omega)) hhigh
  rintro rfl
  rw [UInt64.toNat_zero] at hlow
  omega

theorem step {op : Op} (hs : c.step kend op = some c') : ∃ l', c'.Holds kend l' := by
  cases op with
  | kalloc =>
    rw [Client.step] at hs
    cases l with
    | nil =>
      rw [h.linked.kalloc_nil] at hs
      cases hs
      exact ⟨[], h⟩
    | cons pg l =>
      obtain ⟨hr, hne, hl⟩ := h.linked
      rw [h.linked.kalloc_cons] at hs
      dsimp only at hs
      rw [if_neg (hr ▸ hne)] at hs
      cases hs
      rw [hr] at hl
      have hnot : pg ∉ l := (List.nodup_cons.mp h.nodup).1 ∘ List.mem_append_left _
      exact ⟨l, h.of_perm (hl.update hnot _) List.perm_middle⟩
  | kfree pa =>
    obtain ⟨hpa, hs⟩ := Option.ite_none_right_eq_some.mp hs
    obtain ⟨k, hk, hlinked⟩ := h.kfree h0 hend hpa
    rw [hk] at hs
    cases hs
    refine ⟨pa :: l, h.of_perm hlinked ?_⟩
    exact List.perm_middle.symm.trans ((List.perm_cons_erase hpa).symm.append_left l)
  | write pa i w =>
    obtain ⟨hpa, ⟨⟩⟩ := Option.ite_none_right_eq_some.mp hs
    exact ⟨l, h.linked.update (h.notMem hpa) _, h.pages⟩

theorem run {ops : List Op} (hs : c.run kend ops = some c') : ∃ l', c'.Holds kend l' := by
  induction ops generalizing c l with
  | nil =>
    cases hs
    exact ⟨l, h⟩
  | cons op ops ih =>
    obtain ⟨c1, h1, hs⟩ := Option.bind_eq_some_iff.mp hs
    obtain ⟨l1, hl1⟩ := h.step h0 hend h1
    exact ih hl1 hs

end

end Client.Holds

/-! ## kinit -/

/-- The pages are freed from the first one on. -/
theorem exists_kinit (h0 : 0 < kend.toNat) (hend : kend.toNat < PHYSTOP) (page : UInt64 → Fin 512 → UInt64) :
    ∃ k l, Kmem.kinit kend ⟨page, 0⟩ = some k ∧ Client.Holds kend ⟨k, []⟩ l := by
  have hround := toNat_PGROUNDUP (a := kend) (by lia)
  have htop : (UInt64.ofNat PHYSTOP).toNat = PHYSTOP := rfl
  have hloop : ∀ n ≤ (PHYSTOP - (PGROUNDUP kend).toNat) / PGSIZE, ∃ k l, (List.range n).foldlM (fun (k : Kmem) i =>
      k.kfree kend (PGROUNDUP kend + 4096 * UInt64.ofNat i)) ⟨page, 0⟩ = some k ∧ Linked k.page k.freelist l ∧
      ∀ pg : UInt64, l.count pg = if pg.toNat % PGSIZE = 0 ∧ (PGROUNDUP kend).toNat ≤ pg.toNat ∧
        pg.toNat < (PGROUNDUP kend).toNat + 4096 * n then 1 else 0 := by
    intro n hn
    induction n with
    | zero => exact ⟨_, [], rfl, rfl, fun pg => (if_neg (by omega)).symm⟩
    | succ n ih =>
      obtain ⟨k, l, hk, hlinked, hcount⟩ := ih (by omega)
      have hsize : (4096 : UInt64).toNat = 4096 := rfl
      have hnew : (PGROUNDUP kend + 4096 * UInt64.ofNat n).toNat = (PGROUNDUP kend).toNat + 4096 * n := by
        rw [UInt64.toNat_add, UInt64.toNat_mul, UInt64.toNat_ofNat', hsize]
        lia
      have hne : PGROUNDUP kend + 4096 * UInt64.ofNat n ≠ 0 := by
        intro h
        rw [h, UInt64.toNat_zero] at hnew
        omega
      have hlow : kend ≤ PGROUNDUP kend + 4096 * UInt64.ofNat n := UInt64.le_iff_toNat_le.mpr (by omega)
      obtain ⟨k', hk', hlinked'⟩ := hlinked.kfree
        (List.count_eq_zero.mp ((hcount _).trans (if_neg (by omega)))) hne (by lia) hlow (by lia)
      refine ⟨k', _, ?_, hlinked', fun pg => ?_⟩
      · rw [List.range_succ, List.foldlM_append, hk]
        simp [hk']
      · rw [List.count_cons, hcount pg]
        by_cases heq : PGROUNDUP kend + 4096 * UInt64.ofNat n = pg
        · have hpg := congrArg UInt64.toNat heq
          rw [hnew] at hpg
          rw [if_neg (by omega), if_pos (beq_iff_eq.mpr heq), if_pos (by lia)]
        · have hpg : pg.toNat ≠ (PGROUNDUP kend).toNat + 4096 * n := fun h => heq (UInt64.toNat_inj.mp (hnew.trans h.symm))
          rw [beq_eq_false_iff_ne.mpr heq, if_neg Bool.false_ne_true, Nat.add_zero]
          refine if_congr ?_ rfl rfl
          lia
  obtain ⟨k, l, hk, hlinked, hcount⟩ := hloop _ (Nat.le_refl _)
  refine ⟨k, l, ?_, hlinked, fun pg => ?_⟩
  · rw [Kmem.kinit, Kmem.freerange, htop, if_neg, if_neg (Nat.lt_irrefl _)]
    · exact hk
    · exact UInt64.not_le.mpr (UInt64.lt_iff_toNat_lt.mpr hend)
  · rw [List.append_nil, hcount pg]
    refine if_congr ?_ rfl rfl
    rw [InRam]
    lia

open Coop Prog

/-- The call on the memory of `Vm.Model`. -/
def Op.call : Op → Prog Mem Unit
  | .kalloc => Vm.kalloc >>= fun _ => pure ()
  | .kfree pa => Vm.kfree pa
  | .write pa i w => modify (·.setWord pa i w)

def Op.code : List Op → Prog Mem Unit
  | [] => pure ()
  | op :: ops => op.call >>= fun _ => code ops

/-- The list of `m` is the one linked through the free pages, and the allocated pages are the same. -/
structure Client.Agrees (kend : UInt64) (c : Client) (m : Mem) : Prop where
  last : m.kend = kend
  holds : c.Holds kend m.free
  pages : ∀ pg ∈ c.owned, m.page pg = c.k.page pg

section
variable {m : Mem} (h : c.Agrees kend m) (h0 : 0 < kend.toNat) (hend : kend.toNat < PHYSTOP)
include h h0 hend

theorem Client.Agrees.step {op : Op} (hs : c.step kend op = some c') :
    ∃ m', op.call.run m = .done () m' ∧ c'.Agrees kend m' := by
  obtain ⟨rfl, h, hpages⟩ := h
  cases op with
  | kalloc =>
    have hrun := kalloc_run m
    rw [Client.step] at hs
    cases hfree : m.free with
    | nil =>
      rw [hfree] at hrun h
      rw [h.linked.kalloc_nil] at hs
      cases hs
      exact ⟨m, run_bind_of_done hrun, rfl, hfree ▸ h, hpages⟩
    | cons pg l =>
      rw [hfree] at hrun h
      obtain ⟨hr, hne, hl⟩ := h.linked
      rw [h.linked.kalloc_cons] at hs
      dsimp only at hs
      rw [if_neg (hr ▸ hne)] at hs
      cases hs
      rw [hr] at hl
      have hnot : pg ∉ l := (List.nodup_cons.mp h.nodup).1 ∘ List.mem_append_left _
      refine ⟨_, run_bind_of_done hrun, rfl, h.of_perm (hl.update hnot _) List.perm_middle, fun q hq => ?_⟩
      by_cases hqp : q = pg
      · simp [Mem.fill, hqp]
      · simp [Mem.fill, hqp, hpages q (List.mem_of_ne_of_mem hqp hq)]
  | kfree pa =>
    obtain ⟨hpa, hs⟩ := Option.ite_none_right_eq_some.mp hs
    obtain ⟨k, hk, hl⟩ := h.kfree h0 hend hpa
    rw [hk] at hs
    cases hs
    have hperm := List.perm_middle.symm.trans ((List.perm_cons_erase hpa).symm.append_left m.free)
    refine ⟨_, kfree_run ((h.inRam hpa).ram hend.le), rfl, h.of_perm hl hperm, fun q hq => ?_⟩
    have hne : q ≠ pa := (h.nodup.of_append_right.mem_erase_iff.mp hq).1
    obtain ⟨-, ⟨⟩⟩ := Option.ite_none_left_eq_some.mp hk
    simp [Mem.fill, hne, hpages q (List.mem_of_mem_erase hq)]
  | write pa i w =>
    obtain ⟨hpa, hs⟩ := Option.ite_none_right_eq_some.mp hs
    cases hs
    refine ⟨m.setWord pa i w, rfl, rfl, ⟨h.linked.update (h.notMem hpa) _, h.pages⟩, fun q hq => ?_⟩
    by_cases hqp : q = pa
    · simp [Mem.setWord, hqp, hpages pa hpa]
    · simp [Mem.setWord, hqp, hpages q hq]

theorem Client.Agrees.run {ops : List Op} (hs : c.run kend ops = some c') :
    ∃ m', (Op.code ops).run m = .done () m' ∧ c'.Agrees kend m' := by
  induction ops generalizing c m with
  | nil =>
    cases hs
    exact ⟨m, rfl, h⟩
  | cons op ops ih =>
    obtain ⟨c1, h1, hs⟩ := Option.bind_eq_some_iff.mp hs
    obtain ⟨m1, hrun, h⟩ := h.step h0 hend h1
    rw [Op.code, run_bind_of_done hrun]
    exact ih h hs

end

/-- **Two levels of the allocator.** They agree after any calls. -/
theorem allocator_refines (h0 : 0 < kend.toNat) (hend : kend.toNat < PHYSTOP) :
    ∃ k l, Kmem.kinit kend ⟨page, 0⟩ = some k ∧ ∀ ops c, Client.run kend ⟨k, []⟩ ops = some c →
      ∃ m, (Op.code ops).run ⟨k.page, l, kend⟩ = .done () m ∧ c.Agrees kend m := by
  obtain ⟨k, l, hk, h⟩ := exists_kinit h0 hend page
  exact ⟨k, l, hk, fun ops c hs => Client.Agrees.run (c := ⟨k, []⟩) ⟨rfl, h, nofun⟩ h0 hend hs⟩

theorem allocator_refines_last : ∃ k l, Kmem.kinit 0x87ffe001 ⟨fun _ _ => 7, 0⟩ = some k ∧
    ∃ m, (Op.code [.kalloc]).run ⟨k.page, l, 0x87ffe001⟩ = .done () m := by
  obtain ⟨k, l, hk, h⟩ := @allocator_refines (fun _ _ => 7) 0x87ffe001 (by decide) (by decide)
  obtain ⟨m, hm, -⟩ := h [.kalloc] _ rfl
  exact ⟨k, l, hk, m, hm⟩

end Xv6.Kernel
