import Xv6.Coop.Sequential
import Xv6.Vm.Pte

/-!
# Physical pages and page tables

`kernel/kalloc.c` and `kernel/vm.c` over the physical memory, page by page: a page is addressed by its
base address and holds 512 double words. None of these functions sleeps. The free list is the list of
its pages; that it is linked through the pages themselves is left out, since a free page is poisoned
and never read.
-/

namespace Xv6.Vm

open Coop Prog Function

/-- `kend` is the linker symbol `end`. -/
structure Mem where
  page : UInt64 → Fin 512 → UInt64
  free : List UInt64
  kend : UInt64

namespace Mem

def setWord (m : Mem) (pt : UInt64) (i : Fin 512) (w : UInt64) : Mem :=
  { m with page := update m.page pt (update (m.page pt) i w) }

/-- `memset` of a whole page. -/
def fill (m : Mem) (pg w : UInt64) : Mem :=
  { m with page := update m.page pg fun _ => w }

/-- `memmove` of a whole page. -/
def copyPage (m : Mem) (dst src : UInt64) : Mem :=
  { m with page := update m.page dst (m.page src) }

end Mem

/-! ## The allocator -/

def poison : UInt64 := 0x5a5a5a5a5a5a5a5a

def kalloc : Prog Mem (Option UInt64) :=
  step fun m =>
    match m.free with
    | [] => .ok (none, m)
    | pg :: rest => .ok (some pg, { m with free := rest }.fill pg 0)

def kfree (pa : UInt64) : Prog Mem Unit :=
  step fun m =>
    if pa.toNat % PGSIZE ≠ 0 ∨ pa < m.kend ∨ PHYSTOP ≤ pa.toNat then .error "kfree"
    else .ok ((), { m.fill pa poison with free := pa :: m.free })

/-! ## Walking and mapping -/

/-- The loop of `walk` from a table of the given level. The result is the place of the entry. -/
def walkFrom (va : UInt64) (alloc : Bool) : Nat → UInt64 → Prog Mem (Option (UInt64 × Fin 512))
  | 0, pt => pure (some (pt, PX 0 va))
  | l + 1, pt => do
    let pte ← gets fun m => m.page pt (PX (l + 1) va)
    if Has pte PTE_V then walkFrom va alloc l (PTE2PA pte)
    else if alloc then
      match ← kalloc with
      | none => pure none
      | some pg => do
        modify (·.fill pg 0)
        modify (·.setWord pt (PX (l + 1) va) (PA2PTE pg ||| PTE_V))
        walkFrom va alloc l pg
    else pure none

def walk (pt va : UInt64) (alloc : Bool) : Prog Mem (Option (UInt64 × Fin 512)) :=
  if MAXVA ≤ va.toNat then Prog.panic "walk" else walkFrom va alloc 2 pt

/-- The page behind a user address, or 0. -/
def walkaddr (pt va : UInt64) : Prog Mem UInt64 :=
  if MAXVA ≤ va.toNat then pure 0
  else do
    match ← walk pt va false with
    | none => pure 0
    | some (t, i) =>
      let pte ← gets fun m => m.page t i
      if ¬ Has pte PTE_V then pure 0 else if ¬ Has pte PTE_U then pure 0 else pure (PTE2PA pte)

/-- One round of the loop of `mappages`. -/
def mapPage (pt perm a pa : UInt64) : Prog Mem Bool := do
  match ← walk pt a true with
  | none => pure false
  | some (t, i) =>
    let pte ← gets fun m => m.page t i
    if Has pte PTE_V then Prog.panic "mappages: remap"
    else do
      modify (·.setWord t i (PA2PTE pa ||| perm ||| PTE_V))
      pure true

/-- The loop of `mappages` with `n` pages left after this one. -/
def mapLoop (pt perm : UInt64) : Nat → UInt64 → UInt64 → Prog Mem Bool
  | 0, a, pa => mapPage pt perm a pa
  | n + 1, a, pa => do
    let ok ← mapPage pt perm a pa
    if ok then mapLoop pt perm n (a + 4096) (pa + 4096) else pure false

/-- `true` stands for the result 0. The loop ends when it reaches the last page, so it makes as many
rounds as there are pages from the first to the last one, modulo `2 ^ 64`. -/
def mappages (pt va size pa perm : UInt64) : Prog Mem Bool :=
  if size = 0 then Prog.panic "mappages: size"
  else
    let a := PGROUNDDOWN va
    let last := PGROUNDDOWN (va + size - 1)
    mapLoop pt perm ((last - a).toNat / PGSIZE) a pa

/-- `uvmmap`, and with another message `kvmmap`. -/
def uvmmap (pt va pa size perm : UInt64) : Prog Mem Unit := do
  let ok ← mappages pt va size pa perm
  if ok then pure () else Prog.panic "uvmmap"

def uvmcreate : Prog Mem (Option UInt64) := do
  match ← kalloc with
  | none => pure none
  | some pg => do
    modify (·.fill pg 0)
    pure (some pg)

/-! ## Unmapping and freeing -/

/-- One round of `uvmunmap`. -/
def unmapPage (pt a : UInt64) (doFree : Bool) : Prog Mem Unit := do
  match ← walk pt a false with
  | none => pure ()
  | some (t, i) =>
    let pte ← gets fun m => m.page t i
    if ¬ Has pte PTE_V then pure ()
    else if ¬ Has pte (PTE_R ||| PTE_W ||| PTE_X) then Prog.panic "uvmunmap: not leaf"
    else do
      if doFree then kfree (PTE2PA pte) else pure ()
      modify (·.setWord t i 0)

def uvmunmap (pt va npages : UInt64) (doFree : Bool) : Prog Mem Unit :=
  if va.toNat % PGSIZE ≠ 0 ∨ MAXVA ≤ va.toNat ∨ (MAXVA - va.toNat) / PGSIZE < npages.toNat then
    Prog.panic "uvmunmap"
  else loop (fun i => unmapPage pt (va + 4096 * UInt64.ofNat i) doFree) 0 npages.toNat

/-- `freewalk` for a table with at most the given number of levels; the recursion of the source has no
bound. -/
def freewalk : Nat → UInt64 → Prog Mem Unit
  | 0, _ => Prog.panic "freewalk: depth"
  | d + 1, pt => do
    loop (fun i => do
      let pte ← gets fun m => m.page pt (Fin.ofNat 512 i)
      if Has pte PTE_V ∧ ¬ Has pte (PTE_R ||| PTE_W ||| PTE_X) then do
        freewalk d (PTE2PA pte)
        modify (·.setWord pt (Fin.ofNat 512 i) 0)
      else if Has pte PTE_V then Prog.panic "freewalk: leaf"
      else pure ()) 0 512
    kfree pt

def uvmfree (pt sz : UInt64) : Prog Mem Unit := do
  if 0 < sz then uvmunmap pt 0 (PGROUNDUP sz / 4096) true else pure ()
  freewalk 3 pt

/-! ## User memory -/

/-- The loop of `uvmalloc`, with `n` pages left; `start` is the rounded old size. -/
def allocLoop (pt start newsz xperm : UInt64) : Nat → UInt64 → Prog Mem UInt64
  | 0, _ => pure newsz
  | n + 1, a => do
    match ← kalloc with
    | none => do
      uvmunmap pt start ((a - start) / 4096) true
      pure 0
    | some mem => do
      let ok ← mappages pt a 4096 mem (PTE_R ||| PTE_U ||| xperm)
      if ok then allocLoop pt start newsz xperm n (a + 4096)
      else do
        kfree mem
        uvmunmap pt start ((a - start) / 4096) true
        pure 0

/-- The number of pages from the address `a`, which is a multiple of the page size, up to `b`. -/
def pagesTo (a b : UInt64) : Nat := (b.toNat - a.toNat + (PGSIZE - 1)) / PGSIZE

def uvmalloc (pt oldsz newsz xperm : UInt64) : Prog Mem UInt64 :=
  if newsz < oldsz ∨ MAXVA ≤ newsz.toNat then pure oldsz
  else
    let start := PGROUNDUP oldsz
    allocLoop pt start newsz xperm (pagesTo start newsz) start

/-- The loop of `uvmcopy` with `n` pages left. -/
def copyLoop (old new : UInt64) : Nat → UInt64 → Prog Mem Bool
  | 0, _ => pure true
  | n + 1, i => do
    match ← walk old i false with
    | none => copyLoop old new n (i + 4096)
    | some (t, j) =>
      let pte ← gets fun m => m.page t j
      if ¬ Has pte PTE_V then copyLoop old new n (i + 4096)
      else if ¬ Has pte (PTE_R ||| PTE_W ||| PTE_X) then Prog.panic "uvmcopy: not leaf"
      else
        match ← kalloc with
        | none => do
          uvmunmap new 0 (i / 4096) true
          pure false
        | some mem => do
          modify (·.copyPage mem (PTE2PA pte))
          let ok ← mappages new i 4096 mem (PTE_FLAGS pte)
          if ok then copyLoop old new n (i + 4096)
          else do
            kfree mem
            uvmunmap new 0 (i / 4096) true
            pure false

/-- `true` stands for the result 0. -/
def uvmcopy (old new sz : UInt64) : Prog Mem Bool := copyLoop old new (pagesTo 0 sz) 0

/-- The first user program is given as the words of one page. -/
def uvmfirst (pt : UInt64) (src : Fin 512 → UInt64) : Prog Mem Bool := do
  match ← kalloc with
  | none => pure false
  | some mem => do
    modify fun m => { m with page := update m.page mem src }
    let ok ← mappages pt 0 4096 mem (PTE_W ||| PTE_X ||| PTE_R ||| PTE_U)
    if ok then pure true
    else do
      kfree mem
      pure false

end Xv6.Vm
