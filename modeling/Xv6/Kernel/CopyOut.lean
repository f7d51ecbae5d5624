import Xv6.Kernel.Guarantees
import Xv6.Vm.UserCopy

/-!
# Where system calls write user memory

The system calls that copy data out pass the address from the user to `copyout`, which looks for a leaf with `PTE_V` and
`PTE_U`. It asks neither for `PTE_W` nor for an address below the size of the process. So a call writes where the user
could not: to pages that are mapped without `PTE_W`, and to the trap frame, whose page is mapped with `PTE_U`.
-/

namespace Xv6.Kernel

open Data Coop Prog Vm Multiset
open Process (Slot)

/-- A system call that copies data out, with the address from the user. `sys_read` copies piece after piece, the parts
of the blocks of a file or the bytes of a pipe; `sys_wait` copies nothing to the address 0. -/
inductive OutCall
  | read (addr : UInt64) (pieces : List (List UInt8))
  | fstat (addr : UInt64) (st : Fin 24 → UInt8)
  | pipe (addr : UInt64) (fd0 fd1 : Fin 4 → UInt8)
  | wait (addr : UInt64) (xstate : Fin 4 → UInt8)

/-- The pieces of a read, each behind the one before it. -/
def readCopies : UInt64 → List (List UInt8) → List (UInt64 × List UInt8)
  | _, [] => []
  | addr, src :: rest => (addr, src) :: readCopies (addr + UInt64.ofNat src.length) rest

def OutCall.copies : OutCall → List (UInt64 × List UInt8)
  | .read addr pieces => readCopies addr pieces
  | .fstat addr st => [(addr, List.ofFn st)]
  | .pipe addr fd0 fd1 => [(addr, List.ofFn fd0), (addr + 4, List.ofFn fd1)]
  | .wait addr xstate => if addr = 0 then [] else [(addr, List.ofFn xstate)]

/-- The copies of a call; the first one that fails is the last one. -/
def copyouts (pt : UInt64) : List (UInt64 × List UInt8) → Prog Mem Bool
  | [] => pure true
  | (va, src) :: rest => do
    let ok ← copyout pt va src (UInt64.ofNat src.length)
    if ok then copyouts pt rest else pure false

/-- The call may write to the addresses in `D`. -/
def OutCall.Within (D : Set Nat) (c : OutCall) : Prop :=
  ∀ o ∈ c.copies, o.2.length < 2 ^ 64 ∧ ∀ k < o.2.length, o.1.toNat + k ∈ D

/-- The address lies in a page that the user may write to, below the size of the process. -/
def Writable (m : Mem) (x : Space) (a : Nat) : Prop :=
  (∃ e, leaf m x.pagetable (a / 4096) = some e ∧ Has e PTE_U ∧ Has e PTE_W) ∧ a / 4096 < npages x.sz

/-- Every byte that has changed is one that the user could have changed. -/
def Confined (m m' : Mem) (x : Space) : Prop :=
  ∀ pg off, off < 4096 → m'.byte pg off ≠ m.byte pg off →
    ∃ a, userAddr m x.pagetable a = some (pg, off) ∧ Writable m x a

/-! ## What the copies change -/

/-- The memory after the copies: only bytes at their addresses have changed. -/
structure Delivered (m m' : Mem) (pt : UInt64) (l : List (UInt64 × List UInt8)) : Prop where
  tables : Same m m' 2 pt
  changed : ∀ pg off, off < 4096 → m'.byte pg off ≠ m.byte pg off →
    ∃ o ∈ l, ∃ k < o.2.length, userAddr m pt (o.1.toNat + k) = some (pg, off)

variable {m m' m₀ : Mem} {pt : UInt64}

theorem copyouts_run {l : List (UInt64 × List UInt8)} (h : UserTable m pt) (hlen : ∀ o ∈ l, o.2.length < 2 ^ 64) :
    ∃ ok m', (copyouts pt l).run m = .done ok m' ∧ Delivered m m' pt l := by
  induction l generalizing m with
  | nil => exact ⟨true, m, rfl, .of_agree (.refl m _), fun pg off _ hne => absurd rfl hne⟩
  | cons o rest ih =>
    obtain ⟨va, src⟩ := o
    have hsrc : src.length = (UInt64.ofNat src.length).toNat := by
      have hlt := hlen (va, src) (List.mem_cons_self ..)
      rw [UInt64.toNat_ofNat']
      exact (Nat.mod_eq_of_lt hlt).symm
    obtain ⟨ok, m1, hrun, -, w, hw, hwrites, -⟩ := copyout_run h va _ hsrc
    have hhere : ∀ pg off, off < 4096 → m1.byte pg off ≠ m.byte pg off →
        ∃ k < src.length, userAddr m pt (va.toNat + k) = some (pg, off) := by
      intro pg off hoff hne
      by_contra hnone
      refine hne (hwrites.other pg off hoff fun k hk heq => hnone ⟨k, by omega, heq⟩)
    have hgo : (copyouts pt ((va, src) :: rest)).run m =
        (if ok then copyouts pt rest else pure false).run m1 := run_bind_of_done hrun
    rw [hgo]
    cases ok with
    | false =>
      refine ⟨false, m1, rfl, hwrites.tables, fun pg off hoff hne => ?_⟩
      exact ⟨_, List.mem_cons_self .., hhere pg off hoff hne⟩
    | true =>
      obtain ⟨ok', m', hrest, htables, hchanged⟩ := ih (h.same hwrites.tables) fun o ho =>
        hlen o (List.mem_cons_of_mem _ ho)
      have hsame : Same m m' 2 pt :=
        ⟨htables.tabs.trans hwrites.tables.tabs, fun va => (htables.find va).trans (hwrites.tables.find va),
          fun va => (htables.lookup va).trans (hwrites.tables.lookup va), fun hs => htables.shape (hwrites.tables.shape hs)⟩
      refine ⟨ok', m', hrest, hsame, fun pg off hoff hne => ?_⟩
      by_cases hfirst : m1.byte pg off = m.byte pg off
      · rw [← hfirst] at hne
        obtain ⟨o, ho, k, hk, haddr⟩ := hchanged pg off hoff hne
        rw [hwrites.tables.userAddr] at haddr
        exact ⟨o, List.mem_cons_of_mem _ ho, k, hk, haddr⟩
      · exact ⟨_, List.mem_cons_self .., hhere pg off hoff hfirst⟩

/-! ## The tables of a process -/

variable {s : Sys} {p : Slot} {x y : Space} {kt kend trampoline usertrap : UInt64} {kernel all : Multiset UInt64}
  {initcode : Fin 512 → UInt64} {acts : List Act}

section

variable (h : Own kt kernel all s)
include h

/-- The trap frame is not a table. -/
theorem Own.frame_apart (hx : s.space p = some x) : x.trapframe ∉ tabs s.mem 2 x.pagetable := by
  have hnd := (nodup_add.mp (nodup_add.mp (h.pool p).nodup).2.1).1
  rw [held, hx] at hnd
  obtain ⟨-, -, hframe⟩ := nodup_add.mp (nodup_add.mp hnd).1
  exact fun hin => disjoint_left.mp hframe (mem_singleton_self _) (mem_add.mpr (.inl hin))

theorem Own.userTable (hall : 0 ∉ all) (hx : s.space p = some x) : UserTable s.mem x.pagetable := by
  have hfits := (h.slot p).space x hx
  refine ⟨hfits.fits.shape, fun v e he hu => ?_⟩
  have hheld : ∀ pg ∈ held s p, pg ≠ 0 := by
    rintro _ hpg rfl
    refine hall ?_
    rw [← h.pages, total_eq_add_rest (held s) p]
    exact mem_add.mpr (.inl (mem_add.mpr (.inr (mem_add.mpr (.inl hpg)))))
  rcases userLeaf_cases hfits.fits hfits.frame he hu with ⟨-, hspan⟩ | ⟨-, hframe⟩
  · exact ⟨hheld _ ((mem_held hx).2.2 _ hspan), (h.span_apart hx hspan).2⟩
  · rw [hframe]
    exact ⟨hheld _ (mem_held hx).1, h.frame_apart hx⟩

/-- Two addresses of the user lead to different bytes. -/
theorem Own.userAddr_inj (hx : s.space p = some x) {a b : Nat} {q : UInt64 × Nat}
    (ha : userAddr s.mem x.pagetable a = some q) (hb : userAddr s.mem x.pagetable b = some q) : a = b := by
  have hfits := (h.slot p).space x hx
  obtain ⟨e, he, hu, hpg, hoff⟩ := leaf_of_userAddr ha
  obtain ⟨e', he', hu', hpg', hoff'⟩ := leaf_of_userAddr hb
  have hpages : a / 4096 = b / 4096 := by
    rcases userLeaf_cases hfits.fits hfits.frame he hu with ⟨hlt, hspan⟩ | ⟨hv, hframe⟩
    · rcases userLeaf_cases hfits.fits hfits.frame he' hu' with ⟨hlt', -⟩ | ⟨-, hframe'⟩
      · have hnd := (nodup_add.mp (nodup_add.mp (h.pool p).nodup).2.1).1
        rw [held, hx] at hnd
        obtain ⟨-, himg, -⟩ := nodup_add.mp (nodup_add.mp hnd).1
        exact span_inj (nodup_add.mp himg).2.1 (Finset.mem_Ico.mpr ⟨Nat.zero_le _, hlt'⟩)
          (Finset.mem_Ico.mpr ⟨Nat.zero_le _, hlt⟩) he' he (hpg.trans hpg'.symm)
      · exact absurd ((hpg.trans hpg'.symm).trans hframe') (h.span_apart hx hspan).1
    · rcases userLeaf_cases hfits.fits hfits.frame he' hu' with ⟨-, hspan'⟩ | ⟨hv', -⟩
      · exact absurd ((hpg'.trans hpg.symm).trans hframe) (h.span_apart hx hspan').1
      · exact hv.trans hv'.symm
  omega

/-- The page of the trap frame is not below the size of the process. -/
theorem Own.not_writable_frame (hx : s.space p = some x) {a off : Nat}
    (ha : userAddr s.mem x.pagetable a = some (x.trapframe, off)) : ¬ Writable s.mem x a := by
  rintro ⟨-, hbelow⟩
  have hfits := (h.slot p).space x hx
  obtain ⟨e, he, hu, hpg, -⟩ := leaf_of_userAddr ha
  rcases userLeaf_cases hfits.fits hfits.frame he hu with ⟨-, hspan⟩ | ⟨hv, -⟩
  · exact (h.span_apart hx hspan).1 hpg
  · have hbound := hfits.fits.bound
    omega

end

/-! ## Where the calls write -/

theorem Own.copies_confined_iff (h : Own kt kernel all s) (hall : 0 ∉ all) (hy : s.space p = some y) (D : Set Nat) :
    (∀ c : OutCall, c.Within D → ∃ ok m', (copyouts y.pagetable c.copies).run s.mem = .done ok m' ∧
      Confined s.mem m' y) ↔ ∀ a ∈ D, UserMapped s.mem y.pagetable a → Writable s.mem y a := by
  have htable := h.userTable hall hy
  constructor
  · intro hcalls a ha hmapped
    obtain ⟨⟨pg, off⟩, haddr⟩ := Option.ne_none_iff_exists'.mp hmapped
    obtain ⟨-, -, hoff⟩ := htable.userAddr haddr
    have hlt : a < 2 ^ 64 := by
      obtain ⟨e, he, -⟩ := Option.bind_eq_some_iff.mp haddr
      rw [leaf] at he
      obtain ⟨hv, -⟩ := Option.ite_none_right_eq_some.mp he
      omega
    have hva : (UInt64.ofNat a).toNat = a := by
      rw [UInt64.toNat_ofNat']
      exact Nat.mod_eq_of_lt hlt
    -- a byte that is not there yet
    let x : UInt8 := s.mem.byte pg off + 1
    obtain ⟨ok, m', hrun, hconf⟩ := hcalls (.read (UInt64.ofNat a) [[x]]) fun o ho => by
      obtain rfl := List.mem_singleton.mp ho
      refine ⟨show 1 < 2 ^ 64 by decide, fun k hk => ?_⟩
      obtain rfl : k = 0 := Nat.lt_one_iff.mp hk
      rw [hva]
      exact ha
    obtain ⟨ok1, m1, hrun1, hok, w, hw, hwrites, hfull⟩ := copyout_run htable (UInt64.ofNat a) 1 (rfl : [x].length = _)
    have hall1 : ok1 = true := hok.mpr fun k hk => by
      obtain rfl : k = 0 := Nat.lt_one_iff.mp hk
      rw [hva]
      exact hmapped
    obtain rfl : w = 1 := hfull hall1
    have hbyte := hwrites.bytes 0 Nat.zero_lt_one pg off (by rw [hva]; exact haddr) fun j h0 h1 => absurd h0 (by omega)
    have hm' : m1 = m' := by
      have hgo : (copyouts y.pagetable [(UInt64.ofNat a, [x])]).run s.mem =
          (if ok1 then copyouts y.pagetable [] else pure false).run m1 := run_bind_of_done hrun1
      have hrun' : (copyouts y.pagetable [(UInt64.ofNat a, [x])]).run s.mem = .done ok m' := hrun
      rw [hgo, hall1] at hrun'
      cases hrun'
      rfl
    have hne : m'.byte pg off ≠ s.mem.byte pg off := by
      rw [← hm', ← Option.some.inj hbyte]
      show s.mem.byte pg off + 1 ≠ s.mem.byte pg off
      generalize s.mem.byte pg off = old
      exact fun heq => absurd (UInt8.add_eq_left.mp heq) (by decide)
    obtain ⟨b, hb, hwritable⟩ := hconf pg off (by rw [show off = a % 4096 from hoff]; exact Nat.mod_lt _ (by decide)) hne
    rw [h.userAddr_inj hy haddr hb]
    exact hwritable
  · intro hD c hc
    obtain ⟨ok, m', hrun, hcopied⟩ := copyouts_run htable fun o ho => (hc o ho).1
    refine ⟨ok, m', hrun, fun pg off hoff hne => ?_⟩
    obtain ⟨o, ho, k, hk, haddr⟩ := hcopied.changed pg off hoff hne
    refine ⟨_, haddr, hD _ ((hc o ho).2 k hk) ?_⟩
    rw [UserMapped, haddr]
    exact Option.some_ne_none _

end Xv6.Kernel
