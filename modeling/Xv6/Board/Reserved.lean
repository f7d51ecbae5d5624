import Xv6.Data.Checked
import Xv6.Vm.Pte

/-!
# Reserved memory on the board

The memory setup of `parse_visionfive2`. The properties of the device tree are lists of cells, as libfdt returns them.
The memory that the kernel uses, from `KERNBASE` up to `ram_end`, ends below every reserved range that is looked at and
begins behind the kernel. Two kinds of reserved ranges are not kept free: those that `node_reg` does not look at, which
are all but the first in a `reg` property, and those that end inside of the kernel image.
-/

namespace Xv6.Board

open Data Vm

abbrev KERNBASE : UInt64 := 0x40200000

/-! ## The device tree -/

/-- The number of cells of an address and of a size below a node. -/
structure Cells where
  address : Option (List UInt32)
  size : Option (List UInt32)

/-- A child of `/reserved-memory`. -/
structure Region where
  reg : Option (List UInt32)
  size : Option (List UInt32)
  allocRanges : Option (List UInt32)

structure Fdt where
  memoryCells : Cells
  memory : Option (List UInt32)
  rsv : List (UInt64 × UInt64)
  reservedCells : Cells
  reserved : List Region

def readCells (cells : List UInt32) (count : Nat) : Except String UInt64 :=
  if count < 1 ∨ 2 < count then .error "platform: unsupported DT cell count"
  else .ok ((cells.take count).foldl (fun value c => (value <<< 32) ||| c.toUInt64) 0)

/-- The first cell of a property, or the default. -/
def cellsOr (prop : Option (List UInt32)) (default : Nat) : Nat :=
  match prop with
  | some (c :: _) => c.toNat
  | _ => default

def Cells.ac (c : Cells) : Nat := cellsOr c.address 2

def Cells.sc (c : Cells) : Nat := cellsOr c.size 1

/-- The result is the address with the size. -/
def nodeReg (c : Cells) (reg : Option (List UInt32)) : Except String (UInt64 × UInt64) :=
  match reg with
  | none => .error "platform: invalid DT reg"
  | some reg =>
    if c.ac < 1 ∨ 2 < c.ac ∨ c.sc < 1 ∨ 2 < c.sc ∨ reg.length < c.ac + c.sc then .error "platform: invalid DT reg"
    else do
      let size ← readCells (reg.drop c.ac) c.sc
      let start ← readCells reg c.ac
      pure (start, size)

/-! ## The memory setup -/

/-- `kernelEnd` is `PGROUNDUP(end)`; the result is `active.ram_end`. -/
def reserveRange (kernelEnd ramEnd : UInt64) (r : UInt64 × UInt64) : Except String UInt64 :=
  if r.2 = 0 ∨ r.1 + r.2 < r.1 then .error "platform: invalid reserved-memory range"
  else if r.1 ≤ kernelEnd ∧ kernelEnd < r.1 + r.2 then .error "platform: kernel overlaps reserved memory"
  else if kernelEnd < r.1 ∧ r.1 < ramEnd then .ok (PGROUNDDOWN r.1)
  else .ok ramEnd

/-- The range of a child of `/reserved-memory`. -/
def Region.range (c : Cells) (n : Region) : Except String (UInt64 × UInt64) :=
  match n.reg with
  | some reg => nodeReg c (some reg)
  | none =>
    match n.size, n.allocRanges with
    | some size, some ranges =>
      if size.length ≠ 2 ∨ ranges.length < 4 then .error "platform: unsupported dynamic reserved-memory node"
      else do
        let start ← readCells ranges 2
        let size ← readCells size 2
        pure (start, size)
    | _, _ => .error "platform: unsupported dynamic reserved-memory node"

def parseReservedMemory (kernelEnd : UInt64) (c : Cells) (nodes : List Region) (ramEnd : UInt64) : Except String UInt64 :=
  nodes.foldlM (fun ramEnd n => do reserveRange kernelEnd ramEnd (← n.range c)) ramEnd

/-- The bound of 128 MiB from the beginning of the memory. -/
def capped (ramBase ramEnd : UInt64) : UInt64 :=
  if ramBase + 128 * 1024 * 1024 < ramEnd then ramBase + 128 * 1024 * 1024 else ramEnd

/-- The part of `parse_visionfive2` that finds `ram_base` and `ram_end`. `kend` is the address of `end`. -/
def memorySetup (kend : UInt64) (t : Fdt) : Except String (UInt64 × UInt64) := do
  let m ← nodeReg t.memoryCells t.memory
  if m.1 + m.2 < m.1 ∨ m.1 + m.2 ≤ kend then .error "platform: invalid RAM range"
  else do
    let ramEnd ← t.rsv.foldlM (reserveRange (PGROUNDUP kend)) (m.1 + m.2)
    let ramEnd ← parseReservedMemory (PGROUNDUP kend) t.reservedCells t.reserved ramEnd
    if capped m.1 ramEnd ≤ PGROUNDUP kend then .error "platform: no allocatable RAM after reservations"
    else pure (m.1, capped m.1 ramEnd)

/-! ## What is reserved -/

/-- The tuples of a `reg` property. -/
def Cells.tuples (c : Cells) : Nat → List UInt32 → List (UInt64 × UInt64)
  | 0, _ => []
  | k + 1, reg =>
    match nodeReg c (some reg) with
    | .ok r => r :: c.tuples k (reg.drop (c.ac + c.sc))
    | .error _ => []

def Region.tuples (c : Cells) (n : Region) : List (UInt64 × UInt64) := c.tuples (n.reg.getD []).length (n.reg.getD [])

/-- The range meets the memory from `lo` up to `hi`. -/
def Meets (r : UInt64 × UInt64) (lo hi : UInt64) : Prop :=
  r.2 ≠ 0 ∧ r.1.toNat < hi.toNat ∧ lo.toNat < r.1.toNat + r.2.toNat

instance (r : UInt64 × UInt64) (lo hi : UInt64) : Decidable (Meets r lo hi) := inferInstanceAs (Decidable (_ ∧ _ ∧ _))

/-- The reserved ranges of the tree: the reservation map and the tuples of the `reg` properties. -/
def Fdt.declared (t : Fdt) : List (UInt64 × UInt64) := t.rsv ++ t.reserved.flatMap (Region.tuples t.reservedCells)

/-- The ranges that are looked at. -/
def Fdt.first (t : Fdt) : List (UInt64 × UInt64) :=
  t.rsv ++ t.reserved.flatMap fun n => (n.tuples t.reservedCells).take 1

def Fdt.others (t : Fdt) : List (UInt64 × UInt64) :=
  t.reserved.flatMap fun n => (n.tuples t.reservedCells).drop 1

theorem Fdt.mem_declared {t : Fdt} {r : UInt64 × UInt64} : r ∈ t.declared ↔ r ∈ t.first ∨ r ∈ t.others := by
  have hsplit : ∀ n : Region, r ∈ n.tuples t.reservedCells ↔
      r ∈ (n.tuples t.reservedCells).take 1 ∨ r ∈ (n.tuples t.reservedCells).drop 1 := by
    intro n
    rw [← List.mem_append, List.take_append_drop]
  simp only [declared, first, others, List.mem_append, List.mem_flatMap, hsplit, and_or_left, exists_or, or_assoc]

/-! ## The ranges that are looked at -/

section Setup

variable {kernelEnd ramEnd ramEnd' : UInt64} {r : UInt64 × UInt64}

/-- The range is not empty, does not hold the end of the kernel, and begins at the end of the memory or above when it
begins behind the kernel. -/
structure Cleared (kernelEnd ramEnd : UInt64) (r : UInt64 × UInt64) : Prop where
  pos : r.2 ≠ 0
  nowrap : r.1.toNat + r.2.toNat < 2 ^ 64
  apart : ¬ (r.1.toNat ≤ kernelEnd.toNat ∧ kernelEnd.toNat < r.1.toNat + r.2.toNat)
  above : kernelEnd.toNat < r.1.toNat → ramEnd.toNat ≤ r.1.toNat

theorem Cleared.mono (h : Cleared kernelEnd ramEnd r) (hle : ramEnd'.toNat ≤ ramEnd.toNat) : Cleared kernelEnd ramEnd' r :=
  { h with above := fun hr => hle.trans (h.above hr) }

theorem reserveRange_cleared (h : reserveRange kernelEnd ramEnd r = .ok ramEnd') :
    ramEnd'.toNat ≤ ramEnd.toNat ∧ Cleared kernelEnd ramEnd' r := by
  unfold reserveRange at h
  split at h
  · cases h
  rename_i hvalid
  obtain ⟨hpos, hwrap⟩ := not_or.mp hvalid
  have hsum : (r.1 + r.2).toNat = (r.1.toNat + r.2.toNat) % 2 ^ 64 := UInt64.toNat_add r.1 r.2
  have h1 := r.1.toNat_lt
  have h2 := r.2.toNat_lt
  rw [UInt64.not_lt, UInt64.le_iff_toNat_le, hsum] at hwrap
  have hpos' : r.2.toNat ≠ 0 := fun h0 => hpos (UInt64.toNat_inj.mp h0)
  have hnowrap : r.1.toNat + r.2.toNat < 2 ^ 64 := by omega
  split at h
  · cases h
  rename_i hapart
  rw [UInt64.le_iff_toNat_le, UInt64.lt_iff_toNat_lt, hsum, Nat.mod_eq_of_lt hnowrap] at hapart
  split at h
  · rename_i hin
    obtain rfl := Except.ok.inj h
    rw [UInt64.lt_iff_toNat_lt, UInt64.lt_iff_toNat_lt] at hin
    have hdown : (PGROUNDDOWN r.1).toNat ≤ r.1.toNat := by
      rw [toNat_PGROUNDDOWN]
      omega
    exact ⟨hdown.trans hin.2.le, hpos, hnowrap, hapart, fun _ => hdown⟩
  · rename_i hout
    obtain rfl := Except.ok.inj h
    rw [UInt64.lt_iff_toNat_lt, UInt64.lt_iff_toNat_lt] at hout
    exact ⟨Nat.le_refl _, hpos, hnowrap, hapart, fun hr => by omega⟩

/-- A loop that reserves one range in each round. -/
theorem foldlM_cleared {α : Type} {body : UInt64 → α → Except String UInt64} {g : α → List (UInt64 × UInt64)}
    (hbody : ∀ ramEnd a ramEnd', body ramEnd a = .ok ramEnd' →
      ramEnd'.toNat ≤ ramEnd.toNat ∧ ∀ r ∈ g a, Cleared kernelEnd ramEnd' r) {l : List α}
    (h : l.foldlM body ramEnd = .ok ramEnd') :
    ramEnd'.toNat ≤ ramEnd.toNat ∧ ∀ r ∈ l.flatMap g, Cleared kernelEnd ramEnd' r := by
  induction l generalizing ramEnd with
  | nil =>
    cases h
    exact ⟨Nat.le_refl _, nofun⟩
  | cons a l ih =>
    obtain ⟨ramEnd1, hfirst, h⟩ := exists_of_bind_eq_ok h
    obtain ⟨hle, hcleared⟩ := hbody _ _ _ hfirst
    obtain ⟨hle', hrest⟩ := ih h
    refine ⟨hle'.trans hle, fun r hr => ?_⟩
    rcases List.mem_append.mp (List.flatMap_cons ▸ hr) with hr | hr
    · exact (hcleared r hr).mono hle'
    · exact hrest r hr

/-- `node_reg` looks at the first tuple. -/
theorem eq_of_mem_take {c : Cells} {n : Region} {q : UInt64 × UInt64} (h : n.range c = .ok r)
    (hq : q ∈ (n.tuples c).take 1) : q = r := by
  unfold Region.range at h
  unfold Region.tuples at hq
  cases hreg : n.reg with
  | none =>
    rw [hreg] at hq
    cases hq
  | some reg =>
    rw [hreg] at h hq
    simp only [] at h
    rw [Option.getD_some] at hq
    cases hlen : reg.length with
    | zero =>
      rw [hlen] at hq
      cases hq
    | succ k =>
      rw [hlen, Cells.tuples, h] at hq
      exact List.mem_singleton.mp hq

theorem parseReservedMemory_cleared {c : Cells} {nodes : List Region}
    (h : parseReservedMemory kernelEnd c nodes ramEnd = .ok ramEnd') : ramEnd'.toNat ≤ ramEnd.toNat ∧
      ∀ r ∈ nodes.flatMap (fun n => (n.tuples c).take 1), Cleared kernelEnd ramEnd' r := by
  refine foldlM_cleared (fun ramEnd n ramEnd' hbody => ?_) h
  obtain ⟨r, hrange, hbody⟩ := exists_of_bind_eq_ok hbody
  obtain ⟨hle, hcleared⟩ := reserveRange_cleared hbody
  refine ⟨hle, fun q hq => ?_⟩
  rw [eq_of_mem_take hrange hq]
  exact hcleared

theorem capped_le (ramBase ramEnd : UInt64) : (capped ramBase ramEnd).toNat ≤ ramEnd.toNat := by
  unfold capped
  split
  · rename_i hlt
    exact (UInt64.lt_iff_toNat_lt.mp hlt).le
  · exact Nat.le_refl _

/-- The setup has looked at the first tuples, and some memory is left behind the kernel. -/
theorem memorySetup_cleared {kend ramBase : UInt64} {t : Fdt} (h : memorySetup kend t = .ok (ramBase, ramEnd)) :
    (PGROUNDUP kend).toNat < ramEnd.toNat ∧ ∀ r ∈ t.first, Cleared (PGROUNDUP kend) ramEnd r := by
  unfold memorySetup at h
  obtain ⟨m, hreg, h⟩ := exists_of_bind_eq_ok h
  split at h
  · cases h
  obtain ⟨ramEnd1, hrsv, h⟩ := exists_of_bind_eq_ok h
  obtain ⟨ramEnd2, hparse, h⟩ := exists_of_bind_eq_ok h
  split at h
  · cases h
  rename_i hroom
  obtain ⟨-, hend⟩ := Prod.mk.inj (Except.ok.inj h)
  have hcap : ramEnd.toNat ≤ ramEnd2.toNat := hend ▸ capped_le m.1 ramEnd2
  have hfirst : ∀ r ∈ t.rsv, Cleared (PGROUNDUP kend) ramEnd1 r := by
    have hloop := (foldlM_cleared (g := fun r => [r]) (fun _ _ _ hbody =>
      (reserveRange_cleared hbody).imp id fun hc r hr => List.mem_singleton.mp hr ▸ hc) hrsv).2
    rwa [List.flatMap_singleton'] at hloop
  obtain ⟨hle, hnodes⟩ := parseReservedMemory_cleared hparse
  rw [hend, UInt64.not_le, UInt64.lt_iff_toNat_lt] at hroom
  refine ⟨hroom, fun r hr => ?_⟩
  rcases List.mem_append.mp hr with hr | hr
  · exact (hfirst r hr).mono (hcap.trans hle)
  · exact (hnodes r hr).mono hcap

end Setup

/-- A board with 4 GiB of memory and one child of `/reserved-memory`. -/
def board (reg : List UInt32) : Fdt where
  memoryCells := ⟨some [2], some [2]⟩
  memory := some [0, 0x40000000, 1, 0]
  rsv := []
  reservedCells := ⟨some [2], some [2]⟩
  reserved := [⟨some reg, none, none⟩]

end Xv6.Board
