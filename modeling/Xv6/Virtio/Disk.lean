import Mathlib.Algebra.Ring.Nat
import Mathlib.Data.Fintype.Basic
import Mathlib.Logic.Function.Basic

/-!
# The disk driver and its device

`kernel/virtio_disk.c` together with the device. The driver runs under `disk_lock`, so what a call does
between two points where it may sleep is one step. A device step takes a chain from the available ring,
or completes a chain it has taken: it makes the transfer, writes the status byte 0 and puts the head into
the used ring. An interrupt may come at any later time, and a waiter may look at its status at any time.

What is recorded about the past (`request`, `taken`, `slots` and the like) is not read by the driver.
-/

namespace Xv6.Virtio

open Function

abbrev NUM : Nat := 8

instance neZero_NUM : NeZero NUM := ⟨by decide⟩

/-! ## The queue -/

/-- What a descriptor points to: nothing, the header on the stack of a request, a block of data, or the
status byte of an entry of `disk.info`. -/
inductive Ptr
  | null
  | hdr (k : Nat)
  | data (a : UInt64)
  | status (i : Fin NUM)
  deriving DecidableEq

/-- `struct VRingDesc`. -/
structure Desc where
  addr : Ptr
  len : UInt32
  flags : UInt16
  next : Fin NUM
  deriving DecidableEq

def F_NEXT : UInt16 := 1
def F_WRITE : UInt16 := 2

/-- `struct virtio_blk_outhdr`. -/
structure Hdr where
  type : UInt32
  reserved : UInt32
  sector : UInt64
  deriving DecidableEq

def T_IN : UInt32 := 0
def T_OUT : UInt32 := 1

/-- `struct virtio_blk_info`. -/
structure Info where
  data : UInt64
  status : UInt8

/-- `struct disk` without the used ring. `avail k` is the word `disk.avail[k]`: word 1 is the index and
the words from 2 on are the ring. What a write behind the ring hits is kept apart from everything else. -/
structure Disk where
  desc : Fin NUM → Desc
  avail : Nat → UInt16
  free : Fin NUM → Bool
  info : Fin NUM → Info
  usedIdx : UInt16

/-- The used ring, which the device writes. -/
structure Used where
  idx : UInt16
  elems : Fin NUM → UInt32

/-! ## Descriptors -/

namespace Disk

def freeDesc (d : Disk) (i : Nat) : Except String Disk :=
  if h : i < NUM then
    if d.free ⟨i, h⟩ then .error "free_desc 2"
    else
      .ok
        { d with
          desc := update d.desc ⟨i, h⟩ { d.desc ⟨i, h⟩ with addr := .null }
          free := update d.free ⟨i, h⟩ true }
  else .error "free_desc 1"

def allocDesc (d : Disk) : Option (Fin NUM × Disk) :=
  match (List.finRange NUM).find? d.free with
  | none => none
  | some i => some (i, { d with free := update d.free i false })

/-- Each round frees a descriptor that was in use, so `NUM + 1` rounds are enough. -/
def freeChain : Nat → Disk → Fin NUM → Except String Disk
  | 0, d, _ => .ok d
  | n + 1, d, i => do
    let x := d.desc i
    let d ← d.freeDesc i
    if x.flags &&& F_NEXT ≠ 0 then freeChain n d x.next else .ok d

def alloc3Desc (d : Disk) : Except String (Option (Fin NUM × Fin NUM × Fin NUM) × Disk) :=
  match d.allocDesc with
  | none => .ok (none, d)
  | some (a, d) =>
    match d.allocDesc with
    | none => do
      let d ← d.freeDesc a
      .ok (none, d)
    | some (b, d) =>
      match d.allocDesc with
      | none => do
        let d ← d.freeDesc a
        let d ← d.freeDesc b
        .ok (none, d)
      | some (c, d) => .ok (some (a, b, c), d)

/-- The chain of the `k`-th request is written and its head published. -/
def publish (d : Disk) (k : Nat) (a b c : Fin NUM) (data : UInt64) (write : Bool) : Disk :=
  let d0 : Desc := ⟨.hdr k, 16, F_NEXT, b⟩
  let d1 : Desc := ⟨.data data, 1024, (if write then 0 else F_WRITE) ||| F_NEXT, c⟩
  let d2 : Desc := ⟨.status a, 1, F_WRITE, 0⟩
  { d with
    desc := update (update (update d.desc a d0) b d1) c d2
    info := update d.info a ⟨data, 0xff⟩
    avail := update (update d.avail (2 + (d.avail 1).toNat) (UInt16.ofNat a)) 1
      (d.avail 1 + 1) }

/-- The loop of `virtio_disk_intr` with `n` elements left. -/
def intrLoop (used : Used) : Nat → UInt32 → Disk → Except String Disk
  | 0, _, d => .ok d
  | n + 1, i, d =>
    let id := used.elems (Fin.ofNat NUM (d.usedIdx.toUInt32 + i).toNat)
    if h : id.toNat < NUM then
      if (d.info ⟨id.toNat, h⟩).status ≠ 0xff then .error "virtio_disk_intr: status"
      else
        intrLoop used n (i + 1)
          { d with info := update d.info ⟨id.toNat, h⟩ { d.info ⟨id.toNat, h⟩ with status := 0 } }
    else .error "virtio_disk_intr: used id"

/-- The number of elements is a difference of 32-bit numbers. -/
def intr (d : Disk) (used : Used) : Except String Disk := do
  let d ← d.intrLoop used (used.idx.toUInt32 - d.usedIdx.toUInt32).toNat 0
  .ok { d with usedIdx := used.idx }

end Disk

/-! ## Driver and device -/

structure Chain where
  head : Fin NUM
  hdr : Hdr
  d0 : Desc
  d1 : Desc
  d2 : Desc
  deriving DecidableEq

/-- `hdrs k` is the header on the stack of the `k`-th request, `request k` its chain as it was published
and `returned k` whether its call has returned. The device has taken the chains `taken j` for `j < takes`
and completed those with `finished j`. `slots` are the slots of the ring that the driver has written. -/
structure Sys where
  disk : Disk
  used : Used
  hdrs : Nat → Hdr
  submitted : Nat
  request : Nat → Chain
  returned : Nat → Bool
  takes : Nat
  taken : Nat → Chain
  finished : Nat → Bool
  slots : List Nat
  halted : Option String

namespace Sys

/-- The chain at a head, as the descriptors are now. -/
def chainAt (s : Sys) (h : Fin NUM) : Chain :=
  let d0 := s.disk.desc h
  let d1 := s.disk.desc d0.next
  ⟨h, (match d0.addr with
    | .hdr k => s.hdrs k
    | _ => ⟨0, 0, 0⟩), d0, d1, s.disk.desc d1.next⟩

/-- The machine stops when a step panics. -/
def put (s : Sys) : Except String Disk → Sys
  | .ok d => { s with disk := d }
  | .error m => { s with halted := some m }

/-- The part of `virtio_disk_rw` from the allocation of the descriptors, which leaves `d`, to the wait. -/
def submit (s : Sys) (d : Disk) (a b c : Fin NUM) (blockno data : UInt64) (write : Bool) : Sys :=
  let s : Sys :=
    { s with
      hdrs := update s.hdrs s.submitted ⟨if write then T_OUT else T_IN, 0, blockno * 2⟩
      disk := d.publish s.submitted a b c data write
      slots := (d.avail 1).toNat :: s.slots }
  { s with
    request := update s.request s.submitted (s.chainAt a)
    returned := update s.returned s.submitted false
    submitted := s.submitted + 1 }

/-- `virtio_disk_rw` up to the wait for the device. Without free descriptors the caller sleeps and tries
again. -/
def rw (s : Sys) (blockno data : UInt64) (write : Bool) : Sys :=
  if blockno &&& 0x1fffffffffffffff = 0x1fffffffffffffff then
    { s with halted := some "virtio_disk_rw: sector overflow" }
  else
    match s.disk.alloc3Desc with
    | .error m => { s with halted := some m }
    | .ok (none, d) => { s with disk := d }
    | .ok (some (a, b, c), d) => s.submit d a b c blockno data write

/-- The waiter of the `k`-th request looks at its status and returns when it is 0. -/
def wake (s : Sys) (k : Nat) : Sys :=
  if (s.disk.info (s.request k).head).status = 0 then
    match Disk.freeChain (NUM + 1) s.disk (s.request k).head with
    | .ok d => { s with disk := d, returned := update s.returned k true }
    | .error m => { s with halted := some m }
  else s

/-- The device takes the chain at a head. -/
def take (s : Sys) (h : Fin NUM) : Sys :=
  { s with
    taken := update s.taken s.takes (s.chainAt h)
    finished := update s.finished s.takes false
    takes := s.takes + 1 }

def complete (s : Sys) (j : Nat) : Sys :=
  { s with
    disk :=
      match (s.taken j).d2.addr with
      | .status i => { s.disk with info := update s.disk.info i { s.disk.info i with status := 0 } }
      | _ => s.disk
    used :=
      ⟨s.used.idx + 1, update s.used.elems (Fin.ofNat NUM s.used.idx.toNat)
        (UInt32.ofNat (s.taken j).head)⟩
    finished := update s.finished j true }

end Sys

/-- After `virtio_disk_init`. -/
def init : Sys where
  disk := ⟨fun _ => ⟨.null, 0, 0, 0⟩, fun _ => 0, fun _ => true, fun _ => ⟨0, 0⟩, 0⟩
  used := ⟨0, fun _ => 0⟩
  hdrs := fun _ => ⟨0, 0, 0⟩
  submitted := 0
  request := fun _ => ⟨0, ⟨0, 0, 0⟩, ⟨.null, 0, 0, 0⟩, ⟨.null, 0, 0, 0⟩, ⟨.null, 0, 0, 0⟩⟩
  returned := fun _ => false
  takes := 0
  taken := fun _ => ⟨0, ⟨0, 0, 0⟩, ⟨.null, 0, 0, 0⟩, ⟨.null, 0, 0, 0⟩, ⟨.null, 0, 0, 0⟩⟩
  finished := fun _ => false
  slots := []
  halted := none

inductive Act
  | rw (blockno data : UInt64) (write : Bool)
  | wake (k : Nat)
  | take (h : Fin NUM)
  | complete (j : Nat)
  | intr

/-- Which heads the device may take next. -/
abbrev Device := Sys → Fin NUM → Bool

variable (dev : Device)

def step (s : Sys) (a : Act) : Option Sys :=
  if s.halted.isSome then none
  else
    match a with
    | .rw blockno data write => some (s.rw blockno data write)
    | .wake k => if k < s.submitted ∧ s.returned k = false then some (s.wake k) else none
    | .take h => if dev s h then some (s.take h) else none
    | .complete j => if j < s.takes ∧ s.finished j = false then some (s.complete j) else none
    | .intr => some (s.put (s.disk.intr s.used))

def run (s : Sys) : List Act → Option Sys
  | [] => some s
  | a :: as => do
    let s ← step dev s a
    run s as

end Xv6.Virtio
