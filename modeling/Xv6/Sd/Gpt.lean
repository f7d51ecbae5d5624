import Xv6.Sd.Fat
import Mathlib.Data.List.GetD

/-!
# Finding the file system on the card

`gpt_find_xv6fs` of the VisionFive 2 kernel reads the partition table of the card, checks its checksums and looks for the
partition of the file system. `jh7110_sd_rw` reads and writes the blocks of that partition. On every image that the
builder makes, the kernel accepts the partition table, finds the first sector of the file system, and reads the blocks of
the file system that was put into the image.
-/

namespace Xv6.Sd

open Data
open Bytes (leBytes length_leBytes le_leBytes)

/-! ## The reader -/

/-- The sector buffer that `read_sector` fills. -/
abbrev Sector : Type := Bytes SECTOR

/-- The 64 bit field at offset `off`. -/
def u64 {n : Nat} (b : Bytes n) (off : Nat) : UInt64 := UInt64.ofNat (Bytes.le (b.slice off 8))

/-- The body of the inner loop of `crc32_update`. -/
def crc32Bit (crc : UInt32) : UInt32 := (crc >>> 1) ^^^ (0xedb88320 &&& (0 - (crc &&& 1)))

def crc32Update (crc : UInt32) (data : List UInt8) : UInt32 :=
  ~~~ data.foldl (fun crc b => crc32Bit^[8] (crc ^^^ b.toUInt32)) (~~~ crc)

/-- The fields of `struct gpt_header` that are read. -/
structure GptHeader where
  signature : List UInt8
  revision : UInt32
  headerSize : UInt32
  headerCrc32 : UInt32
  currentLba : UInt64
  firstUsableLba : UInt64
  lastUsableLba : UInt64
  entriesLba : UInt64
  entryCount : UInt32
  entrySize : UInt32
  entriesCrc32 : UInt32

def GptHeader.read (s : Sector) : GptHeader where
  signature := s.slice 0 8
  revision := s.u32 8
  headerSize := s.u32 12
  headerCrc32 := s.u32 16
  currentLba := u64 s 24
  firstUsableLba := u64 s 40
  lastUsableLba := u64 s 48
  entriesLba := u64 s 72
  entryCount := s.u32 80
  entrySize := s.u32 84
  entriesCrc32 := s.u32 88

/-- The fields of `struct gpt_entry` that are read. -/
structure GptEntry where
  typeGuid : List UInt8
  firstLba : UInt64
  lastLba : UInt64
  name : List UInt16

def GptEntry.read (s : Sector) (slot : Nat) : GptEntry where
  typeGuid := s.slice (ENTRY_SIZE * slot) 16
  firstLba := u64 s (ENTRY_SIZE * slot + 32)
  lastLba := u64 s (ENTRY_SIZE * slot + 40)
  name := (List.range 36).map fun i => s.u16 (ENTRY_SIZE * slot + (56 + 2 * i))

/-- The type of a Linux file system and the name `xv6fs` with its final zero. -/
def isXv6fs (e : GptEntry) : Bool :=
  e.typeGuid == [0xaf, 0x3d, 0xc6, 0x0f, 0x83, 0x84, 0x72, 0x47, 0x8e, 0x79, 0x3d, 0x69, 0xd8, 0x47, 0x7d, 0xe4] &&
    (List.range 5).all (fun i => e.name.getD i 0 == [120, 118, 54, 102, 115].getD i 0) && e.name.getD 5 0 == 0

/-- The body of the inner loop. `found` is `match_lba`. -/
def checkSlot (h : GptHeader) (s : Sector) (found : UInt64) (slot : Nat) : Except String UInt64 :=
  let e := GptEntry.read s slot
  if isXv6fs e = false then .ok found
  else if found ≠ 0 then .error "gpt: duplicate xv6fs partition"
  else if e.firstLba < h.firstUsableLba ∨ h.lastUsableLba < e.lastLba ∨ e.lastLba < e.firstLba then
    .error "gpt: xv6fs outside usable range"
  else .ok e.firstLba

/-- The outer loop from entry `index` on. Each round takes at least one entry, so as many rounds as there are entries
are enough. -/
def scanEntries (readSector : UInt64 → Sector) (h : GptHeader) :
    Nat → Nat → UInt32 → UInt64 → Except String (UInt32 × UInt64)
  | 0, _, crc, found => .ok (crc, found)
  | k + 1, index, crc, found =>
    if index < h.entryCount.toNat then do
      let s := readSector (h.entriesLba + UInt64.ofNat (index / (SECTOR / ENTRY_SIZE)))
      let count := min (h.entryCount.toNat - index) (SECTOR / ENTRY_SIZE)
      let crc := crc32Update crc (s.slice 0 (count * ENTRY_SIZE))
      let found ← (List.range count).foldlM (checkSlot h s) found
      scanEntries readSector h k (index + count) crc found
    else .ok (crc, found)

def GptHeader.Invalid (h : GptHeader) : Prop :=
  h.signature ≠ [69, 70, 73, 32, 80, 65, 82, 84] ∨ h.revision ≠ 0x10000 ∨ h.headerSize < 92 ∨ 512 < h.headerSize ∨
    h.currentLba ≠ 1 ∨ h.entryCount = 0 ∨ 128 < h.entryCount ∨ h.entrySize ≠ 128 ∨ h.entriesLba < 2

instance (h : GptHeader) : Decidable h.Invalid := by
  unfold GptHeader.Invalid
  infer_instance

def gptFindXv6fs (readSector : UInt64 → Sector) : Except String UInt64 :=
  let s := readSector 0
  if s.get 510 ≠ 0x55 ∨ s.get 511 ≠ 0xaa ∨ s.get 450 ≠ 0xee then .error "gpt: protective MBR missing"
  else
    let s := readSector 1
    let h := GptHeader.read s
    if h.Invalid then .error "gpt: invalid primary header"
    else if crc32Update 0 ((s.putU32 16 0).slice 0 h.headerSize.toNat) ≠ h.headerCrc32 then
      .error "gpt: header checksum mismatch"
    else do
      let (crc, found) ← scanEntries readSector h h.entryCount.toNat 0 0 0
      if crc ≠ h.entriesCrc32 then .error "gpt: partition checksum mismatch"
      else if found = 0 then .error "gpt: xv6fs partition missing"
      else pure found

/-- `jh7110_sd_rw`, with the sectors of the card and the data of the buffer. -/
def jh7110SdRw (partitionLba : UInt64) (blockno : UInt32) (write : Bool) (card : UInt64 → Sector) (data : Bytes 1024) :
    (UInt64 → Sector) × Bytes 1024 :=
  let sector := partitionLba + UInt64.ofNat blockno.toNat * 2
  (List.range (1024 / 512)).foldl (fun c i =>
    if write then (Function.update c.1 (sector + UInt64.ofNat i) (fun j => c.2.get (i * 512 + j)), c.2)
    else (c.1, c.2.blit (i * 512) ((c.1 (sector + UInt64.ofNat i)).slice 0 512))) (card, data)

/-- The sector of a card that holds the image. -/
def readSector (image : List UInt8) (lba : UInt64) : Sector := fun i => image.getD (SECTOR * lba.toNat + i) 0

/-! ## Checksums -/

theorem crc32Update_eq (crc : UInt32) (data : List UInt8) : crc32Update crc data = ~~~ data.foldl crcByte (~~~ crc) := by
  have hbit : crc32Bit = crcStep := funext fun c => (crcStep_eq_mask c).symm
  unfold crc32Update crcByte
  rw [hbit]

theorem crc32Update_zero (data : List UInt8) : crc32Update 0 data = crc32 data := crc32Update_eq 0 data

theorem crc32Update_append (crc : UInt32) (a b : List UInt8) :
    crc32Update (crc32Update crc a) b = crc32Update crc (a ++ b) := by
  rw [crc32Update_eq, crc32Update_eq, crc32Update_eq, List.foldl_append, UInt32.not_not]

/-! ## Reading the image -/

section Reading

variable {image : List UInt8} {lba : UInt64} {o k : Nat}

theorem slice_readSector (hk : o + k ≤ SECTOR) (hlen : SECTOR * lba.toNat + o + k ≤ image.length) :
    (readSector image lba).slice o k = window image (SECTOR * lba.toNat + o) k := by
  refine List.ext_getElem ?_ ?_
  · rw [Bytes.length_slice, length_window hlen]
  · intro i hi hi'
    have hik : i < k := by simpa using hi
    have hget : (window image (SECTOR * lba.toNat + o) k).getD i 0 = image.getD (SECTOR * lba.toNat + o + i) 0 :=
      getD_window hik 0
    rw [List.getD_eq_getElem _ _ hi'] at hget
    rw [hget]
    simp only [Bytes.slice, List.getElem_map, List.getElem_range]
    unfold Bytes.get
    rw [dif_pos (by omega)]
    unfold readSector
    rw [Nat.add_assoc]

theorem slice_add {n : Nat} (b : Bytes n) (off m k : Nat) : b.slice off (m + k) = b.slice off m ++ b.slice (off + m) k := by
  unfold Bytes.slice
  rw [List.range_add, List.map_append, List.map_map]
  refine congrArg _ (List.map_congr_left fun i _ => ?_)
  rw [Function.comp_apply, Nat.add_assoc]

theorem get_readSector {i : Nat} (hi : i < SECTOR) : (readSector image lba).get i = image.getD (SECTOR * lba.toNat + i) 0 := by
  unfold Bytes.get
  rw [dif_pos hi]
  rfl

end Reading

section Tables

variable {image entries : List UInt8} {g : Guid}

def primaryFields (g : Guid) (entries : List UInt8) : List (List UInt8) :=
  headerFields (crc32 (headerFields 0 1 (TOTAL_SECTORS - 1) ENTRIES_LBA (crc32 entries) g).flatten) 1 (TOTAL_SECTORS - 1)
    ENTRIES_LBA (crc32 entries) g

section

variable (h : Tables g entries image)
include h

theorem Tables.slice_primary {o k : Nat} (hk : o + k ≤ 92) :
    (readSector image 1).slice o k = window (Sd.header 1 (TOTAL_SECTORS - 1) ENTRIES_LBA (crc32 entries) g) o k := by
  have hlen := h.length
  have hlba : SECTOR * (1 : UInt64).toNat = SECTOR := rfl
  rw [slice_readSector (by lia) (by rw [hlba]; lia), hlba, ← h.header, window_window (by lia)]

/-- The kernel reads the field that the builder has put there. -/
theorem Tables.field {i o : Nat} {f : List UInt8} (hf : (primaryFields g entries)[i]? = some f)
    (ho : fieldOffset (primaryFields g entries) i = o) (hle : o + f.length ≤ 92) :
    (readSector image 1).slice o f.length = f := by
  rw [h.slice_primary hle, header_eq, window_ljust (by rw [length_headerFields]; exact hle), ← ho]
  exact window_field hf

theorem Tables.u32_field {i o v : Nat}
    (hf : (primaryFields g entries)[i]? = some (leBytes 4 v)) (ho : fieldOffset (primaryFields g entries) i = o)
    (hle : o + 4 ≤ 92) : (readSector image 1).u32 o = UInt32.ofNat v := by
  have hs := h.field hf ho (by rw [length_leBytes]; exact hle)
  rw [length_leBytes] at hs
  unfold Bytes.u32
  rw [hs, le_leBytes]
  refine UInt32.toNat_inj.mp ?_
  rw [UInt32.toNat_ofNat', UInt32.toNat_ofNat']
  exact Nat.mod_mod _ _

theorem Tables.u64_field {i o v : Nat}
    (hf : (primaryFields g entries)[i]? = some (leBytes 8 v)) (ho : fieldOffset (primaryFields g entries) i = o)
    (hle : o + 8 ≤ 92) : u64 (readSector image 1) o = UInt64.ofNat v := by
  have hs := h.field hf ho (by rw [length_leBytes]; exact hle)
  rw [length_leBytes] at hs
  unfold u64
  rw [hs, le_leBytes]
  refine UInt64.toNat_inj.mp ?_
  rw [UInt64.toNat_ofNat', UInt64.toNat_ofNat']
  exact Nat.mod_mod _ _

end

/-- The header as the kernel sees it. -/
def primaryHeader (g : Guid) (entries : List UInt8) : GptHeader where
  signature := [69, 70, 73, 32, 80, 65, 82, 84]
  revision := 0x10000
  headerSize := 92
  headerCrc32 := crc32 (headerFields 0 1 (TOTAL_SECTORS - 1) ENTRIES_LBA (crc32 entries) g).flatten
  currentLba := 1
  firstUsableLba := 34
  lastUsableLba := UInt64.ofNat (TOTAL_SECTORS - 34)
  entriesLba := 2
  entryCount := 128
  entrySize := 128
  entriesCrc32 := crc32 entries

theorem Tables.read_header (h : Tables g entries image) : GptHeader.read (readSector image 1) = primaryHeader g entries := by
  have hoff : ∀ i, fieldOffset (primaryFields g entries) i =
      (([8, 4, 4, 4, 4, 8, 8, 8, 8, 16, 8, 4, 4, 4] : List Nat).take i).sum := by
    intro i
    unfold fieldOffset
    rw [List.map_take]
    simp only [primaryFields, headerFields, List.map_cons, List.map_nil, length_leBytes, Guid.length_bytesLe]
    rfl
  have hsig : (readSector image 1).slice 0 8 = [69, 70, 73, 32, 80, 65, 82, 84] := h.field (i := 0) rfl (hoff 0) (by decide)
  unfold GptHeader.read
  rw [hsig, h.u32_field (i := 1) (o := 8) rfl (hoff 1) (by decide), h.u32_field (i := 2) (o := 12) rfl (hoff 2) (by decide),
    h.u32_field (i := 3) (o := 16) rfl (hoff 3) (by decide), h.u64_field (i := 5) (o := 24) rfl (hoff 5) (by decide),
    h.u64_field (i := 7) (o := 40) rfl (hoff 7) (by decide), h.u64_field (i := 8) (o := 48) rfl (hoff 8) (by decide),
    h.u64_field (i := 10) (o := 72) rfl (hoff 10) (by decide), h.u32_field (i := 11) (o := 80) rfl (hoff 11) (by decide),
    h.u32_field (i := 12) (o := 84) rfl (hoff 12) (by decide), h.u32_field (i := 13) (o := 88) rfl (hoff 13) (by decide),
    UInt32.ofNat_toNat, UInt32.ofNat_toNat]
  rfl

/-- Without its checksum the header is what the builder has computed the checksum of. -/
theorem Tables.crc_header (h : Tables g entries image) :
    crc32Update 0 (((readSector image 1).putU32 16 0).slice 0 92) = (primaryHeader g entries).headerCrc32 := by
  rw [crc32Update_zero]
  refine congrArg crc32 ?_
  have hraw : (headerFields 0 1 (TOTAL_SECTORS - 1) ENTRIES_LBA (crc32 entries) g).flatten.length = 92 :=
    length_headerFields
  have hzero : window (headerFields 0 1 (TOTAL_SECTORS - 1) ENTRIES_LBA (crc32 entries) g).flatten 16 4 =
      leBytes 4 0 := by
    have hget : (headerFields 0 1 (TOTAL_SECTORS - 1) ENTRIES_LBA (crc32 entries) g)[3]? = some (leBytes 4 0) := rfl
    exact window_field hget
  have hhead := h.slice_primary (o := 0) (k := 16) (by decide)
  have htail := h.slice_primary (o := 20) (k := 72) (by decide)
  unfold Sd.header at hhead htail
  generalize (headerFields 0 1 (TOTAL_SECTORS - 1) ENTRIES_LBA (crc32 entries) g).flatten = raw at hraw hzero hhead htail ⊢
  have hlen : (raw.take 16 ++ leBytes 4 (crc32 raw).toNat).length = 20 := by
    rw [List.length_append, List.length_take, length_leBytes]
    omega
  have htotal : (raw.take 16 ++ leBytes 4 (crc32 raw).toNat ++ raw.drop 20).length = 92 := by
    rw [List.length_append, hlen, List.length_drop]
    omega
  rw [window_ljust (by omega)] at hhead htail
  have hput : ((readSector image 1).putU32 16 0).slice 16 4 = leBytes 4 0 := by
    have hself : ((readSector image 1).blit 16 (leBytes 4 0)).slice 16 (leBytes 4 0).length = leBytes 4 0 :=
      Bytes.slice_blit_self (by decide)
    rwa [length_leBytes] at hself
  have hhead' : ((readSector image 1).putU32 16 0).slice 0 16 = raw.take 16 := by
    rw [Bytes.putU32, Bytes.slice_blit_of_disjoint (by simp), hhead]
    unfold window
    rw [List.drop_zero, List.append_assoc, List.take_left' (by rw [List.length_take]; omega)]
  have htail' : ((readSector image 1).putU32 16 0).slice 20 72 = raw.drop 20 := by
    rw [Bytes.putU32, Bytes.slice_blit_of_disjoint (by simp), htail]
    unfold window
    rw [List.drop_left' hlen, List.take_of_length_le (by rw [List.length_drop]; omega)]
  have hsplit : raw = raw.take 16 ++ window raw 16 4 ++ raw.drop 20 := by
    unfold window
    rw [← List.take_add, List.take_append_drop]
  rw [show (92 : Nat) = 16 + 4 + 72 from rfl, slice_add, slice_add, hhead', hput, htail', ← hzero, ← hsplit]

theorem Tables.slice_entries (h : Tables g entries image) {q o k : Nat} (hq : q < 32) (hk : o + k ≤ SECTOR) :
    (readSector image (2 + UInt64.ofNat q)).slice o k = window entries (SECTOR * q + o) k := by
  have hlba : (2 + UInt64.ofNat q).toNat = 2 + q := by
    rw [UInt64.toNat_add, UInt64.toNat_ofNat']
    show (2 + q % 2 ^ 64) % 2 ^ 64 = _
    omega
  have hlen := h.length
  rw [slice_readSector hk (by rw [hlba]; lia), hlba, ← h.entries, window_window (by lia)]
  refine congrArg (fun off => window image off k) ?_
  lia

end Tables

/-! ## The partition entries -/

/-- The entry that the bytes `l` encode. -/
def GptEntry.ofBytes (l : List UInt8) : GptEntry where
  typeGuid := window l 0 16
  firstLba := UInt64.ofNat (Bytes.le (window l 32 8))
  lastLba := UInt64.ofNat (Bytes.le (window l 40 8))
  name := (List.range 36).map fun i => UInt16.ofNat (Bytes.le (window l (56 + 2 * i) 2))

theorem Tables.read_entry {image entries : List UInt8} {g : Guid} (h : Tables g entries image) {q slot : Nat} (hq : q < 32)
    (hslot : slot < 4) : GptEntry.read (readSector image (2 + UInt64.ofNat q)) slot =
      GptEntry.ofBytes (window entries (ENTRY_SIZE * (4 * q + slot)) ENTRY_SIZE) := by
  have hslice : ∀ {o k : Nat}, o + k ≤ ENTRY_SIZE →
      (readSector image (2 + UInt64.ofNat q)).slice (ENTRY_SIZE * slot + o) k =
        window (window entries (ENTRY_SIZE * (4 * q + slot)) ENTRY_SIZE) o k := by
    intro o k hk
    rw [h.slice_entries hq (by lia), window_window hk]
    refine congrArg (fun off => window entries off k) ?_
    lia
  have hname : ((List.range 36).map fun i => (readSector image (2 + UInt64.ofNat q)).u16 (ENTRY_SIZE * slot + (56 + 2 * i))) =
      (List.range 36).map fun i => UInt16.ofNat (Bytes.le
        (window (window entries (ENTRY_SIZE * (4 * q + slot)) ENTRY_SIZE) (56 + 2 * i) 2)) := by
    refine List.map_congr_left fun i hi => ?_
    have hi' := List.mem_range.mp hi
    unfold Bytes.u16
    rw [hslice (by lia)]
  have htype := hslice (o := 0) (k := 16) (by decide)
  unfold GptEntry.read GptEntry.ofBytes u64
  rw [hname, hslice (by decide), hslice (by decide)]
  rw [Nat.add_zero] at htype
  rw [htype]

section Entry

variable {kind unique : Guid} {first last : Nat} {name : List UInt8}

theorem length_entryFields (hname : name.length = 72) : [kind.bytesLe, unique.bytesLe, leBytes 8 first,
    leBytes 8 last, leBytes 8 0, name].flatten.length = ENTRY_SIZE := by
  simp only [List.length_flatten, List.map_cons, List.map_nil, length_leBytes, Guid.length_bytesLe, hname]
  rfl

theorem ofBytes_entryFields (hname : name.length = 72) (hfirst : first < 2 ^ 64) (hlast : last < 2 ^ 64) :
    GptEntry.ofBytes [kind.bytesLe, unique.bytesLe, leBytes 8 first, leBytes 8 last, leBytes 8 0,
      name].flatten = ⟨kind.bytesLe, UInt64.ofNat first, UInt64.ofNat last,
        (List.range 36).map fun i => UInt16.ofNat (Bytes.le (window name (2 * i) 2))⟩ := by
  generalize hfields : [kind.bytesLe, unique.bytesLe, leBytes 8 first, leBytes 8 last, leBytes 8 0,
    name] = fields
  have hoff : ∀ i, fieldOffset fields i = (([16, 16, 8, 8, 8, 72] : List Nat).take i).sum := by
    intro i
    unfold fieldOffset
    rw [List.map_take, ← hfields]
    simp only [List.map_cons, List.map_nil, length_leBytes, Guid.length_bytesLe, hname]
  have hfield : ∀ {i o k : Nat} {f : List UInt8}, fields[i]? = some f → fieldOffset fields i = o → f.length = k →
      window fields.flatten o k = f := by
    rintro i o k f hf rfl rfl
    exact window_field hf
  have h0 : window fields.flatten 0 16 = kind.bytesLe :=
    hfield (i := 0) (by rw [← hfields]; rfl) (hoff 0) kind.length_bytesLe
  have h2 : window fields.flatten 32 8 = leBytes 8 first :=
    hfield (i := 2) (by rw [← hfields]; rfl) (hoff 2) (length_leBytes _ _)
  have h3 : window fields.flatten 40 8 = leBytes 8 last :=
    hfield (i := 3) (by rw [← hfields]; rfl) (hoff 3) (length_leBytes _ _)
  have h5 : window fields.flatten 56 72 = name := hfield (i := 5) (by rw [← hfields]; rfl) (hoff 5) hname
  unfold GptEntry.ofBytes
  rw [h0, h2, h3, le_leBytes, le_leBytes, Nat.mod_eq_of_lt (by lia), Nat.mod_eq_of_lt (by lia)]
  refine congrArg _ (List.map_congr_left fun i hi => ?_)
  have hi' := List.mem_range.mp hi
  rw [← h5, window_window (by lia)]

end Entry

def bootEntry (unique : Guid) : List UInt8 :=
  [EFI_GUID.bytesLe, unique.bytesLe, leBytes 8 BOOT_FIRST, leBytes 8 (BOOT_FIRST + BOOT_SECTORS - 1),
    leBytes 8 0, ljust 72 [120, 0, 118, 0, 54, 0, 98, 0, 111, 0, 111, 0, 116, 0]].flatten

def fsEntry (unique : Guid) : List UInt8 :=
  [LINUX_FS_GUID.bytesLe, unique.bytesLe, leBytes 8 FS_FIRST, leBytes 8 FS_LAST, leBytes 8 0,
    ljust 72 [120, 0, 118, 0, 54, 0, 102, 0, 115, 0]].flatten

section Search

variable {image : List UInt8} {g u u' : Guid} {q : Nat}

theorem length_bootEntry (u : Guid) : (bootEntry u).length = ENTRY_SIZE := length_entryFields rfl

theorem length_fsEntry (u : Guid) : (fsEntry u).length = ENTRY_SIZE := length_entryFields rfl

theorem isXv6fs_bootEntry (u : Guid) : isXv6fs (GptEntry.ofBytes (bootEntry u)) = false := by
  rw [bootEntry, ofBytes_entryFields rfl (by decide) (by decide)]
  rfl

theorem ofBytes_fsEntry (u : Guid) : GptEntry.ofBytes (fsEntry u) =
    ⟨LINUX_FS_GUID.bytesLe, UInt64.ofNat FS_FIRST, UInt64.ofNat FS_LAST,
      [120, 118, 54, 102, 115] ++ List.replicate 31 0⟩ := by
  rw [fsEntry, ofBytes_entryFields rfl (by decide) (by decide)]
  rfl

section

variable (h : Tables g (partitionEntries (bootEntry u) (fsEntry u')) image)
include h

/-- Only the second entry is that of the file system. -/
theorem Tables.checkSlot (hq : q < 32) {slot : Nat}
    (hslot : slot < 4) {found : UInt64} (hfound : 4 * q + slot = 1 → found = 0) :
    Sd.checkSlot (primaryHeader g (partitionEntries (bootEntry u) (fsEntry u'))) (readSector image (2 + UInt64.ofNat q)) found
      slot = .ok (if 4 * q + slot = 1 then UInt64.ofNat FS_FIRST else found) := by
  have hread := h.read_entry hq hslot
  rw [window_partitionEntries (length_bootEntry u) (length_fsEntry u') (by lia)] at hread
  unfold Sd.checkSlot
  simp only [hread]
  by_cases h0 : 4 * q + slot = 0
  · rw [if_pos h0, if_pos (isXv6fs_bootEntry u), if_neg (by omega)]
  · rw [if_neg h0]
    by_cases h1 : 4 * q + slot = 1
    · rw [if_pos h1, if_pos h1, ofBytes_fsEntry, hfound h1]
      rfl
    · rw [if_neg h1, if_neg h1]
      rfl

theorem Tables.checkSlots (hq : q < 32) {found : UInt64} (hfound : q = 0 → found = 0) :
    (List.range 4).foldlM (Sd.checkSlot (primaryHeader g (partitionEntries (bootEntry u) (fsEntry u')))
      (readSector image (2 + UInt64.ofNat q))) found = .ok (if q = 0 then UInt64.ofNat FS_FIRST else found) := by
  have hstep : ∀ {slot : Nat} (found : UInt64), slot < 4 → (4 * q + slot = 1 → found = 0) → _ :=
    fun _ hslot hf => h.checkSlot hq hslot hf
  generalize Sd.checkSlot (primaryHeader g (partitionEntries (bootEntry u) (fsEntry u')))
    (readSector image (2 + UInt64.ofNat q)) = f at hstep ⊢
  show List.foldlM f found [0, 1, 2, 3] = _
  rw [List.foldlM_cons, hstep found (by decide) (by omega), if_neg (by omega)]
  show List.foldlM f found [1, 2, 3] = _
  rw [List.foldlM_cons, hstep found (by decide) (fun h1 => hfound (by omega))]
  show List.foldlM f (if 4 * q + 1 = 1 then UInt64.ofNat FS_FIRST else found) [2, 3] = _
  rw [List.foldlM_cons, hstep _ (by decide) (by omega), if_neg (by omega)]
  show List.foldlM f (if 4 * q + 1 = 1 then UInt64.ofNat FS_FIRST else found) [3] = _
  rw [List.foldlM_cons, hstep _ (by decide) (by omega), if_neg (by omega)]
  refine congrArg Except.ok (if_congr ?_ rfl rfl)
  omega

/-- The loop from the sector `q` of the entries on. The checksum has taken up the sectors before. -/
theorem Tables.scanEntries {k : Nat} :
    ∀ {q : Nat}, q ≤ 32 → 32 ≤ q + k →
      Sd.scanEntries (readSector image) (primaryHeader g (partitionEntries (bootEntry u) (fsEntry u'))) k (4 * q)
        (crc32Update 0 (window (partitionEntries (bootEntry u) (fsEntry u')) 0 (SECTOR * q)))
        (if q = 0 then 0 else UInt64.ofNat FS_FIRST) =
      .ok (crc32Update 0 (partitionEntries (bootEntry u) (fsEntry u')), UInt64.ofNat FS_FIRST) := by
  have hall : window (partitionEntries (bootEntry u) (fsEntry u')) 0 (SECTOR * 32) =
      partitionEntries (bootEntry u) (fsEntry u') := by
    have hlen := length_partitionEntries (length_bootEntry u) (length_fsEntry u')
    rw [show SECTOR * 32 = ENTRY_COUNT * ENTRY_SIZE from rfl, ← hlen, window_zero_length]
  induction k with
  | zero =>
    intro q hq hk
    obtain rfl : q = 32 := by omega
    rw [hall]
    rfl
  | succ k ih =>
    intro q hq hk
    rcases Nat.eq_or_lt_of_le hq with rfl | hlt
    · rw [hall]
      rfl
    · have hcount : (primaryHeader g (partitionEntries (bootEntry u) (fsEntry u'))).entryCount.toNat = 128 := rfl
      unfold Sd.scanEntries
      simp only [hcount]
      rw [if_pos (by omega), show SECTOR / ENTRY_SIZE = 4 from rfl, show min (128 - 4 * q) 4 = 4 by omega,
        show 4 * q / 4 = q by omega, show 4 * q + 4 = 4 * (q + 1) by ring]
      have hslice := h.slice_entries (o := 0) (k := 4 * ENTRY_SIZE) hlt (by decide)
      rw [Nat.add_zero] at hslice
      show (List.foldlM (Sd.checkSlot _ (readSector image (2 + UInt64.ofNat q))) _ _ >>= _) = _
      rw [h.checkSlots hlt (fun h0 => if_pos h0)]
      show Sd.scanEntries _ _ k (4 * (q + 1)) (crc32Update _ ((readSector image (2 + UInt64.ofNat q)).slice 0 _)) _ = _
      have hfound : (if q = 0 then UInt64.ofNat FS_FIRST else if q = 0 then 0 else UInt64.ofNat FS_FIRST) =
          if q + 1 = 0 then 0 else UInt64.ofNat FS_FIRST := by
        rw [if_neg (Nat.succ_ne_zero q)]
        split <;> rfl
      have hcrc := window_append_window (partitionEntries (bootEntry u) (fsEntry u')) 0 (SECTOR * q) (4 * ENTRY_SIZE)
      rw [Nat.zero_add, show SECTOR * q + 4 * ENTRY_SIZE = SECTOR * (q + 1) by ring] at hcrc
      rw [hslice, crc32Update_append, hcrc, hfound]
      exact ih hlt (by omega)

theorem Tables.gptFindXv6fs : Sd.gptFindXv6fs (readSector image) = .ok (UInt64.ofNat FS_FIRST) := by
  have hbyte : ∀ {off len i : Nat} {w : List UInt8}, window image off len = w → i < len → off + i < SECTOR →
      (readSector image 0).get (off + i) = w.getD i 0 := by
    rintro off len i w rfl hi hoff
    rw [getD_window hi, get_readSector hoff]
    rw [show SECTOR * (0 : UInt64).toNat + (off + i) = off + i from Nat.zero_add _]
  have hmbr : (readSector image 0).get 450 = 0xee := hbyte (i := 4) h.mbr (by decide) (by decide)
  have h510 : (readSector image 0).get 510 = 0x55 := hbyte (i := 0) h.signature (by decide) (by decide)
  have h511 : (readSector image 0).get 511 = 0xaa := hbyte (i := 1) h.signature (by decide) (by decide)
  have hvalid : ¬ (primaryHeader g (partitionEntries (bootEntry u) (fsEntry u'))).Invalid := by
    rintro (hc | hc | hc | hc | hc | hc | hc | hc | hc)
    · exact hc rfl
    · exact hc rfl
    · exact absurd hc (show ¬ (92 : UInt32) < 92 by decide)
    · exact absurd hc (show ¬ (512 : UInt32) < 92 by decide)
    · exact hc rfl
    · exact absurd hc (show ¬ (128 : UInt32) = 0 by decide)
    · exact absurd hc (show ¬ (128 : UInt32) < 128 by decide)
    · exact hc rfl
    · exact absurd hc (show ¬ (2 : UInt64) < 2 by decide)
  have hscan : Sd.scanEntries (readSector image) (primaryHeader g (partitionEntries (bootEntry u) (fsEntry u'))) 128 0 0 0 =
      .ok (crc32 (partitionEntries (bootEntry u) (fsEntry u')), UInt64.ofNat FS_FIRST) := by
    have hloop := h.scanEntries (k := 128) (q := 0) (by decide) (by decide)
    have hnil : window (partitionEntries (bootEntry u) (fsEntry u')) 0 0 = [] := List.take_zero
    rw [Nat.mul_zero, Nat.mul_zero, if_pos rfl, crc32Update_zero (partitionEntries _ _), hnil,
      show crc32Update 0 [] = 0 by decide] at hloop
    exact hloop
  have hread := h.read_header
  have hcrc := h.crc_header
  have hsize : (primaryHeader g (partitionEntries (bootEntry u) (fsEntry u'))).headerSize.toNat = 92 := rfl
  have hcount : (primaryHeader g (partitionEntries (bootEntry u) (fsEntry u'))).entryCount.toNat = 128 := rfl
  have hentries : (primaryHeader g (partitionEntries (bootEntry u) (fsEntry u'))).entriesCrc32 =
    crc32 (partitionEntries (bootEntry u) (fsEntry u')) := rfl
  generalize primaryHeader g (partitionEntries (bootEntry u) (fsEntry u')) = hd at *
  generalize crc32 (partitionEntries (bootEntry u) (fsEntry u')) = crc at *
  unfold Sd.gptFindXv6fs
  simp only []
  rw [if_neg (by rw [hmbr, h510, h511]; decide), hread, if_neg hvalid, hsize, hcrc, if_neg (not_not.mpr rfl), hcount, hscan]
  show (if crc ≠ hd.entriesCrc32 then _ else _) = _
  rw [hentries, if_neg (not_not.mpr rfl), if_neg (show ¬ UInt64.ofNat FS_FIRST = 0 by decide)]
  rfl

end

end Search

/-! ## The image and the kernel -/

theorem build_ok {uuid5 : Guid → List Char → Guid} {fit fs boot image : List UInt8} (hfit : makeFat16 fit = .ok boot)
    (hbuild : build uuid5 fit fs = .ok image) : fs.length ≤ (FS_LAST - FS_FIRST + 1) * SECTOR ∧ ∃ g u u', image =
      splice (splice (tables g (partitionEntries (bootEntry u) (fsEntry u'))) (BOOT_FIRST * SECTOR)
        ((BOOT_FIRST + BOOT_SECTORS) * SECTOR) boot) (FS_FIRST * SECTOR) (FS_FIRST * SECTOR + fs.length) fs := by
  unfold build at hbuild
  split at hbuild
  · cases hbuild
  · rename_i hlen
    rw [hfit] at hbuild
    exact ⟨Nat.not_lt.mp hlen, _, _, _, (Except.ok.inj hbuild).symm⟩

section Card

variable {image fs : List UInt8}

/-- A block of the file system is read in two sectors. -/
theorem jh7110SdRw_read (hfs : window image (FS_FIRST * SECTOR) fs.length = fs)
    (hlen : FS_FIRST * SECTOR + fs.length ≤ image.length) {blockno : UInt32} (hk : blockno.toNat < fs.length / 1024)
    (data : Bytes 1024) :
    (jh7110SdRw (UInt64.ofNat FS_FIRST) blockno false (readSector image) data).2.slice 0 1024 =
      window fs (1024 * blockno.toNat) 1024 := by
  have hblock := blockno.toNat_lt
  have hlba : ∀ i, i < 2 → (UInt64.ofNat FS_FIRST + UInt64.ofNat blockno.toNat * 2 + UInt64.ofNat i).toNat =
      FS_FIRST + 2 * blockno.toNat + i := by
    intro i hi
    simp only [UInt64.toNat_add, UInt64.toNat_mul, UInt64.toNat_ofNat']
    show ((133120 % 2 ^ 64 + blockno.toNat % 2 ^ 64 * 2 % 2 ^ 64) % 2 ^ 64 + i % 2 ^ 64) % 2 ^ 64 =
      2048 + 131072 + 2 * blockno.toNat + i
    omega
  have hread : ∀ i, i < 2 → (readSector image (UInt64.ofNat FS_FIRST + UInt64.ofNat blockno.toNat * 2 +
      UInt64.ofNat i)).slice 0 512 = window fs (1024 * blockno.toNat + 512 * i) 512 := by
    intro i hi
    have hsector := hlba i hi
    rw [slice_readSector (by decide) (by rw [hsector]; lia), hsector, ← hfs, window_window (by lia)]
    refine congrArg (fun off => window image off 512) ?_
    lia
  have h0 := hread 0 (by decide)
  have h1 := hread 1 (by decide)
  have hl : ∀ i, i < 2 → (window fs (1024 * blockno.toNat + 512 * i) 512).length = 512 := fun i hi => length_window (by lia)
  have hfirst : (data.blit (0 * 512) (window fs (1024 * blockno.toNat + 512 * 0) 512)).slice (0 * 512)
      (window fs (1024 * blockno.toNat + 512 * 0) 512).length = _ :=
    Bytes.slice_blit_self (by rw [hl 0 (by decide)]; decide)
  have hsecond : ((data.blit (0 * 512) (window fs (1024 * blockno.toNat + 512 * 0) 512)).blit (1 * 512)
      (window fs (1024 * blockno.toNat + 512 * 1) 512)).slice (1 * 512)
        (window fs (1024 * blockno.toNat + 512 * 1) 512).length = _ :=
    Bytes.slice_blit_self (by rw [hl 1 (by decide)])
  rw [hl 0 (by decide)] at hfirst
  rw [hl 1 (by decide)] at hsecond
  have hkeep : ((data.blit (0 * 512) (window fs (1024 * blockno.toNat + 512 * 0) 512)).blit (1 * 512)
      (window fs (1024 * blockno.toNat + 512 * 1) 512)).slice 0 512 = window fs (1024 * blockno.toNat + 512 * 0) 512 := by
    rw [Bytes.slice_blit_of_disjoint (by rw [hl 1 (by decide)]; decide)]
    exact hfirst
  unfold jh7110SdRw
  rw [show List.range (1024 / 512) = [0, 1] from rfl]
  simp only [List.foldl_cons, List.foldl_nil, Bool.false_eq_true, if_false]
  rw [h0, h1]
  refine (slice_add _ 0 512 512).trans ?_
  rw [hkeep, Nat.zero_add]
  refine (congrArg _ hsecond).trans ?_
  rw [Nat.mul_zero, Nat.add_zero, Nat.mul_one]
  exact window_append_window _ _ _ _

end Card

/-- The builder and the kernel agree: the kernel accepts the partition table of an image that was built, finds the first
sector of the file system, and reads its blocks as they are in the file-system image. -/
theorem image_agrees {uuid5 : Guid → List Char → Guid} {fit fs boot image : List UInt8} (hfit : makeFat16 fit = .ok boot)
    (hboot : boot.length = BOOT_SECTORS * SECTOR) (hbuild : build uuid5 fit fs = .ok image) :
    gptFindXv6fs (readSector image) = .ok (UInt64.ofNat FS_FIRST) ∧
      ∀ (blockno : UInt32) (data : Bytes 1024), blockno.toNat < fs.length / 1024 →
        (jh7110SdRw (UInt64.ofNat FS_FIRST) blockno false (readSector image) data).2.slice 0 1024 =
          window fs (1024 * blockno.toNat) 1024 := by
  obtain ⟨hlen, g, u, u', himage⟩ := build_ok hfit hbuild
  have htables : Tables g (partitionEntries (bootEntry u) (fsEntry u'))
      (tables g (partitionEntries (bootEntry u) (fsEntry u'))) :=
    tables_ok (length_partitionEntries (length_bootEntry u) (length_fsEntry u'))
  generalize tables g (partitionEntries (bootEntry u) (fsEntry u')) = image0 at himage htables
  have hmid := htables.splice (x := boot) (a := BOOT_FIRST * SECTOR) (b := (BOOT_FIRST + BOOT_SECTORS) * SECTOR)
    (by decide) (by lia) (by decide)
  have hall := hmid.splice (x := fs) (a := FS_FIRST * SECTOR) (by decide) rfl (by lia)
  have hfs := window_splice_self (x := fs) (a := FS_FIRST * SECTOR) (b := FS_FIRST * SECTOR + fs.length)
    (l := splice image0 (BOOT_FIRST * SECTOR) ((BOOT_FIRST + BOOT_SECTORS) * SECTOR) boot) (by rw [hmid.length]; decide)
  rw [← himage] at hall hfs
  refine ⟨hall.gptFindXv6fs, fun blockno data hk => jh7110SdRw_read hfs ?_ hk data⟩
  rw [hall.length]
  lia

/-- A payload of one byte and a file system of two blocks. -/
theorem image_agrees_small : ∃ image, build (fun g _ => g) [1] (List.replicate 2048 7) = .ok image ∧
    gptFindXv6fs (readSector image) = .ok (UInt64.ofNat FS_FIRST) ∧
    (jh7110SdRw (UInt64.ofNat FS_FIRST) 1 false (readSector image) Bytes.zero).2.slice 0 1024 = List.replicate 1024 7 := by
  obtain ⟨boot, hfit⟩ : ∃ boot, makeFat16 [1] = .ok boot := by
    unfold makeFat16
    exact ⟨_, if_neg (by decide)⟩
  have hboot := length_makeFat16 hfit (by decide)
  obtain ⟨image, hbuild⟩ : ∃ image, build (fun g _ => g) [1] (List.replicate 2048 7) = .ok image := by
    unfold build
    rw [if_neg (by rw [List.length_replicate]; decide), hfit]
    exact ⟨_, rfl⟩
  obtain ⟨hfind, hread⟩ := image_agrees hfit hboot hbuild
  refine ⟨image, hbuild, hfind, (hread 1 Bytes.zero (by rw [List.length_replicate]; decide)).trans ?_⟩
  exact window_replicate (by decide) 7

end Xv6.Sd
