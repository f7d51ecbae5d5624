import Xv6.Data.Windows
import Xv6.Data.Crc32
import Xv6.Data.Bytes

/-!
# The SD card image

`tools/vf2_image.py` builds the image of the card: a protective MBR, the primary GPT with its two partitions, the backup
GPT, the FAT16 boot partition that holds the FIT payload, and the file system.

A `bytearray` is a list of bytes, `struct.pack` concatenates the encoded fields, and the exceptions are errors. The
version 5 UUIDs are hashes of their names; `uuid5` stands for any function that gives sixteen bytes.
-/

namespace Xv6.Sd

open Data
open Bytes (leBytes)

abbrev SECTOR : Nat := 512
abbrev TOTAL_SECTORS : Nat := 524288
abbrev BOOT_FIRST : Nat := 2048
abbrev BOOT_SECTORS : Nat := 131072
abbrev FS_FIRST : Nat := BOOT_FIRST + BOOT_SECTORS
abbrev FS_LAST : Nat := TOTAL_SECTORS - 34
abbrev ENTRY_COUNT : Nat := 128
abbrev ENTRY_SIZE : Nat := 128
abbrev ENTRIES_LBA : Nat := 2

/-! ## Identifiers and names -/

/-- The sixteen bytes of a UUID as they are written. -/
structure Guid where
  bytes : List UInt8
  length_eq : bytes.length = 16

/-- `uuid.bytes_le`: the first three fields are little-endian. -/
def Guid.bytesLe (g : Guid) : List UInt8 :=
  (window g.bytes 0 4).reverse ++ (window g.bytes 4 2).reverse ++ (window g.bytes 6 2).reverse ++ window g.bytes 8 8

theorem Guid.length_bytesLe (g : Guid) : g.bytesLe.length = 16 := by
  have h := g.length_eq
  simp only [Guid.bytesLe, List.length_append, List.length_reverse]
  rw [length_window (by omega), length_window (by omega), length_window (by omega), length_window (by omega)]

def EFI_GUID : Guid :=
  ⟨[0xc1, 0x2a, 0x73, 0x28, 0xf8, 0x1f, 0x11, 0xd2, 0xba, 0x4b, 0x00, 0xa0, 0xc9, 0x3e, 0xc9, 0x3b], rfl⟩

def LINUX_FS_GUID : Guid :=
  ⟨[0x0f, 0xc6, 0x3d, 0xaf, 0x84, 0x83, 0x47, 0x72, 0x8e, 0x79, 0x3d, 0x69, 0xd8, 0x47, 0x7d, 0xe4], rfl⟩

def NAMESPACE : Guid :=
  ⟨[0x46, 0x9c, 0x80, 0x97, 0x9e, 0x0a, 0x4e, 0x3a, 0x9f, 0x8a, 0x83, 0x5b, 0x70, 0x5e, 0x1b, 0x75], rfl⟩

def utf16Char (c : Char) : List UInt8 :=
  if c.toNat < 0x10000 then leBytes 2 c.toNat
  else
    let v := c.toNat - 0x10000
    leBytes 2 (0xd800 + v / 1024) ++ leBytes 2 (0xdc00 + v % 1024)

/-- `bytes.ljust(n, b"\0")`. -/
def ljust (n : Nat) (l : List UInt8) : List UInt8 := l ++ List.replicate (n - l.length) 0

def utf16Name (name : List Char) : Except String (List UInt8) :=
  let raw := name.flatMap utf16Char
  if 72 < raw.length then .error "GPT partition name too long" else .ok (ljust 72 raw)

/-! ## The partition table -/

def entry (kind unique : Guid) (first last : Nat) (name : List Char) : Except String (List UInt8) := do
  let name ← utf16Name name
  pure [kind.bytesLe, unique.bytesLe, leBytes 8 first, leBytes 8 last, leBytes 8 0, name].flatten

/-- The fields of the header with the checksum `crc`. -/
def headerFields (crc : UInt32) (current backup entriesLba : Nat) (entriesCrc : UInt32) (diskGuid : Guid) :
    List (List UInt8) :=
  [[69, 70, 73, 32, 80, 65, 82, 84], leBytes 4 0x10000, leBytes 4 92, leBytes 4 crc.toNat,
    leBytes 4 0, leBytes 8 current, leBytes 8 backup, leBytes 8 34,
    leBytes 8 (TOTAL_SECTORS - 34), diskGuid.bytesLe, leBytes 8 entriesLba, leBytes 4 ENTRY_COUNT,
    leBytes 4 ENTRY_SIZE, leBytes 4 entriesCrc.toNat]

def header (current backup entriesLba : Nat) (entriesCrc : UInt32) (diskGuid : Guid) : List UInt8 :=
  let raw := (headerFields 0 current backup entriesLba entriesCrc diskGuid).flatten
  let crc := crc32 raw
  ljust SECTOR (raw.take 16 ++ leBytes 4 crc.toNat ++ raw.drop 20)

/-! ## The boot partition -/

abbrev SECTORS_PER_CLUSTER : Nat := 4
abbrev RESERVED : Nat := 1
abbrev FATS : Nat := 2
abbrev ROOT_ENTRIES : Nat := 512
abbrev ROOT_SECTORS : Nat := ROOT_ENTRIES * 32 / SECTOR
abbrev FAT_SECTORS : Nat := 129
abbrev DATA_START : Nat := RESERVED + FATS * FAT_SECTORS + ROOT_SECTORS

/-- `struct.pack_into` of the encoded fields. -/
def packInto (l : List UInt8) (off : Nat) (fields : List UInt8) : List UInt8 :=
  splice l off (off + fields.length) fields

def bootSector : List UInt8 :=
  let boot := splice (List.replicate SECTOR 0) 0 3 [0xeb, 0x3c, 0x90]
  let boot := splice boot 3 11 [88, 86, 54, 83, 80, 69, 67, 32]
  let boot := packInto boot 11 [leBytes 2 SECTOR, leBytes 1 SECTORS_PER_CLUSTER, leBytes 2 RESERVED,
    leBytes 1 FATS, leBytes 2 ROOT_ENTRIES, leBytes 2 0, leBytes 1 0xf8,
    leBytes 2 FAT_SECTORS, leBytes 2 32, leBytes 2 64, leBytes 4 0,
    leBytes 4 BOOT_SECTORS].flatten
  let boot := splice boot 36 37 [0x80]
  let boot := splice boot 38 39 [0x29]
  let boot := packInto boot 39 (leBytes 4 0x58563632)
  let boot := splice boot 43 54 [88, 86, 54, 32, 66, 79, 79, 84, 32, 32, 32]
  let boot := splice boot 54 62 [70, 65, 84, 49, 54, 32, 32, 32]
  splice boot 510 512 [0x55, 0xaa]

/-- The chain of the clusters `2` to `clusters + 1`. -/
def fatTable (clusters : Nat) : List UInt8 :=
  let fat := packInto (List.replicate (FAT_SECTORS * SECTOR) 0) 0 (leBytes 2 0xfff8 ++ leBytes 2 0xffff)
  (List.range' 2 clusters).foldl (fun fat cluster =>
    packInto fat (cluster * 2) (leBytes 2 (if cluster = clusters + 1 then 0xffff else cluster + 1))) fat

def rootEntry (size : Nat) : List UInt8 :=
  [[88, 86, 54, 32, 32, 32, 32, 32, 73, 84, 66], [0x20], [0], [0], leBytes 2 0, leBytes 2 0,
    leBytes 2 0, leBytes 2 0, leBytes 2 0, leBytes 2 0, leBytes 2 2,
    leBytes 4 size].flatten

def makeFat16 (payload : List UInt8) : Except String (List UInt8) :=
  let clusters := (payload.length + SECTORS_PER_CLUSTER * SECTOR - 1) / (SECTORS_PER_CLUSTER * SECTOR)
  if clusters < 1 ∨ FAT_SECTORS * SECTOR / 2 ≤ clusters + 2 then .error "FIT does not fit the FAT16 boot partition"
  else
    let image := splice (List.replicate (BOOT_SECTORS * SECTOR) 0) 0 SECTOR bootSector
    let fat := fatTable clusters
    let image := (List.range FATS).foldl (fun image index =>
      let offset := (RESERVED + index * FAT_SECTORS) * SECTOR
      splice image offset (offset + fat.length) fat) image
    let rootOffset := (RESERVED + FATS * FAT_SECTORS) * SECTOR
    let image := splice image rootOffset (rootOffset + 32) (rootEntry payload.length)
    let payloadOffset := DATA_START * SECTOR
    .ok (splice image payloadOffset (payloadOffset + payload.length) payload)

/-! ## The image -/

def mbrEntry : List UInt8 :=
  [[0], [0, 2, 0], [0xee], [0xff, 0xff, 0xff], leBytes 4 1,
    leBytes 4 (min (TOTAL_SECTORS - 1) 0xffffffff)].flatten

def partitionEntries (bootEntry fsEntry : List UInt8) : List UInt8 :=
  splice (splice (List.replicate (ENTRY_COUNT * ENTRY_SIZE) 0) 0 ENTRY_SIZE bootEntry) ENTRY_SIZE (2 * ENTRY_SIZE) fsEntry

/-- The image before the partitions are filled. -/
def tables (diskGuid : Guid) (entries : List UInt8) : List UInt8 :=
  let entriesCrc := crc32 entries
  let image := List.replicate (TOTAL_SECTORS * SECTOR) 0
  let image := splice image 446 462 mbrEntry
  let image := splice image 510 512 [0x55, 0xaa]
  let image := splice image SECTOR (2 * SECTOR) (header 1 (TOTAL_SECTORS - 1) ENTRIES_LBA entriesCrc diskGuid)
  let image := splice image (ENTRIES_LBA * SECTOR) (ENTRIES_LBA * SECTOR + entries.length) entries
  let backupEntriesLba := TOTAL_SECTORS - 33
  let start := backupEntriesLba * SECTOR
  let image := splice image start (start + entries.length) entries
  splice image ((TOTAL_SECTORS - 1) * SECTOR) image.length
    (header (TOTAL_SECTORS - 1) 1 backupEntriesLba entriesCrc diskGuid)

/-- The bytes that are written to the image file. -/
def build (uuid5 : Guid → List Char → Guid) (fit fs : List UInt8) : Except String (List UInt8) :=
  if (FS_LAST - FS_FIRST + 1) * SECTOR < fs.length then .error "fs.img exceeds the xv6fs partition"
  else do
    let diskGuid := uuid5 NAMESPACE
      ['x', 'v', '6', '-', 's', 'p', 'e', 'c', '-', 'v', 'f', '2', '-', 'd', 'i', 's', 'k']
    let bootEntry ← entry EFI_GUID (uuid5 NAMESPACE ['b', 'o', 'o', 't']) BOOT_FIRST (BOOT_FIRST + BOOT_SECTORS - 1)
      ['x', 'v', '6', 'b', 'o', 'o', 't']
    let fsEntry ← entry LINUX_FS_GUID (uuid5 NAMESPACE ['x', 'v', '6', 'f', 's']) FS_FIRST FS_LAST
      ['x', 'v', '6', 'f', 's']
    let image := tables diskGuid (partitionEntries bootEntry fsEntry)
    let boot ← makeFat16 fit
    let image := splice image (BOOT_FIRST * SECTOR) ((BOOT_FIRST + BOOT_SECTORS) * SECTOR) boot
    pure (splice image (FS_FIRST * SECTOR) (FS_FIRST * SECTOR + fs.length) fs)

/-! ## What the image holds -/

theorem length_ljust {n : Nat} {l : List UInt8} (h : l.length ≤ n) : (ljust n l).length = n := by
  unfold ljust
  rw [List.length_append, List.length_replicate]
  omega

theorem window_ljust {n o k : Nat} {l : List UInt8} (h : o + k ≤ l.length) : window (ljust n l) o k = window l o k := by
  unfold ljust window
  rw [List.drop_append_of_le_length (by omega), List.take_append_of_le_length (by rw [List.length_drop]; omega)]

section Header

variable {crc entriesCrc : UInt32} {current backup entriesLba : Nat} {diskGuid : Guid}

theorem length_headerFields : (headerFields crc current backup entriesLba entriesCrc diskGuid).flatten.length = 92 := by
  simp only [headerFields, List.length_flatten, List.map_cons, List.map_nil, Bytes.length_leBytes, Guid.length_bytesLe]
  rfl

theorem header_eq : header current backup entriesLba entriesCrc diskGuid = ljust SECTOR (headerFields
    (crc32 (headerFields 0 current backup entriesLba entriesCrc diskGuid).flatten) current backup entriesLba entriesCrc
      diskGuid).flatten := by
  unfold header
  refine congrArg (ljust SECTOR) ?_
  generalize crc32 _ = c
  simp only [headerFields, List.flatten_cons]
  rw [← List.append_assoc, ← List.append_assoc, List.take_left' (by simp), ← List.append_assoc,
    List.drop_left' (by simp)]
  simp only [List.append_assoc]

theorem length_header : (header current backup entriesLba entriesCrc diskGuid).length = SECTOR := by
  rw [header_eq, length_ljust]
  rw [length_headerFields]
  decide

end Header

section Entries

variable {b f : List UInt8}

theorem length_partitionEntries (hb : b.length = ENTRY_SIZE) (hf : f.length = ENTRY_SIZE) :
    (partitionEntries b f).length = ENTRY_COUNT * ENTRY_SIZE := by
  unfold partitionEntries
  have h1 := length_splice (l := List.replicate (ENTRY_COUNT * ENTRY_SIZE) 0) (a := 0) (b := ENTRY_SIZE) (x := b)
    (by lia) (by rw [List.length_replicate]; decide)
  rw [List.length_replicate] at h1
  rw [length_splice (by lia) (by rw [h1]; decide), h1]

theorem window_partitionEntries (hb : b.length = ENTRY_SIZE) (hf : f.length = ENTRY_SIZE) {i : Nat} (hi : i < ENTRY_COUNT) :
    window (partitionEntries b f) (ENTRY_SIZE * i) ENTRY_SIZE =
      if i = 0 then b else if i = 1 then f else List.replicate ENTRY_SIZE 0 := by
  unfold partitionEntries
  have h₁ := length_splice (l := List.replicate (ENTRY_COUNT * ENTRY_SIZE) 0) (a := 0) (b := ENTRY_SIZE) (x := b)
    (by lia) (by rw [List.length_replicate]; decide)
  rw [List.length_replicate] at h₁
  by_cases h0 : i = 0
  · rw [if_pos h0, h0, window_splice_before (by lia) (by lia)]
    have hself := window_splice_self (l := List.replicate (ENTRY_COUNT * ENTRY_SIZE) 0) (a := 0) (b := ENTRY_SIZE)
      (x := b) (Nat.zero_le _)
    rwa [hb] at hself
  · rw [if_neg h0]
    by_cases h1 : i = 1
    · have hself := window_splice_self (l := splice (List.replicate (ENTRY_COUNT * ENTRY_SIZE) 0) 0 ENTRY_SIZE b)
        (a := ENTRY_SIZE) (b := 2 * ENTRY_SIZE) (x := f) (by lia)
      rw [if_pos h1, h1]
      rwa [hf] at hself
    · rw [if_neg h1, window_splice_after (by lia) (by lia) (by lia),
        window_splice_after (by lia) (by lia) (by rw [List.length_replicate]; decide), window_replicate (by lia)]

end Entries

/-- The MBR, the header and the entries are at their places. -/
structure Tables (diskGuid : Guid) (entries image : List UInt8) : Prop where
  length : image.length = TOTAL_SECTORS * SECTOR
  mbr : window image 446 16 = mbrEntry
  signature : window image 510 2 = [0x55, 0xaa]
  header : window image SECTOR SECTOR = header 1 (TOTAL_SECTORS - 1) ENTRIES_LBA (crc32 entries) diskGuid
  entries : window image (ENTRIES_LBA * SECTOR) (ENTRY_COUNT * ENTRY_SIZE) = entries

theorem Tables.splice {diskGuid : Guid} {entries image x : List UInt8} {a b : Nat} (h : Tables diskGuid entries image)
    (ha : 34 * SECTOR ≤ a) (hab : b = a + x.length) (hb : b ≤ TOTAL_SECTORS * SECTOR) :
    Tables diskGuid entries (splice image a b x) := by
  have hlen := h.length
  refine ⟨?_, ?_, ?_, ?_, ?_⟩
  · rw [length_splice hab (by lia), hlen]
  · rw [window_splice_before (by lia) (by lia), h.mbr]
  · rw [window_splice_before (by lia) (by lia), h.signature]
  · rw [window_splice_before (by lia) (by lia), h.header]
  · rw [window_splice_before (by lia) (by lia), h.entries]

theorem tables_ok {diskGuid : Guid} {entries : List UInt8} (hlen : entries.length = ENTRY_COUNT * ENTRY_SIZE) :
    Tables diskGuid entries (tables diskGuid entries) := by
  have hmbr : mbrEntry.length = 16 := rfl
  have l0 : (List.replicate (TOTAL_SECTORS * SECTOR) (0 : UInt8)).length = TOTAL_SECTORS * SECTOR := List.length_replicate
  unfold tables
  simp only []
  generalize List.replicate (TOTAL_SECTORS * SECTOR) (0 : UInt8) = image0 at l0 ⊢
  have l1 := length_splice (l := image0) (a := 446) (b := 462) (x := mbrEntry) (by lia) (by lia)
  have l2 := length_splice (l := splice image0 446 462 mbrEntry) (a := 510) (b := 512) (x := [0x55, 0xaa]) rfl (by lia)
  have w1 := window_splice_self (l := image0) (a := 446) (b := 462) (x := mbrEntry) (by lia)
  have w1' : window (splice (splice image0 446 462 mbrEntry) 510 512 [0x55, 0xaa]) 446 16 = mbrEntry := by
    rw [window_splice_before (by lia) (by lia)]
    rwa [hmbr] at w1
  have w2 : window (splice (splice image0 446 462 mbrEntry) 510 512 [0x55, 0xaa]) 510 2 = [0x55, 0xaa] :=
    window_splice_self (by lia)
  generalize splice (splice image0 446 462 mbrEntry) 510 512 [0x55, 0xaa] = image2 at l2 w1' w2 ⊢
  have hheader : (header 1 (TOTAL_SECTORS - 1) ENTRIES_LBA (crc32 entries) diskGuid).length = SECTOR := length_header
  have hbackup : (header (TOTAL_SECTORS - 1) 1 (TOTAL_SECTORS - 33) (crc32 entries) diskGuid).length = SECTOR :=
    length_header
  generalize hfirst : header 1 (TOTAL_SECTORS - 1) ENTRIES_LBA (crc32 entries) diskGuid = first at hheader
  generalize header (TOTAL_SECTORS - 1) 1 (TOTAL_SECTORS - 33) (crc32 entries) diskGuid = second at hbackup
  have l3 := length_splice (l := image2) (a := SECTOR) (b := 2 * SECTOR) (x := first) (by lia) (by lia)
  have w3 := window_splice_self (l := image2) (a := SECTOR) (b := 2 * SECTOR) (x := first) (by lia)
  have hbase : Tables diskGuid entries (splice (splice image2 SECTOR (2 * SECTOR) first) (ENTRIES_LBA * SECTOR)
      (ENTRIES_LBA * SECTOR + entries.length) entries) := by
    refine ⟨?_, ?_, ?_, ?_, ?_⟩
    · rw [length_splice rfl (by lia)]
      lia
    · rw [window_splice_before (by lia) (by lia), window_splice_before (by lia) (by lia), w1']
    · rw [window_splice_before (by lia) (by lia), window_splice_before (by lia) (by lia), w2]
    · rw [window_splice_before (by lia) (by lia), hfirst]
      rwa [hheader] at w3
    · rw [← hlen]
      exact window_splice_self (by lia)
  have hentries := hbase.splice (x := entries) (a := (TOTAL_SECTORS - 33) * SECTOR) (by decide) rfl (by lia)
  rw [hentries.length]
  exact hentries.splice (x := second) (a := (TOTAL_SECTORS - 1) * SECTOR) (b := TOTAL_SECTORS * SECTOR) (by decide)
    (by lia) (Nat.le_refl _)

end Xv6.Sd
