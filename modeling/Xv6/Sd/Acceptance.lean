import Xv6.Data.Checked
import Xv6.Sd.Gpt

/-!
# What an accepted partition table says

`gpt_find_xv6fs` keeps the first sector of the partition in `match_lba` and takes a value other than 0 for the sign that
there has been a match. A match whose first sector is 0 is forgotten, so a second one is not seen as a duplicate. When no
match begins at sector 0, every table that is accepted has exactly one match, inside of the usable range.
-/

namespace Xv6.Sd

open Data

variable {readSector : UInt64 → Sector} {h : GptHeader} {n : Nat} {found found' lba : UInt64}

/-- The sector that holds the entry with number `i`. -/
def entrySector (readSector : UInt64 → Sector) (h : GptHeader) (i : Nat) : Sector :=
  readSector (h.entriesLba + UInt64.ofNat (i / (SECTOR / ENTRY_SIZE)))

def entryOf (readSector : UInt64 → Sector) (h : GptHeader) (i : Nat) : GptEntry :=
  GptEntry.read (entrySector readSector h i) (i % (SECTOR / ENTRY_SIZE))

/-- The bytes of the first `n` entries. -/
def entryBytes (readSector : UInt64 → Sector) (h : GptHeader) (n : Nat) : List UInt8 :=
  (List.range n).flatMap fun i =>
    (entrySector readSector h i).slice (i % (SECTOR / ENTRY_SIZE) * ENTRY_SIZE) ENTRY_SIZE

/-- The entry with number `i` has the type and the name of the file system. -/
def Named (readSector : UInt64 → Sector) (h : GptHeader) (i : Nat) : Prop := isXv6fs (entryOf readSector h i) = true

def Usable (h : GptHeader) (e : GptEntry) : Prop :=
  h.firstUsableLba ≤ e.firstLba ∧ e.firstLba ≤ e.lastLba ∧ e.lastLba ≤ h.lastUsableLba

/-- The checksums match, and exactly one entry is the file system: it begins at `lba` and is usable. -/
structure Accepted (readSector : UInt64 → Sector) (h : GptHeader) (lba : UInt64) : Prop where
  header : crc32Update 0 (((readSector 1).putU32 16 0).slice 0 h.headerSize.toNat) = h.headerCrc32
  entries : crc32Update 0 (entryBytes readSector h h.entryCount.toNat) = h.entriesCrc32
  unique : ∃! i, i < h.entryCount.toNat ∧ Named readSector h i
  entry : ∀ i, i < h.entryCount.toNat → Named readSector h i →
    (entryOf readSector h i).firstLba = lba ∧ Usable h (entryOf readSector h i)

/-! ## The scan -/

/-- What the scan of the first `n` entries has found. -/
def Scanned (readSector : UInt64 → Sector) (h : GptHeader) (n : Nat) (found : UInt64) : Prop :=
  (found = 0 ∧ ∀ i, i < n → ¬ Named readSector h i) ∨
    ∃ i, i < n ∧ Named readSector h i ∧ (entryOf readSector h i).firstLba = found ∧ Usable h (entryOf readSector h i) ∧
      ∀ j, j < n → Named readSector h j → j = i

/-- A slot that is accepted: it holds something else, or it is the first match. -/
theorem of_checkSlot {s : Sector} {slot : Nat} (hcheck : checkSlot h s found slot = .ok found') :
    (isXv6fs (GptEntry.read s slot) = false ∧ found' = found) ∨
      (isXv6fs (GptEntry.read s slot) ∧ found = 0 ∧ found' = (GptEntry.read s slot).firstLba ∧
        Usable h (GptEntry.read s slot)) := by
  unfold checkSlot at hcheck
  simp only [] at hcheck
  generalize GptEntry.read s slot = e at *
  by_cases hname : isXv6fs e = false
  · rw [if_pos hname] at hcheck
    exact .inl ⟨hname, (Except.ok.inj hcheck).symm⟩
  · rw [if_neg hname] at hcheck
    split at hcheck
    · cases hcheck
    rename_i hfound
    split at hcheck
    · cases hcheck
    rename_i hrange
    rw [not_or, not_or] at hrange
    exact .inr ⟨by simpa using hname, not_not.mp hfound, (Except.ok.inj hcheck).symm, UInt64.not_lt.mp hrange.1,
      UInt64.not_lt.mp hrange.2.2, UInt64.not_lt.mp hrange.2.1⟩

theorem Scanned.next (hs : Scanned readSector h n found)
    (hzero : ∀ i, i ≤ n → Named readSector h i → (entryOf readSector h i).firstLba ≠ 0)
    (hcheck : checkSlot h (entrySector readSector h n) found (n % (SECTOR / ENTRY_SIZE)) = .ok found') :
    Scanned readSector h (n + 1) found' := by
  rcases of_checkSlot hcheck with ⟨hno, rfl⟩ | ⟨hname, rfl, rfl, husable⟩
  · -- an entry of something else changes nothing
    have hnot : ¬ Named readSector h n := fun hn => absurd (hn.symm.trans hno) (by decide)
    rcases hs with ⟨hfound, hnone⟩ | ⟨i, hi, hnamed, hlba, husable, honly⟩
    · refine .inl ⟨hfound, fun i hi => ?_⟩
      rcases Nat.lt_succ_iff_lt_or_eq.mp hi with hlt | rfl
      · exact hnone i hlt
      · exact hnot
    · refine .inr ⟨i, Nat.lt_succ_of_lt hi, hnamed, hlba, husable, fun j hj hname => ?_⟩
      rcases Nat.lt_succ_iff_lt_or_eq.mp hj with hlt | rfl
      · exact honly j hlt hname
      · exact absurd hname hnot
  · rcases hs with ⟨-, hnone⟩ | ⟨i, hi, hnamed, hlba, -⟩
    · refine .inr ⟨n, Nat.lt_succ_self n, hname, rfl, husable, fun j hj hnj => ?_⟩
      rcases Nat.lt_succ_iff_lt_or_eq.mp hj with hlt | rfl
      · exact absurd hnj (hnone j hlt)
      · rfl
    · -- the match before this one has left its first sector, which is not 0
      exact absurd hlba (hzero i hi.le hnamed)

theorem Scanned.slots {q count : Nat} (hcount : count ≤ SECTOR / ENTRY_SIZE)
    (hs : Scanned readSector h (SECTOR / ENTRY_SIZE * q) found)
    (hzero : ∀ i, i < SECTOR / ENTRY_SIZE * q + count → Named readSector h i → (entryOf readSector h i).firstLba ≠ 0)
    (hfold : (List.range count).foldlM (checkSlot h (entrySector readSector h (SECTOR / ENTRY_SIZE * q))) found =
      .ok found') : Scanned readSector h (SECTOR / ENTRY_SIZE * q + count) found' := by
  induction count generalizing found' with
  | zero =>
    cases hfold
    exact hs
  | succ count ih =>
    rw [List.range_succ, List.foldlM_append] at hfold
    obtain ⟨found1, hfirst, hlast⟩ := exists_of_bind_eq_ok hfold
    have hslot : (SECTOR / ENTRY_SIZE * q + count) / (SECTOR / ENTRY_SIZE) = q ∧
        SECTOR / ENTRY_SIZE * q / (SECTOR / ENTRY_SIZE) = q ∧
        (SECTOR / ENTRY_SIZE * q + count) % (SECTOR / ENTRY_SIZE) = count := by lia
    refine (ih (by omega) (fun i hi => hzero i (by omega)) hfirst).next (fun i hi => hzero i (by omega)) ?_
    rw [entrySector, hslot.1, hslot.2.2]
    rw [entrySector, hslot.2.1] at hlast
    simpa using hlast

theorem entryBytes_sector {q count : Nat} (hcount : count ≤ SECTOR / ENTRY_SIZE) :
    entryBytes readSector h (SECTOR / ENTRY_SIZE * q + count) = entryBytes readSector h (SECTOR / ENTRY_SIZE * q) ++
      (entrySector readSector h (SECTOR / ENTRY_SIZE * q)).slice 0 (count * ENTRY_SIZE) := by
  induction count with
  | zero => simp [Bytes.slice]
  | succ count ih =>
    have hslot : (SECTOR / ENTRY_SIZE * q + count) / (SECTOR / ENTRY_SIZE) = q ∧
        SECTOR / ENTRY_SIZE * q / (SECTOR / ENTRY_SIZE) = q ∧
        (SECTOR / ENTRY_SIZE * q + count) % (SECTOR / ENTRY_SIZE) = count := by lia
    have hsplit : entryBytes readSector h (SECTOR / ENTRY_SIZE * q + count + 1) =
        entryBytes readSector h (SECTOR / ENTRY_SIZE * q + count) ++
          (entrySector readSector h (SECTOR / ENTRY_SIZE * q)).slice (count * ENTRY_SIZE) ENTRY_SIZE := by
      rw [entryBytes, List.range_succ, List.flatMap_append, List.flatMap_singleton, entrySector, entrySector, hslot.1,
        hslot.2.1, hslot.2.2]
      rfl
    rw [← Nat.add_assoc, hsplit, ih (by omega), List.append_assoc, Nat.succ_mul, slice_add, Nat.zero_add]

section

variable {S : Nat → UInt64 → Prop} {r : UInt32 × UInt64}
  (hslots : ∀ q count found found', count ≤ SECTOR / ENTRY_SIZE → SECTOR / ENTRY_SIZE * q + count ≤ h.entryCount.toNat →
    S (SECTOR / ENTRY_SIZE * q) found →
    (List.range count).foldlM (checkSlot h (entrySector readSector h (SECTOR / ENTRY_SIZE * q))) found = .ok found' →
    S (SECTOR / ENTRY_SIZE * q + count) found')

include hslots

/-- The loop from the sector `q` of the entries on, with what the slots of a sector keep. -/
theorem scanEntries_from {k : Nat} : ∀ {q : Nat} {crc : UInt32} {found : UInt64},
    h.entryCount.toNat ≤ SECTOR / ENTRY_SIZE * q + k →
    S (min (SECTOR / ENTRY_SIZE * q) h.entryCount.toNat) found →
    crc = crc32Update 0 (entryBytes readSector h (min (SECTOR / ENTRY_SIZE * q) h.entryCount.toNat)) →
    scanEntries readSector h k (min (SECTOR / ENTRY_SIZE * q) h.entryCount.toNat) crc found = .ok r →
    S h.entryCount.toNat r.2 ∧ r.1 = crc32Update 0 (entryBytes readSector h h.entryCount.toNat) := by
  induction k with
  | zero =>
    intro q crc found hk hs hcrc hscan
    rw [Nat.min_eq_right (by omega)] at hs hcrc
    cases hscan
    exact ⟨hs, hcrc⟩
  | succ k ih =>
    intro q crc found hk hs hcrc hscan
    unfold scanEntries at hscan
    split at hscan
    · rename_i hlt
      have hq : SECTOR / ENTRY_SIZE * q < h.entryCount.toNat := by omega
      rw [Nat.min_eq_left hq.le] at hs hcrc hscan
      obtain ⟨found1, hfold, hrest⟩ := exists_of_bind_eq_ok hscan
      generalize hcount : min (h.entryCount.toNat - SECTOR / ENTRY_SIZE * q) (SECTOR / ENTRY_SIZE) = count at *
      have hend : SECTOR / ENTRY_SIZE * q + count = min (SECTOR / ENTRY_SIZE * (q + 1)) h.entryCount.toNat := by
        rw [Nat.mul_succ]
        omega
      have hle : count ≤ SECTOR / ENTRY_SIZE := by omega
      have hs1 := hslots q count found found1 hle (by omega) hs hfold
      rw [hcrc, crc32Update_append] at hrest
      change scanEntries _ _ _ _ (crc32Update 0 (_ ++ (entrySector readSector h _).slice 0 _)) _ = _ at hrest
      rw [← entryBytes_sector hle, hend] at hrest
      rw [hend] at hs1
      exact ih (by lia) hs1 rfl hrest
    · rename_i hge
      rw [Nat.min_eq_right (by omega)] at hs hcrc
      cases hscan
      exact ⟨hs, hcrc⟩

theorem of_scanEntries (hstart : S 0 0) (hscan : scanEntries readSector h h.entryCount.toNat 0 0 0 = .ok r) :
    S h.entryCount.toNat r.2 ∧ r.1 = crc32Update 0 (entryBytes readSector h h.entryCount.toNat) :=
  scanEntries_from hslots (q := 0) (Nat.le_add_left _ _) (by simpa using hstart) (by simp [entryBytes, crc32Update] : (0 : UInt32) = _)
    (by simpa using hscan)

end

/-- A checksum goes on where the last one stopped, it is the complement of the remainder of the division by the
generator, and the sum over the sectors of the entries is that of all the entries. -/
theorem checksum_incremental :
    (∀ a b, crc32Update (crc32Update 0 a) b = crc32Update 0 (a ++ b)) ∧
    (∀ a c, crc32Update 0 a = c ↔ poly (wordBits (~~~ c)) = (.X ^ (8 * a.length) * poly (wordBits 0xffffffff) +
      .X ^ 32 * poly (a.flatMap byteBits)) %ₘ generator) ∧
    ∀ readSector h r, scanEntries readSector h h.entryCount.toNat 0 0 0 = .ok r →
      r.1 = crc32Update 0 (entryBytes readSector h h.entryCount.toNat) := by
  refine ⟨crc32Update_append 0, fun a c => ?_, fun readSector h r hscan => ?_⟩
  · rw [crc32Update_zero]
    exact crc32_eq_iff a c
  · exact (of_scanEntries (S := fun _ _ => True) (fun _ _ _ _ _ _ _ _ => trivial) trivial hscan).2

/-- An empty card with two sectors of entries. -/
theorem checksum_incremental_empty :
    ∃ r, scanEntries (fun _ _ => 0) { GptHeader.read fun _ => 0 with entryCount := 5 } 5 0 0 0 = .ok r ∧
      r.1 = crc32Update 0 (entryBytes (fun _ _ => 0) { GptHeader.read fun _ => 0 with entryCount := 5 } 5) :=
  ⟨_, rfl, checksum_incremental.2.2 _ _ _ rfl⟩

/-! ## The theorem -/

/-- **An accepted table.** What `gpt_find_xv6fs` returns is the first sector of the only partition with the type and the
name of the file system, and the partition is usable, exactly when no entry with that type and name begins at sector
0. -/
theorem gpt_accepts_iff (hfind : gptFindXv6fs readSector = .ok lba) :
    Accepted readSector (GptHeader.read (readSector 1)) lba ↔
      ∀ i, i < (GptHeader.read (readSector 1)).entryCount.toNat → Named readSector (GptHeader.read (readSector 1)) i →
        (entryOf readSector (GptHeader.read (readSector 1)) i).firstLba ≠ 0 := by
  unfold gptFindXv6fs at hfind
  simp only [] at hfind
  generalize GptHeader.read (readSector 1) = hd at *
  split at hfind
  · cases hfind
  split at hfind
  · cases hfind
  split at hfind
  · cases hfind
  rename_i hheader
  obtain ⟨⟨crc, found⟩, hscan, hend⟩ := exists_of_bind_eq_ok hfind
  dsimp only at hend
  split at hend
  · cases hend
  rename_i hcrc
  split at hend
  · cases hend
  rename_i hfound
  cases hend
  constructor
  · intro hacc i hi hname
    rw [(hacc.entry i hi hname).1]
    exact hfound
  · intro hzero
    obtain ⟨hs, hsum⟩ := of_scanEntries (S := Scanned readSector hd)
      (fun q count _ _ hle hcount hs => hs.slots hle fun i hi => hzero i (by omega)) (.inl ⟨rfl, by simp⟩) hscan
    rcases hs with ⟨h0, -⟩ | ⟨i, hi, hname, hlba, husable, honly⟩
    · exact absurd h0 hfound
    · refine ⟨not_not.mp hheader, hsum.symm.trans (not_not.mp hcrc), ⟨i, ⟨hi, hname⟩, fun j hj => honly j hj.1 hj.2⟩,
        fun j hj hnj => ?_⟩
      rw [honly j hj hnj]
      exact ⟨hlba, husable⟩

/-- A card with two partitions of the right type, at sector 0 and at sector 5. The second one has the right name; the
name of the first one begins with the given letter. -/
def card (letter : UInt8) (lba : UInt64) : Sector :=
  let entry (letter first : UInt8) : List UInt8 :=
    [0xaf, 0x3d, 0xc6, 0x0f, 0x83, 0x84, 0x72, 0x47, 0x8e, 0x79, 0x3d, 0x69, 0xd8, 0x47, 0x7d, 0xe4] ++
      List.replicate 16 0 ++ Bytes.leBytes 8 first.toNat ++ Bytes.leBytes 8 first.toNat ++ List.replicate 8 0 ++
      [letter, 0, 118, 0, 54, 0, 102, 0, 115, 0] ++ List.replicate 62 0
  let entries := entry letter 0 ++ entry 120 5
  let header (crc : UInt32) : List UInt8 :=
    [69, 70, 73, 32, 80, 65, 82, 84, 0, 0, 1, 0, 92, 0, 0, 0] ++ Bytes.leBytes 4 crc.toNat ++ List.replicate 4 0 ++
      Bytes.leBytes 8 1 ++ List.replicate 16 0 ++ Bytes.leBytes 8 9 ++ List.replicate 16 0 ++ Bytes.leBytes 8 2 ++
      Bytes.leBytes 4 2 ++ Bytes.leBytes 4 128 ++ Bytes.leBytes 4 (crc32 entries).toNat
  let sector : List UInt8 :=
    if lba = 0 then List.replicate 510 0xee ++ [0x55, 0xaa]
    else if lba = 1 then header (crc32 (header 0))
    else entries
  fun i => sector.getD i 0

set_option maxRecDepth 20000 in
/-- The sector that is found is 5, whether or not the first partition has the right name. -/
theorem card_parts :
    ((gptFindXv6fs (card 0)).toOption = some 5 ∧ (gptFindXv6fs (card 120)).toOption = some 5) ∧
    ((GptHeader.read (card 0 1)).entryCount = 2 ∧ (GptHeader.read (card 120 1)).entryCount = 2) ∧
    isXv6fs (entryOf (card 0) (GptHeader.read (card 0 1)) 0) = false ∧
    (entryOf (card 0) (GptHeader.read (card 0 1)) 1).firstLba = 5 ∧
    isXv6fs (entryOf (card 120) (GptHeader.read (card 120 1)) 0) ∧
    isXv6fs (entryOf (card 120) (GptHeader.read (card 120 1)) 1) := by decide +kernel

theorem gpt_accepts_one : gptFindXv6fs (card 0) = .ok 5 ∧ Accepted (card 0) (GptHeader.read (card 0 1)) 5 := by
  obtain ⟨⟨hfind, -⟩, ⟨hcount, -⟩, hother, hfirst, -⟩ := card_parts
  have hok := eq_ok_of_toOption hfind
  refine ⟨hok, (gpt_accepts_iff hok).mpr fun i hi hname => ?_⟩
  rw [hcount] at hi
  match i, hi, hname with
  | 0, _, hname => exact absurd (hname.symm.trans hother) (by decide)
  | 1, _, _ =>
    rw [hfirst]
    decide

/-- The second match is not seen as a duplicate. -/
theorem gpt_accepts_two : gptFindXv6fs (card 120) = .ok 5 ∧ ¬ Accepted (card 120) (GptHeader.read (card 120 1)) 5 := by
  obtain ⟨⟨-, hfind⟩, ⟨-, hcount⟩, -, -, hname0, hname1⟩ := card_parts
  refine ⟨eq_ok_of_toOption hfind, fun h => ?_⟩
  have hlt : ∀ i, i < 2 → i < (GptHeader.read (card 120 1)).entryCount.toNat := by
    rw [hcount]
    exact fun i hi => hi
  exact absurd (h.unique.unique ⟨hlt 0 (by decide), hname0⟩ ⟨hlt 1 (by decide), hname1⟩) (by decide)

end Xv6.Sd
