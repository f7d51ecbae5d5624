import Xv6.Sd.Image

/-!
# Reading the boot partition

A reader of the FAT16 partition takes the first cluster and the size from the root directory, follows the chain of
clusters in the table and cuts what they hold to the size. `make_fat16` bounds the number of clusters by the length of
the table, which has room for more clusters than the partition. When the whole clusters of the payload lie inside of
the partition, the reader gets the payload back.
-/

namespace Xv6.Sd

open Data

variable {payload image l : List UInt8} {c clusters : Nat} {cs : List Nat}

abbrev CLUSTER : Nat := SECTORS_PER_CLUSTER * SECTOR
abbrev ROOT_OFFSET : Nat := (RESERVED + FATS * FAT_SECTORS) * SECTOR

/-- The clusters that `make_fat16` gives to the payload. -/
def clustersOf (payload : List UInt8) : Nat := (payload.length + CLUSTER - 1) / CLUSTER

/-! ## The reader -/

def fatCopy (image : List UInt8) (index : Nat) : List UInt8 :=
  window image ((RESERVED + index * FAT_SECTORS) * SECTOR) (FAT_SECTORS * SECTOR)

def nextCluster (image : List UInt8) (c : Nat) : Nat := Bytes.le (window (fatCopy image 0) (c * 2) 2)

def firstCluster (image : List UInt8) : Nat := Bytes.le (window image (ROOT_OFFSET + 26) 2)

def fileSize (image : List UInt8) : Nat := Bytes.le (window image (ROOT_OFFSET + 28) 4)

def clusterBytes (image : List UInt8) (c : Nat) : List UInt8 :=
  window image (DATA_START * SECTOR + (c - 2) * CLUSTER) CLUSTER

/-- The clusters from `c` up to the one with the end mark. -/
inductive Chain (image : List UInt8) : Nat → List Nat → Prop
  | last {c : Nat} (h : nextCluster image c = 0xffff) : Chain image c [c]
  | link {c : Nat} {cs : List Nat} (h : nextCluster image c ≠ 0xffff) (hcs : Chain image (nextCluster image c) cs) :
      Chain image c (c :: cs)

theorem Chain.unique {cs' : List Nat} (h : Chain image c cs) (h' : Chain image c cs') : cs = cs' := by
  induction h generalizing cs' with
  | last hend =>
    cases h' with
    | last => rfl
    | link hno => exact absurd hend hno
  | link hno _ ih =>
    cases h' with
    | last hend => exact absurd hend hno
    | link _ hcs => rw [ih hcs]

/-- The partition has its size, its tables are equal, and the chain of the file has no cycle, lies inside of the
partition and holds the payload. -/
structure Decodes (payload image : List UInt8) : Prop where
  length : image.length = BOOT_SECTORS * SECTOR
  copies : fatCopy image 0 = fatCopy image 1
  chain : ∃ cs, Chain image (firstCluster image) cs ∧ cs.Nodup ∧
    (∀ c ∈ cs, 2 ≤ c ∧ DATA_START + (c - 1) * SECTORS_PER_CLUSTER ≤ BOOT_SECTORS) ∧
    (cs.flatMap (clusterBytes image)).take (fileSize image) = payload

/-! ## The table -/

theorem length_packInto {fields : List UInt8} {off : Nat} (h : off + fields.length ≤ l.length) :
    (packInto l off fields).length = l.length := length_splice rfl h

theorem window_packInto_self {fields : List UInt8} {off : Nat} (h : off ≤ l.length) :
    window (packInto l off fields) off fields.length = fields := window_splice_self h

theorem window_packInto_of_disjoint {fields : List UInt8} {off o k : Nat} (hoff : off + fields.length ≤ l.length)
    (h : o + k ≤ off ∨ off + fields.length ≤ o) : window (packInto l off fields) o k = window l o k := by
  rcases h with h | h
  · exact window_splice_before h (by omega)
  · exact window_splice_after rfl h hoff

def fatEntry (clusters c : Nat) : Nat := if c = clusters + 1 then 0xffff else c + 1

/-- The loop writes the entries of the clusters from 2 on. -/
theorem fatLoop_entries {k : Nat} (hl : l.length = FAT_SECTORS * SECTOR) (hk : k + 2 ≤ FAT_SECTORS * SECTOR / 2) :
    ((List.range' 2 k).foldl (fun fat c => packInto fat (c * 2) (Bytes.leBytes 2 (fatEntry clusters c))) l).length =
        FAT_SECTORS * SECTOR ∧
      ∀ c, 2 ≤ c → c < 2 + k → window ((List.range' 2 k).foldl
        (fun fat c => packInto fat (c * 2) (Bytes.leBytes 2 (fatEntry clusters c))) l) (c * 2) 2 =
          Bytes.leBytes 2 (fatEntry clusters c) := by
  induction k with
  | zero => exact ⟨hl, fun c hc hck => absurd hck (by omega)⟩
  | succ k ih =>
    obtain ⟨hlen, hwin⟩ := ih (by omega)
    rw [List.range'_concat, List.foldl_append, List.foldl_cons, List.foldl_nil]
    generalize List.foldl _ l _ = fat at hlen hwin ⊢
    have hfit : (2 + 1 * k) * 2 + (Bytes.leBytes 2 (fatEntry clusters (2 + 1 * k))).length ≤ fat.length := by
      rw [Bytes.length_leBytes]
      lia
    refine ⟨by rw [length_packInto hfit, hlen], fun c hc hck => ?_⟩
    by_cases hlast : c = 2 + 1 * k
    · have hself := @window_packInto_self fat (Bytes.leBytes 2 (fatEntry clusters c)) (c * 2) (by omega)
      rw [Bytes.length_leBytes] at hself
      rwa [← hlast]
    · rw [window_packInto_of_disjoint hfit, hwin c hc (by omega)]
      rw [Bytes.length_leBytes]
      omega

theorem fatTable_entries (h : clusters + 2 < FAT_SECTORS * SECTOR / 2) :
    (fatTable clusters).length = FAT_SECTORS * SECTOR ∧
      ∀ c, 2 ≤ c → c < 2 + clusters → window (fatTable clusters) (c * 2) 2 = Bytes.leBytes 2 (fatEntry clusters c) := by
  refine fatLoop_entries ?_ h.le
  rw [length_packInto (by rw [List.length_replicate]; decide), List.length_replicate]

/-! ## The image -/

/-- What `make_fat16` has written. -/
structure Fat16 (payload image : List UInt8) : Prop where
  pos : 1 ≤ clustersOf payload
  lt : clustersOf payload + 2 < FAT_SECTORS * SECTOR / 2
  fat : ∀ index, index < FATS → fatCopy image index = fatTable (clustersOf payload)
  root : window image ROOT_OFFSET 32 = rootEntry payload.length
  data : window image (DATA_START * SECTOR) payload.length = payload
  length : image.length = max (BOOT_SECTORS * SECTOR) (DATA_START * SECTOR + payload.length)

theorem length_rootEntry (size : Nat) : (rootEntry size).length = 32 := by
  simp only [rootEntry, List.length_flatten, List.map_cons, List.map_nil, Bytes.length_leBytes]
  rfl

/-- The tables, the directory and the payload are written one behind the other. -/
theorem fat16_writes {fat root image0 : List UInt8} (hfat : fat.length = FAT_SECTORS * SECTOR) (hroot : root.length = 32)
    (h0 : image0.length = BOOT_SECTORS * SECTOR) (himage : image = splice (splice (splice (splice image0
      ((RESERVED + 0 * FAT_SECTORS) * SECTOR) ((RESERVED + 0 * FAT_SECTORS) * SECTOR + fat.length) fat)
      ((RESERVED + 1 * FAT_SECTORS) * SECTOR) ((RESERVED + 1 * FAT_SECTORS) * SECTOR + fat.length) fat)
      ROOT_OFFSET (ROOT_OFFSET + 32) root)
      (DATA_START * SECTOR) (DATA_START * SECTOR + payload.length) payload) :
    (∀ index, index < FATS → fatCopy image index = fat) ∧ window image ROOT_OFFSET 32 = root ∧
      window image (DATA_START * SECTOR) payload.length = payload ∧
      image.length = max (BOOT_SECTORS * SECTOR) (DATA_START * SECTOR + payload.length) := by
  have w1 := window_splice_self (l := image0) (a := (RESERVED + 0 * FAT_SECTORS) * SECTOR)
    (b := (RESERVED + 0 * FAT_SECTORS) * SECTOR + fat.length) (x := fat) (by lia)
  have l1 := length_splice (l := image0) (a := (RESERVED + 0 * FAT_SECTORS) * SECTOR) (x := fat) rfl (by lia)
  generalize splice image0 _ _ fat = image1 at himage w1 l1
  have w2 := window_splice_self (l := image1) (a := (RESERVED + 1 * FAT_SECTORS) * SECTOR)
    (b := (RESERVED + 1 * FAT_SECTORS) * SECTOR + fat.length) (x := fat) (by lia)
  have w2' : window (splice image1 ((RESERVED + 1 * FAT_SECTORS) * SECTOR)
      ((RESERVED + 1 * FAT_SECTORS) * SECTOR + fat.length) fat) ((RESERVED + 0 * FAT_SECTORS) * SECTOR) fat.length = fat := by
    rw [window_splice_before (by lia) (by lia), w1]
  have l2 := length_splice (l := image1) (a := (RESERVED + 1 * FAT_SECTORS) * SECTOR) (x := fat) rfl (by lia)
  generalize splice image1 _ _ fat = image2 at himage w2 w2' l2
  have w3 := window_splice_self (l := image2) (a := ROOT_OFFSET) (b := ROOT_OFFSET + 32) (x := root) (by lia)
  have l3 := length_splice (l := image2) (a := ROOT_OFFSET) (b := ROOT_OFFSET + 32) (x := root) (by lia) (by lia)
  rw [hroot] at w3
  rw [hfat] at w2 w2'
  subst himage
  refine ⟨fun index hindex => ?_, ?_, ?_, ?_⟩
  · unfold fatCopy
    rw [window_splice_before (by lia) (by lia), window_splice_before (by lia) (by lia)]
    match index, hindex with
    | 0, _ => exact w2'
    | 1, _ => exact w2
  · rw [window_splice_before (by lia) (by lia), w3]
  · exact window_splice_self (by lia)
  · rw [length_splice_eq_max rfl (by lia), l3, l2, l1, h0]

theorem makeFat16_fat16 (h : makeFat16 payload = .ok image) : Fat16 payload image := by
  unfold makeFat16 at h
  change (if clustersOf payload < 1 ∨ FAT_SECTORS * SECTOR / 2 ≤ clustersOf payload + 2 then _ else _) = _ at h
  split at h
  · cases h
  · rename_i hclusters
    obtain ⟨hpos, hlt⟩ := not_or.mp hclusters
    have hlt := Nat.not_le.mp hlt
    have hsector : bootSector.length = SECTOR := by decide +kernel
    have h0 : (splice (List.replicate (BOOT_SECTORS * SECTOR) (0 : UInt8)) 0 SECTOR bootSector).length =
        BOOT_SECTORS * SECTOR := by
      rw [length_splice (by lia) (by rw [List.length_replicate]; decide), List.length_replicate]
    obtain ⟨hfat, hroot, hdata, hlength⟩ := fat16_writes (fatTable_entries hlt).1 (length_rootEntry payload.length) h0
      (Except.ok.inj h).symm
    exact ⟨Nat.not_lt.mp hpos, hlt, hfat, hroot, hdata, hlength⟩

/-- The boot partition has its size when the payload fits behind the root directory. -/
theorem length_makeFat16 (h : makeFat16 payload = .ok image)
    (hlen : DATA_START * SECTOR + payload.length ≤ BOOT_SECTORS * SECTOR) : image.length = BOOT_SECTORS * SECTOR :=
  (makeFat16_fat16 h).length.trans (Nat.max_eq_left hlen)

/-! ## What the reader gets -/

theorem take_window {n m : Nat} (h : m ≤ n) (o : Nat) : (window l o n).take m = window l o m := by
  unfold window
  rw [List.take_take, Nat.min_eq_left h]

namespace Fat16

variable (h : Fat16 payload image)

include h

theorem nextCluster_eq (hc : 2 ≤ c) (hcl : c < 2 + clustersOf payload) :
    nextCluster image c = fatEntry (clustersOf payload) c := by
  have hlt := h.lt
  unfold nextCluster
  rw [h.fat 0 (by decide), (fatTable_entries hlt).2 c hc hcl, Bytes.le_leBytes, Nat.mod_eq_of_lt]
  unfold fatEntry
  split
  · decide
  · lia

theorem chain_from {k : Nat} (hc : 2 ≤ c) (hk : c + k = clustersOf payload + 1) :
    Chain image c (List.range' c (k + 1)) := by
  have hlt := h.lt
  have hnext := h.nextCluster_eq hc (by omega)
  unfold fatEntry at hnext
  induction k generalizing c with
  | zero =>
    rw [if_pos (by omega)] at hnext
    exact .last hnext
  | succ k ih =>
    rw [if_neg (by omega)] at hnext
    have hrest := ih (c := c + 1) (by omega) (by omega) (h.nextCluster_eq (by omega) (by omega))
    rw [List.range'_succ]
    exact .link (by lia) (hnext ▸ hrest)

theorem chain : Chain image 2 (List.range' 2 (clustersOf payload)) := by
  have hpos := h.pos
  obtain ⟨k, hk⟩ := Nat.exists_eq_add_of_le' hpos
  rw [hk]
  exact h.chain_from (Nat.le_refl 2) (by omega)

theorem window_root {o k : Nat} (hk : o + k ≤ 32) :
    window image (ROOT_OFFSET + o) k = window (rootEntry payload.length) o k := by
  rw [← h.root, window_window hk]

theorem firstCluster_eq : firstCluster image = 2 := by
  unfold firstCluster
  rw [h.window_root (by decide)]
  rfl

theorem length_lt : payload.length < 256 ^ 4 := by
  have hlt := h.lt
  unfold clustersOf at hlt
  lia

theorem fileSize_eq : fileSize image = payload.length := by
  have hfield : window (rootEntry payload.length) 28 4 = Bytes.leBytes 4 payload.length := rfl
  unfold fileSize
  rw [h.window_root (by decide), hfield, Bytes.le_leBytes, Nat.mod_eq_of_lt h.length_lt]

omit h in
/-- The clusters lie one behind the other. -/
theorem flatMap_clusterBytes (image : List UInt8) (k : Nat) :
    (List.range' 2 k).flatMap (clusterBytes image) = window image (DATA_START * SECTOR) (k * CLUSTER) := by
  induction k with
  | zero => simp [window]
  | succ k ih =>
    rw [List.range'_concat, List.flatMap_append, List.flatMap_singleton, ih, Nat.succ_mul k CLUSTER, ← window_append_window]
    simp [clusterBytes]

end Fat16

/-- **The boot partition.** A reader gets the payload back from the partition exactly when the clusters of the payload
lie inside of it. -/
theorem fat16_decodes_iff (h : makeFat16 payload = .ok image) :
    Decodes payload image ↔ DATA_START + clustersOf payload * SECTORS_PER_CLUSTER ≤ BOOT_SECTORS := by
  have hfat := makeFat16_fat16 h
  have hpos := hfat.pos
  constructor
  · rintro ⟨-, -, cs, hchain, -, hinside, -⟩
    rw [hfat.firstCluster_eq] at hchain
    obtain rfl := hchain.unique hfat.chain
    have hlast := hinside (clustersOf payload + 1) (List.mem_range'_1.mpr ⟨by omega, by omega⟩)
    exact hlast.2
  · intro hroom
    have hsize : payload.length ≤ clustersOf payload * CLUSTER := by
      unfold clustersOf
      lia
    refine ⟨?_, (hfat.fat 0 (by decide)).trans (hfat.fat 1 (by decide)).symm, List.range' 2 (clustersOf payload), ?_,
      List.nodup_range', fun c hc => ?_, ?_⟩
    · rw [hfat.length, Nat.max_eq_left (by lia)]
    · rw [hfat.firstCluster_eq]
      exact hfat.chain
    · have hmem := List.mem_range'_1.mp hc
      exact ⟨hmem.1, by lia⟩
    · rw [Fat16.flatMap_clusterBytes, hfat.fileSize_eq, take_window hsize, hfat.data]

theorem exists_makeFat16 (hpos : 1 ≤ clustersOf payload) (hlt : clustersOf payload + 2 < FAT_SECTORS * SECTOR / 2) :
    ∃ image, makeFat16 payload = .ok image := by
  have hno : ¬ (clustersOf payload < 1 ∨ FAT_SECTORS * SECTOR / 2 ≤ clustersOf payload + 2) := by omega
  exact ⟨_, if_neg hno⟩

theorem fat16_decodes_byte : ∃ image, makeFat16 [1] = .ok image ∧ Decodes [1] image := by
  obtain ⟨image, himage⟩ := @exists_makeFat16 [1] (by decide) (by decide)
  exact ⟨image, himage, (fat16_decodes_iff himage).mpr (by decide)⟩

/-- The table has room for 33000 clusters, and the partition grows beyond its size. -/
theorem fat16_grows : ∃ payload image, makeFat16 payload = .ok image ∧ BOOT_SECTORS * SECTOR < image.length ∧
    ¬ Decodes payload image := by
  obtain ⟨payload, hlen⟩ : ∃ payload : List UInt8, payload.length = 33000 * CLUSTER :=
    ⟨List.replicate _ 0, List.length_replicate⟩
  have hcount : clustersOf payload = 33000 := by
    unfold clustersOf
    lia
  obtain ⟨image, himage⟩ := @exists_makeFat16 payload (by rw [hcount]; decide) (by rw [hcount]; decide)
  have hlong : BOOT_SECTORS * SECTOR < image.length := by
    rw [(makeFat16_fat16 himage).length, hlen]
    decide
  exact ⟨payload, image, himage, hlong, fun hd => absurd hd.length hlong.ne'⟩

end Xv6.Sd
