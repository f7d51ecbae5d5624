import Xv6.Fs.Slots
import Xv6.Data.SlotTable
import Mathlib.Data.List.TakeWhile

/-!
# A directory is a finite map

The entries of a directory are a table of slots: an entry with inode number zero is a free slot. A
name is looked up by `dirlookup`, entered by `dirlink` and removed as `unlink_helper` does it, by
writing zeros over its entry. Whatever sequence of these operations a process performs on a
directory that it has locked, and whatever happens to the rest of the file system between them, the
names of the entries are different and the table represents the map that the results of the
operations describe.
-/

namespace Xv6.Fs

open Data Coop Prog Storage Function

/-! ## The inode of an entry -/

/-- What `iget` does to the cache. An entry that is in use keeps its fields. -/
structure Got (inum : Nat) (ip : Fin NINODE) (s s' : State) : Prop where
  sb : s'.sb = s.sb
  disk : s'.disk = s.disk
  log : s'.log = s.log
  ftable : s'.ftable = s.ftable
  ofile : s'.ofile = s.ofile
  other : ∀ j, j ≠ ip → s'.icache j = s.icache j
  inum_eq : (s'.icache ip).inum = inum
  cases : (1 ≤ (s.icache ip).ref ∧ s'.icache ip = { s.icache ip with ref := (s.icache ip).ref + 1 }) ∨
    ((s.icache ip).ref = 0 ∧ (s'.icache ip).ref = 1 ∧ (s'.icache ip).valid = false ∧
      ∀ j, 1 ≤ (s.icache j).ref → (s.icache j).inum ≠ inum)

theorem got_of_igetStep {inum : Nat} {ip : Fin NINODE} {s s' : State}
    (h : igetStep inum s = .ok (ip, s')) : Got inum ip s s' := by
  unfold igetStep at h
  split at h
  · rename_i i hfind
    have hi := List.find?_some hfind
    rw [decide_eq_true_eq] at hi
    cases h
    have hself : (s.modInode ip fun ip => { ip with ref := ip.ref + 1 }).icache ip =
        { s.icache ip with ref := (s.icache ip).ref + 1 } := update_self _ _ _
    refine ⟨rfl, rfl, rfl, rfl, rfl, fun j hj => update_of_ne hj _ _, ?_, Or.inl ⟨hi.1, hself⟩⟩
    rw [hself]
    exact hi.2
  · rename_i hnone
    split at h
    · rename_i i hfind
      have hi := List.find?_some hfind
      rw [decide_eq_true_eq] at hi
      cases h
      have hself : (s.modInode ip fun ip => { ip with inum := inum, ref := 1, valid := false }).icache ip =
          { s.icache ip with inum := inum, ref := 1, valid := false } := update_self _ _ _
      refine ⟨rfl, rfl, rfl, rfl, rfl, fun j hj => update_of_ne hj _ _, ?_,
        Or.inr ⟨hi, ?_, ?_, fun j hj he => ?_⟩⟩
      · rw [hself]
      · rw [hself]
      · rw [hself]
      · have hno := List.find?_eq_none.mp hnone j (List.mem_finRange j)
        exact hno (decide_eq_true ⟨hj, he⟩)
    · cases h

variable {k : Nat}

section Operations

variable {p : Pid} {dp ip : Fin NINODE} {s s' : State} {n inum : Nat}

theorem Dir.congr (h : Dir dp n s) (hsb : s'.sb = s.sb) (hdisk : s'.disk = s.disk)
    (hinum : (s'.icache dp).inum = (s.icache dp).inum) (hdin : s'.din dp = s.din dp)
    (href : 1 ≤ (s'.icache dp).ref) : Dir dp n s' where
  mapped := by rw [hsb, hdisk, hinum, hdin]; exact h.mapped
  ref := href
  type := by rw [hdin]; exact h.type
  size := by rw [hdin]; exact h.size
  le := h.le
  filled := by rw [hdisk, hdin]; exact h.filled

theorem slot_congr (hdisk : s'.disk = s.disk) (hdin : s'.din dp = s.din dp) (k : Nat) :
    slot s' dp k = slot s dp k := by
  unfold slot
  rw [hdisk, hdin]

section

variable (h : Got inum ip s s')
include h

theorem Got.entry (hdp : 1 ≤ (s.icache dp).ref) :
    (s'.icache dp).inum = (s.icache dp).inum ∧ s'.din dp = s.din dp ∧ 1 ≤ (s'.icache dp).ref := by
  by_cases he : dp = ip
  · subst he
    rcases h.cases with ⟨_, hself⟩ | ⟨hzero, _⟩
    · unfold State.din
      rw [hself]
      exact ⟨rfl, rfl, by simp⟩
    · omega
  · unfold State.din
    rw [h.other dp he]
    exact ⟨rfl, rfl, hdp⟩

theorem Got.dir (hd : Dir dp n s) : Dir dp n s' := by
  obtain ⟨hinum, hdin, href⟩ := h.entry hd.ref
  exact hd.congr h.sb h.disk hinum hdin href

theorem Got.slot_eq (hd : Dir dp n s) (k : Nat) : slot s' dp k = slot s dp k :=
  slot_congr h.disk (h.entry hd.ref).2.1 k

theorem Got.room (hr : Room k s) : Room k s' where
  logsize := by rw [h.log]; exact hr.logsize
  size := by rw [h.log]; exact hr.size
  outstanding := by rw [h.log]; exact hr.outstanding

/-- The reference that `iget` took is dropped again. The inode is not reclaimed: it was in use before,
or its fields have not been read. -/
theorem Got.iput_back :
    Total (iput p ip) (fun _ s'' => (s''.sb = s.sb ∧ s''.disk = s.disk ∧ s''.ftable = s.ftable ∧
      s''.ofile = s.ofile) ∧ ∀ j, 1 ≤ (s.icache j).ref → s''.icache j = s.icache j) s' := by
  have hkeep : (s'.icache ip).ref ≠ 1 ∨ (s'.icache ip).valid = false ∨ (s'.icache ip).din.nlink ≠ 0 := by
    rcases h.cases with ⟨hone, hself⟩ | ⟨_, _, hvalid, _⟩
    · left
      rw [hself]
      show (s.icache ip).ref + 1 ≠ 1
      omega
    · exact Or.inr (Or.inl hvalid)
  have hpos : 1 ≤ (s'.icache ip).ref := by
    rcases h.cases with ⟨_, hself⟩ | ⟨_, hone, _⟩
    · rw [hself]
      exact Nat.le_add_left _ _
    · omega
  unfold iput
  show Total (if _ then _ else _) _ s'
  rw [if_pos hkeep]
  refine ensures_check_bind.mpr ⟨fun _ => ?_, fun hc => absurd hpos (of_decide_eq_false hc)⟩
  refine ⟨⟨h.sb, h.disk, h.ftable, h.ofile⟩, fun j hj => ?_⟩
  by_cases he : j = ip
  · subst he
    rcases h.cases with ⟨_, hself⟩ | ⟨hzero, _⟩
    · refine (update_self _ _ _).trans ?_
      rw [hself]
      rfl
    · omega
  · exact (update_of_ne he _ _).trans (h.other j he)

theorem Got.iput_total (hd : Dir dp n s) :
    Total (iput p ip) (fun _ s'' => Dir dp n s'' ∧ ∀ k, slot s'' dp k = slot s dp k) s' := by
  refine ensures_mono h.iput_back ?_
  rintro _ s'' ⟨⟨hsb, hdisk, _, _⟩, hback⟩
  have hentry := hback dp hd.ref
  have hdin : s''.din dp = s.din dp := congrArg Inode.din hentry
  have href : 1 ≤ (s''.icache dp).ref := by
    rw [hentry]
    exact hd.ref
  exact ⟨hd.congr hsb hdisk (congrArg Inode.inum hentry) hdin href, slot_congr hdisk hdin⟩

end

end Operations

/-! ## Names -/

/-- A name of a directory entry: one to `DIRSIZ - 1` bytes, none of which ends it. -/
structure IsName (name : List UInt8) : Prop where
  pos : 1 ≤ name.length
  lt : name.length < DIRSIZ
  bytes : ∀ c, c ∈ name → c ≠ 0 ∧ c ≠ SLASH

theorem IsName.cname_eq {name : List UInt8} (h : IsName name) : cname name = name := by
  have htake : name.take DIRSIZ = name := List.take_of_length_le (by have := h.lt; omega)
  rw [cname, htake]
  refine List.takeWhile_eq_self_iff.mpr fun c hc => ?_
  simpa using (h.bytes c hc).1

/-- What `strncpy` writes is equal to the name for `strncmp`. -/
theorem IsName.cname_padName {name : List UInt8} (h : IsName name) : cname (padName name) = name := by
  have hlen := h.lt
  have htake : name.take DIRSIZ = name := List.take_of_length_le (by omega)
  have hpad : (padName name).take DIRSIZ = padName name :=
    List.take_of_length_le (by rw [length_padName])
  have hzero : List.replicate (DIRSIZ - name.length) (0 : UInt8) =
      0 :: List.replicate (DIRSIZ - name.length - 1) 0 := by
    rw [← List.replicate_succ]
    congr 1
    omega
  rw [cname, hpad, padName, htake, hzero, List.takeWhile_append_of_pos fun c hc => by
    simpa using (h.bytes c hc).1]
  simp

/-- What an entry says: nothing when it is free. -/
def Dirent.live (e : Dirent) : Option (List UInt8 × UInt16) :=
  if e.inum = 0 then none else some (cname e.name, e.inum)

theorem Dirent.live_eq_none {e : Dirent} : e.live = none ↔ e.inum = 0 := by
  unfold live
  split <;> simp [*]

theorem Dirent.live_eq_some {e : Dirent} {a : List UInt8} {b : UInt16} :
    e.live = some (a, b) ↔ e.inum ≠ 0 ∧ cname e.name = a ∧ e.inum = b := by
  unfold live
  split <;> simp [*]

theorem matches_iff {name : List UInt8} (h : IsName name) {e : Dirent} :
    Matches name e ↔ e.live = some (name, e.inum) := by
  rw [Dirent.live_eq_some, Matches, nameEq, beq_iff_eq, h.cname_eq]
  exact ⟨fun hm => ⟨hm.1, hm.2.symm, rfl⟩, fun hm => ⟨hm.1, hm.2.1.symm⟩⟩

/-! ## The operations -/

/-- What a process does to a directory that it has locked. -/
inductive DirOp
  | lookup (name : List UInt8)
  | link (name : List UInt8) (inum : UInt16)
  | clear (name : List UInt8)

/-- The inode number and the offset that a search has found, or whether a change was made. -/
inductive DirResult
  | found (r : Option (Nat × Nat))
  | done (ok : Bool)
  deriving DecidableEq

namespace DirOp

/-- The code of an operation. An entry is cleared by the `writei` of `unlink_helper`. -/
def code (p : Pid) (dp : Fin NINODE) : DirOp → Prog State DirResult
  | lookup name => do
    match ← dirlookup p dp name with
    | none => pure (.found none)
    | some (ip, off) =>
      let inum ← gets fun s => (s.icache ip).inum
      pure (.found (some (inum, off)))
  | link name inum => do
    let ok ← dirlink p dp name inum.toNat
    pure (.done ok)
  | clear name => do
    match ← dirlookup p dp name with
    | none => pure (.done false)
    | some (_, off) =>
      let r ← writei p dp (.ofList (List.replicate DESIZE 0)) (UInt32.ofNat off) (UInt32.ofNat DESIZE)
      pure (.done (r == some DESIZE))

def Valid : DirOp → Prop
  | lookup name => IsName name
  | link name inum => IsName name ∧ inum ≠ 0
  | clear name => IsName name

end DirOp

/-- The map that a result describes: the last number linked under a name and not cleared since. -/
def record (m : List UInt8 → Option UInt16) : DirOp × DirResult → List UInt8 → Option UInt16
  | (.link name inum, .done true) => update m name (some inum)
  | (.clear name, .done true) => update m name none
  | _ => m

/-- The map after the given operations with their results, from the first to the last. -/
def mapOf (l : List (DirOp × DirResult)) : List UInt8 → Option UInt16 := l.foldl record fun _ => none

/-- The entry of a removed name. -/
def Dirent.zero : Dirent := ⟨0, List.replicate DIRSIZ 0⟩

/-- The result of an operation on a directory with `n` entries that represents the map `m`. -/
def Replies (dp : Fin NINODE) (n : Nat) (m : List UInt8 → Option UInt16) (s : State) :
    DirOp → DirResult → State → Prop
  | .lookup name, .found none, s' =>
    m name = none ∧ Dir dp n s' ∧ ∀ j, j < n → slot s' dp j = slot s dp j
  | .lookup name, .found (some (inum, off)), s' =>
    (∃ b, m name = some b ∧ inum = b.toNat) ∧
      (∃ k, k < n ∧ off = DESIZE * k ∧ ∀ j, j < n → (Matches name (slot s dp j) ↔ j = k)) ∧
      Dir dp n s' ∧ ∀ j, j < n → slot s' dp j = slot s dp j
  | .link name inum, .done ok, s' =>
    (ok = false ↔ m name ≠ none ∨ (∀ j, j < n → (slot s dp j).inum ≠ 0) ∧ ¬ Fits dp s n) ∧
      (ok = false → Dir dp n s' ∧ ∀ j, j < n → slot s' dp j = slot s dp j) ∧
      (ok = true → ∃ k, Vacant dp n s 0 k ∧ Dir dp (max n (k + 1)) s' ∧ ∀ j, j < max n (k + 1) →
        slot s' dp j = if j = k then ⟨inum, padName name⟩ else slot s dp j)
  | .clear name, .done ok, s' =>
    (ok = true ↔ m name ≠ none) ∧ Dir dp n s' ∧
      ∀ j, j < n → (Matches name (slot s dp j) → slot s' dp j = Dirent.zero) ∧
        (¬ Matches name (slot s dp j) → slot s' dp j = slot s dp j)
  | _, _, _ => False

/-- The directory's entries represent `m`. -/
abbrev IsMap (dp : Fin NINODE) (n : Nat) (m : List UInt8 → Option UInt16) (s : State) : Prop :=
  SlotTable.Represents (fun k => (slot s dp k).live) n m

section Answering

variable {p : Pid} {dp : Fin NINODE} {s s' : State} {n : Nat} {m : List UInt8 → Option UInt16}
  {name : List UInt8}

/-- The result and the directory after an operation. -/
def Refines (dp : Fin NINODE) (n : Nat) (m : List UInt8 → Option UInt16) (s : State) (o : DirOp)
    (r : DirResult) (s' : State) : Prop :=
  Replies dp n m s o r s' ∧ ∃ n', Dir dp n' s' ∧ IsMap dp n' (record m (o, r)) s'

theorem IsMap.of_slots (h : IsMap dp n m s) (hs : ∀ j, j < n → slot s' dp j = slot s dp j) : IsMap dp n m s' :=
  SlotTable.Represents.congr h fun j hj => by rw [hs j hj]

theorem Found.map_eq_none (h : IsMap dp n m s) (hname : IsName name)
    (hf : Found dp n name s 0 none s') : m name = none := by
  refine SlotTable.Represents.eq_none h fun k hk b he => hf.2 k (Nat.zero_le k) hk ?_
  obtain ⟨hinum, ha, rfl⟩ := Dirent.live_eq_some.mp he
  exact (matches_iff hname).mpr he

theorem IsMap.map_eq_some (h : IsMap dp n m s) (hname : IsName name) (hk : k < n)
    (hm : Matches name (slot s dp k)) : m name = some (slot s dp k).inum :=
  (h.some_iff name _).mpr ⟨k, hk, (matches_iff hname).mp hm⟩

theorem IsMap.matches_iff_eq (h : IsMap dp n m s) (hname : IsName name) (hk : k < n)
    (hm : Matches name (slot s dp k)) {j : Nat} (hj : j < n) :
    Matches name (slot s dp j) ↔ j = k := by
  refine ⟨fun hmj => ?_, fun he => by rwa [he]⟩
  exact h.unique j k name _ _ hj hk ((matches_iff hname).mp hmj) ((matches_iff hname).mp hm)

theorem lookup_refines (hd : Dir dp n s) (h : IsMap dp n m s) (hfree : FreeSlot s) (hname : IsName name) :
    Total (DirOp.code p dp (.lookup name)) (Refines dp n m s (.lookup name)) s := by
  apply ensures_seq (dirlookup_total hd hfree name)
  intro r s1 hf
  rcases r with _ | ⟨ip, off⟩
  · have hnone := hf.map_eq_none h hname
    obtain ⟨rfl, _⟩ := hf
    exact ⟨⟨hnone, hd, fun _ _ => rfl⟩, n, hd, h⟩
  · obtain ⟨k, _, hk, rfl, hm, hget⟩ := hf
    have hgot := got_of_igetStep hget
    have hslots : ∀ j, j < n → slot s1 dp j = slot s dp j := fun j _ => hgot.slot_eq hd j
    refine ⟨⟨⟨_, h.map_eq_some hname hk hm, hgot.inum_eq⟩, ⟨k, hk, rfl, fun j hj => ?_⟩, hgot.dir hd,
      hslots⟩, n, hgot.dir hd, h.of_slots hslots⟩
    exact h.matches_iff_eq hname hk hm hj

theorem Dir.fits (hd : Dir dp n s) (hk : k < n) : Fits dp s k := by
  refine ⟨?_, Or.inl (hd.filled _ (by lia))⟩
  have := hd.le
  lia

theorem clear_refines (hd : Dir dp n s) (h : IsMap dp n m s) (hfree : FreeSlot s) (hr : Room 7 s)
    (hname : IsName name) :
    Total (DirOp.code p dp (.clear name)) (Refines dp n m s (.clear name)) s := by
  apply ensures_seq (dirlookup_total hd hfree name)
  intro r s1 hf
  rcases r with _ | ⟨ip, off⟩
  · have hnone := hf.map_eq_none h hname
    obtain ⟨rfl, hno⟩ := hf
    refine ⟨⟨⟨nofun, fun hne => absurd hnone hne⟩, hd, fun j hj => ⟨fun hm => ?_, fun _ => rfl⟩⟩,
      n, hd, h⟩
    exact absurd hm (hno j (Nat.zero_le j) hj)
  · obtain ⟨k, _, hk, rfl, hm, hget⟩ := hf
    have hgot := got_of_igetStep hget
    have hd1 := hgot.dir hd
    apply ensures_seq (writei_total hd1 (hgot.room hr) (Nat.le_of_lt hk) List.length_replicate)
    intro r s' hw
    have hok : r = some DESIZE := hw.iff.mpr (hd1.fits hk)
    obtain ⟨hd', hslots⟩ := hw.grown hok
    rw [Nat.max_eq_left hk] at hd' hslots
    have hslots' : ∀ j, j < n → slot s' dp j = if j = k then Dirent.zero else slot s dp j := by
      intro j hj
      rw [hslots j hj, hgot.slot_eq hd]
      rfl
    subst hok
    refine ⟨⟨⟨fun _ => ?_, fun _ => rfl⟩, hd', fun j hj => ?_⟩, n, hd', ?_⟩
    · rw [h.map_eq_some hname hk hm]
      exact nofun
    · rw [h.matches_iff_eq hname hk hm hj, hslots' j hj]
      exact ⟨fun he => if_pos he, fun he => if_neg he⟩
    · refine SlotTable.Represents.erase h hk ((matches_iff hname).mp hm) fun j hj => ?_
      rw [hslots' j hj]
      by_cases hjk : j = k
      · rw [if_pos hjk, if_pos hjk]
        rfl
      · rw [if_neg hjk, if_neg hjk]

theorem length_encode_entry (inum : UInt16) (name : List UInt8) :
    (Dirent.encode ⟨inum, padName name⟩).length = DESIZE := by
  rw [Dirent.encode, List.length_append, Bytes.length_leBytes, length_padName]
  rfl

/-- The entry of a new name in slot `k`. -/
theorem IsMap.put (h : IsMap dp n m s) (hname : IsName name) {inum : UInt16} (hinum : inum ≠ 0)
    (hnone : m name = none) (hv : Vacant dp n s 0 k)
    (hslots : ∀ j, j < max n (k + 1) →
      slot s' dp j = if j = k then ⟨inum, padName name⟩ else slot s dp j) :
    IsMap dp (max n (k + 1)) (update m name (some inum)) s' := by
  have hopen : SlotTable.Open (fun k => (slot s dp k).live) n k :=
    hv.2.2.imp_left fun hk => ⟨hk.1, Dirent.live_eq_none.mpr hk.2⟩
  refine SlotTable.Represents.put h hnone hopen rfl fun j hj => ?_
  rw [hslots j hj]
  by_cases hjk : j = k
  · rw [if_pos hjk, if_pos hjk]
    exact Dirent.live_eq_some.mpr ⟨hinum, hname.cname_padName, rfl⟩
  · rw [if_neg hjk, if_neg hjk]

theorem link_refines (hd : Dir dp n s) (h : IsMap dp n m s) (hfree : FreeSlot s) (hr : Room 7 s)
    (hname : IsName name) {inum : UInt16} (hinum : inum ≠ 0) :
    Total (DirOp.code p dp (.link name inum)) (Refines dp n m s (.link name inum)) s := by
  refine ensures_seq ?_ fun _ _ h => h
  apply ensures_seq (dirlookup_total hd hfree name)
  intro r s1 hf
  rcases r with _ | ⟨ip, off⟩
  · have hnone := hf.map_eq_none h hname
    obtain ⟨rfl, _⟩ := hf
    have hfuel : n < 0 + ((s1.din dp).size.toNat + 1) := by
      rw [hd.size]
      lia
    show Total (dirlinkSlot p dp _ (DESIZE * 0) >>= _) _ s1
    apply ensures_seq (dirlinkSlot_total hd (Nat.zero_le n) hfuel)
    rintro off s2 ⟨rfl, k, rfl, hv⟩
    have hkn : k ≤ n := by
      rcases hv.2.2 with hk | hk <;> omega
    have hdecode : Dirent.decode (Dirent.encode ⟨UInt16.ofNat inum.toNat, padName name⟩) = ⟨inum, padName name⟩ := by
      rw [Dirent.decode_encode, UInt16.ofNat_toNat]
    have hwrite := @writei_total k p dp s2 n _ hd hr hkn
      (length_encode_entry (UInt16.ofNat inum.toNat) name)
    rw [hdecode] at hwrite
    apply ensures_seq hwrite
    intro r s' hw
    -- the write fails only when the directory has to grow
    have hfails : r ≠ some DESIZE ↔ (∀ j, j < n → (slot s2 dp j).inum ≠ 0) ∧ ¬ Fits dp s2 n := by
      rw [Ne, hw.iff]
      rcases hv.2.2 with hk | rfl
      · exact ⟨fun hno => absurd (hd.fits hk.1) hno, fun hno => absurd hk.2 (hno.1 k hk.1)⟩
      · exact ⟨fun hno => ⟨fun j => hv.2.1 j (Nat.zero_le j), hno⟩, fun hno => hno.2⟩
    by_cases hok : r = some DESIZE
    · obtain ⟨hd', hslots⟩ := hw.grown hok
      subst hok
      refine ⟨⟨⟨nofun, ?_⟩, nofun, fun _ => ⟨k, hv, hd', hslots⟩⟩,
        _, hd', h.put hname hinum hnone hv hslots⟩
      rintro (hc | hc)
      · exact absurd hnone hc
      · exact absurd rfl (hfails.mpr hc)
    · obtain ⟨hd', hslots⟩ := hw.same hok
      have hfalse : (r == some DESIZE) = false := beq_eq_false_iff_ne.mpr hok
      show Refines dp n m s2 (.link name inum) (.done (r == some DESIZE)) s'
      rw [hfalse]
      exact ⟨⟨⟨fun _ => Or.inr (hfails.mp hok), fun _ => rfl⟩, fun _ => ⟨hd', hslots⟩,
        nofun⟩, n, hd', h.of_slots hslots⟩
  · obtain ⟨k, _, hk, rfl, hm, hget⟩ := hf
    have hgot := got_of_igetStep hget
    apply ensures_seq (hgot.iput_total hd)
    rintro _ s' ⟨hd', hslots⟩
    have hsome : m name ≠ none := by
      rw [h.map_eq_some hname hk hm]
      exact nofun
    exact ⟨⟨⟨fun _ => Or.inl hsome, fun _ => rfl⟩, fun _ => ⟨hd', fun j _ => hslots j⟩,
      nofun⟩, n, hd', h.of_slots fun j _ => hslots j⟩

theorem code_refines (hd : Dir dp n s) (h : IsMap dp n m s) (hfree : FreeSlot s) (hr : Room 7 s)
    {o : DirOp} (ho : o.Valid) : Total (o.code p dp) (Refines dp n m s o) s := by
  cases o with
  | lookup name => exact lookup_refines hd h hfree ho
  | link name inum => exact link_refines hd h hfree hr ho.1 ho.2
  | clear name => exact clear_refines hd h hfree hr ho

end Answering

/-! ## Sequences of operations -/

/-- What happens elsewhere does not touch the directory: its fields, its pointers and its blocks are
as they were. -/
structure Elsewhere (dp : Fin NINODE) (s s' : State) : Prop where
  ref : 1 ≤ (s'.icache dp).ref
  din : s'.din dp = s.din dp
  mapped : Mapped s'.sb (s'.icache dp).inum s'.disk (s'.din dp)
  ptr_eq : ∀ k, ptr s'.disk (s'.din dp) k = ptr s.disk (s.din dp) k
  block : ∀ k, ptr s.disk (s.din dp) k ≠ 0 →
    s'.disk (ptr s.disk (s.din dp) k) = s.disk (ptr s.disk (s.din dp) k)

theorem Elsewhere.dir {dp : Fin NINODE} {n : Nat} {s s' : State} (h : Elsewhere dp s s')
    (hd : Dir dp n s) : Dir dp n s' where
  mapped := h.mapped
  ref := h.ref
  type := by rw [h.din]; exact hd.type
  size := by rw [h.din]; exact hd.size
  le := hd.le
  filled bn hbn := by rw [h.ptr_eq]; exact hd.filled bn hbn

theorem Elsewhere.slot_eq {dp : Fin NINODE} {n : Nat} {s s' : State} (h : Elsewhere dp s s')
    (hd : Dir dp n s) {j : Nat} (hj : j < n) : slot s' dp j = slot s dp j := by
  have hptr : ptr s.disk (s.din dp) (ptrOf (j / EPB)) ≠ 0 := hd.filled _ (by lia)
  unfold slot
  rw [h.ptr_eq, h.block _ hptr]

/-- From `s₀` on the operations of the list were performed with these results, in this order. Each
of them finds a free entry of the inode cache and room in the log. -/
inductive Performed (p : Pid) (dp : Fin NINODE) (s₀ : State) : List (DirOp × DirResult) → State → Prop
  | start : Performed p dp s₀ [] s₀
  | op {l : List (DirOp × DirResult)} {s s' : State} {o : DirOp} {r : DirResult} :
    Performed p dp s₀ l s → o.Valid → FreeSlot s → Room 7 s → (o.code p dp).run s = .done r s' →
      Performed p dp s₀ (l ++ [(o, r)]) s'
  | elsewhere {l : List (DirOp × DirResult)} {s s' : State} :
    Performed p dp s₀ l s → Elsewhere dp s s' → Performed p dp s₀ l s'

theorem mapOf_append (l : List (DirOp × DirResult)) (x : DirOp × DirResult) :
    mapOf (l ++ [x]) = record (mapOf l) x := by
  simp [mapOf]

/-- After any operations the entries represent the map that their results describe. -/
theorem Performed.isMap {p : Pid} {dp : Fin NINODE} {s0 s : State} {l : List (DirOp × DirResult)}
    {n0 : Nat} (hd : Dir dp n0 s0) (hempty : ∀ k, k < n0 → (slot s0 dp k).inum = 0)
    (h : Performed p dp s0 l s) : ∃ n, Dir dp n s ∧ IsMap dp n (mapOf l) s := by
  induction h with
  | start =>
    exact ⟨n0, hd, SlotTable.Represents.empty fun k hk => Dirent.live_eq_none.mpr (hempty k hk)⟩
  | op _ ho hfree hr hrun ih =>
    obtain ⟨n, hdn, hmap⟩ := ih
    rw [mapOf_append]
    exact (of_run_eq_done (code_refines hdn hmap hfree hr ho) hrun).2
  | elsewhere _ he ih =>
    obtain ⟨n, hdn, hmap⟩ := ih
    exact ⟨n, he.dir hdn, hmap.of_slots fun j hj => he.slot_eq hdn hj⟩

/-- A directory is a finite map: after any operations on an empty directory no two entries have the
same name, and the next operation returns and answers as the map says. -/
theorem directory_refines_map {p : Pid} {dp : Fin NINODE} {s₀ s : State}
    {l : List (DirOp × DirResult)} {n₀ : Nat} (hd : Dir dp n₀ s₀)
    (hempty : ∀ k, k < n₀ → (slot s₀ dp k).inum = 0) (h : Performed p dp s₀ l s) :
    ∃ n, Dir dp n s ∧
      (∀ j k, j < n → k < n → (slot s dp j).inum ≠ 0 → (slot s dp k).inum ≠ 0 →
        nameEq (slot s dp j).name (slot s dp k).name = true → j = k) ∧
      ∀ o : DirOp, o.Valid → FreeSlot s → Room 7 s →
        ∃ r s', (o.code p dp).run s = .done r s' ∧ Replies dp n (mapOf l) s o r s' := by
  obtain ⟨n, hdn, hmap⟩ := h.isMap hd hempty
  refine ⟨n, hdn, ?_, ?_⟩
  · intro j k hj hk hlj hlk hname
    have he : cname (slot s dp j).name = cname (slot s dp k).name := beq_iff_eq.mp hname
    exact hmap.unique j k _ _ _ hj hk (Dirent.live_eq_some.mpr ⟨hlj, rfl, rfl⟩)
      (Dirent.live_eq_some.mpr ⟨hlk, he.symm, rfl⟩)
  · intro o ho hfree hr
    obtain ⟨r, s', hrun, hans⟩ := exists_done_of_ensures (code_refines hdn hmap hfree hr ho)
    exact ⟨r, s', hrun, hans.1⟩

/-- A file system of four blocks: block 1 holds the inodes, block 2 the bitmap, and block 3 is free.
Slot 0 of the inode cache holds a directory without entries, and a system call has begun. -/
def newDirectory : State where
  sb := { magic := FSMAGIC, size := 4, nblocks := 1, ninodes := 16, nlog := 30, logstart := 0,
          inodestart := 1, bmapstart := 2 }
  disk := fun b => if b = 2 then ((Bytes.zero.setBit 0).setBit 1).setBit 2 else Bytes.zero
  log := { size := 30, outstanding := 1 }
  icache := fun i => if i = 0 then { inum := 1, ref := 1, valid := true, din := { type := T_DIR } } else {}
  ftable := fun _ => {}
  ofile := fun _ _ => none

theorem newDirectory_mapped : Mapped newDirectory.sb 1 newDirectory.disk (newDirectory.din 0) :=
  Direct.mapped (by decide +kernel)

theorem newDirectory_dir : Dir 0 0 newDirectory where
  mapped := newDirectory_mapped
  ref := by decide
  type := rfl
  size := rfl
  le := by decide
  filled bn hbn := absurd hbn (Nat.not_lt_zero _)

/-- The first name of a new directory: `a`, for the inode 5. -/
theorem directory_refines_map_first : ∃ n, Dir 0 n newDirectory ∧
    ∃ r s', (DirOp.code 1 0 (.link [97] 5)).run newDirectory = .done r s' ∧
      Replies 0 n (mapOf []) newDirectory (.link [97] 5) r s' := by
  obtain ⟨n, hd, _, hop⟩ := directory_refines_map newDirectory_dir
    (fun k hk => absurd hk (Nat.not_lt_zero k)) (Performed.start)
  have hname : IsName [97] := by
    refine ⟨by decide, by decide, fun c hc => ?_⟩
    obtain rfl := List.mem_singleton.mp hc
    decide
  refine ⟨n, hd, hop (.link [97] 5) ⟨hname, by decide⟩ ⟨1, rfl⟩ ?_⟩
  exact ⟨by decide, by decide, by decide⟩

end Xv6.Fs
