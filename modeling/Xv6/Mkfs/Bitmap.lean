import Xv6.Mkfs

/-!
# Which blocks an image uses and which bits are set

After `k` allocations the bits `0` to `nmeta + k - 1` of the bitmap are set, and the blocks in use
are `bmapstart + 1 + nmeta` and the `k - 1` blocks after it. The last of them has no bit.
-/

namespace Xv6.Mkfs

open Data Fs Function

/-- The first block that the allocator gives out. -/
abbrev firstData : Nat := bmapstart + 1 + nmeta

theorem bit_marked {k : Nat} (hk : k ≤ BPB) (b : Nat) : (marked k).bit b = decide (b < k) := by
  induction k with
  | zero => simp [marked, Bytes.bit]
  | succ k ih =>
    rw [marked, Bytes.bit_setBit (by lia), ih (by lia), ← Bool.decide_or]
    exact decide_eq_decide.mpr (by omega)

/-- The `m`-th pointer of inode `n` in the in-memory image. -/
def State.ptr (st : State) (n m : Nat) : Nat := Fs.ptr st.img (st.inodes n) m

/-- `k` blocks have been allocated. -/
structure Laid (k : Nat) (st : State) : Prop where
  bits : ∀ b, st.bbuf.bit b = decide (b < nmeta + k)
  room : nmeta + k ≤ nblocks
  range : ∀ n m, st.ptr n m ≠ 0 → firstData ≤ st.ptr n m ∧ st.ptr n m < firstData + k
  inj : ∀ n m n' m', st.ptr n m = st.ptr n' m' → st.ptr n m ≠ 0 → n = n' ∧ m = m'
  last : 0 < k → ∃ n m, n < NINODES ∧ st.ptr n m + 1 = firstData + k

theorem ptr_initial (n m : Nat) : initial.ptr n m = 0 := by
  show Fs.ptr _ ({} : Dinode) m = 0
  unfold Fs.ptr Dinode.addr Dinode.word
  simp

theorem laid_initial : Laid 0 initial where
  bits := bit_marked (by decide)
  room := by decide
  range n m h := absurd (ptr_initial n m) h
  inj n m _ _ _ h := absurd (ptr_initial n m) h
  last h := absurd h (Nat.lt_irrefl 0)

variable {a n idx : Nat} {st' : State}

namespace Laid

variable {k : Nat} {st : State}

theorem ballocOr (h : Laid k st) {msg : String} (hr : ballocOr msg st = .ok (a, st')) :
    a = firstData + k ∧ nmeta + k < nblocks ∧
      st' = { st with bbuf := st.bbuf.setBit (nmeta + k) } := by
  unfold Mkfs.ballocOr balloc at hr
  cases hf : (List.range nblocks).find? fun b => !st.bbuf.bit b with
  | none => rw [hf] at hr; cases hr
  | some b =>
    rw [hf] at hr
    obtain ⟨hclear, hb, hbelow⟩ := List.find?_range_eq_some.mp hf
    rw [List.mem_range] at hb
    rw [h.bits] at hclear
    have hle : nmeta + k ≤ b := by simpa using hclear
    have hge : b ≤ nmeta + k := by
      by_contra hlt
      have hset := hbelow (nmeta + k) (by omega)
      rw [h.bits] at hset
      simp at hset
    have heq : b = nmeta + k := by omega
    simp only [Except.ok.injEq, Prod.mk.injEq] at hr
    rw [← hr.1, ← hr.2, heq]
    exact ⟨by lia, heq ▸ hb, rfl⟩

/-- One pointer that was zero now names the block that was just allocated. -/
theorem assign (h : Laid k st) {m : Nat} (hn : n < NINODES)
    (hroom : nmeta + k < nblocks) (hbbuf : st'.bbuf = st.bbuf.setBit (nmeta + k))
    (hptr : ∀ n' m', st'.ptr n' m' = if n' = n ∧ m' = m then firstData + k else st.ptr n' m') :
    Laid (k + 1) st' where
  bits b := by
    rw [hbbuf, Bytes.bit_setBit (by lia), h.bits, ← Bool.decide_or]
    exact decide_eq_decide.mpr (by lia)
  room := hroom
  range n' m' hne := by
    rw [hptr] at hne ⊢
    split
    · lia
    · rename_i hnm
      rw [if_neg hnm] at hne
      have := h.range n' m' hne
      lia
  inj n1 m1 n2 m2 heq hne := by
    rw [hptr, hptr] at heq
    rw [hptr] at hne
    by_cases h1 : n1 = n ∧ m1 = m <;> by_cases h2 : n2 = n ∧ m2 = m
    · rw [h1.1, h1.2, h2.1, h2.2]
      exact ⟨rfl, rfl⟩
    · rw [if_pos h1, if_neg h2] at heq
      have := h.range n2 m2 (by lia)
      lia
    · rw [if_neg h1, if_pos h2] at heq
      rw [if_neg h1] at hne
      have := h.range n1 m1 hne
      lia
    · rw [if_neg h1, if_neg h2] at heq
      rw [if_neg h1] at hne
      exact h.inj n1 m1 n2 m2 heq hne
  last _ := ⟨n, m, hn, by rw [hptr, if_pos ⟨rfl, rfl⟩]; lia⟩

theorem congr (h : Laid k st) (hbbuf : st'.bbuf = st.bbuf) (hptr : ∀ n m, st'.ptr n m = st.ptr n m) : Laid k st' where
  bits b := by rw [hbbuf, h.bits]
  room := h.room
  range n m := by rw [hptr]; exact h.range n m
  inj n m n' m' := by rw [hptr, hptr]; exact h.inj n m n' m'
  last hk := by
    obtain ⟨n, m, hn, hm⟩ := h.last hk
    exact ⟨n, m, hn, by rw [hptr, hm]⟩

/-- The block is not the indirect block of an inode other than `n`. -/
theorem ne_indirect (h : Laid k st) {m n' : Nat} (hne : n' ≠ n ∨ m ≠ NDIRECT)
    (h0 : (st.inodes n').addr NDIRECT ≠ 0) : (st.inodes n').addr NDIRECT ≠ st.ptr n m := by
  intro heq
  have hp : st.ptr n' NDIRECT = (st.inodes n').addr NDIRECT := Fs.ptr_direct (Nat.le_refl _)
  obtain ⟨hn, hm⟩ := h.inj n' NDIRECT n m (hp.trans heq) (by rwa [hp])
  rcases hne with hne | hne
  · exact hne hn
  · exact hne hm.symm

theorem indirect_lt (h : Laid k st) (h0 : (st.inodes n).addr NDIRECT ≠ 0) :
    (st.inodes n).addr NDIRECT < firstData + k := by
  have hp : st.ptr n NDIRECT = (st.inodes n).addr NDIRECT := Fs.ptr_direct (Nat.le_refl _)
  have := (h.range n NDIRECT (by rwa [hp])).2
  rwa [hp] at this

end Laid

/-! ## One block of a file -/

theorem Laid.setDirect {k : Nat} {st : State} (h : Laid k st) (hn : n < NINODES)
    (hidx : idx < NDIRECT) (hroom : nmeta + k < nblocks) :
    Laid (k + 1) ({ st with bbuf := st.bbuf.setBit (nmeta + k) }.modInode n fun d =>
      d.setAddr idx (firstData + k)) := by
  apply h.assign (n := n) (m := idx) hn hroom rfl
  intro n' m'
  show Fs.ptr st.img (update st.inodes n _ n') m' = _
  by_cases hn' : n' = n
  · subst hn'
    rw [update_self, Fs.ptr_setAddr_direct hidx (by lia)]
    simp only [true_and]
    rfl
  · rw [update_of_ne hn', if_neg (fun hh => hn' hh.1)]
    rfl

theorem Laid.setIndirect {k : Nat} {st : State} (h : Laid k st) (hn : n < NINODES)
    (h0 : (st.inodes n).addr NDIRECT = 0) (hroom : nmeta + k < nblocks) :
    Laid (k + 1) (({ st with bbuf := st.bbuf.setBit (nmeta + k) }.modInode n fun d =>
      d.setAddr NDIRECT (firstData + k)).setBlock (firstData + k) Bytes.zero) := by
  apply h.assign (n := n) (m := NDIRECT) hn hroom rfl
  intro n' m'
  show Fs.ptr (update st.img (firstData + k) Bytes.zero)
    (update st.inodes n _ n') m' = _
  -- no indirect block in use is the new block
  have hkeep : ∀ x, Fs.ptr (update st.img (firstData + k) Bytes.zero) (st.inodes x) m' = st.ptr x m' := by
    intro x
    apply Fs.ptr_congr (fun _ => rfl)
    intro hx
    rw [update_of_ne]
    have := h.indirect_lt hx
    omega
  by_cases hn' : n' = n
  · subst hn'
    rw [update_self, Fs.ptr_setAddr_indirect h0 (by lia) (update_self _ _ _), hkeep]
    simp only [true_and]
  · rw [update_of_ne hn', if_neg (fun hh => hn' hh.1), hkeep]

theorem Laid.setEntry {k : Nat} {st : State} (h : Laid k st) (hn : n < NINODES)
    (hidx : idx < NINDIRECT) (h0 : (st.inodes n).addr NDIRECT ≠ 0) (hroom : nmeta + k < nblocks) :
    Laid (k + 1) ({ st with bbuf := st.bbuf.setBit (nmeta + k) }.setWord
      ((st.inodes n).addr NDIRECT) idx (firstData + k)) := by
  apply h.assign (n := n) (m := NDIRECT + 1 + idx) hn hroom rfl
  intro n' m'
  have hdiv : idx / NINDIRECT = 0 := Nat.div_eq_of_lt hidx
  have hmod : idx % NINDIRECT = idx := Nat.mod_eq_of_lt hidx
  show Fs.ptr (update st.img (_ + idx / NINDIRECT) _) (st.inodes n') m' = _
  rw [hdiv, hmod, Nat.add_zero]
  by_cases hn' : n' = n
  · subst hn'
    have hset := @Fs.ptr_setEntry _ (NDIRECT + 1 + idx) (firstData + k) st.img
      (by lia) (by lia) h0 (by lia) m'
    rw [Nat.add_sub_cancel_left] at hset
    rw [hset]
    simp only [true_and]
    rfl
  · rw [if_neg (fun hh => hn' hh.1)]
    apply Fs.ptr_congr (fun _ => rfl)
    intro hx
    rw [update_of_ne]
    have := h.ne_indirect (m := NDIRECT) (Or.inl hn') hx
    rwa [State.ptr, Fs.ptr_direct (Nat.le_refl _)] at this

theorem size_update {inodes : Nat → Dinode} {d : Dinode} (hd : d.size = (inodes n).size)
    (x : Nat) : (update inodes n d x).size = (inodes x).size := by
  by_cases hx : x = n
  · rw [hx, update_self, hd]
  · rw [update_of_ne hx]

/-- What `blockFor` leaves alone, and what it returns. -/
structure Found (k : Nat) (st : State) (n blockidx a : Nat) (st' : State) : Prop where
  laid : ∃ k', k ≤ k' ∧ 0 < k' ∧ Laid k' st'
  addr : a = st'.ptr n (ptrOf blockidx)
  size : ∀ x, (st'.inodes x).size = (st.inodes x).size

theorem Laid.pos_of_ptr {k : Nat} {st : State} (h : Laid k st) {m : Nat} (hp : st.ptr n m ≠ 0) : 0 < k := by
  have := h.range n m hp
  omega

theorem blockFor_direct {k : Nat} {st : State} (h : Laid k st)
    (hn : n < NINODES) (hidx : idx < NDIRECT) (hr : blockFor n idx st = .ok (a, st')) :
    Found k st n idx a st' := by
  have hof : ptrOf idx = idx := if_pos hidx
  have hp : st.ptr n idx = (st.inodes n).addr idx := Fs.ptr_direct (by lia)
  unfold blockFor at hr
  rw [if_pos hidx] at hr
  by_cases h0 : (st.inodes n).addr idx = 0
  · rw [if_pos h0] at hr
    cases hb : ballocOr "out of direct data blocks" st with
    | error e => rw [hb] at hr; cases hr
    | ok r =>
      obtain ⟨b, st1⟩ := r
      rw [hb] at hr
      obtain ⟨rfl, hroom, rfl⟩ := h.ballocOr hb
      cases hr
      refine ⟨⟨k + 1, by omega, by omega, h.setDirect hn hidx hroom⟩, ?_, ?_⟩
      · rw [hof, State.ptr, Fs.ptr_direct (by lia)]
        show _ = Dinode.addr (update st.inodes n _ n) idx
        rw [update_self, Dinode.addr_setAddr_self (by lia) (by lia)]
      · exact size_update rfl
  · cases (if_neg h0).symm.trans hr
    refine ⟨⟨k, Nat.le_refl k, h.pos_of_ptr (by rwa [hp]), h⟩, ?_, fun _ => rfl⟩
    rw [hof, hp]

theorem entryFor_found {k : Nat} {st : State} (h : Laid k st)
    (hn : n < NINODES) (hidx : idx < NINDIRECT) (h0 : (st.inodes n).addr NDIRECT ≠ 0)
    (hr : entryFor ((st.inodes n).addr NDIRECT) idx st = .ok (a, st')) :
    Found k st n (NDIRECT + idx) a st' := by
  have hof : ptrOf (NDIRECT + idx) = NDIRECT + 1 + idx := by
    rw [ptrOf, if_neg (by lia)]
    lia
  have hword : st.wordAt ((st.inodes n).addr NDIRECT) idx = st.ptr n (NDIRECT + 1 + idx) := by
    rw [State.ptr, Fs.ptr_entry (by lia) (by lia) h0, State.wordAt, Nat.div_eq_of_lt hidx,
      Nat.mod_eq_of_lt hidx, Nat.add_zero, Nat.add_sub_cancel_left]
  unfold entryFor at hr
  by_cases hw : st.wordAt ((st.inodes n).addr NDIRECT) idx = 0
  · rw [if_pos hw] at hr
    cases hb : ballocOr "out of indirect data blocks" st with
    | error e => rw [hb] at hr; cases hr
    | ok r =>
      obtain ⟨b, st1⟩ := r
      rw [hb] at hr
      obtain ⟨rfl, hroom, rfl⟩ := h.ballocOr hb
      cases hr
      refine ⟨⟨k + 1, by omega, by omega, h.setEntry hn hidx h0 hroom⟩, ?_, fun _ => rfl⟩
      rw [hof, State.ptr]
      show _ = Fs.ptr (update st.img (_ + idx / NINDIRECT) _) (st.inodes n) _
      rw [Nat.div_eq_of_lt hidx, Nat.mod_eq_of_lt hidx, Nat.add_zero]
      have hset := @Fs.ptr_setEntry _ (NDIRECT + 1 + idx) (firstData + k) st.img
        (by lia) (by lia) h0 (by lia) (NDIRECT + 1 + idx)
      rw [Nat.add_sub_cancel_left, if_pos rfl] at hset
      exact hset.symm
  · cases (if_neg hw).symm.trans hr
    refine ⟨⟨k, Nat.le_refl k, h.pos_of_ptr (by rwa [← hword]), h⟩, ?_, fun _ => rfl⟩
    rw [hof, hword]

theorem indirectFor_laid {k : Nat} {st : State} (h : Laid k st) (hn : n < NINODES) (hr : indirectFor n st = .ok st') :
    ∃ k', k ≤ k' ∧ Laid k' st' ∧ (st'.inodes n).addr NDIRECT ≠ 0 ∧
      ∀ x, (st'.inodes x).size = (st.inodes x).size := by
  unfold indirectFor at hr
  by_cases h0 : (st.inodes n).addr NDIRECT = 0
  · rw [if_pos h0] at hr
    cases hb : ballocOr "out of indirect block" st with
    | error e => rw [hb] at hr; cases hr
    | ok r =>
      obtain ⟨b, st1⟩ := r
      rw [hb] at hr
      obtain ⟨rfl, hroom, rfl⟩ := h.ballocOr hb
      cases hr
      refine ⟨k + 1, Nat.le_succ k, h.setIndirect hn h0 hroom, ?_, ?_⟩
      · show Dinode.addr (update st.inodes n _ n) NDIRECT ≠ 0
        rw [update_self, Dinode.addr_setAddr_self (by lia) (by lia)]
        lia
      · exact size_update rfl
  · cases (if_neg h0).symm.trans hr
    exact ⟨k, Nat.le_refl k, h, h0, fun _ => rfl⟩

theorem blockFor_indirect {k : Nat} {st : State} (h : Laid k st) (hn : n < NINODES) (hidx : idx < NINDIRECT)
    (hr : blockFor n (NDIRECT + idx) st = .ok (a, st')) : Found k st n (NDIRECT + idx) a st' := by
  unfold blockFor at hr
  rw [if_neg (by lia), Nat.add_sub_cancel_left] at hr
  cases hi : indirectFor n st with
  | error e => rw [hi] at hr; cases hr
  | ok st1 =>
    rw [hi] at hr
    obtain ⟨k1, hk1, h1, h0, hs1⟩ := indirectFor_laid h hn hi
    obtain ⟨⟨k', hk', hpos, hl⟩, ha, hs⟩ := entryFor_found h1 hn hidx h0 hr
    exact ⟨⟨k', by omega, hpos, hl⟩, ha, fun x => (hs x).trans (hs1 x)⟩

theorem blockFor_found {k : Nat} {st : State} (h : Laid k st)
    (hn : n < NINODES) (hidx : idx < MAXFILE) (hr : blockFor n idx st = .ok (a, st')) :
    Found k st n idx a st' := by
  by_cases hd : idx < NDIRECT
  · exact blockFor_direct h hn hd hr
  · have heq : idx = NDIRECT + (idx - NDIRECT) := by omega
    rw [heq] at hr ⊢
    exact blockFor_indirect h hn (by lia) hr

/-! ## Appending -/

/-- The data of a file goes to a block that is no indirect block. -/
theorem Laid.setData {k : Nat} {st : State} (h : Laid k st) (d : Block) :
    Laid k (st.setBlock (st.ptr n (ptrOf idx)) d) := by
  refine Laid.congr h (by rfl) ?_
  intro n' m'
  apply Fs.ptr_congr (fun _ => rfl)
  intro hx
  have hne : ptrOf idx ≠ NDIRECT := by
    unfold ptrOf
    split <;> lia
  exact update_of_ne (h.ne_indirect (Or.inr hne) hx) _ _

theorem appendLoop_laid (hn : n < NINODES) :
    ∀ {fuel k off : Nat} {p : List UInt8} {st : State} {off' : Nat} {st' : State},
      Laid k st → p.length ≤ fuel → off + p.length ≤ MAXFILE * BSIZE →
      appendLoop n fuel off p st = .ok (off', st') →
      off' = off + p.length ∧ (∃ k', k ≤ k' ∧ (p ≠ [] → 0 < k') ∧ Laid k' st') ∧
        ∀ x, (st'.inodes x).size = (st.inodes x).size := by
  intro fuel
  induction fuel with
  | zero =>
    intro k off p st off' st' h hp _ hr
    have hnil : p = [] := List.length_eq_zero_iff.mp (by omega)
    cases hr
    exact ⟨by simp [hnil], ⟨k, Nat.le_refl k, fun hne => absurd hnil hne, h⟩, fun _ => rfl⟩
  | succ fuel ih =>
    intro k off p st off' st' h hp hfit hr
    unfold appendLoop at hr
    by_cases hnil : p = []
    · cases (if_pos hnil).symm.trans hr
      exact ⟨by simp [hnil], ⟨k, Nat.le_refl k, fun hne => absurd hnil hne, h⟩, fun _ => rfl⟩
    · rw [if_neg hnil] at hr
      have hpos : 0 < p.length := List.length_pos_of_ne_nil hnil
      cases hb : blockFor n (off / BSIZE) st with
      | error e => rw [hb] at hr; cases hr
      | ok r =>
        obtain ⟨a, st1⟩ := r
        rw [hb] at hr
        obtain ⟨⟨k1, hk1, hpos1, h1⟩, ha, hs1⟩ := blockFor_found h hn (by lia) hb
        subst ha
        -- a round takes at least one byte
        have hchunk : 0 < min p.length (BSIZE - off % BSIZE) := by lia
        have hdrop := List.length_drop (l := p) (i := min p.length (BSIZE - off % BSIZE))
        obtain ⟨hoff, ⟨k', hk', -, h'⟩, hs⟩ :=
          ih (h1.setData _) (by omega) (by omega) hr
        exact ⟨by omega, ⟨k', by omega, fun _ => by omega, h'⟩, fun x => (hs x).trans (hs1 x)⟩

theorem iappend_laid {k : Nat} (hn : n < NINODES) {data : List UInt8} {st : State}
    (h : Laid k st) (hfit : (st.inodes n).size.toNat + data.length ≤ MAXFILE * BSIZE)
    (hr : iappend n data st = .ok st') :
    (∃ k', k ≤ k' ∧ (data ≠ [] → 0 < k') ∧ Laid k' st') ∧
      ∀ x, (st'.inodes x).size.toNat =
        (st.inodes x).size.toNat + if x = n then data.length else 0 := by
  unfold iappend at hr
  cases hl : appendLoop n data.length (st.inodes n).size.toNat data st with
  | error e => rw [hl] at hr; cases hr
  | ok r =>
    obtain ⟨off, st1⟩ := r
    rw [hl] at hr
    cases hr
    obtain ⟨hoff, ⟨k', hk', hpos, h'⟩, hs⟩ := appendLoop_laid hn h (Nat.le_refl _) hfit hl
    refine ⟨⟨k', hk', hpos, ?_⟩, ?_⟩
    · refine Laid.congr h' (by rfl) ?_
      intro n' m'
      show Fs.ptr st1.img (update st1.inodes n _ n') m' = _
      by_cases hn' : n' = n
      · subst hn'
        rw [update_self]
        exact Fs.ptr_congr (fun _ => rfl) (fun _ => rfl) m'
      · rw [update_of_ne hn']
        rfl
    · intro x
      show (update st1.inodes n _ x).size.toNat = _
      by_cases hx : x = n
      · subst hx
        rw [update_self, if_pos rfl]
        show (UInt32.ofNat off).toNat = _
        rw [hoff]
        simpa using by lia
      · rw [update_of_ne hx, if_neg hx, hs, Nat.add_zero]

/-! ## Sequences of calls -/

/-- A call of `iappend` or of `dir_entry`. -/
inductive Call
  | iappend (inum : Fin NINODES) (data : List UInt8)
  | dirEntry (dir : Fin NINODES) (name : List UInt8) (inum : Nat)

namespace Call

def run : Call → State → Except String State
  | iappend inum data, st => Mkfs.iappend inum data st
  | dirEntry dir name inum, st => Mkfs.dirEntry dir name inum st

def target : Call → Fin NINODES
  | iappend inum _ => inum
  | dirEntry dir _ _ => dir

def bytes : Call → List UInt8
  | iappend _ data => data
  | dirEntry _ name inum => direntBytes name inum

theorem run_eq (c : Call) (st : State) : c.run st = Mkfs.iappend c.target c.bytes st := by
  cases c <;> rfl

end Call

/-- The calls one after the other; a call that runs out of blocks ends the program. -/
def runCalls : List Call → State → Except String State
  | [], st => pure st
  | c :: cs, st => do
    let st ← c.run st
    runCalls cs st

/-- How many bytes the calls append to inode `n`. -/
def appendedTo (n : Nat) : List Call → Nat
  | [] => 0
  | c :: cs => (if n = c.target then c.bytes.length else 0) + appendedTo n cs

def Idle (cs : List Call) : Prop := ∀ c ∈ cs, c.bytes = []

theorem runCalls_laid : ∀ {cs : List Call} {k : Nat} {st st' : State}, Laid k st →
    (∀ n, (st.inodes n).size.toNat + appendedTo n cs ≤ MAXFILE * BSIZE) →
    runCalls cs st = .ok st' → ∃ k', k ≤ k' ∧ (¬ Idle cs → 0 < k') ∧ Laid k' st' := by
  intro cs
  induction cs with
  | nil =>
    intro k st st' h _ hr
    cases hr
    exact ⟨k, Nat.le_refl k, fun hne => absurd (by simp [Idle]) hne, h⟩
  | cons c cs ih =>
    intro k st st' h hfit hr
    unfold runCalls at hr
    cases hc : c.run st with
    | error e => rw [hc] at hr; cases hr
    | ok st1 =>
      rw [hc] at hr
      rw [c.run_eq] at hc
      have hfit1 := hfit c.target
      simp only [appendedTo, if_true] at hfit1
      obtain ⟨⟨k1, hk1, hpos1, h1⟩, hs⟩ := iappend_laid c.target.isLt h (by omega) hc
      obtain ⟨k', hk', hpos, h'⟩ := ih h1 (fun n => by
        have := hfit n
        simp only [appendedTo] at this
        rw [hs]
        omega) hr
      refine ⟨k', by omega, ?_, h'⟩
      intro hne
      by_cases hb : c.bytes = []
      · apply hpos
        intro hidle
        apply hne
        intro c' hc'
        rcases List.mem_cons.mp hc' with rfl | hmem
        · exact hb
        · exact hidle c' hmem
      · have := hpos1 hb
        omega

theorem runCalls_idle : ∀ {cs : List Call} {st st' : State}, Idle cs →
    (∀ n m, st.ptr n m = 0) → runCalls cs st = .ok st' → ∀ n m, st'.ptr n m = 0 := by
  intro cs
  induction cs with
  | nil =>
    intro st st' _ h hr
    cases hr
    exact h
  | cons c cs ih =>
    intro st st' hidle h hr
    unfold runCalls at hr
    rw [c.run_eq, hidle c List.mem_cons_self] at hr
    refine ih (fun c' hc' => hidle c' (List.mem_cons_of_mem c hc')) ?_ hr
    intro n m
    show Fs.ptr st.img (update st.inodes c.target _ n) m = 0
    rw [← h n m]
    by_cases hn : n = c.target
    · rw [hn, update_self]
      exact Fs.ptr_congr (fun _ => rfl) (fun _ => rfl) m
    · rw [update_of_ne hn]
      rfl

end Xv6.Mkfs
