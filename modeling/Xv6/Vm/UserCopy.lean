import Xv6.Data.Words
import Xv6.Vm.Growth

/-!
# Copying from and to user memory

`copyin`, `copyinstr` and `copyout` of `kernel/vm.c` go page by page. They agree with copies that go byte by byte
and translate each address for itself. A page of a user is never one of the tables and never the page at physical
address 0, which `walkaddr` cannot tell from a failure.
-/

namespace Xv6.Vm

open Coop Prog Data

/-! ## Bytes of physical pages -/

namespace Mem

def byte (m : Mem) (pg : UInt64) (off : Nat) : UInt8 :=
  byteOf (m.page pg (Fin.ofNat 512 (off / 8))) (off % 8)

def setByte (m : Mem) (pg : UInt64) (off : Nat) (x : UInt8) : Mem :=
  m.setWord pg (Fin.ofNat 512 (off / 8)) (putByte (m.page pg (Fin.ofNat 512 (off / 8))) (off % 8) x)

/-- `memmove` out of a page. -/
def load (m : Mem) (pg : UInt64) (off n : Nat) : List UInt8 := (List.range n).map fun k => m.byte pg (off + k)

/-- `memmove` into a page. -/
def store (m : Mem) (pg : UInt64) (off : Nat) : List UInt8 → Mem
  | [] => m
  | x :: xs => (m.setByte pg off x).store pg (off + 1) xs

end Mem

/-! ## The copies of the source -/

/-- The number of bytes from `va` to the end of its page, but at most `len`. -/
def chunk (va len : UInt64) : UInt64 :=
  let n := 4096 - (va - PGROUNDDOWN va)
  if len < n then len else n

/-- The loop of `copyin`. A round copies at least one byte, so that `len` bounds the number of rounds. The result
is whether 0 is returned and the bytes that have been written to `dst`. -/
def copyinLoop (pt : UInt64) : Nat → UInt64 → UInt64 → Prog Mem (Bool × List UInt8)
  | 0, _, _ => pure (true, [])
  | rounds + 1, srcva, len =>
    if len = 0 then pure (true, [])
    else do
      let va0 := PGROUNDDOWN srcva
      let pa0 ← walkaddr pt va0
      if pa0 = 0 then pure (false, [])
      else do
        let n := chunk srcva len
        let bytes ← gets fun m => m.load pa0 (srcva - va0).toNat n.toNat
        let rest ← copyinLoop pt rounds (va0 + 4096) (len - n)
        pure (rest.1, bytes ++ rest.2)

def copyin (pt srcva len : UInt64) : Prog Mem (Bool × List UInt8) := copyinLoop pt len.toNat srcva len

/-- The bytes up to the first zero, and whether there is one. -/
def uptoNul : List UInt8 → Bool × List UInt8
  | [] => (false, [])
  | x :: xs => if x = 0 then (true, [0]) else ((uptoNul xs).1, x :: (uptoNul xs).2)

/-- The loop of `copyinstr`, with the same bound on the number of rounds. -/
def copyinstrLoop (pt : UInt64) : Nat → UInt64 → UInt64 → Prog Mem (Bool × List UInt8)
  | 0, _, _ => pure (false, [])
  | rounds + 1, srcva, max =>
    if max = 0 then pure (false, [])
    else do
      let va0 := PGROUNDDOWN srcva
      let pa0 ← walkaddr pt va0
      if pa0 = 0 then pure (false, [])
      else do
        let n := chunk srcva max
        let bytes ← gets fun m => m.load pa0 (srcva - va0).toNat n.toNat
        if (uptoNul bytes).1 then pure (true, (uptoNul bytes).2)
        else do
          let rest ← copyinstrLoop pt rounds (va0 + 4096) (max - n)
          pure (rest.1, bytes ++ rest.2)

def copyinstr (pt srcva max : UInt64) : Prog Mem (Bool × List UInt8) := copyinstrLoop pt max.toNat srcva max

def copyoutLoop (pt : UInt64) : Nat → UInt64 → List UInt8 → UInt64 → Prog Mem Bool
  | 0, _, _, _ => pure true
  | rounds + 1, dstva, src, len =>
    if len = 0 then pure true
    else do
      let va0 := PGROUNDDOWN dstva
      let pa0 ← walkaddr pt va0
      if pa0 = 0 then pure false
      else do
        let n := chunk dstva len
        modify (·.store pa0 (dstva - va0).toNat (src.take n.toNat))
        copyoutLoop pt rounds (va0 + 4096) (src.drop n.toNat) (len - n)

def copyout (pt dstva : UInt64) (src : List UInt8) (len : UInt64) : Prog Mem Bool :=
  copyoutLoop pt len.toNat dstva src len

/-! ## Copies byte by byte -/

/-- The physical page and the offset of an address that the user can access. -/
def userAddr (m : Mem) (pt : UInt64) (a : Nat) : Option (UInt64 × Nat) :=
  (leaf m pt (a / 4096)).bind fun e => if Has e PTE_U then some (PTE2PA e, a % 4096) else none

def userByteAt (m : Mem) (pt : UInt64) (a : Nat) : Option UInt8 := (userAddr m pt a).map fun p => m.byte p.1 p.2

def copyinBytes (m : Mem) (pt : UInt64) : Nat → Nat → Bool × List UInt8
  | 0, _ => (true, [])
  | n + 1, a =>
    match userByteAt m pt a with
    | none => (false, [])
    | some x => ((copyinBytes m pt n (a + 1)).1, x :: (copyinBytes m pt n (a + 1)).2)

def copyinstrBytes (m : Mem) (pt : UInt64) : Nat → Nat → Bool × List UInt8
  | 0, _ => (false, [])
  | n + 1, a =>
    match userByteAt m pt a with
    | none => (false, [])
    | some x =>
      if x = 0 then (true, [0]) else ((copyinstrBytes m pt n (a + 1)).1, x :: (copyinstrBytes m pt n (a + 1)).2)

def copyoutBytes (pt : UInt64) : List UInt8 → Nat → Mem → Bool × Mem
  | [], _, m => (true, m)
  | x :: xs, a, m =>
    match userAddr m pt a with
    | none => (false, m)
    | some p => copyoutBytes pt xs (a + 1) (m.setByte p.1 p.2 x)

/-- The pages of the user are not tables, and none is at address 0. -/
structure UserTable (m : Mem) (pt : UInt64) : Prop where
  shape : Shape m 2 pt
  user : ∀ v e, leaf m pt v = some e → Has e PTE_U → PTE2PA e ≠ 0 ∧ PTE2PA e ∉ tabs m 2 pt

variable {m m' : Mem} {pt pg va len a' : UInt64} {a n r off off' v : Nat} {x : UInt8} {xs ys : List UInt8}

/-! ## Pages and bytes -/

theorem byte_setByte (hoff : off < 4096) (hoff' : off' < 4096) (pg' : UInt64) :
    (m.setByte pg off x).byte pg' off' = if pg' = pg ∧ off' = off then x else m.byte pg' off' := by
  have h8 : off % 8 < 8 := Nat.mod_lt _ (by decide)
  by_cases hpg : pg' = pg
  · subst hpg
    by_cases hword : off' / 8 = off / 8
    · have hpage : (m.setByte pg' off x).page pg' (Fin.ofNat 512 (off / 8)) =
          putByte (m.page pg' (Fin.ofNat 512 (off / 8))) (off % 8) x := by
        simp [Mem.setByte, Mem.setWord]
      rw [Mem.byte, hword, hpage]
      by_cases hbyte : off' % 8 = off % 8
      · rw [hbyte, byteOf_putByte_self h8, if_pos ⟨rfl, by omega⟩]
      · rw [byteOf_putByte_of_ne h8 hbyte, if_neg (by omega), Mem.byte, hword]
    · have hne : Fin.ofNat 512 (off' / 8) ≠ Fin.ofNat 512 (off / 8) := by
        intro heq
        have hval := congrArg Fin.val heq
        simp only [Fin.ofNat] at hval
        omega
      rw [if_neg (fun h => hword (by rw [h.2])), Mem.byte, Mem.byte, Mem.setByte, setWord_page_other hne]
  · rw [if_neg (fun h => hpg h.1), Mem.byte, Mem.byte, Mem.setByte, setWord_page_of_ne hpg]

theorem load_succ (m : Mem) (pg : UInt64) (off n : Nat) :
    m.load pg off (n + 1) = m.byte pg off :: m.load pg (off + 1) n := by
  rw [Mem.load, List.range_succ_eq_map, List.map_cons, List.map_map, Mem.load]
  refine congrArg _ (List.map_congr_left fun k _ => ?_)
  show m.byte pg (off + (k + 1)) = m.byte pg (off + 1 + k)
  rw [Nat.add_right_comm, Nat.add_assoc]

/-- A write to a page that is no table changes no translation. -/
theorem same_setByte (hpg : pg ∉ tabs m 2 pt) (off : Nat) (x : UInt8) : Same m (m.setByte pg off x) 2 pt :=
  .of_agree (.setWord hpg)

theorem Same.userAddr (h : Same m m' 2 pt) : userAddr m' pt = userAddr m pt := by
  funext a
  rw [Vm.userAddr, Vm.userAddr, h.leaf]

theorem userAddr_setByte (hpg : pg ∉ tabs m 2 pt) (off : Nat) (x : UInt8) :
    userAddr (m.setByte pg off x) pt = userAddr m pt := (same_setByte hpg off x).userAddr

theorem UserTable.same (h : UserTable m pt) (hsame : Same m m' 2 pt) : UserTable m' pt := by
  refine ⟨hsame.shape h.shape, ?_⟩
  rw [hsame.leaf, hsame.tabs]
  exact h.user

theorem UserTable.setByte (h : UserTable m pt) (hpg : pg ∉ tabs m 2 pt) (off : Nat) (x : UInt8) :
    UserTable (m.setByte pg off x) pt := h.same (same_setByte hpg off x)

theorem leaf_of_userAddr {p : UInt64 × Nat} (hp : userAddr m pt a = some p) :
    ∃ e, leaf m pt (a / 4096) = some e ∧ Has e PTE_U ∧ PTE2PA e = p.1 ∧ a % 4096 = p.2 := by
  obtain ⟨e, he, hite⟩ := Option.bind_eq_some_iff.mp hp
  by_cases hu : Has e PTE_U
  · rw [if_pos hu] at hite
    obtain rfl := Option.some.inj hite
    exact ⟨e, he, hu, rfl, rfl⟩
  · cases (if_neg hu).symm.trans hite

theorem UserTable.userAddr (h : UserTable m pt) {p : UInt64 × Nat} (hp : Vm.userAddr m pt a = some p) :
    p.1 ≠ 0 ∧ p.1 ∉ tabs m 2 pt ∧ p.2 = a % 4096 := by
  obtain ⟨e, he, hu, hpg, hoff⟩ := leaf_of_userAddr hp
  rw [← hpg]
  exact ⟨(h.user _ _ he hu).1, (h.user _ _ he hu).2, hoff.symm⟩

/-! ## One page of the loops -/

theorem walkaddr_surely (pt va : UInt64) (m : Mem) :
    Surely (walkaddr pt va) (fun r m' => m' = m ∧ r = ((userAddr m pt va.toNat).map Prod.fst).getD 0) m := by
  rw [walkaddr]
  by_cases hva : MAXVA ≤ va.toNat
  · have hnone : userAddr m pt va.toNat = none := by
      rw [userAddr, leaf, if_neg (by lia)]
      rfl
    rw [if_pos hva, hnone]
    exact ⟨rfl, rfl⟩
  have hlt := Nat.lt_of_not_le hva
  rw [if_neg hva, walk, if_neg hva]
  refine ensures_seq (ensures_and (walkFrom_safe va false 2 pt m) (walkFrom_find va 2 pt m)) fun r m1 hr => ?_
  obtain ⟨-, rfl, rfl⟩ := hr
  have hleaf : leaf m1 pt (va.toNat / 4096) = lookup m1 va 2 pt := leaf_vpn hlt
  cases hfind : find m1 va 2 pt with
  | none =>
    rw [userAddr, hleaf, lookup, hfind]
    exact ⟨rfl, rfl⟩
  | some p =>
    obtain ⟨t, i⟩ := p
    rw [lookup, hfind, Option.bind_some] at hleaf
    rw [ensures_bind, ensures_gets, userAddr, hleaf]
    by_cases hv : Has (m1.page t i) PTE_V
    · rw [if_neg (not_not.mpr hv), if_pos hv, Option.bind_some]
      by_cases hu : Has (m1.page t i) PTE_U
      · rw [if_neg (not_not.mpr hu), if_pos hu]
        exact ⟨rfl, rfl⟩
      · rw [if_pos hu, if_neg hu]
        exact ⟨rfl, rfl⟩
    · rw [if_pos hv, if_neg hv]
      exact ⟨rfl, rfl⟩

theorem toNat_offset (va : UInt64) : (va - PGROUNDDOWN va).toNat = va.toNat % 4096 := by
  have hva := va.toNat_lt
  rw [UInt64.toNat_sub, toNat_PGROUNDDOWN]
  omega

theorem toNat_chunk (va len : UInt64) : (chunk va len).toNat = min (4096 - va.toNat % 4096) len.toNat := by
  have hsize : (4096 : UInt64).toNat = 4096 := rfl
  have hrest : (4096 - (va - PGROUNDDOWN va)).toNat = 4096 - va.toNat % 4096 := by
    rw [UInt64.toNat_sub, toNat_offset, hsize]
    omega
  rw [chunk]
  by_cases hlt : len < 4096 - (va - PGROUNDDOWN va)
  · rw [if_pos hlt]
    have := UInt64.lt_iff_toNat_lt.mp hlt
    omega
  · rw [if_neg hlt, hrest]
    have := UInt64.le_iff_toNat_le.mp (UInt64.not_lt.mp hlt)
    omega

/-- The addresses of a page are translated together. -/
theorem userAddr_page (m : Mem) (pt va : UInt64) :
    userAddr m pt (PGROUNDDOWN va).toNat = (userAddr m pt va.toNat).map fun p => (p.1, 0) := by
  have hdiv : (PGROUNDDOWN va).toNat / 4096 = va.toNat / 4096 := by
    rw [toNat_PGROUNDDOWN]
    omega
  have hmod : (PGROUNDDOWN va).toNat % 4096 = 0 := by
    rw [toNat_PGROUNDDOWN]
    omega
  rw [userAddr, userAddr, hdiv, hmod]
  cases leaf m pt (va.toNat / 4096) with
  | none => rfl
  | some e =>
    rw [Option.bind_some, Option.bind_some]
    by_cases hu : Has e PTE_U
    · rw [if_pos hu, if_pos hu]
      rfl
    · rw [if_neg hu, if_neg hu]
      rfl

theorem userAddr_add (h : userAddr m pt a = some (pg, off)) (hk : a % 4096 + n < 4096) :
    userAddr m pt (a + n) = some (pg, off + n) := by
  have hdiv : (a + n) / 4096 = a / 4096 := by omega
  have hmod : (a + n) % 4096 = a % 4096 + n := by omega
  rw [userAddr, hdiv, hmod]
  obtain ⟨e, he, hite⟩ := Option.bind_eq_some_iff.mp h
  rw [he, Option.bind_some]
  by_cases hu : Has e PTE_U
  · rw [if_pos hu] at hite ⊢
    obtain ⟨rfl, rfl⟩ := Prod.mk.inj (Option.some.inj hite)
    rfl
  · cases (if_neg hu).symm.trans hite

/-! ## The loops -/

/-- The first of the bytes in a page, and the bytes behind it. -/
theorem userByteAt_page (h : ∀ k < n + 1, userAddr m pt (a + k) = some (pg, off + k)) :
    userByteAt m pt a = some (m.byte pg off) ∧ ∀ k < n, userAddr m pt (a + 1 + k) = some (pg, off + 1 + k) := by
  have h0 : userAddr m pt a = some (pg, off) := h 0 (Nat.succ_pos n)
  refine ⟨by rw [userByteAt, h0]; rfl, fun k hk => ?_⟩
  rw [Nat.add_assoc, Nat.add_assoc, Nat.add_comm 1 k]
  exact h (k + 1) (by omega)

theorem copyinBytes_page (h : ∀ k < n, userAddr m pt (a + k) = some (pg, off + k)) :
    copyinBytes m pt (n + r) a =
      ((copyinBytes m pt r (a + n)).1, m.load pg off n ++ (copyinBytes m pt r (a + n)).2) := by
  induction n generalizing a off with
  | zero =>
    rw [Nat.zero_add, Nat.add_zero]
    rfl
  | succ n ih =>
    obtain ⟨hfirst, hrest⟩ := userByteAt_page h
    rw [Nat.add_right_comm, copyinBytes, hfirst]
    rw [ih hrest, load_succ, Nat.add_assoc a 1 n, Nat.add_comm 1 n]
    rfl

/-- The next page follows without wrapping around. -/
theorem toNat_next (h : userAddr m pt va.toNat ≠ none) :
    (PGROUNDDOWN va + 4096).toNat = va.toNat / 4096 * 4096 + 4096 := by
  have hva : va.toNat / 4096 < 2 ^ 27 := by
    by_contra hge
    refine h ?_
    rw [userAddr, leaf, if_neg hge]
    rfl
  have hsize : (4096 : UInt64).toNat = 4096 := rfl
  rw [UInt64.toNat_add, toNat_PGROUNDDOWN, hsize]
  omega

/-- What a round of one of the loops finds: no page, or a page for the next bytes. -/
theorem round_cases (h : UserTable m pt) (hlen : len ≠ 0) :
    Surely (walkaddr pt (PGROUNDDOWN va)) (fun pa m' => m' = m ∧
      ((pa = 0 ∧ userAddr m pt va.toNat = none) ∨
        (pa ≠ 0 ∧ pa ∉ tabs m 2 pt ∧ 0 < (chunk va len).toNat ∧ (chunk va len).toNat ≤ len.toNat ∧
          (∀ k < (chunk va len).toNat,
            userAddr m pt (va.toNat + k) = some (pa, (va - PGROUNDDOWN va).toNat + k)) ∧
          (chunk va len = len ∨ (PGROUNDDOWN va + 4096).toNat = va.toNat + (chunk va len).toNat)))) m := by
  refine ensures_mono (walkaddr_surely pt (PGROUNDDOWN va) m) fun pa m' hm' => ?_
  obtain ⟨rfl, rfl⟩ := hm'
  refine ⟨rfl, ?_⟩
  rw [userAddr_page]
  cases hu : userAddr m' pt va.toNat with
  | none => exact .inl ⟨rfl, rfl⟩
  | some p =>
    obtain ⟨pg, off⟩ := p
    obtain ⟨hzero, htab, rfl⟩ := h.userAddr hu
    have hchunk := toNat_chunk va len
    have hpos : len.toNat ≠ 0 := fun h0 => hlen (UInt64.toNat_inj.mp h0)
    have hnext := toNat_next (by rw [hu]; exact nofun)
    refine .inr ⟨hzero, htab, by omega, by omega, fun k hk => ?_, ?_⟩
    · rw [toNat_offset]
      exact userAddr_add hu (by omega)
    · rcases Nat.lt_or_ge (4096 - va.toNat % 4096) len.toNat with hlt | hge
      · right
        omega
      · left
        exact UInt64.toNat_inj.mp (by omega)

theorem toNat_rest (h : (chunk va len).toNat ≤ len.toNat) :
    (len - chunk va len).toNat = len.toNat - (chunk va len).toNat :=
  UInt64.toNat_sub_of_le _ _ (UInt64.le_iff_toNat_le.mpr h)

/-- After the last byte the address does not matter. -/
theorem copyinBytes_next (hnext : chunk va len = len ∨ a'.toNat = va.toNat + (chunk va len).toNat) :
    copyinBytes m pt (len.toNat - (chunk va len).toNat) a'.toNat =
      copyinBytes m pt (len.toNat - (chunk va len).toNat) (va.toNat + (chunk va len).toNat) := by
  rcases hnext with hall | hnext
  · rw [hall, Nat.sub_self]
    rfl
  · rw [hnext]

theorem copyinLoop_bytes (h : UserTable m pt) {rounds : Nat} (hrounds : len.toNat ≤ rounds) :
    Surely (copyinLoop pt rounds va len) (fun r m' => m' = m ∧ r = copyinBytes m pt len.toNat va.toNat) m := by
  induction rounds generalizing va len with
  | zero =>
    obtain rfl : len = 0 := UInt64.toNat_inj.mp (Nat.le_zero.mp hrounds)
    exact ⟨rfl, rfl⟩
  | succ rounds ih =>
    rw [copyinLoop]
    by_cases hlen : len = 0
    · rw [if_pos hlen, hlen]
      exact ⟨rfl, rfl⟩
    rw [if_neg hlen]
    refine ensures_seq (round_cases h hlen) fun pa m1 hm1 => ?_
    obtain ⟨rfl, ⟨rfl, hnone⟩ | ⟨hpa, -, hpos, hle, hpage, hnext⟩⟩ := hm1
    · obtain ⟨n, hn⟩ := Nat.exists_eq_succ_of_ne_zero fun h0 => hlen (UInt64.toNat_inj.mp h0)
      rw [if_pos rfl, hn, copyinBytes, userByteAt, hnone]
      exact ⟨rfl, rfl⟩
    · rw [if_neg hpa, ensures_bind, ensures_gets]
      have hrest := toNat_rest hle
      refine ensures_seq (@ih (PGROUNDDOWN va + 4096) (len - chunk va len) (by omega)) fun r m2 hr => ?_
      obtain ⟨rfl, rfl⟩ := hr
      have hsplit := copyinBytes_page (r := len.toNat - (chunk va len).toNat) hpage
      rw [Nat.add_sub_cancel' hle] at hsplit
      rw [hrest, copyinBytes_next hnext, hsplit]
      exact ⟨rfl, rfl⟩

theorem copyinstrBytes_page (h : ∀ k < n, userAddr m pt (a + k) = some (pg, off + k)) :
    copyinstrBytes m pt (n + r) a = if (uptoNul (m.load pg off n)).1 then (true, (uptoNul (m.load pg off n)).2)
      else ((copyinstrBytes m pt r (a + n)).1, m.load pg off n ++ (copyinstrBytes m pt r (a + n)).2) := by
  induction n generalizing a off with
  | zero =>
    rw [Nat.zero_add, Nat.add_zero]
    rfl
  | succ n ih =>
    obtain ⟨hfirst, hrest⟩ := userByteAt_page h
    rw [Nat.add_right_comm, copyinstrBytes, hfirst, load_succ, uptoNul]
    dsimp only
    by_cases hnul : m.byte pg off = 0
    · rw [if_pos hnul, if_pos hnul]
      rfl
    · rw [if_neg hnul, if_neg hnul, ih hrest, Nat.add_assoc a 1 n, Nat.add_comm 1 n]
      split
      · rfl
      · rfl

theorem copyinstrBytes_next (hnext : chunk va len = len ∨ a'.toNat = va.toNat + (chunk va len).toNat) :
    copyinstrBytes m pt (len.toNat - (chunk va len).toNat) a'.toNat =
      copyinstrBytes m pt (len.toNat - (chunk va len).toNat) (va.toNat + (chunk va len).toNat) := by
  rcases hnext with hall | hnext
  · rw [hall, Nat.sub_self]
    rfl
  · rw [hnext]

theorem copyinstrLoop_bytes (h : UserTable m pt) {rounds : Nat} (hrounds : len.toNat ≤ rounds) :
    Surely (copyinstrLoop pt rounds va len)
      (fun r m' => m' = m ∧ r = copyinstrBytes m pt len.toNat va.toNat) m := by
  induction rounds generalizing va len with
  | zero =>
    obtain rfl : len = 0 := UInt64.toNat_inj.mp (Nat.le_zero.mp hrounds)
    exact ⟨rfl, rfl⟩
  | succ rounds ih =>
    rw [copyinstrLoop]
    by_cases hlen : len = 0
    · rw [if_pos hlen, hlen]
      exact ⟨rfl, rfl⟩
    rw [if_neg hlen]
    refine ensures_seq (round_cases h hlen) fun pa m1 hm1 => ?_
    obtain ⟨rfl, ⟨rfl, hnone⟩ | ⟨hpa, -, hpos, hle, hpage, hnext⟩⟩ := hm1
    · obtain ⟨n, hn⟩ := Nat.exists_eq_succ_of_ne_zero fun h0 => hlen (UInt64.toNat_inj.mp h0)
      rw [if_pos rfl, hn, copyinstrBytes, userByteAt, hnone]
      exact ⟨rfl, rfl⟩
    · rw [if_neg hpa, ensures_bind, ensures_gets]
      have hrest := toNat_rest hle
      have hsplit := copyinstrBytes_page (r := len.toNat - (chunk va len).toNat) hpage
      rw [Nat.add_sub_cancel' hle] at hsplit
      generalize m1.load pa (va - PGROUNDDOWN va).toNat (chunk va len).toNat = bytes at hsplit ⊢
      by_cases hnul : (uptoNul bytes).1 = true
      · rw [if_pos hnul, hsplit, if_pos hnul]
        exact ⟨rfl, rfl⟩
      · rw [if_neg hnul]
        refine ensures_seq (@ih (PGROUNDDOWN va + 4096) (len - chunk va len) (by omega)) fun r m2 hr => ?_
        obtain ⟨rfl, rfl⟩ := hr
        rw [hrest, copyinstrBytes_next hnext, hsplit, if_neg hnul]
        exact ⟨rfl, rfl⟩

theorem copyoutBytes_page (hpg : pg ∉ tabs m 2 pt) (h : ∀ k < xs.length, userAddr m pt (a + k) = some (pg, off + k)) :
    copyoutBytes pt (xs ++ ys) a m = copyoutBytes pt ys (a + xs.length) (m.store pg off xs) := by
  induction xs generalizing a off m with
  | nil => rfl
  | cons x xs ih =>
    have hfirst := h 0 (Nat.succ_pos _)
    rw [Nat.add_zero, Nat.add_zero] at hfirst
    rw [List.cons_append, copyoutBytes, hfirst]
    dsimp only
    rw [ih, Mem.store, List.length_cons, Nat.add_assoc a 1, Nat.add_comm 1]
    · rw [(same_setByte hpg off x).tabs]
      exact hpg
    · intro k hk
      rw [userAddr_setByte hpg, Nat.add_assoc, Nat.add_assoc, Nat.add_comm 1 k]
      exact h (k + 1) (by rw [List.length_cons]; omega)

theorem UserTable.store (h : UserTable m pt) (hpg : pg ∉ tabs m 2 pt) (off : Nat) (xs : List UInt8) :
    UserTable (m.store pg off xs) pt := by
  induction xs generalizing off m with
  | nil => exact h
  | cons x xs ih =>
    refine ih (h.setByte hpg off x) ?_ (off + 1)
    rw [(same_setByte hpg off x).tabs]
    exact hpg

theorem copyoutLoop_bytes (h : UserTable m pt) {rounds : Nat} {src : List UInt8} (hrounds : len.toNat ≤ rounds)
    (hsrc : src.length = len.toNat) :
    Surely (copyoutLoop pt rounds va src len) (fun r m' => (r, m') = copyoutBytes pt src va.toNat m) m := by
  have hempty : ∀ (src : List UInt8) (len : UInt64), src.length = len.toNat → len = 0 → src = [] := by
    rintro src _ hlen rfl
    exact List.eq_nil_of_length_eq_zero hlen
  induction rounds generalizing va len src m with
  | zero =>
    rw [hempty src len hsrc (UInt64.toNat_inj.mp (Nat.le_zero.mp hrounds))]
    rfl
  | succ rounds ih =>
    rw [copyoutLoop]
    by_cases hlen : len = 0
    · rw [if_pos hlen, hempty src len hsrc hlen]
      rfl
    rw [if_neg hlen]
    refine ensures_seq (round_cases h hlen) fun pa m1 hm1 => ?_
    obtain ⟨rfl, ⟨rfl, hnone⟩ | ⟨hpa, htab, hpos, hle, hpage, hnext⟩⟩ := hm1
    · cases src with
      | nil => exact absurd (UInt64.toNat_inj.mp hsrc.symm) hlen
      | cons x xs =>
        rw [if_pos rfl, copyoutBytes, hnone]
        rfl
    · rw [if_neg hpa, ensures_bind, ensures_modify]
      have hrest := toNat_rest hle
      have htake : (src.take (chunk va len).toNat).length = (chunk va len).toNat := by
        rw [List.length_take]
        omega
      have hdrop : (src.drop (chunk va len).toNat).length = (len - chunk va len).toNat := by
        rw [List.length_drop]
        omega
      have hin : ∀ k < (src.take (chunk va len).toNat).length,
          userAddr m1 pt (va.toNat + k) = some (pa, (va - PGROUNDDOWN va).toNat + k) := by
        rw [htake]
        exact hpage
      have hsplit := @copyoutBytes_page m1 pt pa va.toNat _ _ (src.drop (chunk va len).toNat) htab hin
      rw [List.take_append_drop, htake] at hsplit
      rw [hsplit]
      refine ensures_mono (ih (h.store htab _ _) (by omega) hdrop) fun r m2 hr => ?_
      rw [hr]
      rcases hnext with hall | hnext
      · rw [hempty _ (len - chunk va len) hdrop (by rw [hall, UInt64.sub_self]), copyoutBytes, copyoutBytes]
      · rw [hnext]

/-! ## What the copies byte by byte do -/

/-- The address is below `MAXVA` and lies in a valid page with `PTE_U`. -/
def UserMapped (m : Mem) (pt : UInt64) (a : Nat) : Prop := userAddr m pt a ≠ none

theorem userByteAt_eq_none : userByteAt m pt a = none ↔ ¬ UserMapped m pt a := by
  rw [userByteAt, Option.map_eq_none_iff, UserMapped, not_not]

theorem userMapped_of_byte (h : userByteAt m pt a = some x) : UserMapped m pt a := by
  by_contra hnot
  cases (userByteAt_eq_none.mpr hnot).symm.trans h

theorem forall_lt_succ_shift {P : Nat → Prop} : (∀ k < n + 1, P (a + k)) ↔ P a ∧ ∀ k < n, P (a + 1 + k) := by
  constructor
  · intro h
    refine ⟨h 0 (Nat.succ_pos n), fun k hk => ?_⟩
    rw [Nat.add_right_comm, Nat.add_assoc]
    exact h (k + 1) (by omega)
  · rintro ⟨h0, h⟩ k hk
    cases k with
    | zero => exact h0
    | succ k =>
      have hk := h k (by omega)
      rw [Nat.add_right_comm, Nat.add_assoc] at hk
      exact hk

/-- `xs` are the first bytes of the user at the address `a`. -/
def Reads (m : Mem) (pt : UInt64) (a : Nat) (xs : List UInt8) : Prop :=
  ∀ k < xs.length, userByteAt m pt (a + k) = xs[k]?

theorem reads_nil : Reads m pt a [] := fun _ hk => absurd hk (by simp)

theorem Reads.cons (hx : userByteAt m pt a = some x) (h : Reads m pt (a + 1) xs) : Reads m pt a (x :: xs) := by
  intro k hk
  cases k with
  | zero => exact hx
  | succ k =>
    rw [List.getElem?_cons_succ, Nat.add_comm k 1, ← Nat.add_assoc]
    exact h k (by rw [List.length_cons] at hk; omega)

theorem copyinBytes_ok (m : Mem) (pt : UInt64) (n a : Nat) :
    (copyinBytes m pt n a).1 ↔ ∀ k < n, UserMapped m pt (a + k) := by
  induction n generalizing a with
  | zero => exact ⟨fun _ k hk => absurd hk (by omega), fun _ => rfl⟩
  | succ n ih =>
    rw [forall_lt_succ_shift, copyinBytes]
    cases hx : userByteAt m pt a with
    | none => exact ⟨nofun, fun h => absurd h.1 (userByteAt_eq_none.mp hx)⟩
    | some x => exact (ih (a + 1)).trans (iff_and_self.mpr fun _ => userMapped_of_byte hx)

theorem copyinBytes_reads (m : Mem) (pt : UInt64) (n a : Nat) :
    Reads m pt a (copyinBytes m pt n a).2 ∧ (copyinBytes m pt n a).2.length ≤ n ∧
      ((copyinBytes m pt n a).1 → (copyinBytes m pt n a).2.length = n) := by
  induction n generalizing a with
  | zero => exact ⟨reads_nil, Nat.le_refl 0, fun _ => rfl⟩
  | succ n ih =>
    rw [copyinBytes]
    cases hx : userByteAt m pt a with
    | none => exact ⟨reads_nil, Nat.zero_le _, nofun⟩
    | some x =>
      obtain ⟨hreads, hle, hall⟩ := ih (a + 1)
      exact ⟨hreads.cons hx, Nat.succ_le_succ hle, fun h => congrArg (· + 1) (hall h)⟩

theorem copyinBytes_congr (h : ∀ k < n, userByteAt m' pt (a + k) = userByteAt m pt (a + k)) :
    copyinBytes m' pt n a = copyinBytes m pt n a := by
  induction n generalizing a with
  | zero => rfl
  | succ n ih =>
    obtain ⟨h0, hrest⟩ := (forall_lt_succ_shift (P := fun b => userByteAt m' pt b = userByteAt m pt b)).mp h
    rw [copyinBytes, copyinBytes, h0, ih hrest]

theorem copyinstrBytes_ok (m : Mem) (pt : UInt64) (n a : Nat) :
    (copyinstrBytes m pt n a).1 ↔
      ∃ k < n, userByteAt m pt (a + k) = some 0 ∧ ∀ j ≤ k, UserMapped m pt (a + j) := by
  induction n generalizing a with
  | zero => exact ⟨nofun, fun ⟨k, hk, _⟩ => absurd hk (by omega)⟩
  | succ n ih =>
    rw [copyinstrBytes]
    cases hx : userByteAt m pt a with
    | none =>
      refine ⟨nofun, ?_⟩
      rintro ⟨k, -, -, hmap⟩
      exact absurd (hmap 0 (Nat.zero_le k)) (userByteAt_eq_none.mp hx)
    | some x =>
      dsimp only
      by_cases hnul : x = 0
      · rw [if_pos hnul]
        refine ⟨fun _ => ⟨0, Nat.succ_pos n, by rw [Nat.add_zero, hx, hnul], fun j hj => ?_⟩, fun _ => rfl⟩
        rw [Nat.le_zero.mp hj]
        exact userMapped_of_byte hx
      · rw [if_neg hnul]
        refine (ih (a + 1)).trans ⟨?_, ?_⟩
        · rintro ⟨k, hk, hzero, hmap⟩
          refine ⟨k + 1, by omega, ?_, fun j hj => ?_⟩
          · rw [Nat.add_comm k 1, ← Nat.add_assoc]
            exact hzero
          · exact (forall_lt_succ_shift (n := k + 1)).mpr
              ⟨userMapped_of_byte hx, fun i hi => hmap i (by omega)⟩ j (by omega)
        · rintro ⟨k, hk, hzero, hmap⟩
          cases k with
          | zero =>
            rw [Nat.add_zero, hx] at hzero
            exact absurd (Option.some.inj hzero) hnul
          | succ k =>
            have hrest := (forall_lt_succ_shift (n := k + 1)).mp fun i hi => hmap i (by omega)
            refine ⟨k, by omega, ?_, fun j hj => hrest.2 j (by omega)⟩
            rw [Nat.add_assoc, Nat.add_comm 1 k]
            exact hzero

theorem copyinstrBytes_reads (m : Mem) (pt : UInt64) (n a : Nat) :
    Reads m pt a (copyinstrBytes m pt n a).2 ∧ (copyinstrBytes m pt n a).2.length ≤ n ∧
      ((copyinstrBytes m pt n a).1 → ∃ xs, (copyinstrBytes m pt n a).2 = xs ++ [0] ∧ 0 ∉ xs) := by
  induction n generalizing a with
  | zero => exact ⟨reads_nil, Nat.le_refl 0, nofun⟩
  | succ n ih =>
    rw [copyinstrBytes]
    cases hx : userByteAt m pt a with
    | none => exact ⟨reads_nil, Nat.zero_le _, nofun⟩
    | some x =>
      dsimp only
      by_cases hnul : x = 0
      · rw [if_pos hnul]
        rw [hnul] at hx
        exact ⟨reads_nil.cons hx, Nat.succ_le_succ (Nat.zero_le n), fun _ => ⟨[], rfl, List.not_mem_nil⟩⟩
      · rw [if_neg hnul]
        obtain ⟨hreads, hle, hall⟩ := ih (a + 1)
        refine ⟨hreads.cons hx, Nat.succ_le_succ hle, fun h => ?_⟩
        obtain ⟨xs, heq, hnot⟩ := hall h
        refine ⟨x :: xs, congrArg (x :: ·) heq, fun hmem => ?_⟩
        rcases List.mem_cons.mp hmem with h0 | hmem
        · exact hnul h0.symm
        · exact hnot hmem

theorem copyinstrBytes_congr (h : ∀ k < n, userByteAt m' pt (a + k) = userByteAt m pt (a + k)) :
    copyinstrBytes m' pt n a = copyinstrBytes m pt n a := by
  induction n generalizing a with
  | zero => rfl
  | succ n ih =>
    obtain ⟨h0, hrest⟩ := (forall_lt_succ_shift (P := fun b => userByteAt m' pt b = userByteAt m pt b)).mp h
    rw [copyinstrBytes, copyinstrBytes, h0, ih hrest]

/-- The first `w` bytes of `src` have been written, in order, to the user addresses from `a` on, and nothing else. -/
structure Writes (m m' : Mem) (pt : UInt64) (a : Nat) (src : List UInt8) (w : Nat) : Prop where
  mapped : ∀ k < w, UserMapped m pt (a + k)
  bytes : ∀ k < w, ∀ pg off, userAddr m pt (a + k) = some (pg, off) →
    (∀ j, k < j → j < w → userAddr m pt (a + j) ≠ some (pg, off)) → src[k]? = some (m'.byte pg off)
  other : ∀ pg off, off < 4096 → (∀ k < w, userAddr m pt (a + k) ≠ some (pg, off)) → m'.byte pg off = m.byte pg off
  tables : Same m m' 2 pt
  free : m'.free = m.free

theorem writes_nil (m : Mem) (pt : UInt64) (a : Nat) (xs : List UInt8) : Writes m m pt a xs 0 :=
  ⟨fun _ hk => absurd hk (by omega), fun _ hk => absurd hk (by omega), fun _ _ _ _ => rfl, .of_agree (.refl m _), rfl⟩

theorem Writes.cons {w : Nat} (hpg : pg ∉ tabs m 2 pt) (hoff : off < 4096) (hfirst : userAddr m pt a = some (pg, off))
    (h : Writes (m.setByte pg off x) m' pt (a + 1) xs w) : Writes m m' pt a (x :: xs) (w + 1) := by
  have hsame := same_setByte hpg off x
  have haddr : userAddr (m.setByte pg off x) pt = userAddr m pt := userAddr_setByte hpg off x
  obtain ⟨hmapped, hbytes, hother, htables, hfree⟩ := h
  simp only [UserMapped, haddr] at hmapped hbytes hother
  refine ⟨?_, ?_, ?_, ?_, hfree⟩
  · rw [forall_lt_succ_shift]
    refine ⟨?_, hmapped⟩
    rw [UserMapped, hfirst]
    exact nofun
  · intro k hk q o hq hlast
    cases k with
    | zero =>
      rw [Nat.add_zero, hfirst] at hq
      obtain ⟨rfl, rfl⟩ := Prod.mk.inj (Option.some.inj hq)
      rw [hother pg off hoff, byte_setByte hoff hoff, if_pos ⟨rfl, rfl⟩]
      · rfl
      · intro j hj
        rw [Nat.add_assoc, Nat.add_comm 1 j]
        exact hlast (j + 1) (by omega) (by omega)
    | succ k =>
      refine hbytes k (by omega) q o ?_ fun j hj hw => ?_
      · rw [Nat.add_assoc, Nat.add_comm 1 k]
        exact hq
      · rw [Nat.add_assoc, Nat.add_comm 1 j]
        exact hlast (j + 1) (by omega) (by omega)
  · intro q o ho hnot
    obtain ⟨h0, hrest⟩ := (forall_lt_succ_shift (P := fun b => userAddr m pt b ≠ some (q, o))).mp hnot
    rw [hother q o ho hrest, byte_setByte hoff ho, if_neg]
    rintro ⟨rfl, rfl⟩
    exact h0 hfirst
  · refine ⟨htables.tabs.trans hsame.tabs, fun va => ?_, fun va => ?_, fun hs => htables.shape (hsame.shape hs)⟩
    · rw [htables.find, hsame.find]
    · rw [htables.lookup, hsame.lookup]

theorem copyoutBytes_writes (h : UserTable m pt) (src : List UInt8) (a : Nat) :
    ∃ w ≤ src.length, Writes m (copyoutBytes pt src a m).2 pt a src w ∧
      ((copyoutBytes pt src a m).1 → w = src.length) := by
  induction src generalizing a m with
  | nil => exact ⟨0, Nat.le_refl 0, writes_nil m pt a [], fun _ => rfl⟩
  | cons x xs ih =>
    rw [copyoutBytes]
    cases hu : userAddr m pt a with
    | none => exact ⟨0, Nat.zero_le _, writes_nil m pt a _, nofun⟩
    | some p =>
      obtain ⟨pg, off⟩ := p
      obtain ⟨-, hpg, hoff⟩ := h.userAddr hu
      have hlt : off < 4096 := by
        rw [show off = a % 4096 from hoff]
        exact Nat.mod_lt _ (by decide)
      obtain ⟨w, hle, hw, hok⟩ := ih (h.setByte hpg off x) (a + 1)
      exact ⟨w + 1, Nat.succ_le_succ hle, hw.cons hpg hlt hu, fun ht => congrArg (· + 1) (hok ht)⟩

theorem copyoutBytes_ok (h : UserTable m pt) (src : List UInt8) (a : Nat) :
    (copyoutBytes pt src a m).1 ↔ ∀ k < src.length, UserMapped m pt (a + k) := by
  induction src generalizing a m with
  | nil => exact ⟨fun _ k hk => absurd hk (by simp), fun _ => rfl⟩
  | cons x xs ih =>
    rw [List.length_cons, forall_lt_succ_shift, copyoutBytes]
    cases hu : userAddr m pt a with
    | none => exact ⟨nofun, fun hall => absurd hu hall.1⟩
    | some p =>
      obtain ⟨-, hpg, -⟩ := h.userAddr hu
      refine (ih (h.setByte hpg p.2 x) (a + 1)).trans ?_
      rw [UserMapped, hu]
      simp only [UserMapped, userAddr_setByte hpg]
      exact ⟨fun hrest => ⟨nofun, hrest⟩, fun hall => hall.2⟩

/-- The pages of a new address space are those of a user table. -/
theorem Grown.userTable {perm : UInt64} {b k : Nat} {X : Multiset UInt64} (h : Grown m m' pt perm X 0 b k)
    (hbits : perm.toNat < 1024) (hnone : ∀ v, leaf m pt v = none) (hfree : ∀ pg ∈ m.free, pg ≠ 0) :
    UserTable m' pt := by
  refine ⟨h.tree.shape, fun v e he _ => ?_⟩
  by_cases hv : b ≤ v ∧ v < b + k
  · obtain ⟨pg, hmem, hpg, hpage, -, hleaf⟩ := h.leaf_page hbits hv.1 hv.2
    rw [hleaf] at he
    rw [← Option.some.inj he, PTE2PA_leaf hpage hbits]
    refine ⟨hfree pg hpg, fun htab => ?_⟩
    refine Multiset.disjoint_left.mp (Multiset.nodup_add.mp h.tree.nodup).2.2 (Multiset.mem_add.mpr (.inl htab)) ?_
    exact Multiset.mem_add.mpr (.inl (Multiset.mem_add.mpr (.inl hmem)))
  · rw [h.other v hv, hnone] at he
    cases he

/-! ## The functions of the source -/

/-- The outcome of `copyin`: 0 if and only if all bytes are mapped, and then the bytes in order; in any case the bytes
that were read are the first of them. Nothing else is read. -/
structure CopiedIn (m : Mem) (pt va len : UInt64) (ok : Bool) (bytes : List UInt8) : Prop where
  ok_iff : ok = true ↔ ∀ k < len.toNat, UserMapped m pt (va.toNat + k)
  reads : Reads m pt va.toNat bytes
  length_le : bytes.length ≤ len.toNat
  length_eq : ok = true → bytes.length = len.toNat
  only : ∀ m', UserTable m' pt →
    (∀ k < len.toNat, userByteAt m' pt (va.toNat + k) = userByteAt m pt (va.toNat + k)) →
    (copyin pt va len).run m' = .done (ok, bytes) m'

/-- The outcome of `copyinstr`: 0 if and only if a zero byte is found at an address before `va + max` with all bytes up
to it mapped, and then the bytes up to the first zero. Nothing else is read. -/
structure CopiedStr (m : Mem) (pt va max : UInt64) (ok : Bool) (bytes : List UInt8) : Prop where
  ok_iff : ok = true ↔ ∃ k < max.toNat, userByteAt m pt (va.toNat + k) = some 0 ∧
    ∀ j ≤ k, UserMapped m pt (va.toNat + j)
  reads : Reads m pt va.toNat bytes
  length_le : bytes.length ≤ max.toNat
  nul : ok = true → ∃ xs, bytes = xs ++ [0] ∧ 0 ∉ xs
  only : ∀ m', UserTable m' pt →
    (∀ k < max.toNat, userByteAt m' pt (va.toNat + k) = userByteAt m pt (va.toNat + k)) →
    (copyinstr pt va max).run m' = .done (ok, bytes) m'

/-- The outcome of `copyout`: 0 if and only if all bytes are mapped, and then all are written; in any case the first
bytes are written, in order, and nothing else. -/
structure CopiedOut (m m' : Mem) (pt va : UInt64) (src : List UInt8) (ok : Bool) : Prop where
  ok_iff : ok = true ↔ ∀ k < src.length, UserMapped m pt (va.toNat + k)
  writes : ∃ w ≤ src.length, Writes m m' pt va.toNat src w ∧ (ok = true → w = src.length)

theorem copyin_run (h : UserTable m pt) (va len : UInt64) :
    (copyin pt va len).run m = .done (copyinBytes m pt len.toNat va.toNat) m := by
  obtain ⟨r, m', hrun, rfl, rfl⟩ := exists_done_of_ensures (@copyinLoop_bytes m pt va len h _ (Nat.le_refl _))
  exact hrun

theorem copyinstr_run (h : UserTable m pt) (va max : UInt64) :
    (copyinstr pt va max).run m = .done (copyinstrBytes m pt max.toNat va.toNat) m := by
  obtain ⟨r, m', hrun, rfl, rfl⟩ := exists_done_of_ensures (@copyinstrLoop_bytes m pt va max h _ (Nat.le_refl _))
  exact hrun

theorem copyout_run (h : UserTable m pt) (va len : UInt64) {src : List UInt8} (hsrc : src.length = len.toNat) :
    ∃ ok m', (copyout pt va src len).run m = .done ok m' ∧ CopiedOut m m' pt va src ok := by
  obtain ⟨ok, m', hrun, hr⟩ := exists_done_of_ensures (@copyoutLoop_bytes m pt va len h _ src (Nat.le_refl _) hsrc)
  obtain ⟨rfl, rfl⟩ := Prod.mk.inj hr
  exact ⟨_, _, hrun, copyoutBytes_ok h src va.toNat, copyoutBytes_writes h src va.toNat⟩

theorem user_copies_bytewise (h : UserTable m pt) (va len max : UInt64) (src : List UInt8)
    (hsrc : src.length = len.toNat) :
    (∃ ok bytes, (copyin pt va len).run m = .done (ok, bytes) m ∧ CopiedIn m pt va len ok bytes) ∧
      (∃ ok bytes, (copyinstr pt va max).run m = .done (ok, bytes) m ∧ CopiedStr m pt va max ok bytes) ∧
      ∃ ok m', (copyout pt va src len).run m = .done ok m' ∧ CopiedOut m m' pt va src ok := by
  refine ⟨⟨_, _, copyin_run h va len, ?_⟩, ⟨_, _, copyinstr_run h va max, ?_⟩, copyout_run h va len hsrc⟩
  · obtain ⟨hreads, hle, hall⟩ := copyinBytes_reads m pt len.toNat va.toNat
    refine ⟨copyinBytes_ok m pt _ _, hreads, hle, hall, fun m' h' hsame => ?_⟩
    rw [copyin_run h' va len, copyinBytes_congr hsame]
  · obtain ⟨hreads, hle, hnul⟩ := copyinstrBytes_reads m pt max.toNat va.toNat
    refine ⟨copyinstrBytes_ok m pt _ _, hreads, hle, hnul, fun m' h' hsame => ?_⟩
    rw [copyinstr_run h' va max, copyinstrBytes_congr hsame]

theorem user_copies_bytewise_small : ∃ m₀ m, uvmcreate.run smallRam = .done (some 0x80200000) m₀ ∧
    (uvmalloc 0x80200000 0 5000 PTE_W).run m₀ = .done 5000 m ∧ UserTable m 0x80200000 ∧
    ((∃ ok bytes, (copyin 0x80200000 4000 3).run m = .done (ok, bytes) m ∧
        CopiedIn m 0x80200000 4000 3 ok bytes) ∧
      (∃ ok bytes, (copyinstr 0x80200000 4000 200).run m = .done (ok, bytes) m ∧
        CopiedStr m 0x80200000 4000 200 ok bytes) ∧
      ∃ ok m', (copyout 0x80200000 4000 [1, 2, 3] 3).run m = .done ok m' ∧
        CopiedOut m m' 0x80200000 4000 [1, 2, 3] ok) := by
  obtain ⟨m₀, hcreate⟩ : ∃ m, uvmcreate.run smallRam = .done (some 0x80200000) m := ⟨_, rfl⟩
  have hsound := ready_smallRam.create hcreate
  have hfree : ∀ pg ∈ m₀.free, pg ≠ 0 := by
    rintro _ hpg rfl
    have hram := hsound.ram 0 (Multiset.mem_add.mpr (.inl (Multiset.mem_add.mpr (.inr hpg))))
    have hkend := of_run_eq_done (fixed_uvmcreate smallRam) hcreate
    rw [hkend] at hram
    exact absurd hram.2.1 (by decide)
  have hval : ((uvmcreate >>= fun _ => uvmalloc 0x80200000 0 5000 PTE_W).run smallRam).returned
      (fun r _ => decide (r = 5000)) = true := by decide +kernel
  obtain ⟨r, m, hrun, -, hr⟩ := exists_done_of_ensures (@uvmalloc_surely m₀ 0x80200000 5000 0 PTE_W 0 hsound
    (by decide) (by decide) (by decide) fun v _ _ => leaf_of_create hcreate v)
  rw [run_bind_of_done hcreate, hrun] at hval
  obtain rfl := of_decide_eq_true hval
  obtain ⟨-, hG⟩ | ⟨h0, -⟩ := hr
  · have htable := hG.userTable (by decide) (leaf_of_create hcreate) hfree
    exact ⟨m₀, m, hcreate, hrun, htable, user_copies_bytewise htable 4000 3 200 [1, 2, 3] rfl⟩
  · cases h0

end Xv6.Vm
