import Xv6.Fs.Walk

/-!
# Paths

The components of a path, and the inode that they lead to: from the root on, one component after the other is
looked up in the directory that was reached. Both are stated for the bytes of the path and for the disk alone.
-/

namespace Xv6.Fs

open Data Coop Prog Storage

/-! ## Components of a path -/

/-- The parts of a path between the slashes. -/
def components (path : List UInt8) : List (List UInt8) := (path.splitOnP (· == SLASH)).filter (· ≠ [])

/-- The components as `skipelem` cuts them. -/
def elements (path : List UInt8) : List (List UInt8) := (components path).map (·.take (DIRSIZ - 1))

theorem components_nil : components [] = [] := by
  rw [components, List.splitOnP_nil]
  rfl

theorem components_append_slash (a b : List UInt8) : components (a ++ SLASH :: b) = components a ++ components b := by
  rw [components, List.splitOnP_append_cons (p := (· == SLASH)) a b (beq_self_eq_true _), List.filter_append]
  rfl

theorem components_slash (b : List UInt8) : components (SLASH :: b) = components b := by
  have h := components_append_slash [] b
  rwa [components_nil] at h

theorem components_dropWhile (path : List UInt8) : components (path.dropWhile (· == SLASH)) = components path := by
  induction path with
  | nil => rfl
  | cons c path ih =>
    by_cases hc : (c == SLASH) = true
    · obtain rfl := eq_of_beq hc
      rw [List.dropWhile_cons_of_pos (p := (· == SLASH)) hc, ih, components_slash]
    · rw [List.dropWhile_cons_of_neg (p := (· == SLASH)) hc]

theorem components_word {w : List UInt8} (hw : w ≠ []) (hno : ∀ c, c ∈ w → (c == SLASH) = false) :
    components w = [w] := by
  rw [components, List.splitOnP_eq_singleton hno]
  exact List.filter_cons_of_pos (by simpa using hw)

/-- The first component and the rest of a path that does not begin with a slash. -/
theorem components_takeWhile {path : List UInt8} (hne : path ≠ []) (hhead : ∀ c, path.head? = some c → c ≠ SLASH) :
    components path = path.takeWhile (· != SLASH) :: components (path.dropWhile (· != SLASH)) := by
  have hno : ∀ c, c ∈ path.takeWhile (· != SLASH) → (c == SLASH) = false := by
    intro c hc
    have := List.mem_takeWhile_imp hc
    simpa using this
  have hword : path.takeWhile (· != SLASH) ≠ [] := by
    cases path with
    | nil => exact absurd rfl hne
    | cons c path =>
      have hc : (c != SLASH) = true := by simpa using hhead c rfl
      rw [List.takeWhile_cons_of_pos (p := (· != SLASH)) hc]
      exact List.cons_ne_nil _ _
  have hsplit := List.takeWhile_append_dropWhile (p := (· != SLASH)) (l := path)
  cases hrest : path.dropWhile (· != SLASH) with
  | nil =>
    rw [hrest, List.append_nil] at hsplit
    rw [components_nil, ← components_word hword hno, hsplit]
  | cons c rest =>
    have hc : (c != SLASH) = false := by
      have := List.head?_dropWhile_not (· != SLASH) path
      rw [hrest] at this
      simpa using this
    obtain rfl : c = SLASH := by simpa using hc
    rw [hrest] at hsplit
    rw [← hsplit, components_append_slash, components_word hword hno, components_slash]
    rw [hsplit]
    rfl

theorem skipelem_none {path : List UInt8} (h : skipelem path = none) : components path = [] := by
  unfold skipelem at h
  simp only [] at h
  split at h
  · rename_i hnil
    rw [← components_dropWhile, hnil, components_nil]
  · cases h

theorem skipelem_some {path name rest : List UInt8} (h : skipelem path = some (name, rest)) :
    elements path = name :: elements rest ∧ rest.length < path.length ∧
      (rest = [] ↔ components rest = []) := by
  unfold skipelem at h
  simp only [] at h
  split at h
  · cases h
  · rename_i hne
    obtain ⟨rfl, rfl⟩ := Prod.mk.inj (Option.some.inj h)
    have hhead : ∀ c, (path.dropWhile (· == SLASH)).head? = some c → c ≠ SLASH := by
      intro c hc
      have := List.head?_dropWhile_not (· == SLASH) path
      rw [hc] at this
      simpa using this
    refine ⟨?_, ?_, ?_⟩
    · rw [elements, ← components_dropWhile path, components_takeWhile hne hhead, List.map_cons, elements,
        components_dropWhile]
    · have h1 := (List.dropWhile_sublist (· == SLASH) (l := path)).length_le
      have h2 := (List.dropWhile_sublist (· == SLASH)
        (l := (path.dropWhile (· == SLASH)).dropWhile (· != SLASH))).length_le
      cases hcut : path.dropWhile (· == SLASH) with
      | nil => exact absurd hcut hne
      | cons c t =>
        rw [hcut] at h1 h2
        have hc : (c != SLASH) = true := by
          rw [hcut] at hhead
          simpa using hhead c rfl
        have h3 := (List.dropWhile_sublist (· != SLASH) (l := t)).length_le
        rw [List.dropWhile_cons_of_pos (p := (· != SLASH)) hc] at h2 ⊢
        rw [List.length_cons] at h1
        omega
    · refine ⟨fun he => by rw [he, components_nil], fun he => ?_⟩
      by_contra hrest
      have hhead' : ∀ c, (((path.dropWhile (· == SLASH)).dropWhile (· != SLASH)).dropWhile (· == SLASH)).head? =
          some c → c ≠ SLASH := by
        intro c hc
        have := List.head?_dropWhile_not (· == SLASH) ((path.dropWhile (· == SLASH)).dropWhile (· != SLASH))
        rw [hc] at this
        simpa using this
      cases (components_takeWhile hrest hhead').symm.trans he

/-! ## The meaning of a path -/

/-- The inode that the first entry for `name` in directory `n` names. -/
def lookupName (sb : Superblock) (disk : Nat → Block) (n : Nat) (name : List UInt8) : Option Nat :=
  let d := dinodeAt sb disk n
  ((List.range (d.size.toNat / DESIZE)).find? fun j =>
      decide ((entryAt disk d j).inum ≠ 0) && nameEq name (entryAt disk d j).name).map
    fun j => (entryAt disk d j).inum.toNat

/-- One step of a path: only a directory has entries. -/
def descend (sb : Superblock) (disk : Nat → Block) (n : Nat) (name : List UInt8) : Option Nat :=
  if (dinodeAt sb disk n).type = T_DIR then lookupName sb disk n name else none

/-- The inode that a list of components leads to from inode `n`. -/
def resolve (sb : Superblock) (disk : Nat → Block) (n : Nat) (cs : List (List UInt8)) : Option Nat :=
  cs.foldlM (descend sb disk) n

/-- The directory that holds the last component, and the last component. -/
def resolveParent (sb : Superblock) (disk : Nat → Block) (n : Nat) (cs : List (List UInt8)) :
    Option (Nat × List UInt8) := do
  let c ← cs.getLast?
  let m ← resolve sb disk n cs.dropLast
  if (dinodeAt sb disk m).type = T_DIR then pure (m, c) else none

section Meaning

variable {sb : Superblock} {disk : Nat → Block} {n m k : Nat} {name : List UInt8} {cs : List (List UInt8)}

theorem resolveParent_type (h : resolveParent sb disk n cs = some (m, name)) :
    (dinodeAt sb disk m).type = T_DIR ∧ cs.getLast? = some name := by
  unfold resolveParent at h
  obtain ⟨c, hc, hrest⟩ := Option.bind_eq_some_iff.mp h
  obtain ⟨m', _, hrest⟩ := Option.bind_eq_some_iff.mp hrest
  split at hrest
  · rename_i htype
    cases hrest
    exact ⟨htype, hc⟩
  · cases hrest

theorem resolve_cons {c : List UInt8} :
    resolve sb disk n (c :: cs) = (descend sb disk n c).bind fun m => resolve sb disk m cs := by
  unfold resolve
  rw [List.foldlM_cons]
  rfl

theorem resolve_append {cs' : List (List UInt8)} :
    resolve sb disk n (cs ++ cs') = (resolve sb disk n cs).bind fun m => resolve sb disk m cs' := by
  unfold resolve
  rw [List.foldlM_append]
  rfl

/-- Below a directory the parent of a longer path is found. -/
theorem resolveParent_cons {c : List UInt8} (hcs : cs ≠ []) :
    resolveParent sb disk n (c :: cs) = (descend sb disk n c).bind fun m => resolveParent sb disk m cs := by
  obtain ⟨c', cs', rfl⟩ := List.exists_cons_of_ne_nil hcs
  unfold resolveParent
  rw [List.getLast?_cons_cons, List.dropLast_cons_cons, resolve_cons]
  cases descend sb disk n c with
  | none =>
    cases (c' :: cs').getLast? with
    | none => rfl
    | some _ => rfl
  | some m => rfl

/-- A path leads to what its last component names in the parent. -/
theorem resolve_of_parent (h : resolveParent sb disk n cs = some (m, name)) :
    resolve sb disk n cs = descend sb disk m name := by
  unfold resolveParent at h
  obtain ⟨c, hc, h⟩ := Option.bind_eq_some_iff.mp h
  obtain ⟨m', hm, h⟩ := Option.bind_eq_some_iff.mp h
  split at h
  · cases h
    have hne : cs ≠ [] := by
      intro he
      rw [he] at hc
      cases hc
    have hlast : cs.dropLast ++ [name] = cs := by
      rw [List.getLast?_eq_some_getLast hne] at hc
      rw [← Option.some.inj hc]
      exact List.dropLast_append_getLast hne
    rw [← hlast, resolve_append, hm]
    show resolve sb disk m [name] = _
    rw [resolve_cons]
    cases descend sb disk m name with
    | none => rfl
    | some _ => rfl
  · cases h

/-- In a directory with `k` entries the search finds what `dirlookup` finds. -/
theorem lookupName_eq_none (hsize : (dinodeAt sb disk n).size.toNat = DESIZE * k)
    (h : ∀ j, j < k → ¬ Matches name (entryAt disk (dinodeAt sb disk n) j)) :
    lookupName sb disk n name = none := by
  unfold lookupName
  simp only [Option.map_eq_none_iff, List.find?_eq_none, List.mem_range, hsize]
  intro j hj hmatch
  rw [Bool.and_eq_true, decide_eq_true_eq] at hmatch
  exact h j (by lia) hmatch

theorem lookupName_eq_some {j : Nat} (hsize : (dinodeAt sb disk n).size.toNat = DESIZE * k) (hj : j < k)
    (hmatch : Matches name (entryAt disk (dinodeAt sb disk n) j))
    (hfirst : ∀ j', j' < j → ¬ Matches name (entryAt disk (dinodeAt sb disk n) j')) :
    lookupName sb disk n name = some (entryAt disk (dinodeAt sb disk n) j).inum.toNat := by
  have hfind : ((List.range ((dinodeAt sb disk n).size.toNat / DESIZE)).find? fun j =>
      decide ((entryAt disk (dinodeAt sb disk n) j).inum ≠ 0) &&
        nameEq name (entryAt disk (dinodeAt sb disk n) j).name) = some j := by
    rw [List.find?_range_eq_some, hsize]
    refine ⟨?_, List.mem_range.mpr (by lia), ?_⟩
    · rw [Bool.and_eq_true, decide_eq_true_eq]
      exact hmatch
    · intro j' hj'
      have hno : ¬ _ := hfirst j' hj'
      rw [Bool.not_eq_true', Bool.eq_false_iff]
      intro hmatch'
      rw [Bool.and_eq_true, decide_eq_true_eq] at hmatch'
      exact hno hmatch'
  unfold lookupName
  simp only [hfind, Option.map_some]

end Meaning

end Xv6.Fs
