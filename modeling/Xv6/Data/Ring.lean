import Mathlib.Data.List.Basic
import Mathlib.Data.List.Induction
import Mathlib.Data.List.Nodup
import Mathlib.Logic.Function.Basic

/-!
# Circular doubly linked lists through a sentinel

The nodes are the elements of `α` and a sentinel; a pointer to a node is an `Option α`, with
`none` for the sentinel. `Ring k l` says that the links `k` form one circle that leaves the
sentinel, visits the elements of `l` in order and returns, and that the back links are the
same circle read backwards.

The operations are written as the pointer assignments that a program makes, in their order.
-/

namespace Xv6.Data

open Function

/-- The forward and backward link of every node, the sentinel included. -/
structure Links (α : Type) where
  next : Option α → Option α
  prev : Option α → Option α

namespace Links

def empty {α : Type} : Links α := ⟨fun _ => none, fun _ => none⟩

/-- The nodes met by following `f` from `a` to the sentinel, at most `n` of them. -/
def follow {α : Type} (f : Option α → Option α) : Nat → Option α → List α
  | 0, _ => []
  | n + 1, a =>
    match f a with
    | none => []
    | some x => x :: follow f n (some x)

variable {α : Type} [DecidableEq α]

def setNext (k : Links α) (a b : Option α) : Links α :=
  { k with next := update k.next a b }

def setPrev (k : Links α) (a b : Option α) : Links α :=
  { k with prev := update k.prev a b }

@[simp] theorem setNext_next (k : Links α) (a b c : Option α) :
    (k.setNext a b).next c = if c = a then b else k.next c := by
  simp [setNext, update_apply]

@[simp] theorem setNext_prev (k : Links α) (a b : Option α) : (k.setNext a b).prev = k.prev := rfl

@[simp] theorem setPrev_prev (k : Links α) (a b c : Option α) :
    (k.setPrev a b).prev c = if c = a then b else k.prev c := by
  simp [setPrev, update_apply]

@[simp] theorem setPrev_next (k : Links α) (a b : Option α) : (k.setPrev a b).next = k.next := rfl

/-- Insert `x` right after the sentinel. -/
def pushFront (k : Links α) (x : α) : Links α :=
  let k := k.setNext (some x) (k.next none)
  let k := k.setPrev (some x) none
  let k := k.setPrev (k.next none) (some x)
  k.setNext none (some x)

/-- Take `x` out of the circle. -/
def unlink (k : Links α) (x : α) : Links α :=
  let k := k.setNext (k.prev (some x)) (k.next (some x))
  k.setPrev (k.next (some x)) (k.prev (some x))

/-- Insert `x` right before the sentinel. -/
def pushBack (k : Links α) (x : α) : Links α :=
  let k := k.setPrev (some x) (k.prev none)
  let k := k.setNext (k.prev none) (some x)
  let k := k.setNext (some x) none
  k.setPrev none (some x)

end Links

/-! ## Paths -/

section Path

variable {α : Type}

/-- The last node of the path that starts at `a` and visits `l`. -/
def endOf : Option α → List α → Option α
  | a, [] => a
  | _, x :: l => endOf (some x) l

/-- The links between consecutive nodes of the path that starts at `a` and visits `l`. -/
def Path (k : Links α) : Option α → List α → Prop
  | _, [] => True
  | a, x :: l => k.next a = some x ∧ k.prev (some x) = a ∧ Path k (some x) l

theorem endOf_append (a : Option α) (l1 l2 : List α) : endOf a (l1 ++ l2) = endOf (endOf a l1) l2 := by
  induction l1 generalizing a with
  | nil => rfl
  | cons x l ih => exact ih (some x)

theorem path_append {k : Links α} (a : Option α) (l1 l2 : List α) :
    Path k a (l1 ++ l2) ↔ Path k a l1 ∧ Path k (endOf a l1) l2 := by
  induction l1 generalizing a with
  | nil => simp [Path, endOf]
  | cons x l ih => simp only [List.cons_append, Path, endOf, ih (some x), and_assoc]

theorem endOf_eq_or_mem (a : Option α) (l : List α) : endOf a l = a ∨ ∃ x ∈ l, endOf a l = some x := by
  induction l generalizing a with
  | nil => exact Or.inl rfl
  | cons x l ih =>
    right
    rcases ih (some x) with h | ⟨y, hy, h⟩
    · exact ⟨x, List.mem_cons_self, h⟩
    · exact ⟨y, List.mem_cons_of_mem _ hy, h⟩

theorem endOf_none_eq_some {l : List α} {x : α} (h : endOf none l = some x) : x ∈ l := by
  rcases endOf_eq_or_mem none l with h' | ⟨y, hy, h'⟩
  · rw [h'] at h; cases h
  · rw [h'] at h; cases h; exact hy

/-- A path does not depend on the forward link of its last node, nor on the back link of its
first. -/
theorem Path.congr {k k' : Links α} {a : Option α} {l : List α} (h : Path k a l)
    (ha : ∀ x ∈ l, a ≠ some x) (hnodup : l.Nodup)
    (hnext : ∀ c, (c = a ∨ ∃ x ∈ l, c = some x) → c ≠ endOf a l → k'.next c = k.next c)
    (hprev : ∀ x ∈ l, k'.prev (some x) = k.prev (some x)) : Path k' a l := by
  induction l generalizing a with
  | nil => trivial
  | cons x l ih =>
    obtain ⟨h1, h2, h3⟩ := h
    obtain ⟨hx, hl⟩ := List.nodup_cons.mp hnodup
    have hne : a ≠ endOf (some x) l := by
      rcases endOf_eq_or_mem (some x) l with he | ⟨y, hy, he⟩
      · rw [he]; exact ha x List.mem_cons_self
      · rw [he]; exact ha y (List.mem_cons_of_mem _ hy)
    refine ⟨(hnext a (Or.inl rfl) hne).trans h1,
      (hprev x List.mem_cons_self).trans h2, ih h3 ?_ hl ?_ ?_⟩
    · intro y hy hxy
      cases hxy
      exact hx hy
    · intro c hc hce
      refine hnext c ?_ hce
      rcases hc with rfl | ⟨y, hy, rfl⟩
      · exact Or.inr ⟨x, List.mem_cons_self, rfl⟩
      · exact Or.inr ⟨y, List.mem_cons_of_mem _ hy, rfl⟩
    · intro y hy
      exact hprev y (List.mem_cons_of_mem _ hy)

end Path

/-! ## Rings -/

/-- One circle through the sentinel that visits the elements of `l` in order. -/
structure Ring {α : Type} (k : Links α) (l : List α) : Prop where
  path : Path k none l
  last : k.next (endOf none l) = none
  back : k.prev none = endOf none l
  nodup : l.Nodup

namespace Ring

theorem empty {α : Type} : Ring (Links.empty : Links α) [] :=
  ⟨trivial, rfl, rfl, List.nodup_nil⟩

section Operations

variable {α : Type} [DecidableEq α] {k : Links α} {l : List α} {x : α}

theorem pushFront (h : Ring k l) (hx : x ∉ l) : Ring (k.pushFront x) (x :: l) := by
  cases l with
  | nil =>
    have hl : k.next none = none := h.last
    constructor <;> simp [Path, endOf, Links.pushFront, hl]
  | cons y l =>
    obtain ⟨h1, h2, h3⟩ := h.path
    obtain ⟨hy, hl⟩ := List.nodup_cons.mp h.nodup
    obtain ⟨hxy, hxl⟩ : x ≠ y ∧ x ∉ l := by simpa using hx
    have hend : endOf (some y) l ≠ none ∧ endOf (some y) l ≠ some x := by
      rcases endOf_eq_or_mem (some y) l with he | ⟨z, hz, he⟩
      · rw [he]; simpa using Ne.symm hxy
      · rw [he]; refine ⟨by simp, ?_⟩
        intro hzx; cases hzx; exact hxl hz
    have hlast : k.next (endOf (some y) l) = none := h.last
    have hback : k.prev none = endOf (some y) l := h.back
    have hpath : Path (k.pushFront x) (some y) l := by
      refine h3.congr ?_ hl ?_ ?_
      · intro z hz hyz; cases hyz; exact hy hz
      · intro c hc _
        have hcn : c ≠ none ∧ c ≠ some x := by
          rcases hc with rfl | ⟨z, hz, rfl⟩
          · simpa using Ne.symm hxy
          · refine ⟨by simp, ?_⟩
            intro hzx; cases hzx; exact hxl hz
        simp [Links.pushFront, hcn.1, hcn.2]
      · intro z hz
        have hzy : z ≠ y := by rintro rfl; exact hy hz
        have hzx : z ≠ x := by rintro rfl; exact hxl hz
        simp [Links.pushFront, h1, hzy, hzx]
    refine ⟨⟨?_, ?_, ?_, ?_, hpath⟩, ?_, ?_, List.nodup_cons.mpr ⟨hx, h.nodup⟩⟩
    · simp [Links.pushFront]
    · simp [Links.pushFront, h1, hxy]
    · simp [Links.pushFront, h1]
    · simp [Links.pushFront, h1]
    · simpa [Links.pushFront, endOf, hend.1, hend.2] using hlast
    · simpa [Links.pushFront, endOf, h1] using hback

theorem pushBack (h : Ring k l) (hx : x ∉ l) : Ring (k.pushBack x) (l ++ [x]) := by
  have hend : endOf none l ≠ some x := fun he => hx (endOf_none_eq_some he)
  have hpath : Path (k.pushBack x) none l := by
    refine h.path.congr (by simp) h.nodup ?_ ?_
    · intro c hc hce
      have hcx : c ≠ some x := by
        rcases hc with rfl | ⟨z, hz, rfl⟩
        · simp
        · intro hzx; cases hzx; exact hx hz
      simp [Links.pushBack, h.back, hce, hcx]
    · intro z hz
      have hzx : z ≠ x := by rintro rfl; exact hx hz
      simp [Links.pushBack, hzx]
  refine ⟨(path_append none l [x]).mpr ⟨hpath, ?_, ?_, trivial⟩, ?_, ?_, ?_⟩
  · simp [Links.pushBack, h.back, hend]
  · simp [Links.pushBack, h.back]
  · simp [Links.pushBack, endOf_append, endOf]
  · simp [Links.pushBack, endOf_append, endOf]
  · exact List.nodup_append.mpr ⟨h.nodup, by simp, by
      intro a ha b hb; rw [List.mem_singleton.mp hb]; rintro rfl; exact hx ha⟩

theorem unlink {l1 l2 : List α} (h : Ring k (l1 ++ x :: l2)) : Ring (k.unlink x) (l1 ++ l2) := by
  obtain ⟨hp1, hp2⟩ := (path_append none l1 (x :: l2)).mp h.path
  obtain ⟨hn, hb, hp3⟩ := hp2
  have hnd := List.nodup_append.mp h.nodup
  obtain ⟨hnd1, hnd2, hdisj⟩ := hnd
  obtain ⟨hx2, hnd3⟩ := List.nodup_cons.mp hnd2
  have hx1 : x ∉ l1 := fun hmem => hdisj x hmem x List.mem_cons_self rfl
  have hend1 : endOf none l1 ≠ some x := fun he => hx1 (endOf_none_eq_some he)
  have hlast := h.last
  have hback := h.back
  rw [endOf_append, endOf] at hlast hback
  have hnd' : (l1 ++ l2).Nodup := by
    refine List.nodup_append.mpr ⟨hnd1, hnd3, ?_⟩
    intro a ha b hb'
    exact hdisj a ha b (List.mem_cons_of_mem _ hb')
  cases l2 with
  | nil =>
    simp only [endOf] at hlast hback
    rw [List.append_nil]
    refine ⟨hp1.congr (by simp) hnd1 ?_ ?_, ?_, ?_, hnd1⟩
    · intro c _ hce
      simp [Links.unlink, hb, hce]
    · intro z hz
      simp [Links.unlink, hb, Ne.symm hend1, hlast]
    · simp [Links.unlink, hb, hlast]
    · simp [Links.unlink, hb, hlast, Ne.symm hend1]
  | cons z l3 =>
    obtain ⟨hnz, hbz, hp4⟩ := hp3
    obtain ⟨hz3, hnd4⟩ := List.nodup_cons.mp hnd3
    have hend2 : endOf (some z) l3 ≠ endOf none l1 := by
      intro he
      rcases endOf_eq_or_mem (some z) l3 with h' | ⟨y, hy, h'⟩
      · rw [h'] at he
        exact hdisj z (endOf_none_eq_some he.symm) z (by simp) rfl
      · rw [h'] at he
        exact hdisj y (endOf_none_eq_some he.symm) y (by simp [hy]) rfl
    have hz1 : some z ≠ endOf none l1 := fun he =>
      hdisj z (endOf_none_eq_some he.symm) z (by simp) rfl
    simp only [endOf] at hlast hback
    have hq1 : Path (k.unlink x) none l1 := by
      refine hp1.congr (by simp) hnd1 ?_ ?_
      · intro c _ hce
        simp [Links.unlink, hb, hce]
      · intro y hy
        have hyz : y ≠ z := fun he => hdisj y hy z (by simp) he
        simp [Links.unlink, hb, Ne.symm hend1, hnz, hyz]
    have hq2 : Path (k.unlink x) (some z) l3 := by
      refine hp4.congr ?_ hnd4 ?_ ?_
      · intro y hy hzy; cases hzy; exact hz3 hy
      · intro c hc _
        have hce : c ≠ endOf none l1 := by
          rcases hc with rfl | ⟨y, hy, rfl⟩
          · exact hz1
          · intro he
            exact hdisj y (endOf_none_eq_some he.symm) y (by simp [hy]) rfl
        simp [Links.unlink, hb, hce]
      · intro y hy
        have hyz : y ≠ z := by rintro rfl; exact hz3 hy
        simp [Links.unlink, hb, Ne.symm hend1, hnz, hyz]
    refine ⟨(path_append none l1 (z :: l3)).mpr ⟨hq1, ?_, ?_, hq2⟩, ?_, ?_, hnd'⟩
    · simp [Links.unlink, hb, hnz]
    · simp [Links.unlink, hb, hnz, Ne.symm hend1]
    · rw [endOf_append, endOf]
      simpa [Links.unlink, hb, hend2] using hlast
    · rw [endOf_append, endOf]
      simpa [Links.unlink, hb, hnz, Ne.symm hend1] using hback

end Operations

/-! ## Walking the circle -/

variable {α : Type} {k : Links α} {l : List α} {x : α}

theorem follow_next_path {a : Option α} {l : List α} (hp : Path k a l)
    (hlast : k.next (endOf a l) = none) {n : Nat} (hn : l.length ≤ n) :
    Links.follow k.next n a = l := by
  induction l generalizing a n with
  | nil =>
    cases n with
    | zero => rfl
    | succ n => simp only [endOf] at hlast; simp [Links.follow, hlast]
  | cons y l ih =>
    cases n with
    | zero => simp at hn
    | succ n =>
      obtain ⟨h1, _, h3⟩ := hp
      simp only [Links.follow, h1]
      rw [ih h3 hlast (by simpa using hn)]

/-- Following the forward links visits the elements in order. -/
theorem follow_next (h : Ring k l) {n : Nat} (hn : l.length ≤ n) : Links.follow k.next n none = l :=
  follow_next_path h.path h.last hn

/-- Following the back links visits the elements in the opposite order. -/
theorem follow_prev (h : Ring k l) {n : Nat} (hn : l.length ≤ n) : Links.follow k.prev n none = l.reverse := by
  have key : ∀ (l : List α) (b : Option α) (n : Nat), Path k none l →
      k.prev b = endOf none l → l.length ≤ n → Links.follow k.prev n b = l.reverse := by
    intro l
    induction l using List.reverseRecOn with
    | nil =>
      intro b n _ hb _
      cases n with
      | zero => rfl
      | succ n => simp only [endOf] at hb; simp [Links.follow, hb]
    | append_singleton l y ih =>
      intro b n hp hb hn
      cases n with
      | zero => simp at hn
      | succ n =>
        obtain ⟨hp1, _, hprev, _⟩ := (path_append none l [y]).mp hp
        rw [endOf_append] at hb
        simp only [endOf] at hb
        simp only [Links.follow, hb, List.reverse_append, List.reverse_cons, List.reverse_nil,
          List.nil_append, List.singleton_append]
        rw [ih (some y) n hp1 hprev (by simpa using hn)]
  exact key l none n h.path h.back hn

end Ring

end Xv6.Data
