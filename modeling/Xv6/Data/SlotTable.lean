import Mathlib.Logic.Function.Basic
import Mathlib.Tactic.SplitIfs

/-!
# Tables of slots

A table has `n` slots, each of which is free or holds a key with a value. It represents a map when
the entries are the entries of the map and no key has two slots. An entry is added in a free slot or
in a new slot at the end, and removed by freeing its slot. The other slots are not touched.
-/

namespace Xv6.Data.SlotTable

open Function

variable {κ ν : Type}

/-- The slots `e 0`, ..., `e (n - 1)` represent the map `m`. -/
structure Represents (e : Nat → Option (κ × ν)) (n : Nat) (m : κ → Option ν) : Prop where
  some_iff : ∀ a b, m a = some b ↔ ∃ k, k < n ∧ e k = some (a, b)
  unique : ∀ j k a b b', j < n → k < n → e j = some (a, b) → e k = some (a, b') → j = k

/-- Slot `k` may take a new entry: it is free, or the next one after the last. -/
def Open (e : Nat → Option (κ × ν)) (n k : Nat) : Prop := (k < n ∧ e k = none) ∨ k = n

namespace Represents

variable {e e' : Nat → Option (κ × ν)} {n n' k : Nat} {m : κ → Option ν} {a : κ} {b : ν}

theorem empty (h : ∀ k, k < n → e k = none) : Represents e n fun _ => none where
  some_iff a b := by
    refine ⟨nofun, ?_⟩
    rintro ⟨k, hk, he⟩
    cases (h k hk).symm.trans he
  unique j k a b b' hj _ he _ := by
    cases (h j hj).symm.trans he

theorem congr (h : Represents e n m) (he : ∀ j, j < n → e' j = e j) : Represents e' n m where
  some_iff a b := by
    rw [h.some_iff]
    constructor
    · rintro ⟨k, hk, hek⟩
      exact ⟨k, hk, by rw [he k hk, hek]⟩
    · rintro ⟨k, hk, hek⟩
      exact ⟨k, hk, by rw [← he k hk, hek]⟩
  unique j k a b b' hj hk hej hek := by
    rw [he j hj] at hej
    rw [he k hk] at hek
    exact h.unique j k a b b' hj hk hej hek

theorem eq_none (h : Represents e n m) (ha : ∀ k, k < n → ∀ b, e k ≠ some (a, b)) : m a = none := by
  cases hm : m a with
  | none => rfl
  | some b =>
    obtain ⟨k, hk, he⟩ := (h.some_iff a b).mp hm
    exact absurd he (ha k hk b)

variable [DecidableEq κ]

theorem put (h : Represents e n m) (ha : m a = none) (hk : Open e n k) (hn : n' = max n (k + 1))
    (he : ∀ j, j < n' → e' j = if j = k then some (a, b) else e j) :
    Represents e' n' (update m a (some b)) := by
  have hother : ∀ j, j < n' → j ≠ k → j < n := by
    rcases hk with hk | hk <;> omega
  have hfresh : ∀ j, j < n → ∀ b', e j ≠ some (a, b') := by
    intro j hj b' hej
    have hm := (h.some_iff a b').mpr ⟨j, hj, hej⟩
    cases ha.symm.trans hm
  have hold : ∀ j, j < n → ∀ x, e j = some x → j ≠ k := by
    intro j hj x hej hjk
    rcases hk with hk | hk
    · rw [hjk, hk.2] at hej
      cases hej
    · omega
  constructor
  · intro a' b'
    by_cases haa : a' = a
    · subst haa
      rw [update_self, Option.some_inj]
      constructor
      · rintro rfl
        exact ⟨k, by omega, by rw [he k (by omega), if_pos rfl]⟩
      · rintro ⟨j, hj, hej⟩
        rw [he j hj] at hej
        split_ifs at hej with hjk
        · cases hej
          rfl
        · exact absurd hej (hfresh j (hother j hj hjk) b')
    · rw [update_of_ne haa, h.some_iff]
      constructor
      · rintro ⟨j, hj, hej⟩
        exact ⟨j, by omega, by rw [he j (by omega), if_neg (hold j hj _ hej), hej]⟩
      · rintro ⟨j, hj, hej⟩
        rw [he j hj] at hej
        split_ifs at hej with hjk
        · cases hej
          exact absurd rfl haa
        · exact ⟨j, hother j hj hjk, hej⟩
  · intro j l a' b1 b2 hj hl hej hel
    rw [he j hj] at hej
    rw [he l hl] at hel
    split_ifs at hej hel with hjk hlk hlk
    · omega
    · cases hej
      exact absurd hel (hfresh l (hother l hl hlk) b2)
    · cases hel
      exact absurd hej (hfresh j (hother j hj hjk) b1)
    · exact h.unique j l a' b1 b2 (hother j hj hjk) (hother l hl hlk) hej hel

theorem erase (h : Represents e n m) (hk : k < n) (hek : e k = some (a, b))
    (he : ∀ j, j < n → e' j = if j = k then none else e j) :
    Represents e' n (update m a none) := by
  have hkept : ∀ {j x}, j < n → e' j = some x → j ≠ k ∧ e j = some x := by
    intro j x hj hej
    rw [he j hj] at hej
    split_ifs at hej with hjk
    exact ⟨hjk, hej⟩
  constructor
  · intro a' b'
    by_cases haa : a' = a
    · subst haa
      rw [update_self]
      refine ⟨nofun, ?_⟩
      rintro ⟨j, hj, hej⟩
      obtain ⟨hjk, hej⟩ := hkept hj hej
      exact absurd (h.unique j k a' b' b hj hk hej hek) hjk
    · rw [update_of_ne haa, h.some_iff]
      constructor
      · rintro ⟨j, hj, hej⟩
        have hjk : j ≠ k := by
          rintro rfl
          cases hek.symm.trans hej
          exact haa rfl
        exact ⟨j, hj, by rw [he j hj, if_neg hjk, hej]⟩
      · rintro ⟨j, hj, hej⟩
        exact ⟨j, hj, (hkept hj hej).2⟩
  · intro j l a' b1 b2 hj hl hej hel
    exact h.unique j l a' b1 b2 hj hl (hkept hj hej).2 (hkept hl hel).2

end Represents

end Xv6.Data.SlotTable
