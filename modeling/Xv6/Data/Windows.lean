import Mathlib.Data.List.Basic
import Mathlib.Tactic.Ring

/-!
# Windows of a list

A window is a run of elements of a list, and `splice` writes over one, as an assignment to a slice of a Python sequence
does. A record is the concatenation of its fields, and each field is a window of the record.
-/

namespace Xv6.Data

variable {α : Type} {off len : Nat}

/-- The `len` elements from `off` on. -/
def window (l : List α) (off len : Nat) : List α := (l.drop off).take len

/-- `l[a:b] = new`. -/
def splice (l : List α) (a b : Nat) (new : List α) : List α := l.take a ++ new ++ l.drop (max a b)

theorem length_window {l : List α} (h : off + len ≤ l.length) : (window l off len).length = len := by
  unfold window
  rw [List.length_take, List.length_drop]
  omega

theorem window_window {l : List α} {o k : Nat} (h : o + k ≤ len) :
    window (window l off len) o k = window l (off + o) k := by
  unfold window
  rw [List.drop_take, List.take_take, List.drop_drop, Nat.min_eq_left (by omega)]

theorem window_zero_length (l : List α) : window l 0 l.length = l := by
  unfold window
  rw [List.drop_zero, List.take_length]

theorem getD_window {l : List α} {i : Nat} (hi : i < len) (d : α) :
    (window l off len).getD i d = l.getD (off + i) d := by
  unfold window
  rw [List.getD_eq_getElem?_getD, List.getD_eq_getElem?_getD, List.getElem?_take, if_pos hi, List.getElem?_drop]

theorem window_replicate {n : Nat} (h : off + len ≤ n) (x : α) :
    window (List.replicate n x) off len = List.replicate len x := by
  unfold window
  rw [List.drop_replicate, List.take_replicate, Nat.min_eq_left (by omega)]

theorem window_append_window (l : List α) (off len len' : Nat) :
    window l off len ++ window l (off + len) len' = window l off (len + len') := by
  unfold window
  rw [← List.drop_drop, ← List.take_add]

/-! ## Writing over a window -/

section Splice

variable {l x : List α} {a b : Nat}

theorem length_splice_eq_max (hab : b = a + x.length) (ha : a ≤ l.length) :
    (splice l a b x).length = max l.length b := by
  unfold splice
  rw [List.length_append, List.length_append, List.length_take, List.length_drop]
  omega

theorem length_splice (hab : b = a + x.length) (hb : b ≤ l.length) : (splice l a b x).length = l.length := by
  rw [length_splice_eq_max hab (by omega), Nat.max_eq_left hb]

theorem window_splice_self (ha : a ≤ l.length) : window (splice l a b x) a x.length = x := by
  unfold window splice
  rw [List.append_assoc, List.drop_append_of_le_length (by rw [List.length_take]; omega),
    List.drop_of_length_le (by rw [List.length_take]; omega), List.nil_append, List.take_left]

theorem window_splice_before (h : off + len ≤ a) (ha : a ≤ l.length) :
    window (splice l a b x) off len = window l off len := by
  unfold window splice
  rw [List.append_assoc, List.drop_append_of_le_length (by rw [List.length_take]; omega),
    List.take_append_of_le_length (by rw [List.length_drop, List.length_take]; omega), List.drop_take, List.take_take,
    Nat.min_eq_left (by omega)]

theorem window_splice_after (hab : b = a + x.length) (h : b ≤ off) (hb : b ≤ l.length) :
    window (splice l a b x) off len = window l off len := by
  unfold window splice
  have hlen : (l.take a ++ x).length = b := by
    rw [List.length_append, List.length_take]
    omega
  rw [List.drop_append, List.drop_of_length_le (by omega), List.nil_append, List.drop_drop, hlen,
    Nat.max_eq_right (by omega), show b + (off - b) = off by omega]

end Splice

/-! ## Records -/

def fieldOffset (fields : List (List α)) (i : Nat) : Nat := ((fields.take i).map List.length).sum

theorem window_field {fields : List (List α)} {i : Nat} {f : List α} (hf : fields[i]? = some f) :
    window fields.flatten (fieldOffset fields i) f.length = f := by
  obtain ⟨hi, hget⟩ := List.getElem?_eq_some_iff.mp hf
  have hsplit : fields.flatten = (fields.take i).flatten ++ (f ++ (fields.drop (i + 1)).flatten) := by
    conv_lhs => rw [← List.take_append_drop i fields, List.flatten_append, List.drop_eq_getElem_cons hi, hget,
      List.flatten_cons]
  have hoff : (fields.take i).flatten.length = fieldOffset fields i := List.length_flatten
  unfold window
  rw [hsplit, ← hoff, List.drop_left, List.take_left]

end Xv6.Data
