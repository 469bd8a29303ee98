import Mathlib.Algebra.Order.Ring.Nat
import Mathlib.Logic.Function.Basic
import Mathlib.Tactic.SplitIfs

/-!
# Arrays that are fields of an object

An object is the function of its elements, an array in it a range of them. A
store through the array is checked against its size, so that a run in which no
store fails changes nothing else.
-/

set_option autoImplicit false

universe u

structure ArrayField where
  offset : Nat
  size : Nat

namespace ArrayField

variable {α : Type u}

def chars (a : ArrayField) (s : Nat → α) : Nat → α := fun i => s (a.offset + i)

def put (a : ArrayField) (s : Nat → α) (i : Nat) (x : α) : Option (Nat → α) :=
  if i < a.size then some (Function.update s (a.offset + i) x) else none

def overlay (a : ArrayField) (s v : Nat → α) : Nat → α := fun x =>
  if a.offset ≤ x ∧ x < a.offset + a.size then v (x - a.offset) else s x

/-- The loop `for (i = 0; i < n; i++) a[i] = x`. -/
def fill (a : ArrayField) (x : α) : Nat → (Nat → α) → Option (Nat → α)
  | 0, s => some s
  | n + 1, s => (fill a x n s).bind fun s => a.put s n x

variable {a b : ArrayField} {s v w : Nat → α} {i n : Nat} {x : α}

theorem chars_overlay (hi : i < a.size) : a.chars (a.overlay s v) i = v i := by
  rw [chars, overlay, if_pos (by omega), Nat.add_sub_cancel_left]

theorem overlay_of_out (h : i < a.offset ∨ a.offset + a.size ≤ i) : a.overlay s v i = s i :=
  if_neg (by omega)

theorem chars_overlay_disjoint (h : b.offset + b.size ≤ a.offset ∨ a.offset + a.size ≤ b.offset)
    (hi : i < b.size) : b.chars (a.overlay s v) i = b.chars s i :=
  overlay_of_out (by omega)

theorem overlay_self : a.overlay s (a.chars s) = s := by
  funext x
  unfold overlay chars
  split_ifs with hx
  · rw [Nat.add_sub_cancel' hx.1]
  · rfl

theorem overlay_congr (h : ∀ i < a.size, v i = w i) : a.overlay s v = a.overlay s w := by
  funext x
  unfold overlay
  split_ifs with hx
  · exact h _ (by omega)
  · rfl

theorem put_overlay (hi : i < a.size) :
    a.put (a.overlay s v) i x = some (a.overlay s (Function.update v i x)) := by
  rw [put, if_pos hi]
  congr 1
  funext y
  by_cases hy : y = a.offset + i
  · rw [hy, Function.update_self, overlay, if_pos (by omega), Nat.add_sub_cancel_left,
      Function.update_self]
  · rw [Function.update_of_ne hy, overlay, overlay]
    split_ifs with hin
    · rw [Function.update_of_ne (by omega)]
    · rfl

theorem update_prefix (w v : Nat → α) (n : Nat) :
    Function.update (fun i => if i < n then w i else v i) n (w n) =
      fun i => if i < n + 1 then w i else v i := by
  funext i
  rcases Nat.lt_trichotomy i n with hlt | rfl | hgt
  · rw [Function.update_of_ne (by omega), if_pos hlt, if_pos (by omega)]
  · rw [Function.update_self, if_pos (Nat.lt_succ_self i)]
  · rw [Function.update_of_ne (by omega), if_neg (by omega), if_neg (by omega)]

theorem fill_overlay (hn : n ≤ a.size) :
    fill a x n (a.overlay s v) = some (a.overlay s fun i => if i < n then x else v i) := by
  induction n with
  | zero => rfl
  | succ n ih =>
    rw [fill, ih (by omega), Option.bind_some, put_overlay (by omega),
      update_prefix (fun _ => x) v n]

theorem fill_eq (hn : n ≤ a.size) :
    fill a x n s = some (a.overlay s fun i => if i < n then x else a.chars s i) := by
  have h := fill_overlay (s := s) (v := a.chars s) (x := x) hn
  rwa [overlay_self] at h

end ArrayField
