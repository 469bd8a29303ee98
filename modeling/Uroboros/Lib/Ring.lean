import Mathlib.Algebra.Group.Fin.Basic
import Mathlib.Data.Nat.ModEq
import Mathlib.Logic.Function.Basic

/-!
# Rings of cells

A ring of `n` cells is indexed by positions that only grow; position `i` is the
cell `i % n`. `Holds n buf i xs` says that the cells from position `i` on hold
`xs`, and the rules push behind the last element and pop the first. Where the
ring is scanned cell by cell, `dist a i` counts the steps from behind `a` to `i`.
-/

set_option autoImplicit false

namespace Ring

universe u
variable {β : Type u} {n i j k : Nat} {buf : Nat → β} {x : β} {xs : List β}

def Holds (n : Nat) (buf : Nat → β) : Nat → List β → Prop
  | _, [] => True
  | i, x :: xs => buf (i % n) = x ∧ Holds n buf (i + 1) xs

def read (n : Nat) (buf : Nat → β) : Nat → Nat → List β
  | _, 0 => []
  | i, k + 1 => buf (i % n) :: read n buf (i + 1) k

theorem length_read : (read n buf i k).length = k := by
  induction k generalizing i with
  | zero => rfl
  | succ k ih => exact congrArg Nat.succ ih

theorem holds_read : Holds n buf i (read n buf i k) := by
  induction k generalizing i with
  | zero => trivial
  | succ k ih => exact ⟨rfl, ih⟩

theorem Holds.read_eq (h : Holds n buf i xs) : read n buf i xs.length = xs := by
  induction xs generalizing i with
  | nil => rfl
  | cons x xs ih =>
    obtain ⟨hx, h⟩ := h
    rw [List.length_cons, read, hx, ih h]

theorem mod_ne_of_lt (hjk : j < k) (hkn : k < j + n) : (i + j) % n ≠ (i + k) % n := by
  intro heq
  have hzero := Nat.sub_mod_eq_zero_of_mod_eq heq.symm
  rw [Nat.add_sub_add_left] at hzero
  rw [Nat.mod_eq_of_lt (by omega)] at hzero
  omega

theorem offset_inj (hj : j < n) (hk : k < n) (heq : (i + j) % n = (i + k) % n) : j = k := by
  rcases Nat.lt_trichotomy j k with hlt | heq' | hgt
  · exact absurd heq (mod_ne_of_lt hlt (by omega))
  · exact heq'
  · exact absurd heq.symm (mod_ne_of_lt hgt (by omega))

theorem Holds.congr (h : Holds n buf i xs) (hij : i % n = j % n) : Holds n buf j xs := by
  induction xs generalizing i j with
  | nil => trivial
  | cons x xs ih =>
    refine ⟨?_, ih h.2 (Nat.ModEq.add_right 1 hij)⟩
    rw [← hij]
    exact h.1

theorem Holds.update {c : Nat} (h : Holds n buf i xs) (hc : ∀ j < xs.length, (i + j) % n ≠ c) :
    Holds n (Function.update buf c x) i xs := by
  induction xs generalizing i with
  | nil => trivial
  | cons y xs ih =>
    refine ⟨?_, ih h.2 ?_⟩
    · have hne : i % n ≠ c := hc 0 (Nat.zero_lt_succ _)
      rw [Function.update_of_ne hne]
      exact h.1
    · intro j hj
      rw [Nat.add_right_comm]
      exact hc (j + 1) (Nat.succ_lt_succ hj)

theorem holds_concat : Holds n buf i (xs ++ [x]) ↔
    Holds n buf i xs ∧ buf ((i + xs.length) % n) = x := by
  induction xs generalizing i with
  | nil => simp [Holds]
  | cons y xs ih =>
    simp only [List.cons_append, Holds, ih, List.length_cons, and_assoc,
      Nat.add_assoc, Nat.add_comm 1]

theorem Holds.push (h : Holds n buf i xs) (hroom : xs.length < n) :
    Holds n (Function.update buf ((i + xs.length) % n) x) i (xs ++ [x]) := by
  refine holds_concat.mpr ⟨h.update ?_, Function.update_self ..⟩
  intro j hj
  exact mod_ne_of_lt hj (by omega)

theorem succ_mod_eq_iff (hk : k < n) : ((i + k) % n + 1) % n = i % n ↔ k + 1 = n := by
  rw [Nat.mod_add_mod, Nat.add_assoc]
  constructor
  · intro heq
    apply Classical.byContradiction
    intro hne
    exact mod_ne_of_lt (n := n) (i := i) (Nat.succ_pos k) (by omega) heq.symm
  · intro heq
    rw [heq, Nat.add_mod_right]

section Turn
variable {n : Nat} [NeZero n] {a b i : Fin n}

/-- The number of steps from behind `a` to `i`. -/
def dist (a i : Fin n) : Nat := (i - (a + 1)).val

theorem dist_lt (a i : Fin n) : dist a i < n := (i - (a + 1)).isLt

theorem dist_start (a : Fin n) : dist a (a + 1) = 0 := by
  simp [dist]

theorem dist_inj (h : dist a i = dist a b) : i = b :=
  sub_left_injective (Fin.ext h)

theorem dist_succ_of_lt (h : dist a i + 1 < n) : dist a (i + 1) = dist a i + 1 := by
  unfold dist at *
  rw [add_sub_right_comm]
  obtain ⟨m, rfl⟩ := Nat.exists_eq_succ_of_ne_zero (NeZero.ne n)
  rw [Fin.val_add_one_of_lt' h]

theorem dist_self (a : Fin n) : dist a a + 1 = n := by
  obtain ⟨m, rfl⟩ := Nat.exists_eq_succ_of_ne_zero (NeZero.ne n)
  simp [dist]

theorem dist_add_one_eq_iff : dist a i + 1 = n ↔ i = a := by
  constructor
  · intro h
    apply dist_inj (a := a)
    have := dist_self a
    omega
  · intro h
    rw [h, dist_self]

end Turn
end Ring
