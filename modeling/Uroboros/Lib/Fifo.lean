import Mathlib.Algebra.Order.Ring.Nat

/-!
# Bounded first-in first-out queues

A queue is a list of at most `capacity` items, the oldest one first. What does not
fit is not taken.
-/

set_option autoImplicit false

universe u

structure Fifo (α : Type u) where
  capacity : Nat
  items : List α
  room : items.length ≤ capacity

namespace Fifo

variable {α : Type u}

def empty (capacity : Nat) : Fifo α := ⟨capacity, [], Nat.zero_le _⟩

def Full (q : Fifo α) : Prop := q.items.length = q.capacity

instance (q : Fifo α) : Decidable q.Full := inferInstanceAs (Decidable (_ = _))

def push (q : Fifo α) (x : α) : Fifo α :=
  if h : q.Full then q
  else ⟨q.capacity, q.items ++ [x], by
    have hroom := q.room
    rw [List.length_append, List.length_singleton]
    unfold Full at h
    omega⟩

def pop (q : Fifo α) : Fifo α :=
  ⟨q.capacity, q.items.tail, Nat.le_trans (by rw [List.length_tail]; omega) q.room⟩

@[simp] theorem push_capacity (q : Fifo α) (x : α) : (q.push x).capacity = q.capacity := by
  unfold push
  split <;> rfl

theorem push_items {q : Fifo α} (h : ¬ q.Full) (x : α) : (q.push x).items = q.items ++ [x] := by
  rw [push, dif_neg h]

theorem pop_of_nil {q : Fifo α} (h : q.items = []) : q.pop = q := by
  obtain ⟨capacity, items, room⟩ := q
  have hitems : items = [] := h
  subst hitems
  rfl

@[simp] theorem pop_capacity (q : Fifo α) : q.pop.capacity = q.capacity := rfl

@[simp] theorem pop_items (q : Fifo α) : q.pop.items = q.items.tail := rfl

end Fifo
