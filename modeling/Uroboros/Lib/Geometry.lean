import Mathlib.Algebra.Order.Ring.Nat

/-!
# Cylinders, heads and sectors

The sectors of a disk in their order, by number and by place. `next` is the step
of a loop that counts a place up in its registers.
-/

set_option autoImplicit false

namespace Geometry

/-- A place on a disk; sectors count from 1. -/
@[ext] structure Place where
  cylinder : Nat
  head : Nat
  sector : Nat
  deriving DecidableEq

structure Format where
  heads : Nat
  sectors : Nat
  heads_pos : 0 < heads
  sectors_pos : 0 < sectors

namespace Format

variable (g : Format)

def place (k : Nat) : Place :=
  ⟨k / (g.heads * g.sectors), k / g.sectors % g.heads, k % g.sectors + 1⟩

def number (x : Place) : Nat := (x.cylinder * g.heads + x.head) * g.sectors + (x.sector - 1)

structure Valid (x : Place) : Prop where
  head : x.head < g.heads
  sector_pos : 1 ≤ x.sector
  sector : x.sector ≤ g.sectors

theorem place_valid (k : Nat) : g.Valid (g.place k) where
  head := Nat.mod_lt _ g.heads_pos
  sector_pos := Nat.succ_pos _
  sector := Nat.mod_lt _ g.sectors_pos

theorem number_place (k : Nat) : g.number (g.place k) = k := by
  have hcylinder : k / (g.heads * g.sectors) = k / g.sectors / g.heads := by
    rw [Nat.div_div_eq_div_mul, Nat.mul_comm]
  rw [number, place, hcylinder, Nat.mul_comm _ g.heads, Nat.div_add_mod, Nat.add_sub_cancel,
    Nat.mul_comm, Nat.div_add_mod]

variable {g} {x : Place} {k : Nat}

theorem place_number (h : g.Valid x) : g.place (g.number x) = x := by
  have hs : x.sector - 1 < g.sectors := by
    have hpos := h.sector_pos
    have hle := h.sector
    omega
  have hdiv : g.number x / g.sectors = x.cylinder * g.heads + x.head := by
    rw [number, Nat.mul_comm, Nat.mul_add_div g.sectors_pos, Nat.div_eq_of_lt hs, Nat.add_zero]
  have hmod : g.number x % g.sectors = x.sector - 1 := by
    rw [number, Nat.mul_comm, Nat.mul_add_mod, Nat.mod_eq_of_lt hs]
  apply Place.ext
  · change g.number x / (g.heads * g.sectors) = _
    rw [Nat.mul_comm, ← Nat.div_div_eq_div_mul, hdiv, Nat.mul_comm,
      Nat.mul_add_div g.heads_pos, Nat.div_eq_of_lt h.head, Nat.add_zero]
  · change g.number x / g.sectors % g.heads = _
    rw [hdiv, Nat.mul_comm, Nat.mul_add_mod, Nat.mod_eq_of_lt h.head]
  · change g.number x % g.sectors + 1 = _
    rw [hmod, Nat.sub_add_cancel h.sector_pos]

variable (g) in
def next (x : Place) : Place :=
  if x.sector < g.sectors then { x with sector := x.sector + 1 }
  else if x.head + 1 < g.heads then { x with head := x.head + 1, sector := 1 }
  else ⟨x.cylinder + 1, 0, 1⟩

theorem next_valid (h : g.Valid x) : g.Valid (g.next x) := by
  unfold next
  split
  · exact ⟨h.head, Nat.succ_pos _, ‹_›⟩
  · split
    · exact ⟨‹_›, Nat.le_refl _, g.sectors_pos⟩
    · exact ⟨g.heads_pos, Nat.le_refl _, g.sectors_pos⟩

theorem number_next (h : g.Valid x) : g.number (g.next x) = g.number x + 1 := by
  have hpos := h.sector_pos
  unfold next
  split
  · simp only [number]
    omega
  · rename_i hs
    have hlast : x.sector - 1 + 1 = g.sectors := by
      have hle := h.sector
      omega
    split
    · simp only [number, Nat.sub_self, Nat.add_zero, ← Nat.add_assoc]
      rw [Nat.succ_mul, Nat.add_assoc, hlast]
    · rename_i hh
      have hhead : x.head + 1 = g.heads := by
        have hlt := h.head
        omega
      simp only [number, Nat.sub_self, Nat.add_zero]
      rw [Nat.add_assoc _ (x.sector - 1), hlast, ← Nat.succ_mul, Nat.succ_mul x.cylinder]
      congr 1
      omega

theorem place_succ (k : Nat) : g.place (k + 1) = g.next (g.place k) := by
  have hvalid := g.place_valid k
  have hnext := number_next hvalid
  rw [number_place] at hnext
  rw [← hnext, place_number (next_valid hvalid)]

end Format

end Geometry
