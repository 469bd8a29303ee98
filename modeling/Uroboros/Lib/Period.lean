import Mathlib.Algebra.Order.Ring.Nat
import Mathlib.Tactic.SplitIfs

/-!
# Counting down from a period

`remaining n k` is what `k` ticks leave of a period of `n`, when a counter that
reaches zero starts again from `n`; `multiples n k` are the ticks up to `k` on
which it does.
-/

set_option autoImplicit false

namespace Period

variable {n k : Nat}

def remaining (n k : Nat) : Nat := n - k % n

def multiples (n k : Nat) : List Nat := (List.range (k / n)).map fun j => n * (j + 1)

theorem succ_mod (hn : 0 < n) : (k + 1) % n = if k % n + 1 = n then 0 else k % n + 1 := by
  have hlt := Nat.mod_lt k hn
  have hk : k + 1 = n * (k / n) + (k % n + 1) := by
    rw [← Nat.add_assoc, Nat.div_add_mod]
  split_ifs with hend
  · rw [hk, hend, Nat.mul_add_mod, Nat.mod_self]
  · rw [hk, Nat.mul_add_mod, Nat.mod_eq_of_lt (by omega)]

theorem dvd_succ_iff (hn : 0 < n) : n ∣ k + 1 ↔ k % n + 1 = n := by
  rw [Nat.dvd_iff_mod_eq_zero, succ_mod hn]
  by_cases hend : k % n + 1 = n
  · rw [if_pos hend]
    exact iff_of_true rfl hend
  · rw [if_neg hend]
    exact iff_of_false (Nat.succ_ne_zero _) hend

theorem remaining_zero (n : Nat) : remaining n 0 = n := by
  rw [remaining, Nat.zero_mod, Nat.sub_zero]

theorem remaining_pos (hn : 0 < n) : 0 < remaining n k := Nat.sub_pos_of_lt (Nat.mod_lt k hn)

theorem remaining_eq_one_iff (hn : 0 < n) : remaining n k = 1 ↔ n ∣ k + 1 := by
  have hlt := Nat.mod_lt k hn
  rw [dvd_succ_iff hn, remaining]
  omega

theorem remaining_succ (hn : 0 < n) :
    remaining n (k + 1) = if n ∣ k + 1 then n else remaining n k - 1 := by
  have hlt := Nat.mod_lt k hn
  rw [remaining, remaining, succ_mod hn]
  simp only [dvd_succ_iff hn]
  split_ifs with hend
  · exact Nat.sub_zero n
  · omega

@[simp] theorem length_multiples (n k : Nat) : (multiples n k).length = k / n := by
  rw [multiples, List.length_map, List.length_range]

theorem multiples_zero (n : Nat) : multiples n 0 = [] := by
  rw [multiples, Nat.zero_div]
  rfl

theorem multiples_succ (n k : Nat) :
    multiples n (k + 1) = multiples n k ++ if n ∣ k + 1 then [k + 1] else [] := by
  rw [multiples, Nat.succ_div]
  split_ifs with hdvd
  · have hlast : n * (k / n + 1) = k + 1 := by
      have hdiv : (k + 1) / n = k / n + 1 := by rw [Nat.succ_div, if_pos hdvd]
      rw [← hdiv, Nat.mul_div_cancel' hdvd]
    rw [List.range_succ, List.map_append, List.map_singleton, hlast]
    rfl
  · rw [Nat.add_zero, List.append_nil]
    rfl

end Period
