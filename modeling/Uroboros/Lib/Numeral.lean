import Mathlib.Data.Nat.Digits.Lemmas

/-!
# Numerals, the most significant digit first

`numeral b n` is what is written for `n` in base `b`: its digits without leading
zeros, or a single zero. `horner` reads a numeral back.
-/

set_option autoImplicit false

namespace Numeral

def numeral (b n : Nat) : List Nat := if n = 0 then [0] else (Nat.digits b n).reverse

def lowDigits (b n : Nat) : Nat → List Nat
  | 0 => []
  | k + 1 => n / b ^ k % b :: lowDigits b n k

/-- The number that has the digits `l`, behind those of `n`. -/
def horner (b n : Nat) (l : List Nat) : Nat := l.foldl (fun n d => n * b + d) n

variable {b n k d : Nat} {l : List Nat}

theorem numeral_of_lt (h : n < b) : numeral b n = [n] := by
  unfold numeral
  split_ifs with hn
  · rw [hn]
  · rw [Nat.digits_of_lt b n hn h, List.reverse_singleton]

theorem numeral_of_le (hb : 1 < b) (h : b ≤ n) :
    numeral b n = numeral b (n / b) ++ [n % b] := by
  have hn : n ≠ 0 := by omega
  have hdiv : n / b ≠ 0 := Nat.ne_of_gt (Nat.div_pos h (by omega))
  rw [numeral, if_neg hn, numeral, if_neg hdiv, Nat.digits_def' hb (Nat.pos_of_ne_zero hn),
    List.reverse_cons]

theorem numeral_ne_nil (b n : Nat) : numeral b n ≠ [] := by
  unfold numeral
  split_ifs with hn
  · exact List.cons_ne_nil 0 []
  · rw [ne_eq, List.reverse_eq_nil_iff, Nat.digits_eq_nil_iff_eq_zero]
    exact hn

theorem lt_of_mem_numeral (hb : 1 < b) (h : d ∈ numeral b n) : d < b := by
  unfold numeral at h
  split_ifs at h with hn
  · rw [List.mem_singleton.mp h]
    omega
  · exact Nat.digits_lt_base hb (List.mem_reverse.mp h)

theorem length_numeral_le (hb : 1 < b) (hk : 0 < k) (h : n < b ^ k) :
    (numeral b n).length ≤ k := by
  unfold numeral
  split_ifs with hn
  · exact hk
  · rw [List.length_reverse]
    exact (Nat.digits_length_le_iff hb n).mpr h

theorem eq_zero_of_head? (h : (numeral b n).head? = some 0) : n = 0 := by
  by_contra hn
  have hne : Nat.digits b n ≠ [] := Nat.digits_ne_nil_iff_ne_zero.mpr hn
  rw [numeral, if_neg hn, List.head?_reverse, List.getLast?_eq_getLast_of_ne_nil hne] at h
  exact Nat.getLast_digit_ne_zero b hn (Option.some.inj h)

theorem lowDigits_succ (b n k : Nat) :
    lowDigits b n (k + 1) = lowDigits b (n / b) k ++ [n % b] := by
  induction k with
  | zero => rw [lowDigits, lowDigits, lowDigits, pow_zero, Nat.div_one, List.nil_append]
  | succ k ih => rw [lowDigits, ih, lowDigits, Nat.div_div_eq_div_mul, pow_succ', List.cons_append]

theorem lowDigits_length_numeral (hb : 1 < b) (n : Nat) :
    lowDigits b n (numeral b n).length = numeral b n := by
  induction n using Nat.strong_induction_on with
  | _ n ih =>
    rcases Nat.lt_or_ge n b with hlt | hge
    · rw [numeral_of_lt hlt, List.length_singleton, lowDigits_succ, lowDigits, List.nil_append,
        Nat.mod_eq_of_lt hlt]
    · rw [numeral_of_le hb hge, List.length_append, List.length_singleton, lowDigits_succ,
        ih (n / b) (Nat.div_lt_self (by omega) hb)]

theorem horner_append (b n : Nat) (l : List Nat) (d : Nat) :
    horner b n (l ++ [d]) = horner b n l * b + d := by
  rw [horner, List.foldl_append]
  rfl

theorem horner_numeral (hb : 1 < b) (n : Nat) : horner b 0 (numeral b n) = n := by
  induction n using Nat.strong_induction_on with
  | _ n ih =>
    rcases Nat.lt_or_ge n b with hlt | hge
    · rw [numeral_of_lt hlt, horner, List.foldl_cons, Nat.zero_mul, Nat.zero_add, List.foldl_nil]
    · rw [numeral_of_le hb hge, horner_append, ih (n / b) (Nat.div_lt_self (by omega) hb),
        Nat.div_add_mod']

theorem horner_map_numeral {α : Type} {char : Nat → α} {value : α → Nat} (hb : 1 < b)
    (hchar : ∀ d < b, value (char d) = d) (n : Nat) :
    horner b 0 (((numeral b n).map char).map value) = n := by
  have hdigits : ((numeral b n).map char).map value = numeral b n := by
    rw [List.map_map]
    conv_rhs => rw [← List.map_id (numeral b n)]
    rw [List.map_inj_left]
    intro d hd
    exact hchar d (lt_of_mem_numeral hb hd)
  rw [hdigits, horner_numeral hb]

end Numeral
