import Mathlib.Data.List.TakeWhile

/-!
# Words between runs of separators

`words sep s` are the words of `s`. A run of separators at either end leaves an
empty word there, and no other word is empty.
-/

set_option autoImplicit false

namespace Words

universe u
variable {α : Type u}

theorem length_dropWhile_lt (p : α → Bool) (x : α) (s : List α) :
    (s.dropWhile p).length < (x :: s).length :=
  Nat.lt_succ_of_le (List.dropWhile_suffix p).length_le

theorem takeWhile_dropWhile {p q : α → Bool} (h : ∀ x, p x = true → q x = true) (s : List α) :
    (s.dropWhile p).takeWhile q = (s.takeWhile q).dropWhile p := by
  induction s with
  | nil => rfl
  | cons x s ih =>
    by_cases hp : p x = true
    · rw [List.dropWhile_cons_of_pos hp, List.takeWhile_cons_of_pos (h x hp),
        List.dropWhile_cons_of_pos hp, ih]
    · rw [List.dropWhile_cons_of_neg hp]
      by_cases hq : q x = true
      · rw [List.takeWhile_cons_of_pos hq, List.dropWhile_cons_of_neg hp]
      · rw [List.takeWhile_cons_of_neg hq, List.dropWhile_nil]

variable [DecidableEq α] {sep x : α} {s : List α}

def words (sep : α) : List α → List (List α)
  | [] => [[]]
  | x :: s =>
    if x = sep then [] :: words sep (s.dropWhile (· = sep))
    else (words sep s).modifyHead (x :: ·)
termination_by s => s.length
decreasing_by
  · exact length_dropWhile_lt _ x s
  · exact Nat.lt_succ_self _

@[simp] theorem words_nil : words sep [] = [[]] := by
  rw [words]

theorem words_cons_sep : words sep (sep :: s) = [] :: words sep (s.dropWhile (· = sep)) := by
  rw [words, if_pos rfl]

theorem words_cons (hx : x ≠ sep) : words sep (x :: s) = (words sep s).modifyHead (x :: ·) := by
  rw [words, if_neg hx]

theorem words_ne_nil (sep : α) (s : List α) : words sep s ≠ [] := by
  induction s with
  | nil =>
    rw [words_nil]
    exact List.cons_ne_nil _ _
  | cons x s ih =>
    rw [words]
    split
    · exact List.cons_ne_nil _ _
    · rw [ne_eq, List.modifyHead_eq_nil_iff]
      exact ih

theorem words_of_notMem (h : sep ∉ s) : words sep s = [s] := by
  induction s with
  | nil => exact words_nil
  | cons x s ih =>
    have hx : x ≠ sep := fun heq => h (heq ▸ List.mem_cons_self)
    rw [words_cons hx, ih fun hs => h (List.mem_cons_of_mem _ hs), List.modifyHead_cons]

end Words
