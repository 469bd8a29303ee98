import Mathlib.Data.List.TakeWhile

/-!
# Lines of a stream

`complete sep s` are the runs of `s` that a separator ends, and `unfinished sep s`
is what follows the last one. A stream cut into pieces is handled by the rules
for appending.
-/

set_option autoImplicit false

namespace Lines

universe u
variable {α : Type u} [DecidableEq α] {sep x : α} {p s t : List α}

def complete (sep : α) : List α → List (List α)
  | [] => []
  | x :: s => if x = sep then [] :: complete sep s else (complete sep s).modifyHead (x :: ·)

def unfinished (sep : α) : List α → List α
  | [] => []
  | x :: s => if sep ∈ x :: s then unfinished sep s else x :: s

theorem complete_eq_nil_iff : complete sep s = [] ↔ sep ∉ s := by
  induction s with
  | nil => simp [complete]
  | cons x s ih =>
    unfold complete
    split
    · rename_i heq
      simp [heq]
    · rename_i hne
      rw [List.modifyHead_eq_nil_iff, ih, List.mem_cons, not_or]
      exact ⟨fun h => ⟨Ne.symm hne, h⟩, fun h => h.2⟩

theorem complete_append_of_notMem (h : sep ∉ p) :
    complete sep (p ++ s) = (complete sep s).modifyHead (p ++ ·) := by
  induction p with
  | nil => exact (congrFun List.modifyHead_id _).symm
  | cons x p ih =>
    have hx : x ≠ sep := fun heq => h (heq ▸ List.mem_cons_self)
    rw [List.cons_append, complete, if_neg hx, ih fun hp => h (List.mem_cons_of_mem _ hp)]
    cases complete sep s <;> rfl

theorem head_complete_append_iff (h : sep ∉ p) :
    (complete sep (p ++ s)).head? = (complete sep s).head? ↔ p = [] ∨ sep ∉ s := by
  rw [complete_append_of_notMem h, ← complete_eq_nil_iff]
  cases complete sep s with
  | nil => simp
  | cons l ls => simp

theorem complete_append_eq (hp : sep ∉ p) (h : p = [] ∨ sep ∉ s) :
    complete sep (p ++ s) = complete sep s := by
  rcases h with heq | hs
  · rw [heq, List.nil_append]
  · rw [complete_append_of_notMem hp, complete_eq_nil_iff.mpr hs, List.modifyHead_nil]

theorem complete_cut (h : sep ∉ p) : complete sep (p ++ sep :: s) = p :: complete sep s := by
  rw [complete_append_of_notMem h, complete, if_pos rfl, List.modifyHead_cons, List.append_nil]

theorem unfinished_of_notMem (h : sep ∉ s) : unfinished sep s = s := by
  cases s with
  | nil => rfl
  | cons x s => rw [unfinished, if_neg h]

theorem unfinished_cut : unfinished sep (p ++ sep :: s) = unfinished sep s := by
  induction p with
  | nil => simp [unfinished]
  | cons x p ih => simp [unfinished, ih]

theorem sep_notMem_unfinished : sep ∉ unfinished sep s := by
  induction s with
  | nil => exact List.not_mem_nil
  | cons x s ih =>
    unfold unfinished
    split
    · exact ih
    · assumption

/-- What a piece of the stream leaves unfinished goes on in the next piece. -/
theorem complete_append : complete sep (s ++ t) =
    complete sep s ++ complete sep (unfinished sep s ++ t) := by
  induction s with
  | nil => rfl
  | cons x s ih =>
    by_cases hmem : sep ∈ x :: s
    · rw [unfinished, if_pos hmem, List.cons_append, complete, complete, ih]
      split
      · rfl
      · rename_i hne
        have hs : complete sep s ≠ [] := by
          rw [ne_eq, complete_eq_nil_iff, not_not]
          exact (List.mem_cons.mp hmem).resolve_left fun heq => hne heq.symm
        obtain ⟨l, ls, hls⟩ := List.exists_cons_of_ne_nil hs
        rw [hls]
        rfl
    · rw [complete_eq_nil_iff.mpr hmem, unfinished_of_notMem hmem, List.nil_append]

/-- The stream from the first other element behind its first separator on. -/
def behind (sep : α) (s : List α) : List α := (s.dropWhile (· ≠ sep)).dropWhile (· = sep)

theorem behind_of_notMem (h : sep ∉ s) : behind sep s = [] := by
  have hall : s.dropWhile (· ≠ sep) = [] := by
    rw [List.dropWhile_eq_nil_iff]
    intro x hx
    simpa using fun heq : x = sep => h (heq ▸ hx)
  rw [behind, hall]
  rfl

theorem behind_cut (h : sep ∉ p) : behind sep (p ++ sep :: s) = s.dropWhile (· = sep) := by
  have hp : ∀ x ∈ p, decide (x ≠ sep) = true := by
    intro x hx
    simpa using fun heq : x = sep => h (heq ▸ hx)
  rw [behind, List.dropWhile_append_of_pos hp, List.dropWhile_cons_of_neg (by simp),
    List.dropWhile_cons_of_pos (by simp)]

theorem dropWhile_notMem_iff :
    (s.dropWhile (· = sep) = [] ∨ sep ∉ s.dropWhile (· = sep) ++ t) ↔
      (∀ l ∈ complete sep s, l = []) ∧ (unfinished sep s = [] ∨ sep ∉ t) := by
  induction s with
  | nil => simp [complete, unfinished]
  | cons x s ih =>
    by_cases hx : x = sep
    · subst hx
      rw [List.dropWhile_cons_of_pos (by simp), ih, complete, if_pos rfl,
        unfinished, if_pos List.mem_cons_self, List.forall_mem_cons]
      simp
    · rw [List.dropWhile_cons_of_neg (by simpa using hx)]
      by_cases hs : sep ∈ s
      · have hne : complete sep s ≠ [] := fun heq => complete_eq_nil_iff.mp heq hs
        obtain ⟨l, ls, hls⟩ := List.exists_cons_of_ne_nil hne
        rw [complete, if_neg hx, hls]
        simp [hs]
      · have hmem : sep ∉ x :: s := by
          intro h
          exact (List.mem_cons.mp h).elim (fun heq => hx heq.symm) hs
        rw [complete_eq_nil_iff.mpr hmem, unfinished_of_notMem hmem, List.mem_append]
        simp [hmem]

end Lines
