import Mathlib.Data.List.GetD
import Uroboros.Command

/-!
# Parsing what was joined

A line made of words with spaces between them is parsed into these words. A row
of `args` is closed by the NUL that is stored for a space or, the last one, by
the bytes that `memset` has cleared.
-/

set_option autoImplicit false

namespace Uroboros.Command

open Words

def row (w : List U8) : Fin maxArgLen → U8 := fun j => w.getD j 0

def table (ws : List (List U8)) : Fin maxCommandArgsCount → Fin maxArgLen → U8 :=
  fun i => row (ws.getD i [])

structure IsToken (w : List U8) : Prop where
  pos : 0 < w.length
  short : w.length < maxArgLen
  plain : ∀ x ∈ w, x ≠ space ∧ x ≠ cr ∧ x ≠ lf ∧ x ≠ 0

/-- The word `w` and behind it the others, each behind a number of spaces. -/
def joined : List U8 → List (Nat × List U8) → List U8
  | w, [] => w
  | w, (gap, v) :: ws => w ++ List.replicate gap space ++ joined v ws

def reading (done : List (List U8)) (u : List U8) : Command where
  command := none
  args := table (done ++ [u])
  argsCount := BitVec.ofNat 8 done.length

variable {done : List (List U8)} {u v w s : List U8} {ws : List (Nat × List U8)} {x e : U8}

theorem getD_concat {α : Type} (l : List α) (y d : α) (i : Nat) :
    (l ++ [y]).getD i d = if i = l.length then y else l.getD i d := by
  rcases Nat.lt_trichotomy i l.length with hlt | rfl | hgt
  · rw [List.getD_append _ _ _ _ hlt, if_neg (by omega)]
  · rw [List.getD_append_right _ _ _ _ (Nat.le_refl _), Nat.sub_self, if_pos rfl]
    rfl
  · rw [List.getD_eq_default _ _ (by rw [List.length_append, List.length_singleton]; omega),
      List.getD_eq_default _ _ (by omega), if_neg (by omega)]

theorem row_update (j : Fin maxArgLen) (hj : j.val = u.length) :
    Function.update (row u) j x = row (u ++ [x]) := by
  funext l
  rw [row, getD_concat]
  by_cases hl : l = j
  · rw [hl, Function.update_self, if_pos hj]
  · rw [Function.update_of_ne hl, row, if_neg fun h => hl (Fin.ext (h.trans hj.symm))]

theorem row_nul : row (u ++ [0]) = row u := by
  funext j
  rw [row, getD_concat, row]
  split_ifs with hj
  · rw [List.getD_eq_default _ _ (Nat.le_of_eq hj.symm)]
  · rfl

theorem table_concat (i : Fin maxCommandArgsCount) :
    table (done ++ [u]) i = if i.val = done.length then row u else table done i := by
  rw [table, getD_concat]
  split_ifs <;> rfl

theorem table_update (i : Fin maxCommandArgsCount) (hi : i.val = done.length) :
    Function.update (table (done ++ [u])) i (row v) = table (done ++ [v]) := by
  funext k
  rw [table_concat]
  by_cases hk : k = i
  · rw [hk, Function.update_self, if_pos hi]
  · have hne : ¬ k.val = done.length := fun h => hk (Fin.ext (h.trans hi.symm))
    rw [Function.update_of_ne hk, table_concat, if_neg hne, if_neg hne]

theorem table_nil : table (done ++ [[]]) = table done := by
  funext i
  rw [table_concat]
  split_ifs with hi
  · rw [table, List.getD_eq_default done [] (Nat.le_of_eq hi.symm)]
  · rfl

theorem table_nul : table (done ++ [u ++ [0]]) = table (done ++ [u]) := by
  funext i
  rw [table_concat, table_concat, row_nul]

theorem toNat_argsCount (hrow : done.length < maxCommandArgsCount) :
    (reading done u).argsCount.toNat = done.length := by
  rw [reading, BitVec.toNat_ofNat]
  unfold maxCommandArgsCount at hrow
  omega

theorem store_reading (hrow : done.length < maxCommandArgsCount) (hcol : u.length < maxArgLen) :
    (reading done u).store u.length x = some (reading done (u ++ [x])) := by
  have hcount := toNat_argsCount (u := u) hrow
  have hargs : (reading done u).args ⟨_, hcount ▸ hrow⟩ = row u := by
    exact (table_concat _).trans (if_pos hcount)
  rw [store, dif_pos ⟨hcount ▸ hrow, hcol⟩]
  dsimp only
  rw [hargs, row_update _ rfl]
  unfold reading at hcount ⊢
  rw [table_update _ hcount]

theorem parseLoop_word (hrow : done.length < maxCommandArgsCount)
    (hlen : u.length + w.length ≤ maxArgLen)
    (hw : ∀ x ∈ w, x ≠ space ∧ x ≠ cr ∧ x ≠ lf ∧ x ≠ 0) :
    parseLoop (reading done u) u.length (w ++ s) =
      parseLoop (reading done (u ++ w)) (u ++ w).length s := by
  induction w generalizing u with
  | nil => rw [List.nil_append, List.append_nil]
  | cons x w ih =>
    obtain ⟨hspace, hcr, hlf, hzero⟩ := hw x List.mem_cons_self
    rw [List.length_cons] at hlen
    have hend : ¬ (x = 0 ∨ x = cr ∨ x = lf) := by
      rintro (h | h | h)
      · exact hzero h
      · exact hcr h
      · exact hlf h
    have hnext := ih (u := u ++ [x]) (by rw [List.length_append, List.length_singleton]; omega)
      fun y hy => hw y (List.mem_cons_of_mem x hy)
    rw [List.cons_append, parseLoop, if_neg hend, if_neg hspace,
      store_reading hrow (by omega)]
    rw [List.length_append, List.length_singleton, List.append_assoc] at hnext
    exact hnext

theorem parseLoop_gap {gap : Nat} (hrow : done.length < maxCommandArgsCount)
    (hcol : u.length < maxArgLen) (hgap : 0 < gap) (hs : s.head? ≠ some space) :
    parseLoop (reading done u) u.length (List.replicate gap space ++ s) =
      parseLoop (reading (done ++ [u]) []) 0 s := by
  obtain ⟨n, rfl⟩ := Nat.exists_eq_succ_of_ne_zero (Nat.ne_of_gt hgap)
  have hskip : (List.replicate n space ++ s).dropWhile (· = space) = s := by
    rw [List.dropWhile_append_of_pos fun x hx => decide_eq_true (List.eq_of_mem_replicate hx)]
    cases s with
    | nil => rfl
    | cons x s =>
      apply List.dropWhile_cons_of_neg
      rw [decide_eq_true_eq]
      rintro rfl
      exact hs rfl
  have hend : ¬ (space = 0 ∨ space = cr ∨ space = lf) := by decide
  rw [List.replicate_succ, List.cons_append, parseLoop, if_neg hend, if_pos rfl,
    store_reading hrow hcol, hskip]
  have hnext : { reading done (u ++ [0]) with
      argsCount := (reading done (u ++ [0])).argsCount + 1 } = reading (done ++ [u]) [] := by
    unfold reading
    rw [table_nil, table_nul, List.length_append, List.length_singleton, BitVec.ofNat_add]
    rfl
  exact congrArg (fun cmd => parseLoop cmd 0 s) hnext

theorem IsToken.head?_append (h : IsToken w) : (w ++ s).head? ≠ some space := by
  cases w with
  | nil => exact absurd h.pos (Nat.lt_irrefl 0)
  | cons x w =>
    intro hhead
    exact (h.plain x List.mem_cons_self).1 (Option.some.inj hhead)

theorem joined_append (w : List U8) (ws : List (Nat × List U8)) : ∃ s, joined w ws = w ++ s := by
  cases ws with
  | nil => exact ⟨[], (List.append_nil w).symm⟩
  | cons p ws => exact ⟨List.replicate p.1 space ++ joined p.2 ws, List.append_assoc _ _ _⟩

theorem parseLoop_joined (hrows : done.length + ws.length < maxCommandArgsCount) (hw : IsToken w)
    (hws : ∀ p ∈ ws, 0 < p.1 ∧ IsToken p.2) (he : e = 0 ∨ e = cr ∨ e = lf) :
    parseLoop (reading done []) 0 (joined w ws ++ e :: s) = some
      { command := none
        args := table (done ++ w :: ws.map Prod.snd)
        argsCount := BitVec.ofNat 8 (done.length + ws.length) } := by
  have hshort := hw.short
  induction ws generalizing done w with
  | nil =>
    have hword := parseLoop_word (u := []) (s := e :: s) (by simpa using hrows)
      (by rw [List.length_nil]; omega) hw.plain
    rw [joined]
    refine hword.trans ?_
    rw [parseLoop, if_pos he]
    rfl
  | cons p ws ih =>
    obtain ⟨hgap, hp⟩ := hws p List.mem_cons_self
    rw [List.length_cons] at hrows
    obtain ⟨rest, hrest⟩ := joined_append p.2 ws
    have hhead : (joined p.2 ws ++ e :: s).head? ≠ some space := by
      rw [hrest, List.append_assoc]
      exact hp.head?_append
    have hrow : done.length < maxCommandArgsCount := by omega
    have hword := parseLoop_word (u := []) (w := w)
      (s := List.replicate p.1 space ++ (joined p.2 ws ++ e :: s)) hrow
      (by rw [List.length_nil]; omega) hw.plain
    have hnext : parseLoop (reading (done ++ [w]) []) 0 (joined p.2 ws ++ e :: s) = some _ :=
      ih (by rw [List.length_append, List.length_singleton]; omega) hp
        (fun q hq => hws q (List.mem_cons_of_mem p hq)) hp.short
    rw [joined, List.append_assoc, List.append_assoc]
    refine hword.trans ?_
    rw [List.nil_append, parseLoop_gap hrow hshort hgap hhead, hnext, List.append_assoc,
      List.length_append, List.length_singleton, List.length_cons, Nat.add_assoc, Nat.add_comm 1]
    rfl

/-- Parsing inverts joining: each word in its row, the other rows empty. -/
theorem parseCommand_joined (w : List U8) (ws : List (Nat × List U8)) (e : U8) (s : List U8)
    (hrows : ws.length < maxCommandArgsCount) (hw : IsToken w)
    (hws : ∀ p ∈ ws, 0 < p.1 ∧ IsToken p.2) (he : e = 0 ∨ e = cr ∨ e = lf) :
    ∃ cmd, parseCommand (joined w ws ++ e :: s) = some cmd ∧
      (∀ i j, cmd.args i j = ((w :: ws.map Prod.snd).getD i []).getD j 0) ∧
      cmd.argsCount.toNat = (w :: ws.map Prod.snd).length - 1 ∧ cmd.command = some 0 := by
  have hstart : (⟨none, fun _ _ => 0, 0⟩ : Command) = reading [] [] := by
    unfold reading
    rw [table_nil]
    rfl
  have hloop : parseLoop (reading [] []) 0 (joined w ws ++ e :: s) = some _ :=
    parseLoop_joined (by rwa [List.length_nil, Nat.zero_add]) hw hws he
  rw [parseCommand, hstart, hloop]
  refine ⟨_, rfl, fun i j => rfl, ?_, rfl⟩
  unfold maxCommandArgsCount at hrows
  rw [List.length_cons, List.length_map, List.length_nil, Nat.zero_add]
  exact Nat.mod_eq_of_lt (by omega)

/-- `ls  fd`, closed by a line feed, and a byte behind it. -/
theorem parseCommand_ls_fd :
    ∃ cmd, parseCommand [0x6c, 0x73, space, space, 0x66, 0x64, lf, 0x21] = some cmd ∧
      (∀ i j, cmd.args i j =
        (List.getD [[0x6c, 0x73], [0x66, 0x64]] i.val ([] : List U8)).getD j.val 0) ∧
      cmd.argsCount.toNat = 1 ∧ cmd.command = some 0 :=
  parseCommand_joined [0x6c, 0x73] [(2, [0x66, 0x64])] lf [0x21] (by decide)
    ⟨by decide, by decide, by decide⟩
    (fun p hp => by
      obtain rfl := List.mem_singleton.mp hp
      exact ⟨by decide, by decide, by decide, by decide⟩)
    (.inr (.inr rfl))

end Uroboros.Command
