import Uroboros.Console
import Uroboros.Lib.Words

/-!
# Parsing a command

`parse_command` on the bytes of a line. `q` points into the row of `args` that is
being filled, so that a column is all that is left of it; a store outside that
row, or through the row of an argument too many, ends the run.
-/

set_option autoImplicit false

namespace Uroboros

open Words

def maxArgLen : Nat := 16
def maxCommandArgsCount : Nat := 16

instance : NeZero maxCommandArgsCount := ⟨Nat.succ_ne_zero 15⟩

def lf : U8 := 0x0a
def space : U8 := 0x20

structure Command where
  /-- The row of `args` that `command` points to. -/
  command : Option (Fin maxCommandArgsCount)
  args : Fin maxCommandArgsCount → Fin maxArgLen → U8
  argsCount : U8

namespace Command

/-- `*q = x` with `q` at column `col` of the row that is being filled. -/
def store (cmd : Command) (col : Nat) (x : U8) : Option Command :=
  if h : cmd.argsCount.toNat < maxCommandArgsCount ∧ col < maxArgLen then
    let row := Function.update (cmd.args ⟨_, h.1⟩) ⟨col, h.2⟩ x
    some { cmd with args := Function.update cmd.args ⟨_, h.1⟩ row }
  else none

/-- The loop, from `p` on; the end of the list is the NUL. -/
def parseLoop (cmd : Command) (col : Nat) : List U8 → Option Command
  | [] => some cmd
  | x :: rest =>
    if x = 0 ∨ x = cr ∨ x = lf then some cmd
    else if x = space then do
      let cmd ← cmd.store col 0
      parseLoop { cmd with argsCount := cmd.argsCount + 1 } 0 (rest.dropWhile (· = space))
    else do
      let cmd ← cmd.store col x
      parseLoop cmd (col + 1) rest
termination_by s => s.length
decreasing_by
  · exact length_dropWhile_lt _ x rest
  · exact Nat.lt_succ_self _

def parseCommand (line : List U8) : Option Command := do
  let cmd ← parseLoop { command := none, args := fun _ _ => 0, argsCount := 0 } 0 line
  return { cmd with command := some 0 }

variable {cmd cmd' : Command} {col i : Nat} {x : U8} {s w : List U8} {ws : List (List U8)}

theorem store_cases (cmd : Command) (col : Nat) (x : U8) :
    (∃ cmd', cmd.store col x = some cmd' ∧ cmd'.argsCount = cmd.argsCount ∧
      cmd.argsCount.toNat < maxCommandArgsCount ∧ col < maxArgLen) ∨
    (cmd.store col x = none ∧
      ¬ (cmd.argsCount.toNat < maxCommandArgsCount ∧ col < maxArgLen)) := by
  unfold store
  by_cases h : cmd.argsCount.toNat < maxCommandArgsCount ∧ col < maxArgLen
  · rw [dif_pos h]
    exact .inl ⟨_, rfl, rfl, h⟩
  · rw [dif_neg h]
    exact .inr ⟨rfl, h⟩

/-- The words fit from row `i` on, the first one behind `col` bytes: each word that a space ends
with its NUL, the last one without. -/
def ArgsFit : Nat → Nat → List (List U8) → Prop
  | _, _, [] => True
  | i, col, [w] => w = [] ∨ i < maxCommandArgsCount ∧ col + w.length ≤ maxArgLen
  | i, col, w :: ws =>
    (i < maxCommandArgsCount ∧ col + w.length < maxArgLen) ∧ ArgsFit (i + 1) 0 ws

theorem argsFit_cons (hws : ws ≠ []) : ArgsFit i col (w :: ws) ↔
    (i < maxCommandArgsCount ∧ col + w.length < maxArgLen) ∧ ArgsFit (i + 1) 0 ws := by
  cases ws with
  | nil => exact absurd rfl hws
  | cons v ws => rfl

theorem argsFit_modifyHead (hws : ws ≠ []) : ArgsFit i col (ws.modifyHead (x :: ·)) ↔
    (i < maxCommandArgsCount ∧ col < maxArgLen) ∧ ArgsFit i (col + 1) ws := by
  cases ws with
  | nil => exact absurd rfl hws
  | cons w ws =>
    rw [List.modifyHead_cons]
    cases ws with
    | nil =>
      simp only [ArgsFit, List.length_cons, reduceCtorEq, false_or]
      constructor
      · rintro ⟨hi, hlen⟩
        exact ⟨⟨hi, by omega⟩, .inr ⟨hi, by omega⟩⟩
      · rintro ⟨⟨hi, hcol⟩, hw⟩
        refine ⟨hi, ?_⟩
        rcases hw with rfl | ⟨_, hlen⟩
        · rw [List.length_nil]
          omega
        · omega
    | cons v ws =>
      simp only [ArgsFit, List.length_cons]
      constructor
      · rintro ⟨⟨hi, hlen⟩, hrest⟩
        exact ⟨⟨hi, by omega⟩, ⟨hi, by omega⟩, hrest⟩
      · rintro ⟨_, ⟨hi, hlen⟩, hrest⟩
        exact ⟨⟨hi, by omega⟩, hrest⟩

def text (line : List U8) : List U8 := line.takeWhile fun x => ¬ (x = 0 ∨ x = cr ∨ x = lf)

theorem text_dropWhile (s : List U8) :
    text (s.dropWhile (· = space)) = (text s).dropWhile (· = space) := by
  apply takeWhile_dropWhile
  intro x hx
  rw [of_decide_eq_true hx]
  decide

theorem text_cons (h : ¬ (x = 0 ∨ x = cr ∨ x = lf)) : text (x :: s) = x :: text s :=
  List.takeWhile_cons_of_pos (decide_eq_true h)

theorem text_end (h : x = 0 ∨ x = cr ∨ x = lf) : text (x :: s) = [] :=
  List.takeWhile_cons_of_neg fun ht => of_decide_eq_true ht h

theorem argsFit_end : ArgsFit i col (words space []) := by
  rw [words_nil]
  exact .inl rfl

/-- From any point of the loop on: the rest of the line is stored inside the rows exactly when its
words fit, the first one behind the bytes that the row already has. -/
theorem parseLoop_inside_iff (hi : cmd.argsCount.toNat = i) :
    parseLoop cmd col s ≠ none ↔ ArgsFit i col (words space (text s)) := by
  induction cmd, col, s using parseLoop.induct generalizing i with
  | case1 cmd col =>
    rw [parseLoop]
    exact iff_of_true (Option.some_ne_none cmd) argsFit_end
  | case2 cmd col x rest hend =>
    rw [parseLoop, if_pos hend, text_end hend]
    exact iff_of_true (Option.some_ne_none cmd) argsFit_end
  | case3 cmd col rest hend ih =>
    rw [parseLoop, if_neg hend, if_pos rfl, text_cons hend, words_cons_sep, ← text_dropWhile,
      argsFit_cons (words_ne_nil _ _), ← hi]
    rcases store_cases cmd col 0 with ⟨cmd', hstore, hcount, hrow, hcol⟩ | ⟨hnone, hout⟩
    · have hnext : (cmd'.argsCount + 1).toNat = cmd.argsCount.toNat + 1 := by
        have hone : (1 : U8).toNat = 1 := rfl
        rw [hcount, BitVec.toNat_add, hone]
        unfold maxCommandArgsCount at hrow
        exact Nat.mod_eq_of_lt (by omega)
      rw [hstore, ← ih cmd' hnext]
      exact ⟨fun hrest => ⟨⟨hrow, hcol⟩, hrest⟩, And.right⟩
    · rw [hnone]
      exact iff_of_false (fun hne => hne rfl) fun hfit => hout hfit.1
  | case4 cmd col x rest hend hx ih =>
    rw [parseLoop, if_neg hend, if_neg hx, text_cons hend, words_cons hx,
      argsFit_modifyHead (words_ne_nil _ _), ← hi]
    rcases store_cases cmd col x with ⟨cmd', hstore, hcount, hinside⟩ | ⟨hnone, hout⟩
    · rw [hstore, ← ih cmd' (congrArg BitVec.toNat hcount)]
      exact ⟨fun hrest => ⟨hinside, hrest⟩, And.right⟩
    · rw [hnone]
      exact iff_of_false (fun hne => hne rfl) fun hfit => hout hfit.1

theorem parseCommand_inside_iff (line : List U8) :
    parseCommand line ≠ none ↔ ArgsFit 0 0 (words space (text line)) := by
  have hstart : (Command.argsCount ⟨none, fun _ _ => 0, 0⟩).toNat = 0 := rfl
  rw [← parseLoop_inside_iff hstart, parseCommand]
  cases parseLoop ⟨none, fun _ _ => 0, 0⟩ 0 line with
  | none => exact iff_of_false (fun hne => hne rfl) fun hne => hne rfl
  | some cmd => exact iff_of_true (Option.some_ne_none _) (Option.some_ne_none _)

/-- The console stays inside `line` exactly when each batch fits behind what waits there, and
`parse_command` inside the rows of `args` exactly when the words of the line fit. -/
theorem stores_inside_iff (mem : Nat → U8) (batches : List (List U8)) (line : List U8) :
    ((Console.consoleInit mem).consoleRuns batches ≠ none ↔ Console.Room [] batches) ∧
      (parseCommand line ≠ none ↔ ArgsFit 0 0 (words space (text line))) :=
  ⟨Console.consoleRuns_inside_iff (Console.holds_consoleInit mem), parseCommand_inside_iff line⟩

/-- 256 bytes without a carriage return leave `line`, and a word of 17 bytes leaves its row. -/
theorem stores_outside :
    (¬ ∀ batches : List (List U8), (Console.consoleInit fun _ => 0).consoleRuns batches ≠ none) ∧
      ¬ ∀ line : List U8, 0 ∉ line → parseCommand line ≠ none := by
  constructor
  · intro h
    have hroom := (Console.consoleRuns_inside_iff (Console.holds_consoleInit fun _ => 0)).mp
      (h [List.replicate 256 0x61])
    have hlen := hroom.1
    rw [List.length_replicate] at hlen
    exact absurd hlen (by decide)
  · intro h
    let line : List U8 := List.replicate 17 0x61
    have hfit := (parseCommand_inside_iff line).mp (h line (by decide))
    have htext : text line = line := by decide
    rw [htext, words_of_notMem (by decide)] at hfit
    exact absurd hfit (by unfold ArgsFit; decide)

end Command

end Uroboros
