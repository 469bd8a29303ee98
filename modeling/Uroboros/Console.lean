import Mathlib.Logic.Function.Basic
import Uroboros.Config
import Uroboros.Lib.Lines

/-!
# Console input

`console_run` on the line buffer of a `Console`: the bytes that `q_in` holds go
behind the unfinished line, and the buffer is then searched for carriage returns.
`line_p` is an index into `line`; a store outside `line` ends a run. What is
echoed, and what a command does, touches neither and is left out.
-/

set_option autoImplicit false

namespace Uroboros

open Lines

def consoleLineBufSize : Nat := 256

def cr : U8 := 0x0d

structure Console where
  line : Nat → U8
  lineP : Nat
  /-- The lines given to `console_exec`. -/
  executed : List (List U8)

namespace Console

/-- The line as `console_exec` reads it from `c` on: up to a carriage return or the end. -/
def readLine (line : Nat → U8) : Nat → Nat → List U8
  | 0, _ => []
  | fuel + 1, c => if line c = 0 ∨ line c = cr then [] else line c :: readLine line fuel (c + 1)

def consoleExec (con : Console) : Console :=
  { con with executed := con.executed ++ [readLine con.line consoleLineBufSize 0] }

def consoleClearLine (con : Console) : Console :=
  { con with lineP := 0, line := Function.update con.line 0 0 }

def consoleInit (line : Nat → U8) : Console :=
  consoleClearLine { line := Function.update line 0 0, lineP := 0, executed := [] }

def store (con : Console) (c : U8) : Option Console :=
  if con.lineP < consoleLineBufSize then
    some { con with line := Function.update con.line con.lineP c }
  else none

/-- A pass of the loop that empties `q_in`. -/
def receive (con : Console) (c : U8) : Option Console := do
  let con ← con.store c
  let con := { con with lineP := con.lineP + 1 }
  con.store 0

/-- The loop over `con->line`, from index `c` on. -/
def scanLine : Nat → Nat → Console → Option Console
  | 0, _, _ => none
  | fuel + 1, c, con =>
    if con.line c = 0 then some con
    else
      let con := if con.line c = cr then con.consoleExec.consoleClearLine else con
      scanLine fuel (c + 1) con

/-- `console_run` when `q_in` holds `batch`. -/
def consoleRun (con : Console) (batch : List U8) : Option Console := do
  let con ← batch.foldlM receive con
  scanLine consoleLineBufSize 0 con

def consoleRuns (con : Console) (batches : List (List U8)) : Option Console :=
  batches.foldlM consoleRun con

def StringAt (line : Nat → U8) : Nat → List U8 → Prop
  | c, [] => line c = 0
  | c, x :: s => line c = x ∧ StringAt line (c + 1) s

variable {line line' : Nat → U8} {con con' : Console} {c : Nat} {x : U8} {s t p : List U8}
  {batch : List U8} {batches : List (List U8)}

theorem StringAt.congr (h : StringAt line c s) (heq : ∀ i, c ≤ i → i ≤ c + s.length →
    line' i = line i) : StringAt line' c s := by
  induction s generalizing c with
  | nil => exact (heq c (Nat.le_refl c) (Nat.le_refl c)).trans h
  | cons x s ih =>
    refine ⟨(heq c (Nat.le_refl c) (Nat.le_add_right c _)).trans h.1, ih h.2 ?_⟩
    intro i hc hi
    rw [List.length_cons] at heq
    exact heq i (by omega) (by omega)

theorem StringAt.snoc (h : StringAt line c s)
    (hrest : ∀ i, i < c + s.length → line' i = line i)
    (hx : line' (c + s.length) = x) (hend : line' (c + s.length + 1) = 0) :
    StringAt line' c (s ++ [x]) := by
  induction s generalizing c with
  | nil => exact ⟨hx, hend⟩
  | cons y s ih =>
    rw [List.length_cons] at hrest hx hend
    refine ⟨(hrest c (by omega)).trans h.1, ih h.2 ?_ ?_ ?_⟩
    · intro i hi
      exact hrest i (by omega)
    · rw [← hx]
      congr 1
      omega
    · rw [← hend]
      congr 1
      omega

theorem StringAt.drop (h : StringAt line c (s ++ t)) : StringAt line (c + s.length) t := by
  induction s generalizing c with
  | nil => exact h
  | cons x s ih =>
    rw [List.length_cons, show c + (s.length + 1) = c + 1 + s.length by omega]
    exact ih h.2

theorem readLine_cut {fuel : Nat} (h : StringAt line c (s ++ cr :: t)) (hs : cr ∉ s)
    (hnul : 0 ∉ s) (hfuel : s.length < fuel) : readLine line fuel c = s := by
  induction s generalizing c fuel with
  | nil =>
    cases fuel with
    | zero => exact absurd hfuel (Nat.not_lt_zero _)
    | succ fuel => simp [readLine, h.1]
  | cons x s ih =>
    cases fuel with
    | zero => exact absurd hfuel (Nat.not_lt_zero _)
    | succ fuel =>
      have hx : x ≠ cr := fun heq => hs (heq ▸ List.mem_cons_self)
      have hx0 : x ≠ 0 := fun heq => hnul (heq ▸ List.mem_cons_self)
      rw [readLine, h.1, if_neg (not_or.mpr ⟨hx0, hx⟩)]
      rw [ih h.2 (fun hm => hs (List.mem_cons_of_mem _ hm))
        (fun hm => hnul (List.mem_cons_of_mem _ hm)) (Nat.lt_of_succ_lt_succ hfuel)]

structure Holds (con : Console) (p : List U8) : Prop where
  lineP : con.lineP = p.length
  fits : p.length < consoleLineBufSize
  text : StringAt con.line 0 p

theorem holds_clear (con : Console) : con.consoleClearLine.Holds [] := by
  refine ⟨rfl, Nat.succ_pos _, ?_⟩
  simp [consoleClearLine, StringAt]

theorem holds_consoleInit (line : Nat → U8) : (consoleInit line).Holds [] := holds_clear _

theorem receive_fits (h : con.Holds p) (hfit : p.length + 1 < consoleLineBufSize) (x : U8) :
    ∃ con', con.receive x = some con' ∧ con'.executed = con.executed ∧ con'.Holds (p ++ [x]) := by
  have hlt : con.lineP < consoleLineBufSize := h.lineP ▸ h.fits
  have hlt' : con.lineP + 1 < consoleLineBufSize := h.lineP ▸ hfit
  refine ⟨{ con with
      line := Function.update (Function.update con.line con.lineP x) (con.lineP + 1) 0
      lineP := con.lineP + 1 }, ?_, rfl, ?_, ?_, ?_⟩
  · simp [receive, store, hlt, hlt']
  · simp [h.lineP]
  · simpa using hfit
  · refine h.text.snoc ?_ ?_ ?_ <;> rw [Nat.zero_add] <;> dsimp only
    · intro i hi
      rw [Function.update_of_ne (by rw [h.lineP]; omega),
        Function.update_of_ne (by rw [h.lineP]; omega)]
    · rw [Function.update_of_ne (by rw [h.lineP]; omega), h.lineP, Function.update_self]
    · rw [h.lineP, Function.update_self]

theorem receive_full (h : con.Holds p) (hfull : consoleLineBufSize ≤ p.length + 1) (x : U8) :
    con.receive x = none := by
  have hlt : con.lineP < consoleLineBufSize := h.lineP ▸ h.fits
  have hfull' : ¬ con.lineP + 1 < consoleLineBufSize := by
    rw [h.lineP]
    omega
  simp [receive, store, hlt, hfull']

theorem receive_batch (h : con.Holds p) (batch : List U8) :
    (∃ con', batch.foldlM receive con = some con' ∧ con'.executed = con.executed ∧
      con'.Holds (p ++ batch)) ∨
    (batch.foldlM receive con = none ∧ consoleLineBufSize ≤ p.length + batch.length) := by
  induction batch generalizing con p with
  | nil =>
    rw [List.append_nil]
    exact .inl ⟨con, rfl, rfl, h⟩
  | cons x batch ih =>
    rw [List.foldlM_cons]
    by_cases hfit : p.length + 1 < consoleLineBufSize
    · obtain ⟨con₁, hcon₁, hexec, hholds⟩ := receive_fits h hfit x
      rw [hcon₁]
      rcases ih hholds with ⟨con', hcon', hexec', hholds'⟩ | ⟨hnone, hlen⟩
      · rw [List.append_assoc] at hholds'
        exact .inl ⟨con', hcon', hexec'.trans hexec, hholds'⟩
      · refine .inr ⟨hnone, ?_⟩
        simp only [List.length_append, List.length_cons, List.length_nil] at hlen ⊢
        omega
    · rw [receive_full h (by omega)]
      refine .inr ⟨rfl, ?_⟩
      rw [List.length_cons]
      omega

/-- What a call executes when `lines` are complete: behind the first one the buffer is empty. -/
def executedOf : List (List U8) → List (List U8)
  | [] => []
  | l :: lines => l :: lines.map fun _ => []

theorem scanLine_succ (fuel c : Nat) (con : Console) (h : con.line c ≠ 0) :
    scanLine (fuel + 1) c con = scanLine fuel (c + 1)
      (if con.line c = cr then con.consoleExec.consoleClearLine else con) := by
  rw [scanLine, if_neg h]

/-- Behind a carriage return the scan meets the old bytes, but the line it executes is empty. -/
theorem scanLine_cleared {fuel : Nat} (h : StringAt con.line c s) (hnul : 0 ∉ s) (hc : 0 < c)
    (hholds : con.Holds []) (hfuel : s.length < fuel) :
    ∃ con', scanLine fuel c con = some con' ∧ con'.Holds [] ∧
      con'.executed = con.executed ++ (complete cr s).map fun _ => [] := by
  obtain ⟨fuel, rfl⟩ := Nat.exists_eq_succ_of_ne_zero (Nat.ne_zero_of_lt hfuel)
  induction s generalizing c fuel con with
  | nil =>
    have hend : con.line c = 0 := h
    exact ⟨con, by rw [scanLine, if_pos hend], hholds, (List.append_nil _).symm⟩
  | cons x s ih =>
    have hx0 : x ≠ 0 := fun heq => hnul (heq ▸ List.mem_cons_self)
    have hnul' : 0 ∉ s := fun hm => hnul (List.mem_cons_of_mem _ hm)
    have hrest := Nat.lt_of_succ_lt_succ hfuel
    obtain ⟨fuel, rfl⟩ := Nat.exists_eq_succ_of_ne_zero (Nat.ne_zero_of_lt hrest)
    rw [scanLine_succ _ _ _ (h.1 ▸ hx0), h.1]
    by_cases hx : x = cr
    · subst hx
      have htext : StringAt con.consoleExec.consoleClearLine.line (c + 1) s := by
        apply h.2.congr
        intro i hi _
        exact Function.update_of_ne (by omega) _ _
      have hempty : readLine con.line consoleLineBufSize 0 = [] := by
        have hend : con.line 0 = 0 := hholds.text
        simp [consoleLineBufSize, readLine, hend]
      rw [if_pos rfl, complete, if_pos rfl]
      obtain ⟨con', hcon', hholds', hexec⟩ := ih htext hnul' (Nat.succ_pos _) (holds_clear _) fuel
        (Nat.lt_of_succ_lt_succ hfuel)
      refine ⟨con', hcon', hholds', ?_⟩
      rw [hexec, consoleClearLine, consoleExec, hempty, List.append_assoc]
      rfl
    · rw [if_neg hx, complete, if_neg hx]
      obtain ⟨con', hcon', hholds', hexec⟩ := ih h.2 hnul' (Nat.succ_pos _) hholds fuel
        (Nat.lt_of_succ_lt_succ hfuel)
      refine ⟨con', hcon', hholds', ?_⟩
      rw [hexec]
      cases complete cr s <;> rfl

theorem scanLine_text {fuel : Nat} (hp : cr ∉ p) (hnul : 0 ∉ p ++ s)
    (htext : StringAt con.line 0 (p ++ s)) (hlen : (p ++ s).length < consoleLineBufSize)
    (hfuel : s.length < fuel) : ∃ con', scanLine fuel p.length con = some con' ∧
      (cr ∈ s → con'.Holds []) ∧ (cr ∉ s → con' = con) ∧
      con'.executed = con.executed ++ executedOf (complete cr (p ++ s)) := by
  obtain ⟨fuel, rfl⟩ := Nat.exists_eq_succ_of_ne_zero (Nat.ne_zero_of_lt hfuel)
  have hat := htext.drop
  rw [Nat.zero_add] at hat
  induction s generalizing p fuel with
  | nil =>
    have hend : con.line p.length = 0 := hat
    rw [List.append_nil, complete_eq_nil_iff.mpr hp]
    exact ⟨con, by rw [scanLine, if_pos hend], fun hcr => absurd hcr List.not_mem_nil,
      fun _ => rfl, (List.append_nil _).symm⟩
  | cons x s ih =>
    have hx0 : x ≠ 0 := fun heq => hnul (heq ▸ List.mem_append_right _ List.mem_cons_self)
    have hrest := Nat.lt_of_succ_lt_succ hfuel
    obtain ⟨fuel, rfl⟩ := Nat.exists_eq_succ_of_ne_zero (Nat.ne_zero_of_lt hrest)
    rw [scanLine_succ _ _ _ (hat.1 ▸ hx0), hat.1]
    by_cases hx : x = cr
    · subst hx
      have hrest : StringAt con.consoleExec.consoleClearLine.line (p.length + 1) s := by
        apply hat.2.congr
        intro i hi _
        exact Function.update_of_ne (by omega) _ _
      have hline : readLine con.line consoleLineBufSize 0 = p := by
        refine readLine_cut htext hp (fun hm => hnul (List.mem_append_left _ hm)) ?_
        rw [List.length_append] at hlen
        omega
      rw [if_pos rfl, complete_cut hp]
      obtain ⟨con', hcon', hholds', hexec⟩ := scanLine_cleared hrest
        (fun hm => hnul (List.mem_append_right _ (List.mem_cons_of_mem _ hm))) (Nat.succ_pos _)
        (holds_clear _) (Nat.lt_of_succ_lt_succ hfuel)
      refine ⟨con', hcon', fun _ => hholds', fun hcr => absurd List.mem_cons_self hcr, ?_⟩
      rw [hexec, consoleClearLine, consoleExec, hline, List.append_assoc]
      rfl
    · have hassoc : p ++ x :: s = (p ++ [x]) ++ s := by simp
      have hcr : cr ∈ x :: s ↔ cr ∈ s := by simp [Ne.symm hx]
      rw [if_neg hx]
      simp only [hcr]
      rw [hassoc] at htext hlen hnul ⊢
      have hp' : cr ∉ p ++ [x] := by simp [hp, Ne.symm hx]
      have hlen' : (p ++ [x]).length = p.length + 1 := by simp
      rw [← hlen']
      exact ih hp' hnul htext hlen fuel hrest (hlen' ▸ hat.2)

theorem consoleRun_cases (h : con.Holds p) (hp : cr ∉ p) (hnul : 0 ∉ p ++ batch) :
    (∃ con', con.consoleRun batch = some con' ∧ p.length + batch.length < consoleLineBufSize ∧
      con'.Holds (if cr ∈ batch then [] else p ++ batch) ∧
      con'.executed = con.executed ++ executedOf (complete cr (p ++ batch))) ∨
    (con.consoleRun batch = none ∧ consoleLineBufSize ≤ p.length + batch.length) := by
  rcases receive_batch h batch with ⟨con₁, hcon₁, hexec₁, hholds₁⟩ | ⟨hnone, hlen⟩
  · have hfits := hholds₁.fits
    obtain ⟨con', hcon', hcut, hkept, hexec'⟩ := scanLine_text (p := []) (s := p ++ batch)
      List.not_mem_nil hnul hholds₁.text hfits hfits
    refine .inl ⟨con', ?_, ?_, ?_, ?_⟩
    · rw [consoleRun, hcon₁]
      exact hcon'
    · rwa [List.length_append] at hfits
    · have hmem : cr ∈ p ++ batch ↔ cr ∈ batch := by simp [hp]
      rw [hmem] at hcut hkept
      split
      · exact hcut ‹_›
      · rw [hkept ‹_›]
        exact hholds₁
    · rw [hexec', hexec₁, List.nil_append]
  · refine .inr ⟨?_, hlen⟩
    rw [consoleRun, hnone]
    rfl

/-- Each batch fits behind the unfinished line, of which `n` bytes are there before the first. -/
def Fits : Nat → List (List U8) → Prop
  | _, [] => True
  | n, b :: bs =>
    n + b.length < consoleLineBufSize ∧ Fits (if cr ∈ b then 0 else n + b.length) bs

/-- No byte behind a carriage return of its batch is followed by one, in the batch or later, unless
it is one itself. -/
def NoneLost : List (List U8) → Prop
  | [] => True
  | b :: bs => (behind cr b = [] ∨ cr ∉ behind cr b ++ bs.flatten) ∧ NoneLost bs

theorem length_executedOf (lines : List (List U8)) : (executedOf lines).length = lines.length := by
  cases lines with
  | nil => rfl
  | cons l lines => simp [executedOf]

theorem consoleRuns_cons (con : Console) (batch : List U8) (batches : List (List U8)) :
    con.consoleRuns (batch :: batches) = (con.consoleRun batch).bind (·.consoleRuns batches) := rfl

theorem complete_batch (hp : cr ∉ p) (hcr : cr ∈ batch) (t : List U8) : ∃ v,
    behind cr batch = v.dropWhile (· = cr) ∧ ∃ l, complete cr (p ++ batch) = l :: complete cr v ∧
      complete cr (p ++ batch ++ t) =
        l :: (complete cr v ++ complete cr (unfinished cr v ++ t)) := by
  obtain ⟨u, v, rfl, hu⟩ := List.eq_append_cons_of_mem hcr
  have hpu : cr ∉ p ++ u := by simp [hp, hu]
  refine ⟨v, behind_cut hu, p ++ u, ?_, ?_⟩
  · rw [← List.append_assoc, complete_cut hpu]
  · rw [complete_append, ← List.append_assoc, complete_cut hpu, unfinished_cut]
    rfl

theorem executed_head (h : con.Holds p) (hp : cr ∉ p) (hnul : 0 ∉ p ++ batches.flatten)
    (hrun : con.consoleRuns batches = some con') : ∃ lines,
      con'.executed = con.executed ++ lines ∧
      lines.length = (complete cr (p ++ batches.flatten)).length ∧
      lines.head? = (complete cr (p ++ batches.flatten)).head? := by
  induction batches generalizing con p with
  | nil =>
    cases hrun
    refine ⟨[], (List.append_nil _).symm, ?_⟩
    rw [List.flatten_nil, List.append_nil, complete_eq_nil_iff.mpr hp]
    exact ⟨rfl, rfl⟩
  | cons b bs ih =>
    rw [List.flatten_cons, ← List.append_assoc] at hnul ⊢
    obtain ⟨con₁, hcon₁, hrest⟩ := Option.bind_eq_some_iff.mp hrun
    rcases consoleRun_cases h hp (fun hm => hnul (List.mem_append_left _ hm)) with
      ⟨con₂, hcon₂, _, hholds, hexec⟩ | ⟨hnone, _⟩
    · rw [hcon₁] at hcon₂
      cases hcon₂
      by_cases hcr : cr ∈ b
      · rw [if_pos hcr] at hholds
        obtain ⟨lines, hlines, hlen, _⟩ := ih hholds List.not_mem_nil
          (fun hm => hnul (List.mem_append_right _ hm)) hrest
        obtain ⟨v, _, l, hfirst, hall⟩ := complete_batch hp hcr bs.flatten
        refine ⟨executedOf (complete cr (p ++ b)) ++ lines, ?_, ?_, ?_⟩
        · rw [hlines, hexec, List.append_assoc]
        · rw [hall, complete_append_of_notMem sep_notMem_unfinished, List.length_append,
            length_executedOf, hfirst, hlen]
          simp [Nat.add_right_comm]
        · rw [hall, hfirst]
          rfl
      · rw [if_neg hcr] at hholds
        have hpb : cr ∉ p ++ b := by simp [hp, hcr]
        obtain ⟨lines, hlines, hrest⟩ := ih hholds hpb hnul hrest
        rw [complete_eq_nil_iff.mpr hpb] at hexec
        refine ⟨lines, ?_, hrest⟩
        rw [hlines, hexec]
        simp [executedOf]
    · rw [hnone] at hcon₁
      cases hcon₁

theorem executedOf_eq_iff (l : List U8) (lines : List (List U8)) :
    executedOf (l :: lines) = l :: lines ↔ ∀ l ∈ lines, l = [] := by
  simp only [executedOf, List.cons.injEq, true_and]
  induction lines with
  | nil => simp
  | cons l lines ih =>
    rw [List.map_cons, List.cons.injEq, ih, List.forall_mem_cons]
    exact and_congr eq_comm Iff.rfl

/-- The batches are executed as the stream they are cut from if each fits and none loses bytes. -/
theorem consoleRuns_iff (h : con.Holds p) (hp : cr ∉ p) (hnul : 0 ∉ p ++ batches.flatten) :
    (∃ con', con.consoleRuns batches = some con' ∧
      con'.executed = con.executed ++ complete cr (p ++ batches.flatten)) ↔
      Fits p.length batches ∧ NoneLost batches := by
  induction batches generalizing con p with
  | nil =>
    rw [List.flatten_nil, List.append_nil, complete_eq_nil_iff.mpr hp, List.append_nil]
    exact ⟨fun _ => ⟨trivial, trivial⟩, fun _ => ⟨con, rfl, rfl⟩⟩
  | cons b bs ih =>
    rw [List.flatten_cons, ← List.append_assoc] at hnul ⊢
    rw [consoleRuns_cons]
    rcases consoleRun_cases h hp (fun hm => hnul (List.mem_append_left _ hm)) with
      ⟨con₁, hcon₁, hfit, hholds, hexec⟩ | ⟨hnone, hlen⟩
    · rw [hcon₁, Option.bind_some, Fits, NoneLost]
      by_cases hcr : cr ∈ b
      · rw [if_pos hcr] at hholds ⊢
        have hnul' : 0 ∉ [] ++ bs.flatten := fun hm => hnul (List.mem_append_right _ hm)
        obtain ⟨v, hbehind, l, hfirst, hall⟩ := complete_batch hp hcr bs.flatten
        have hrest := ih hholds List.not_mem_nil hnul'
        rw [List.nil_append, hexec, hfirst] at hrest
        rw [hbehind, dropWhile_notMem_iff, hall, ← executedOf_eq_iff l]
        constructor
        · rintro ⟨con', hcon', heq⟩
          obtain ⟨lines, hlines, _, hhead⟩ := executed_head hholds List.not_mem_nil hnul' hcon'
          rw [hexec, hfirst, heq, List.append_assoc] at hlines
          have hsplit : (l :: complete cr v) ++ _ = _ ++ _ := List.append_cancel_left hlines
          obtain ⟨hempty, hlate⟩ := List.append_inj hsplit (length_executedOf _).symm
          rw [← hlate] at hhead
          have hunf := (head_complete_append_iff sep_notMem_unfinished).mp hhead
          have hsame := complete_append_eq sep_notMem_unfinished hunf
          obtain ⟨hfits, hnone⟩ := hrest.mp ⟨con', hcon', by
            rw [heq, ← hempty, ← hsame, List.append_assoc]
            rfl⟩
          exact ⟨⟨hfit, hfits⟩, ⟨hempty.symm, hunf⟩, hnone⟩
        · rintro ⟨⟨_, hfits⟩, ⟨hempty, hunf⟩, hnone⟩
          obtain ⟨con', hcon', heq⟩ := hrest.mpr ⟨hfits, hnone⟩
          refine ⟨con', hcon', ?_⟩
          rw [heq, hempty, complete_append_eq sep_notMem_unfinished hunf, List.append_assoc]
          rfl
      · rw [if_neg hcr] at hholds ⊢
        have hpb : cr ∉ p ++ b := by simp [hp, hcr]
        have hrest := ih hholds hpb hnul
        rw [hexec, complete_eq_nil_iff.mpr hpb, executedOf, List.append_nil,
          List.length_append] at hrest
        rw [hrest, behind_of_notMem hcr]
        simp [hfit]
    · rw [hnone]
      constructor
      · rintro ⟨con', hcon', _⟩
        cases hcon'
      · intro hgood
        have hlt := hgood.1.1
        omega

/-- From `console_init` on, the lines of a stream are executed, each once and in order, exactly
when its batches fit and none of them loses bytes. -/
theorem batches_execute_lines_iff (line : Nat → U8) (batches : List (List U8))
    (hnul : 0 ∉ batches.flatten) :
    (∃ con, (consoleInit line).consoleRuns batches = some con ∧
      con.executed = complete cr batches.flatten) ↔ Fits 0 batches ∧ NoneLost batches :=
  consoleRuns_iff (holds_consoleInit line) List.not_mem_nil hnul

/-- A line in two batches, and one with the start of the next. -/
theorem batches_execute_lines_three : ∃ con,
    (consoleInit fun _ => 0).consoleRuns [[0x61], [0x62, cr], [0x63]] = some con ∧
      con.executed = complete cr [0x61, 0x62, cr, 0x63] :=
  (batches_execute_lines_iff (fun _ => 0) [[0x61], [0x62, cr], [0x63]] (by decide)).mpr
    ⟨by simp [Fits, consoleLineBufSize, cr], by simp [NoneLost, behind, cr]⟩

/-- Two lines of one byte each, short enough: in one batch the second is executed as empty. -/
theorem batches_lose_line : ¬ ∀ batches : List (List U8), 0 ∉ batches.flatten →
    (∀ l ∈ complete cr batches.flatten, l.length < consoleLineBufSize) →
    ∃ con, (consoleInit fun _ => 0).consoleRuns batches = some con ∧
      con.executed = complete cr batches.flatten := by
  intro h
  obtain ⟨con, hcon, hexec⟩ := h [[0x61, cr, 0x62, cr]] (by decide) (by decide)
  have hrun : ((consoleInit fun _ => 0).consoleRuns [[0x61, cr, 0x62, cr]]).map (·.executed) =
      some [[0x61], []] := by
    decide +kernel
  rw [hcon, Option.map_some, hexec] at hrun
  exact absurd hrun (by decide)

theorem StringAt.takeWhile (h : StringAt line c s) :
    StringAt line c (s.takeWhile (· ≠ 0)) := by
  induction s generalizing c with
  | nil => exact h
  | cons x s ih =>
    by_cases hx : x = 0
    · rw [List.takeWhile_cons_of_neg (by simpa using hx)]
      exact h.1.trans hx
    · rw [List.takeWhile_cons_of_pos (by simpa using hx)]
      exact ⟨h.1, ih h.2⟩

/-- What waits in the buffer after a call that found `p` there and received `batch`. -/
def pending (p batch : List U8) : List U8 :=
  if cr ∈ (p ++ batch).takeWhile (· ≠ 0) then [] else p ++ batch

def Room : List U8 → List (List U8) → Prop
  | _, [] => True
  | p, b :: bs => p.length + b.length < consoleLineBufSize ∧ Room (pending p b) bs

theorem consoleRun_pending (h : con.Holds p) :
    (∃ con', con.consoleRun batch = some con' ∧ p.length + batch.length < consoleLineBufSize ∧
      con'.Holds (pending p batch)) ∨
    (con.consoleRun batch = none ∧ consoleLineBufSize ≤ p.length + batch.length) := by
  rcases receive_batch h batch with ⟨con₁, hcon₁, _, hholds⟩ | ⟨hnone, hlen⟩
  · have hfits := hholds.fits
    have hnul : 0 ∉ [] ++ (p ++ batch).takeWhile (· ≠ 0) := by
      intro hmem
      simpa using List.mem_takeWhile_imp hmem
    have hshort : ((p ++ batch).takeWhile (· ≠ 0)).length < consoleLineBufSize :=
      Nat.lt_of_le_of_lt (List.takeWhile_prefix _).length_le hfits
    obtain ⟨con', hcon', hcut, hkept, _⟩ := scanLine_text List.not_mem_nil hnul
      hholds.text.takeWhile hshort hshort
    refine .inl ⟨con', ?_, ?_, ?_⟩
    · rw [consoleRun, hcon₁]
      exact hcon'
    · rwa [List.length_append] at hfits
    · unfold pending
      split
      · exact hcut ‹_›
      · rw [hkept ‹_›]
        exact hholds
  · refine .inr ⟨?_, hlen⟩
    rw [consoleRun, hnone]
    rfl

/-- No store leaves the buffer exactly when each batch fits. -/
theorem consoleRuns_inside_iff (h : con.Holds p) :
    con.consoleRuns batches ≠ none ↔ Room p batches := by
  induction batches generalizing con p with
  | nil => exact iff_of_true (Option.some_ne_none con) trivial
  | cons b bs ih =>
    rw [consoleRuns_cons, Room]
    rcases consoleRun_pending h with ⟨con', hcon', hfit, hholds⟩ | ⟨hnone, hlen⟩
    · rw [hcon', Option.bind_some, ih hholds]
      exact ⟨fun hroom => ⟨hfit, hroom⟩, And.right⟩
    · rw [hnone]
      exact iff_of_false (fun hne => hne rfl) fun hroom => absurd hroom.1 (Nat.not_lt.mpr hlen)

end Console

end Uroboros
