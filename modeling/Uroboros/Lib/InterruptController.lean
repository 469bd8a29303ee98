import Mathlib.Logic.Function.Basic
import Uroboros.Lib.ForLoop

/-!
# The 8259A interrupt controller

One chip in fully nested mode with edge triggered lines, and two of them, the
slave on a line of the master. Automatic end of interrupt and the rotation of
priorities are left out.
-/

set_option autoImplicit false

namespace Pic8259

open ForLoop

abbrev Lines := Fin 8 → Bool

def noLines : Lines := fun _ => false

def lines (d : BitVec 8) : Lines := fun i => d.getLsbD i

/-- What the next data byte is taken for. -/
inductive Expect where
  | operation | icw2 | icw3 | icw4
  deriving DecidableEq

structure Chip where
  irr : Lines
  isr : Lines
  imr : Lines
  base : BitVec 8
  cascade : BitVec 8
  expect : Expect
  single : Bool
  icw4 : Bool

namespace Chip

def request (p : Chip) (i : Fin 8) : Chip := { p with irr := Function.update p.irr i true }

def withdraw (p : Chip) (i : Fin 8) : Chip := { p with irr := Function.update p.irr i false }

def endInterrupt (p : Chip) (i : Fin 8) : Chip := { p with isr := Function.update p.isr i false }

/-- ICW1 starts over; OCW2 ends interrupts; OCW3 changes nothing here. -/
def writeCommand (p : Chip) (d : BitVec 8) : Chip :=
  if d.getLsbD 4 then
    { p with
      irr := noLines
      isr := noLines
      imr := noLines
      expect := .icw2
      single := d.getLsbD 1
      icw4 := d.getLsbD 0 }
  else if d.getLsbD 3 then p
  else if d.extractLsb' 5 3 = 3 then p.endInterrupt ⟨(d.extractLsb' 0 3).toNat, by omega⟩
  else if d.extractLsb' 5 3 = 1 then (scan p.isr).elim p p.endInterrupt
  else p

def writeData (p : Chip) (d : BitVec 8) : Chip :=
  match p.expect with
  | .operation => { p with imr := lines d }
  | .icw2 =>
    { p with
      base := d &&& 0xF8
      expect := if p.single then if p.icw4 then .icw4 else .operation else .icw3 }
  | .icw3 => { p with cascade := d, expect := if p.icw4 then .icw4 else .operation }
  | .icw4 => { p with expect := .operation }

/-- A request that no interrupt in service holds back. -/
def eligible (p : Chip) (i : Fin 8) : Bool :=
  p.irr i && !p.imr i && decide (∀ j ≤ i, p.isr j = false)

def pending (p : Chip) : Option (Fin 8) := scan p.eligible

def serve (p : Chip) (i : Fin 8) : Chip :=
  { p with irr := Function.update p.irr i false, isr := Function.update p.isr i true }

def vector (p : Chip) (i : Fin 8) : BitVec 8 := p.base ||| BitVec.ofNat 8 i

/-- Without a request a chip answers for its last line, and has nothing in service for it. -/
def acknowledge (p : Chip) : BitVec 8 × Chip :=
  p.pending.elim (p.vector 7, p) fun i => (p.vector i, p.serve i)

end Chip

/-- A master and a slave, whose output is line 2 of the master. -/
structure Pair where
  master : Chip
  slave : Chip

namespace Pair

def cascade (p : Pair) : Pair :=
  { p with
    master := if p.slave.pending.isSome then p.master.request 2 else p.master.withdraw 2 }

/-- The lines 0 to 7 are the master's, 8 to 15 the slave's. -/
def request (p : Pair) (n : Fin 16) : Pair :=
  if h : n < 8 then { p with master := p.master.request ⟨n, h⟩ }
  else cascade { p with slave := p.slave.request ⟨n - 8, by omega⟩ }

def withdraw (p : Pair) (n : Fin 16) : Pair :=
  if h : n < 8 then { p with master := p.master.withdraw ⟨n, h⟩ }
  else cascade { p with slave := p.slave.withdraw ⟨n - 8, by omega⟩ }

def writeMaster (p : Pair) (write : Chip → Chip) : Pair := { p with master := write p.master }

def writeSlave (p : Pair) (write : Chip → Chip) : Pair :=
  cascade { p with slave := write p.slave }

/-- The processor's acknowledge cycle. The slave answers for the lines it is named for. -/
def acknowledge (p : Pair) : BitVec 8 × Pair :=
  match p.master.pending with
  | none => (p.master.vector 7, p)
  | some i =>
    if p.master.cascade.getLsbD i then
      let (v, slave) := p.slave.acknowledge
      (v, cascade ⟨p.master.serve i, slave⟩)
    else (p.master.vector i, { p with master := p.master.serve i })

end Pair

section
variable {p : Chip} {i j : Fin 8}

theorem Chip.eligible_iff : p.eligible i = true ↔
    p.irr i = true ∧ p.imr i = false ∧ ∀ j ≤ i, p.isr j = false := by
  rw [Chip.eligible, Bool.and_eq_true, Bool.and_eq_true, Bool.not_eq_true', decide_eq_true_iff,
    and_assoc]

theorem Chip.pending_spec (h : p.pending = some i) :
    p.irr i = true ∧ p.imr i = false ∧ ∀ j ≤ i, p.isr j = false :=
  Chip.eligible_iff.mp (scan_eq_some_iff.mp h).1

theorem Chip.request_self : (p.request i).irr i = true := by
  simp only [Chip.request, Function.update_self]

theorem Chip.withdraw_self : (p.withdraw i).irr i = false := by
  simp only [Chip.withdraw, Function.update_self]

theorem Chip.request_of_ne (h : j ≠ i) : (p.request i).irr j = p.irr j := by
  simp only [Chip.request, Function.update_of_ne h]

theorem Chip.withdraw_of_ne (h : j ≠ i) : (p.withdraw i).irr j = p.irr j := by
  simp only [Chip.withdraw, Function.update_of_ne h]

theorem Chip.irr_serve : (p.serve i).irr j = (p.irr j && decide (j ≠ i)) := by
  by_cases h : j = i
  · rw [decide_eq_false (not_not_intro h), Bool.and_false, h]
    exact Chip.withdraw_self
  · rw [decide_eq_true h, Bool.and_true]
    exact Chip.withdraw_of_ne h

end

section
variable {p : Chip}

def Chip.quiet (p : Chip) : Chip := { p with irr := noLines }

theorem Chip.quiet_endInterrupt_serve (hisr : p.isr = noLines) (i : Fin 8) :
    ((p.serve i).endInterrupt i).quiet = p.quiet := by
  have hend : Function.update (Function.update p.isr i true) i false = p.isr := by
    rw [hisr, Function.update_idem]
    exact Function.update_eq_self i noLines
  exact congrArg (fun isr => { p.quiet with isr := isr }) hend

theorem Chip.quiet_writeCommand (d : BitVec 8) :
    (p.writeCommand d).quiet = (p.quiet.writeCommand d).quiet := by
  unfold Chip.writeCommand
  split_ifs
  · rfl
  · rfl
  · rfl
  · change ((scan p.isr).elim p p.endInterrupt).quiet =
      ((scan p.isr).elim p.quiet p.quiet.endInterrupt).quiet
    cases scan p.isr <;> rfl
  · rfl

theorem Chip.quiet_writeData (d : BitVec 8) :
    (p.writeData d).quiet = (p.quiet.writeData d).quiet := by
  obtain ⟨irr, isr, imr, base, cascade, expect, single, icw4⟩ := p
  cases expect <;> rfl

theorem Chip.writeCommand_irr {d : BitVec 8} (hd : d.getLsbD 4 = false) :
    (p.writeCommand d).irr = p.irr := by
  unfold Chip.writeCommand
  rw [if_neg (Bool.eq_false_iff.mp hd)]
  split_ifs
  · rfl
  · rfl
  · cases scan p.isr <;> rfl
  · rfl

end

section
variable {p : Pair}

def Pair.quiet (p : Pair) : Pair := ⟨p.master.quiet, p.slave.quiet⟩

@[simp] theorem Pair.quiet_cascade : p.cascade.quiet = p.quiet := by
  unfold Pair.cascade
  split <;> rfl

@[simp] theorem Pair.quiet_request (n : Fin 16) : (p.request n).quiet = p.quiet := by
  unfold Pair.request
  split
  · rfl
  · exact Pair.quiet_cascade

@[simp] theorem Pair.quiet_withdraw (n : Fin 16) : (p.withdraw n).quiet = p.quiet := by
  unfold Pair.withdraw
  split
  · rfl
  · exact Pair.quiet_cascade

theorem Pair.quiet_writeMaster {write : Chip → Chip}
    (h : ∀ c : Chip, (write c).quiet = (write c.quiet).quiet) :
    (p.writeMaster write).quiet = (p.quiet.writeMaster write).quiet := by
  unfold Pair.writeMaster Pair.quiet
  dsimp only
  rw [h p.master]
  rfl

theorem Pair.quiet_writeSlave {write : Chip → Chip}
    (h : ∀ c : Chip, (write c).quiet = (write c.quiet).quiet) :
    (p.writeSlave write).quiet = (p.quiet.writeSlave write).quiet := by
  unfold Pair.writeSlave
  rw [Pair.quiet_cascade, Pair.quiet_cascade]
  unfold Pair.quiet
  dsimp only
  rw [h p.slave]
  rfl

/-- The slave's line of the master is requested exactly while the slave has something pending. -/
def Pair.InStep (p : Pair) : Prop := p.master.irr 2 = p.slave.pending.isSome

theorem Pair.inStep_cascade : p.cascade.InStep := by
  unfold Pair.InStep Pair.cascade
  split
  · rename_i hpending
    rw [hpending]
    exact Chip.request_self
  · rename_i hpending
    rw [Bool.eq_false_iff.mpr hpending]
    exact Chip.withdraw_self

theorem Pair.InStep.request {n : Fin 16} (h : p.InStep) (hn : n ≠ 2) : (p.request n).InStep := by
  unfold Pair.request
  split
  · rename_i hmaster
    have hline : 2 ≠ (⟨n, hmaster⟩ : Fin 8) := fun heq => hn (Fin.ext (congrArg Fin.val heq).symm)
    exact (Chip.request_of_ne hline).trans h
  · exact Pair.inStep_cascade

theorem Pair.InStep.withdraw {n : Fin 16} (h : p.InStep) (hn : n ≠ 2) : (p.withdraw n).InStep := by
  unfold Pair.withdraw
  split
  · rename_i hmaster
    have hline : 2 ≠ (⟨n, hmaster⟩ : Fin 8) := fun heq => hn (Fin.ext (congrArg Fin.val heq).symm)
    exact (Chip.withdraw_of_ne hline).trans h
  · exact Pair.inStep_cascade

variable {i : Fin 8}

theorem Pair.irr_cascade (hi : i ≠ 2) : p.cascade.master.irr i = p.master.irr i := by
  unfold Pair.cascade
  split
  · exact Chip.request_of_ne hi
  · exact Chip.withdraw_of_ne hi

theorem Pair.irr_request (hi : i ≠ 2) (n : Fin 16) :
    (p.request n).master.irr i = (p.master.irr i || decide (i.val = n.val)) := by
  unfold Pair.request
  split
  · rename_i hn
    by_cases heq : i.val = n.val
    · have hline : i = ⟨n, hn⟩ := Fin.ext heq
      rw [decide_eq_true heq, Bool.or_true, hline]
      exact Chip.request_self
    · rw [decide_eq_false heq, Bool.or_false]
      exact Chip.request_of_ne fun hline => heq (congrArg Fin.val hline)
  · rename_i hn
    have hne : i.val ≠ n.val := fun heq => hn (show n.val < 8 by omega)
    rw [Pair.irr_cascade hi, decide_eq_false hne, Bool.or_false]

theorem Pair.irr_withdraw (hi : i ≠ 2) (n : Fin 16) :
    (p.withdraw n).master.irr i = (p.master.irr i && decide (i.val ≠ n.val)) := by
  unfold Pair.withdraw
  split
  · rename_i hn
    by_cases heq : i.val = n.val
    · have hline : i = ⟨n, hn⟩ := Fin.ext heq
      rw [decide_eq_false (not_not_intro heq), Bool.and_false, hline]
      exact Chip.withdraw_self
    · rw [decide_eq_true heq, Bool.and_true]
      exact Chip.withdraw_of_ne fun hline => heq (congrArg Fin.val hline)
  · rename_i hn
    have hne : i.val ≠ n.val := fun heq => hn (show n.val < 8 by omega)
    rw [Pair.irr_cascade hi, decide_eq_true hne, Bool.and_true]

end

end Pic8259
