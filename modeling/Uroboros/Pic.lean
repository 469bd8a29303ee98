import Mathlib.Data.Fintype.Basic
import Mathlib.Tactic.FinCases
import Uroboros.Config
import Uroboros.Lib.InterruptController
import Uroboros.Lib.Run

/-!
# The interrupt controllers under `intr.c`

`init_pic` and `pic_eoi` as the bytes that they send out, in order, and the kernel's
interrupts as runs of the controllers, the interrupt flag and the bytes still to be sent.
-/

set_option autoImplicit false

namespace Uroboros.Pic

open Pic8259 ForLoop

/-- `io_out8(port, data)`. -/
abbrev Out := BitVec 16 × U8

def ioPortPic1Command : BitVec 16 := 0x20
def ioPortPic1Data : BitVec 16 := 0x21
def ioPortPic2Command : BitVec 16 := 0xA0
def ioPortPic2Data : BitVec 16 := 0xA1

def picOcw2CmdEoiBase : U8 := 0x60
def picIcw1Base : U8 := 0x10
def picIcw1Icw4 : U8 := 0x01
def picIcw48086 : U8 := 0x01
def picIcw3Master : U8 := 0x04
def picIcw3Slave : U8 := 0x02

def picImrIrq0 : BitVec 16 := 1 <<< 0
def picImrIrq2 : BitVec 16 := 1 <<< 2
def picImrIrq4 : BitVec 16 := 1 <<< 4
def picImrIrq6 : BitVec 16 := 1 <<< 6

def picIrq0 : U8 := 0
def picIrq4 : U8 := 4
def picIrq6 : U8 := 6

def picIntrVecBase : U8 := 0x20

def out (p : Pair) (w : Out) : Pair :=
  if w.1 = ioPortPic1Command then p.writeMaster fun c => c.writeCommand w.2
  else if w.1 = ioPortPic1Data then p.writeMaster fun c => c.writeData w.2
  else if w.1 = ioPortPic2Command then p.writeSlave fun c => c.writeCommand w.2
  else if w.1 = ioPortPic2Data then p.writeSlave fun c => c.writeData w.2
  else p

def outs (p : Pair) (ws : List Out) : Pair := ws.foldl out p

def ioWait : Out := (0x80, 0)

def initPic (imr : BitVec 16) (intrVecBase : U32) : List Out :=
  [(ioPortPic1Command, picIcw1Base ||| picIcw1Icw4),
    (ioPortPic2Command, picIcw1Base ||| picIcw1Icw4),
    ioWait,
    (ioPortPic1Data, intrVecBase.setWidth 8),
    (ioPortPic2Data, (intrVecBase + 8).setWidth 8),
    ioWait,
    (ioPortPic1Data, picIcw3Master),
    (ioPortPic2Data, picIcw3Slave),
    ioWait,
    (ioPortPic1Data, picIcw48086),
    (ioPortPic2Data, picIcw48086),
    ioWait,
    (ioPortPic1Data, (imr &&& 0x00FF).setWidth 8),
    (ioPortPic2Data, ((imr &&& 0xFF00) >>> 8).setWidth 8),
    ioWait]

def picEoi (irq : U8) : List Out :=
  if 8 ≤ irq then
    -- a remainder where the lines below have a sum
    [(ioPortPic2Command, picOcw2CmdEoiBase % 7),
      (ioPortPic1Command, picOcw2CmdEoiBase + picImrIrq2.setWidth 8)]
  else [(ioPortPic1Command, picOcw2CmdEoiBase ||| irq)]

/-- What `int_handler` sends. The gates of the controllers' other vectors stay with
`int_handler_null`, which returns at once. -/
def intHandlerOuts (intrnum : U8) : List Out :=
  if intrnum = picIntrVecBase + picIrq0 then picEoi picIrq0
  else if intrnum = picIntrVecBase + picIrq4 then picEoi picIrq4
  else if intrnum = picIntrVecBase + picIrq6 then picEoi picIrq6
  else []

def mainImr : BitVec 16 := ~~~(picImrIrq0 ||| picImrIrq4 ||| picImrIrq6)

/-- The bytes of `init_pic` or of a handler that have not been sent are in `todo`. -/
structure Machine where
  pics : Pair
  iflag : Bool
  todo : List Out

inductive Event where
  | request (n : Fin 16)
  | withdraw (n : Fin 16)
  | setFlag (b : Bool)
  | accept (vector : U8)
  | out
  deriving DecidableEq

/-- A device raises or drops its line at any time; line 2 is the slave's. The flag stays clear
from the start of `init_pic` to its end, and in a handler until it has sent its end of
interrupt: before it `int_handler` calls nothing that sets the flag. -/
inductive Step : Machine → Event → Machine → Prop where
  | request (m : Machine) (n : Fin 16) : n ≠ 2 →
    Step m (.request n) { m with pics := m.pics.request n }
  | withdraw (m : Machine) (n : Fin 16) : n ≠ 2 →
    Step m (.withdraw n) { m with pics := m.pics.withdraw n }
  | setFlag (m : Machine) (b : Bool) : m.todo = [] → Step m (.setFlag b) { m with iflag := b }
  | accept (m : Machine) : m.todo = [] → m.iflag = true →
    Step m (.accept m.pics.acknowledge.1)
      ⟨m.pics.acknowledge.2, false, intHandlerOuts m.pics.acknowledge.1⟩
  | out (m : Machine) (w : Out) (ws : List Out) : m.todo = w :: ws →
    Step m .out { m with pics := Pic.out m.pics w, todo := ws }

section
variable {p q : Pair}

theorem out_quiet (w : Out) : (out p w).quiet = (out p.quiet w).quiet := by
  unfold out
  split_ifs
  · exact Pair.quiet_writeMaster fun c => c.quiet_writeCommand w.2
  · exact Pair.quiet_writeMaster fun c => c.quiet_writeData w.2
  · exact Pair.quiet_writeSlave fun c => c.quiet_writeCommand w.2
  · exact Pair.quiet_writeSlave fun c => c.quiet_writeData w.2
  · rfl

theorem outs_congr (h : p.quiet = q.quiet) (ws : List Out) :
    (outs p ws).quiet = (outs q ws).quiet := by
  induction ws generalizing p q with
  | nil => exact h
  | cons w ws ih =>
    apply ih
    rw [out_quiet w, h, ← out_quiet w]

theorem out_eoi (p : Pair) (i : Fin 8) :
    out p (ioPortPic1Command, picOcw2CmdEoiBase ||| BitVec.ofNat 8 i) =
      { p with master := p.master.endInterrupt i } := by
  fin_cases i <;> rfl

end

def operational (isr imr : Lines) (base cascade : U8) : Chip :=
  ⟨noLines, isr, imr, base, cascade, .operation, false, true⟩

def initialized (imr : BitVec 16) (intrVecBase : U32) : Pair where
  master := operational noLines (lines ((imr &&& 0x00FF).setWidth 8))
    (intrVecBase.setWidth 8 &&& 0xF8) picIcw3Master
  slave := operational noLines (lines (((imr &&& 0xFF00) >>> 8).setWidth 8))
    ((intrVecBase + 8).setWidth 8 &&& 0xF8) picIcw3Slave

/-- Whatever the controllers were doing, `init_pic` brings them into operation. -/
theorem outs_initPic (p : Pair) (imr : BitVec 16) (intrVecBase : U32) :
    (outs p (initPic imr intrVecBase)).quiet = initialized imr intrVecBase := rfl

abbrev ready : Pair := initialized mainImr (picIntrVecBase.setWidth 32)

section
variable {p : Pair}

theorem master_imr (h : p.quiet = ready) (i : Fin 8) :
    p.master.imr i = false ↔ i = 0 ∨ i = 4 ∨ i = 6 := by
  have himr : p.master.imr = lines 0xAE := congrArg (fun q : Pair => q.master.imr) h
  rw [himr]
  revert i
  decide

theorem master_isr (h : p.quiet = ready) : p.master.isr = noLines :=
  congrArg (fun q : Pair => q.master.isr) h

theorem slave_isr (h : p.quiet = ready) : p.slave.isr = noLines :=
  congrArg (fun q : Pair => q.slave.isr) h

/-- The three lines that are let through are the master's own. -/
theorem cascade_getLsbD (h : p.quiet = ready) {i : Fin 8} (hi : i = 0 ∨ i = 4 ∨ i = 6) :
    p.master.cascade.getLsbD i = false := by
  have hcascade : p.master.cascade = picIcw3Master := congrArg (fun q : Pair => q.master.cascade) h
  rw [hcascade]
  rcases hi with rfl | rfl | rfl <;> rfl

theorem master_vector (h : p.quiet = ready) (i : Fin 8) :
    p.master.vector i = picIntrVecBase + BitVec.ofNat 8 i := by
  have hbase : p.master.base = picIntrVecBase := congrArg (fun q : Pair => q.master.base) h
  rw [Chip.vector, hbase]
  revert i
  decide

theorem acknowledge_cases (h : p.quiet = ready) :
    (∃ i, (i = 0 ∨ i = 4 ∨ i = 6) ∧ p.master.pending = some i ∧
      p.acknowledge = (picIntrVecBase + BitVec.ofNat 8 i, { p with master := p.master.serve i })) ∨
    p.master.pending = none ∧ p.acknowledge = (0x27, p) := by
  unfold Pair.acknowledge
  cases hpending : p.master.pending with
  | none => exact .inr ⟨rfl, Prod.ext (master_vector h 7) rfl⟩
  | some i =>
    have hi := (master_imr h i).mp (Chip.pending_spec hpending).2.1
    refine .inl ⟨i, hi, rfl, ?_⟩
    dsimp only
    rw [cascade_getLsbD h hi, if_neg Bool.false_ne_true, master_vector h]

theorem outs_intHandlerOuts (h : p.quiet = ready) :
    (outs p.acknowledge.2 (intHandlerOuts p.acknowledge.1)).quiet = ready := by
  rcases acknowledge_cases h with ⟨i, hi, -, hack⟩ | ⟨-, hack⟩
  · have hsent : intHandlerOuts (picIntrVecBase + BitVec.ofNat 8 i) =
        [(ioPortPic1Command, picOcw2CmdEoiBase ||| BitVec.ofNat 8 i)] := by
      rcases hi with rfl | rfl | rfl <;> rfl
    rw [hack, hsent, outs, List.foldl_cons, List.foldl_nil, out_eoi, ← h]
    exact congrArg (fun c => (⟨c, p.slave.quiet⟩ : Pair))
      (Chip.quiet_endInterrupt_serve (master_isr h) i)
  · rw [hack]
    exact h

end

def letThrough (i : Fin 8) : Bool := !mainImr.getLsbD i

/-- The vector that is due, of the first latch set. The last line answers when none is. -/
def due (latch : Lines) : U8 :=
  picIntrVecBase + (scan latch).elim 7 fun i => BitVec.ofNat 8 i

def latchStep (latch : Lines) : Event → Option Lines
  | .request n => some fun i => latch i || letThrough i && decide (i.val = n.val)
  | .withdraw n => some fun i => latch i && decide (i.val ≠ n.val)
  | .accept v =>
    if v = due latch then
      some fun i => latch i && decide (v ≠ picIntrVecBase + BitVec.ofNat 8 i)
    else none
  | .setFlag _ => some latch
  | .out => some latch

def LatchStep (latch : Lines) (e : Event) (latch' : Lines) : Prop :=
  latchStep latch e = some latch'

namespace Machine
variable {m m' : Machine} {e : Event}

def latches (m : Machine) : Lines := fun i => letThrough i && m.pics.master.irr i

/-- What is still to be sent leaves the controllers ready. -/
def Inv (m : Machine) : Prop := (outs m.pics m.todo).quiet = ready

/-- Nothing that is still to be sent starts a controller over. -/
def Eois (m : Machine) : Prop :=
  ∀ w ∈ m.todo, w.1 = ioPortPic1Command ∧ w.2.getLsbD 4 = false

theorem Inv.step (h : m.Inv) (step : Step m e m') : m'.Inv := by
  cases step with
  | request n hn => exact (outs_congr (Pair.quiet_request n) m.todo).trans h
  | withdraw n hn => exact (outs_congr (Pair.quiet_withdraw n) m.todo).trans h
  | setFlag b htodo => exact h
  | accept htodo hflag =>
    unfold Inv at h
    rw [htodo] at h
    exact outs_intHandlerOuts h
  | out w ws htodo =>
    unfold Inv at h
    rw [htodo] at h
    exact h

theorem intHandlerOuts_eois (v : U8) :
    ∀ w ∈ intHandlerOuts v, w.1 = ioPortPic1Command ∧ w.2.getLsbD 4 = false := by
  intro w hw
  unfold intHandlerOuts at hw
  split_ifs at hw
  · cases List.mem_singleton.mp hw
    exact ⟨rfl, rfl⟩
  · cases List.mem_singleton.mp hw
    exact ⟨rfl, rfl⟩
  · cases List.mem_singleton.mp hw
    exact ⟨rfl, rfl⟩
  · exact absurd hw List.not_mem_nil

theorem Eois.step (h : m.Eois) (step : Step m e m') : m'.Eois := by
  cases step with
  | request n hn => exact h
  | withdraw n hn => exact h
  | setFlag b htodo => exact h
  | accept htodo hflag => exact intHandlerOuts_eois _
  | out w ws htodo =>
    intro v hv
    apply h v
    rw [htodo]
    exact List.mem_cons_of_mem w hv

theorem ne_two_of_letThrough {i : Fin 8} (h : letThrough i = true) : i ≠ 2 := by
  revert i
  decide

theorem letThrough_iff : ∀ i : Fin 8, letThrough i = true ↔ i = 0 ∨ i = 4 ∨ i = 6 := by
  decide

/-- The latches are what the master is asked for. -/
theorem latches_eq_eligible (h : m.pics.quiet = ready) : m.latches = m.pics.master.eligible := by
  funext i
  rw [Bool.eq_iff_iff, Chip.eligible_iff, master_isr h, master_imr h, ← letThrough_iff, latches,
    Bool.and_eq_true, and_comm]
  exact and_congr_right fun _ => (and_iff_left fun _ _ => rfl).symm

/-- The interrupt that the processor takes is the one due. -/
theorem acknowledge_due (h : m.pics.quiet = ready) : m.pics.acknowledge.1 = due m.latches := by
  rw [due, latches_eq_eligible h, ← Chip.pending]
  rcases acknowledge_cases h with ⟨i, -, hpending, hack⟩ | ⟨hpending, hack⟩
  · rw [hack, hpending, Option.elim_some]
  · rw [hack, hpending, Option.elim_none]
    rfl

theorem vector_ne_iff : ∀ i j : Fin 8,
    picIntrVecBase + BitVec.ofNat 8 i ≠ picIntrVecBase + BitVec.ofNat 8 j ↔ j ≠ i := by
  decide

theorem latches_acknowledge (h : m.pics.quiet = ready) (i : Fin 8) :
    (letThrough i && m.pics.acknowledge.2.master.irr i) =
      (m.latches i && decide (m.pics.acknowledge.1 ≠ picIntrVecBase + BitVec.ofNat 8 i)) := by
  rcases acknowledge_cases h with ⟨k, hk, hpending, hack⟩ | ⟨hpending, hack⟩
  · rw [hack]
    dsimp only
    rw [Chip.irr_serve, latches, Bool.and_assoc, decide_eq_decide.mpr (vector_ne_iff k i)]
  · have hunset : m.latches i = false := by
      rw [latches_eq_eligible h]
      exact scan_eq_none_iff.mp hpending i
    rw [hack, hunset, Bool.false_and]
    exact hunset

/-- The steps of the system are steps of the latches. -/
theorem latchStep_latches (hinv : m.Inv) (heois : m.Eois) (step : Step m e m') :
    LatchStep m.latches e m'.latches := by
  cases step with
  | request n hn =>
    refine congrArg some (funext fun i => ?_)
    unfold latches
    cases hi : letThrough i with
    | false => rfl
    | true => rw [Bool.true_and, Bool.true_and, Bool.true_and,
        Pair.irr_request (ne_two_of_letThrough hi)]
  | withdraw n hn =>
    refine congrArg some (funext fun i => ?_)
    unfold latches
    cases hi : letThrough i with
    | false => rfl
    | true => rw [Bool.true_and, Bool.true_and, Pair.irr_withdraw (ne_two_of_letThrough hi)]
  | setFlag b htodo => rfl
  | accept htodo hflag =>
    have hready : m.pics.quiet = ready := by
      unfold Inv at hinv
      rwa [htodo] at hinv
    unfold LatchStep latchStep
    dsimp only
    rw [if_pos (acknowledge_due hready)]
    exact congrArg some (funext fun i => (latches_acknowledge hready i).symm)
  | out w ws htodo =>
    obtain ⟨hport, hdata⟩ := heois w (htodo ▸ List.mem_cons_self)
    refine congrArg some (funext fun i => ?_)
    have hirr : (Pic.out m.pics w).master.irr = m.pics.master.irr := by
      unfold Pic.out
      rw [if_pos hport]
      exact Chip.writeCommand_irr hdata
    exact congrArg (letThrough i && · i) hirr.symm

end Machine

/-- Once `init_pic` is through, the controllers are three latches to the kernel, in every order of
requests, handlers and settings of the flag: each interrupt is the one due, none is lost or comes
twice, and nothing is left in service when a handler has sent what it sends. -/
theorem initPic_latches {p : Pair} {s t : Machine} {tr₀ tr : List (Machine × Event × Machine)}
    (init : Run Step ⟨p, false, initPic mainImr (picIntrVecBase.setWidth 32)⟩ tr₀ s)
    (hsent : s.todo = []) (h : Run Step s tr t) :
    Run LatchStep s.latches
      (tr.map fun x => (x.1.latches, x.2.1, x.2.2.latches)) t.latches ∧
    (t.todo = [] → t.pics.master.isr = noLines ∧ t.pics.slave.isr = noLines) := by
  have hstart : Machine.Inv ⟨p, false, initPic mainImr (picIntrVecBase.setWidth 32)⟩ :=
    outs_initPic p mainImr _
  have hfree : Run.Guarded (fun _ _ => True) tr₀ := fun _ _ => trivial
  have hinv : s.Inv := init.invariant hstart (fun _ _ _ hi _ step => hi.step step) hfree
  have heois : s.Eois := by
    intro w hw
    rw [hsent] at hw
    exact absurd hw List.not_mem_nil
  have steps : ∀ m e m', m.Inv ∧ m.Eois → Step m e m' →
      (m'.Inv ∧ m'.Eois) ∧ LatchStep m.latches e m'.latches :=
    fun m e m' hm step =>
      ⟨⟨hm.1.step step, hm.2.step step⟩, Machine.latchStep_latches hm.1 hm.2 step⟩
  obtain ⟨⟨hend, -⟩, hrun⟩ := h.refine Machine.latches ⟨hinv, heois⟩ steps
  refine ⟨hrun, ?_⟩
  intro htodo
  unfold Machine.Inv at hend
  rw [htodo] at hend
  exact ⟨master_isr hend, slave_isr hend⟩

theorem exists_run_outs (m : Machine) : ∃ tr, Run Step m tr ⟨outs m.pics m.todo, m.iflag, []⟩ := by
  obtain ⟨pics, iflag, todo⟩ := m
  induction todo generalizing pics with
  | nil => exact ⟨[], .nil _⟩
  | cons w ws ih =>
    obtain ⟨tr, hrun⟩ := ih (out pics w)
    exact ⟨_, hrun.cons (.out ⟨pics, iflag, w :: ws⟩ w ws rfl)⟩

def powerOn : Pair :=
  let chip := ⟨lines 0x12, lines 0x05, lines 0x00, 0x70, 0x01, .icw3, true, false⟩
  ⟨chip, chip⟩

/-- Line 4 is raised before line 0, and taken after it. -/
theorem initPic_latches_two : ∃ (tr₀ tr : List (Machine × Event × Machine)) (s t : Machine),
    Run Step ⟨powerOn, false, initPic mainImr (picIntrVecBase.setWidth 32)⟩ tr₀ s ∧
    tr.map (fun x => x.2.1) = [.request 4, .request 0, .setFlag true, .accept 0x20] ∧
    Run LatchStep s.latches (tr.map fun x => (x.1.latches, x.2.1, x.2.2.latches)) t.latches ∧
    t.pics.master.irr 4 = true := by
  let started : Machine := ⟨outs powerOn (initPic mainImr (picIntrVecBase.setWidth 32)), false, []⟩
  let raised : Pair := (started.pics.request 4).request 0
  obtain ⟨tr₀, hinit⟩ :=
    exists_run_outs ⟨powerOn, false, initPic mainImr (picIntrVecBase.setWidth 32)⟩
  have hrun : Run Step started [] started := .nil _
  have hrun := (hrun.snoc (.request _ 4 (by decide))).snoc (.request _ 0 (by decide))
  have hrun := (hrun.snoc (.setFlag _ true rfl)).snoc (.accept ⟨raised, true, []⟩ rfl rfl)
  have hvector : raised.acknowledge.1 = 0x20 := by decide +kernel
  have hkept : raised.acknowledge.2.master.irr 4 = true := by decide +kernel
  refine ⟨tr₀, _, _, _, hinit, ?_, (initPic_latches hinit rfl hrun).1, hkept⟩
  exact congrArg (fun v => [Event.request 4, .request 0, .setFlag true, .accept v]) hvector

inductive Traffic where
  | request (n : Fin 16)
  | withdraw (n : Fin 16)
  | accept (vector : U8)
  | eoi (irq : U8)

/-- The controllers with any mask: the processor may take an interrupt at any time, and
`pic_eoi` may be called for any line. -/
inductive TrafficStep : Pair → Traffic → Pair → Prop where
  | request (p : Pair) (n : Fin 16) : n ≠ 2 → TrafficStep p (.request n) (p.request n)
  | withdraw (p : Pair) (n : Fin 16) : n ≠ 2 → TrafficStep p (.withdraw n) (p.withdraw n)
  | accept (p : Pair) : TrafficStep p (.accept p.acknowledge.1) p.acknowledge.2
  | eoi (p : Pair) (irq : U8) : TrafficStep p (.eoi irq) (outs p (picEoi irq))

/-- The line of the slave that a vector stands for, when its lines have the vectors from `base`. -/
def slaveLine (base vector : U8) : Option (Fin 8) :=
  if vector &&& 0xF8 = base then some ⟨(vector.extractLsb' 0 3).toNat, by omega⟩ else none

section
variable {p q : Pair} {intrVecBase : U32}

theorem vector_and (x : U8) (i : Fin 8) :
    (x &&& 0xF8 ||| BitVec.ofNat 8 i) &&& 0xF8 = x &&& 0xF8 := by
  have hline : ∀ i : Fin 8, BitVec.ofNat 8 i &&& 0xF8 = 0#8 := by decide
  rw [BitVec.and_or_distrib_right, hline, BitVec.or_zero, BitVec.and_assoc]
  rfl

theorem vector_line (x : U8) (i : Fin 8) :
    ((x &&& 0xF8 ||| BitVec.ofNat 8 i).extractLsb' 0 3).toNat = i.val := by
  have hbase : (0xF8 : U8).extractLsb' 0 3 = 0#3 := rfl
  have hline : ∀ i : Fin 8, ((BitVec.ofNat 8 i).extractLsb' 0 3).toNat = i.val := by decide
  rw [BitVec.extractLsb'_or, BitVec.extractLsb'_and, hbase, BitVec.and_zero, BitVec.zero_or, hline]

structure Wired (intrVecBase : U32) (p : Pair) : Prop where
  masterBase : p.master.base = intrVecBase.setWidth 8 &&& 0xF8
  slaveBase : p.slave.base = (intrVecBase + 8).setWidth 8 &&& 0xF8
  masterCascade : p.master.cascade = picIcw3Master
  inStep : p.InStep

theorem slaveLine_slave (h : Wired intrVecBase p) (i : Fin 8) :
    slaveLine p.slave.base (p.slave.vector i) = some i := by
  unfold slaveLine Chip.vector
  rw [h.slaveBase, if_pos (vector_and _ i)]
  exact congrArg some (Fin.ext (vector_line _ i))

theorem slaveLine_master (h : Wired intrVecBase p) (i : Fin 8) :
    slaveLine p.slave.base (p.master.vector i) = none := by
  have hnext : ∀ x : U8, x &&& 0xF8 ≠ (x + 8) &&& 0xF8 := by decide +kernel
  unfold slaveLine Chip.vector
  rw [h.masterBase, h.slaveBase, vector_and, BitVec.setWidth_add _ _ (by decide)]
  exact if_neg (hnext _)

theorem Wired.of_quiet (h : Wired intrVecBase p) (hquiet : q.quiet = p.quiet)
    (hstep : q.InStep) : Wired intrVecBase q where
  masterBase := (congrArg (fun p : Pair => p.master.base) hquiet).trans h.masterBase
  slaveBase := (congrArg (fun p : Pair => p.slave.base) hquiet).trans h.slaveBase
  masterCascade := (congrArg (fun p : Pair => p.master.cascade) hquiet).trans h.masterCascade
  inStep := hstep

theorem wired_initPic (p : Pair) (imr : BitVec 16) (intrVecBase : U32) :
    Wired intrVecBase (outs p (initPic imr intrVecBase)) where
  masterBase := rfl
  slaveBase := rfl
  masterCascade := rfl
  inStep := Pair.inStep_cascade

/-- What the processor takes from the slave is a line that nothing in service there holds back,
and is in service from then on. -/
theorem acknowledge_slave (h : Wired intrVecBase p) :
    Wired intrVecBase p.acknowledge.2 ∧
    (slaveLine p.slave.base p.acknowledge.1 = none ∧ p.acknowledge.2.slave = p.slave ∨
      ∃ i, slaveLine p.slave.base p.acknowledge.1 = some i ∧ (∀ j ≤ i, p.slave.isr j = false) ∧
        p.acknowledge.2.slave = p.slave.serve i) := by
  have hline : ∀ i : Fin 8, picIcw3Master.getLsbD i = decide (i = 2) := by decide
  unfold Pair.acknowledge
  cases hmaster : p.master.pending with
  | none => exact ⟨h, .inl ⟨slaveLine_master h 7, rfl⟩⟩
  | some i =>
    dsimp only
    rw [h.masterCascade, hline]
    by_cases hi : i = 2
    · subst hi
      have hsome : p.slave.pending.isSome = true :=
        h.inStep.symm.trans (Chip.pending_spec hmaster).1
      obtain ⟨k, hk⟩ := Option.isSome_iff_exists.mp hsome
      have hack : p.slave.acknowledge = (p.slave.vector k, p.slave.serve k) := by
        rw [Chip.acknowledge, hk, Option.elim_some]
      rw [decide_eq_true rfl, if_pos rfl, hack]
      refine ⟨?_, .inr ⟨k, slaveLine_slave h k, (Chip.pending_spec hk).2.2, rfl⟩⟩
      have hquiet := Pair.quiet_cascade (p := ⟨p.master.serve 2, p.slave.serve k⟩)
      exact ⟨(congrArg (fun p : Pair => p.master.base) hquiet).trans h.masterBase, h.slaveBase,
        (congrArg (fun p : Pair => p.master.cascade) hquiet).trans h.masterCascade,
        Pair.inStep_cascade⟩
    · rw [decide_eq_false hi, if_neg Bool.false_ne_true]
      refine ⟨⟨h.masterBase, h.slaveBase, h.masterCascade, ?_⟩, .inl ⟨slaveLine_master h i, rfl⟩⟩
      have hirr : (p.master.serve i).irr 2 = p.master.irr 2 := by
        rw [Chip.irr_serve, decide_eq_true (Ne.symm hi), Bool.and_true]
      exact hirr.trans h.inStep

/-- `pic_eoi` leaves the slave as it is. -/
theorem outs_picEoi (h : Wired intrVecBase p) (irq : U8) :
    Wired intrVecBase (outs p (picEoi irq)) ∧ (outs p (picEoi irq)).slave = p.slave := by
  unfold picEoi
  split
  · have heoi : outs p [(ioPortPic2Command, picOcw2CmdEoiBase % 7),
        (ioPortPic1Command, picOcw2CmdEoiBase + picImrIrq2.setWidth 8)] =
        { p.cascade with master := p.cascade.master.endInterrupt 4 } := rfl
    rw [heoi]
    have hcascade := h.of_quiet Pair.quiet_cascade Pair.inStep_cascade
    exact ⟨⟨hcascade.masterBase, hcascade.slaveBase, hcascade.masterCascade, hcascade.inStep⟩, rfl⟩
  · rename_i hirq
    have hlt : irq.toNat < 8 := by bv_omega
    have heq : irq = BitVec.ofNat 8 (⟨irq.toNat, hlt⟩ : Fin 8) := by
      rw [BitVec.ofNat_toNat, BitVec.setWidth_eq]
    rw [heq, outs, List.foldl_cons, List.foldl_nil, out_eoi]
    exact ⟨⟨h.masterBase, h.slaveBase, h.masterCascade, h.inStep⟩, rfl⟩

theorem TrafficStep.wired {e : Traffic} (h : Wired intrVecBase p) (step : TrafficStep p e q) :
    Wired intrVecBase q := by
  cases step with
  | request n hn => exact h.of_quiet (Pair.quiet_request n) (h.inStep.request hn)
  | withdraw n hn => exact h.of_quiet (Pair.quiet_withdraw n) (h.inStep.withdraw hn)
  | accept => exact (acknowledge_slave h).1
  | eoi irq => exact (outs_picEoi h irq).1

def delivered (base : U8) : Traffic → Option (Fin 8)
  | .accept v => slaveLine base v
  | _ => none

theorem TrafficStep.slave_isr {e : Traffic} (h : Wired intrVecBase p) (step : TrafficStep p e q) :
    delivered p.slave.base e = none ∧ q.slave.isr = p.slave.isr ∨
    ∃ i, delivered p.slave.base e = some i ∧ (∀ j ≤ i, p.slave.isr j = false) ∧
      q.slave.isr = Function.update p.slave.isr i true := by
  cases step with
  | request n hn =>
    have hisr := congrArg (fun p : Pair => p.slave.isr) (@Pair.quiet_request p n)
    exact .inl ⟨rfl, hisr⟩
  | withdraw n hn =>
    have hisr := congrArg (fun p : Pair => p.slave.isr) (@Pair.quiet_withdraw p n)
    exact .inl ⟨rfl, hisr⟩
  | accept =>
    rcases (acknowledge_slave h).2 with ⟨hnone, hslave⟩ | ⟨i, hsome, hfree, hslave⟩
    · exact .inl ⟨hnone, congrArg Chip.isr hslave⟩
    · exact .inr ⟨i, hsome, hfree, congrArg Chip.isr hslave⟩
  | eoi irq => exact .inl ⟨rfl, congrArg Chip.isr (outs_picEoi h irq).2⟩

/-- After `init_pic` with any mask, the lines of the slave are delivered in falling order: a line
that the processor took once blocks itself and all lines after it for good. -/
theorem picEoi_slave_blocks {p t : Pair} {imr : BitVec 16} {intrVecBase : U32}
    {tr : List (Pair × Traffic × Pair)}
    (h : Run TrafficStep (outs p (initPic imr intrVecBase)) tr t) :
    (tr.filterMap fun x => delivered ((intrVecBase + 8).setWidth 8 &&& 0xF8) x.2.1).Pairwise
      (· > ·) := by
  have hrun : Wired intrVecBase t ∧
      (∀ i ∈ tr.filterMap fun x => delivered ((intrVecBase + 8).setWidth 8 &&& 0xF8) x.2.1,
        t.slave.isr i = true) ∧
      (tr.filterMap fun x => delivered ((intrVecBase + 8).setWidth 8 &&& 0xF8) x.2.1).Pairwise
        (· > ·) := by
    induction h with
    | nil => exact ⟨wired_initPic p imr intrVecBase, fun i hi => absurd hi List.not_mem_nil, .nil⟩
    | snoc run step ih =>
      obtain ⟨hwired, hserved, hfalling⟩ := ih
      refine ⟨step.wired hwired, ?_⟩
      rw [List.filterMap_append, List.filterMap_cons, List.filterMap_nil]
      rcases hwired.slaveBase ▸ step.slave_isr hwired with ⟨hnone, hisr⟩ | ⟨i, hsome, hfree, hisr⟩
      · rw [hnone, List.append_nil, hisr]
        exact ⟨hserved, hfalling⟩
      · rw [hsome, hisr]
        constructor
        · intro j hj
          rcases List.mem_append.mp hj with hj | hj
          · by_cases heq : j = i
            · rw [heq, Function.update_self]
            · rw [Function.update_of_ne heq]
              exact hserved j hj
          · rw [List.mem_singleton.mp hj, Function.update_self]
        · apply List.pairwise_append.mpr
          refine ⟨hfalling, List.pairwise_singleton _ i, ?_⟩
          intro j hj k hk
          rw [List.mem_singleton.mp hk]
          by_contra hle
          exact Bool.noConfusion ((hserved j hj).symm.trans (hfree j (not_lt.mp hle)))
  exact hrun.2.2

end

/-- Line 12, and line 9 once line 2 of the master has been ended beside it. -/
theorem picEoi_slave_blocks_two : ∃ (tr : List (Pair × Traffic × Pair)) (t : Pair),
    Run TrafficStep (outs powerOn (initPic 0 0x20)) tr t ∧
    (tr.filterMap fun x => delivered 0x28 x.2.1) = [4, 1] ∧
    (tr.filterMap fun x => delivered 0x28 x.2.1).Pairwise (· > ·) := by
  let p₁ := (outs powerOn (initPic 0 0x20)).request 12
  let p₂ := (outs (outs p₁.acknowledge.2 (picEoi 12)) (picEoi 2)).request 9
  have hrun : Run TrafficStep (outs powerOn (initPic 0 0x20)) [] _ := .nil _
  have hrun := (hrun.snoc (.request _ 12 (by decide))).snoc (.accept p₁)
  have hrun := ((hrun.snoc (.eoi _ 12)).snoc (.eoi _ 2)).snoc (.request _ 9 (by decide))
  have hrun := (hrun.snoc (.accept p₂)).snoc (.eoi _ 9)
  have hfirst : delivered 0x28 (.accept p₁.acknowledge.1) = some 4 := by decide +kernel
  have hsecond : delivered 0x28 (.accept p₂.acknowledge.1) = some 1 := by decide +kernel
  refine ⟨_, _, hrun, ?_, picEoi_slave_blocks hrun⟩
  exact congrArg₂ (fun i j : Option (Fin 8) => [none, i, none, none, none, j, none].filterMap id)
    hfirst hsecond

end Uroboros.Pic
