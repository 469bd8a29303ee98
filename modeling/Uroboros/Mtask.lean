import Mathlib.Data.Finset.Basic
import Uroboros.Config
import Uroboros.Lib.ForLoop
import Uroboros.Lib.Run

/-!
# Processes

The process table of `mtask.c`, and its functions as operations that nothing
interrupts. A `Process *` that points into the table is a slot. Of a `Process`
the model keeps `status` and `stack`; which context runs is `mode`.
-/

set_option autoImplicit false

namespace Uroboros

open ForLoop

def processCount : Nat := 16

instance : NeZero processCount := ⟨Nat.succ_ne_zero 15⟩

abbrev Slot := Fin processCount

inductive ProcessStatus where
  | noalloc | init | runnable | running | nosched | exit
  deriving DecidableEq

/-- `proc` is `none` when `cpu->proc` points to no slot. -/
structure Cpu where
  proc : Option Slot
  schedProc : Slot
  status : Slot → ProcessStatus
  stack : Slot → U32

namespace Cpu

def setStatus (cpu : Cpu) (p : Slot) (status : ProcessStatus) : Cpu :=
  { cpu with status := Function.update cpu.status p status }

/-- The first free slot; when there is none the loop leaves `proc` at the last slot. -/
def procAlloc (cpu : Cpu) : Slot × Cpu :=
  match scan fun i => cpu.status i == .noalloc with
  | some i => (i, cpu.setStatus i .init)
  | none => (Fin.last 15, cpu)

/-- The test of `sched` for slot `i`. -/
def Selectable (cpu : Cpu) (i : Slot) : Prop := cpu.status i = .runnable ∧ cpu.proc ≠ some i

instance (cpu : Cpu) (i : Slot) : Decidable (cpu.Selectable i) :=
  inferInstanceAs (Decidable (_ ∧ _))

@[simp] theorem setStatus_status (cpu : Cpu) (p i : Slot) (status : ProcessStatus) :
    (cpu.setStatus p status).status i = if i = p then status else cpu.status i := by
  simp only [setStatus, Function.update_apply]

@[simp] theorem setStatus_proc (cpu : Cpu) (p : Slot) (status : ProcessStatus) :
    (cpu.setStatus p status).proc = cpu.proc := rfl

@[simp] theorem setStatus_schedProc (cpu : Cpu) (p : Slot) (status : ProcessStatus) :
    (cpu.setStatus p status).schedProc = cpu.schedProc := rfl

@[simp] theorem setStatus_stack (cpu : Cpu) (p : Slot) (status : ProcessStatus) :
    (cpu.setStatus p status).stack = cpu.stack := rfl

theorem ne_of_status {cpu : Cpu} {p q : Slot} {t u : ProcessStatus} (hp : cpu.status p = t)
    (hq : cpu.status q = u) (htu : t ≠ u) : p ≠ q := by
  intro heq
  rw [heq, hq] at hp
  exact htu hp.symm

theorem of_setStatus {cpu : Cpu} {p i : Slot} {t u : ProcessStatus}
    (hi : (cpu.setStatus p t).status i = u) (htu : u ≠ t) : i ≠ p ∧ cpu.status i = u := by
  rw [setStatus_status] at hi
  split at hi
  · exact absurd hi.symm htu
  · exact ⟨‹_›, hi⟩

theorem procAlloc_cases {cpu : Cpu} (h : ∃ i, cpu.status i = .noalloc) :
    ∃ p, cpu.status p = .noalloc ∧ cpu.procAlloc = (p, cpu.setStatus p .init) := by
  unfold procAlloc
  cases hscan : scan fun i => cpu.status i == .noalloc with
  | none =>
    obtain ⟨i, hi⟩ := h
    have hfalse := scan_eq_none_iff.mp hscan i
    simp [hi] at hfalse
  | some p =>
    have hp := (scan_eq_some_iff.mp hscan).1
    exact ⟨p, by simpa using hp, rfl⟩

end Cpu

inductive Mode where
  | main | scheduler | task
  deriving DecidableEq

/-- `cursor` is the index of the loop in `sched`. `allocated` are the stack blocks that `kvmalloc`
returned and `kvfree` did not take back; `doubleFree` records a `kvfree` of another address.
`pending` marks the slots that `proc_alloc` returned and that are not initialised yet. -/
structure Multitask where
  cpu : Cpu
  mode : Mode
  cursor : Slot
  allocated : Finset U32
  doubleFree : Bool
  pending : Slot → Bool

inductive MtaskOp where
  | procAlloc
  /-- `kvmalloc` returns `stack`. -/
  | ktaskInit (proc : Slot) (stack : U32)
  | utaskInit (proc : Slot) (stack : U32)
  | startMtask
  | schedPass
  | schedHandler
  | ktaskExit
  | ktaskKill (proc : Slot)

namespace Multitask

def setStatus (s : Multitask) (p : Slot) (status : ProcessStatus) : Multitask :=
  { s with cpu := s.cpu.setStatus p status }

def kvfree (s : Multitask) (addr : U32) : Multitask :=
  { s with
    allocated := s.allocated.erase addr
    doubleFree := s.doubleFree || decide (addr ∉ s.allocated) }

def procAlloc (s : Multitask) : Slot × Multitask :=
  let (p, cpu) := s.cpu.procAlloc
  (p, { s with cpu, pending := Function.update s.pending p true })

/-- What `ktask_init` and `utask_init` have in common: the stack and the status. -/
def taskInit (s : Multitask) (p : Slot) (stack : U32) : Multitask :=
  let s := { s with
    cpu := { s.cpu with stack := Function.update s.cpu.stack p stack }
    allocated := insert stack s.allocated
    pending := Function.update s.pending p false }
  s.setStatus p .runnable

def ktaskInit (s : Multitask) (p : Slot) (stack : U32) : Multitask := s.taskInit p stack

def utaskInit (s : Multitask) (p : Slot) (stack : U32) : Multitask := s.taskInit p stack

def initSchedProc (s : Multitask) (stack : U32) : Multitask :=
  let (p, s) := s.procAlloc
  let s := s.ktaskInit p stack
  let s := s.setStatus p .nosched
  { s with cpu := { s.cpu with schedProc := p } }

/-- `cpu` is what the block held that `kvmalloc` returned for `sys->cpu`. -/
def initMtask (cpu : Cpu) (stack : U32) : Multitask :=
  let cpu := { cpu with status := fun _ => .noalloc }
  let s : Multitask := {
    cpu
    mode := .main
    cursor := 0
    allocated := ∅
    doubleFree := false
    pending := fun _ => false }
  s.initSchedProc stack

/-- One pass of the loop in `sched`; the next one, after a switch back too, takes the next slot. -/
def schedPass (s : Multitask) : Multitask :=
  let i := s.cursor
  let s := { s with cursor := i + 1 }
  if s.cpu.Selectable i then
    let s := { s with cpu := { s.cpu with proc := some i } }
    { s.setStatus i .running with mode := .task }
  else s

def schedHandler (s : Multitask) : Option Multitask :=
  s.cpu.proc.map fun p => { s.setStatus p .runnable with mode := .scheduler }

def ktaskExit (s : Multitask) : Option Multitask :=
  s.cpu.proc.map fun p =>
    let s := s.setStatus p .noalloc
    let s := s.kvfree (s.cpu.stack p)
    { s with mode := .scheduler }

def ktaskKill (s : Multitask) (p : Slot) : Option Multitask :=
  if s.cpu.status p ≠ .running ∧ s.cpu.status p ≠ .runnable then some s
  else if s.cpu.proc = some p then s.ktaskExit
  else
    let s := s.setStatus p .noalloc
    some (s.kvfree (s.cpu.stack p))

/-- `Main` and the tasks call the functions; `proc_alloc` is called when a slot is free, and the slot
it returns is initialised. `kvmalloc` may return any block. -/
def step (s : Multitask) : MtaskOp → Option Multitask
  | .procAlloc =>
    if s.mode ≠ .scheduler ∧ ∃ i, s.cpu.status i = .noalloc then some s.procAlloc.2 else none
  | .ktaskInit p stack =>
    if s.mode ≠ .scheduler ∧ s.pending p then some (s.ktaskInit p stack) else none
  | .utaskInit p stack =>
    if s.mode ≠ .scheduler ∧ s.pending p then some (s.utaskInit p stack) else none
  | .startMtask => if s.mode = .main then some { s with mode := .scheduler } else none
  | .schedPass => if s.mode = .scheduler then some s.schedPass else none
  | .schedHandler => if s.mode = .task then s.schedHandler else none
  | .ktaskExit => if s.mode = .task then s.ktaskExit else none
  | .ktaskKill p => if s.mode ≠ .scheduler then s.ktaskKill p else none

/-- `kvmalloc` returns a block that is not in use. -/
def FreshBlock (s : Multitask) : MtaskOp → Prop
  | .ktaskInit _ stack => stack ∉ s.allocated
  | .utaskInit _ stack => stack ∉ s.allocated
  | _ => True

instance (s : Multitask) : ∀ op, Decidable (s.FreshBlock op)
  | .ktaskInit _ stack => inferInstanceAs (Decidable (stack ∉ s.allocated))
  | .utaskInit _ stack => inferInstanceAs (Decidable (stack ∉ s.allocated))
  | .procAlloc | .startMtask | .schedPass | .schedHandler | .ktaskExit | .ktaskKill _ =>
    isTrue trivial

def Step (s : Multitask) (op : MtaskOp) (s' : Multitask) : Prop := s.step op = some s'

end Multitask

end Uroboros
