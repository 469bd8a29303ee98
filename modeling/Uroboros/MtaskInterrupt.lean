import Uroboros.Mtask

/-!
# Processes under the timer interrupt

The functions of `mtask.c` cut into statements, between which a timer interrupt
is taken whenever the interrupt flag is set. `context_switch` keeps the flag;
the return from an interrupt sets it again, since it was set when the interrupt
was taken. `proc->context` says where a switch to the process goes on.
-/

set_option autoImplicit false

namespace Uroboros

/-- The next statement. `saved` is the local `iflag`, `p` the `Process *` at hand. -/
inductive Pc where
  /-- Code of `Main` or of a task, outside the functions below. -/
  | body
  /-- The same, with the result of `proc_alloc` not yet initialised. -/
  | allocated (p : Slot)
  | exitCli (saved : Bool)
  | exitStatus (saved : Bool)
  | exitKvfree (saved : Bool)
  | exitRestore (saved : Bool)
  | exitSwitch
  /-- Behind the `context_switch` of `ktask_exit`. -/
  | exited
  | killCli (p : Slot) (saved : Bool)
  | killTest (p : Slot) (saved : Bool)
  | killCompare (p : Slot) (saved : Bool)
  | killStatus (p : Slot) (saved : Bool)
  | killKvfree (p : Slot) (saved : Bool)
  | killRestore (saved : Bool)
  | allocCli (saved : Bool)
  | allocScan (saved : Bool)
  | allocRestore (p : Slot) (saved : Bool)
  | kinitCli (p : Slot) (saved : Bool)
  | kinitFill (p : Slot) (saved : Bool)
  | kinitRestore (saved : Bool)
  | uinitFill (p : Slot)
  | uinitStatus (p : Slot)
  | schedTest (i : Slot)
  | schedProc (i : Slot)
  | schedStatus (i : Slot)
  | schedSwitch (i : Slot)
  deriving DecidableEq

/-- Where a switch to a process goes on; `iflag` is `none` where no `iret` follows. -/
structure Context where
  mode : Mode
  pc : Pc
  iflag : Option Bool

/-- Since `ktask_exit` freed the slot: it has not been returned by `proc_alloc`, it has, or it has
been initialised after that (or never exited). -/
inductive Phase where
  | exited | returned | live
  deriving DecidableEq

structure Machine where
  cpu : Cpu
  context : Slot → Context
  mode : Mode
  pc : Pc
  iflag : Bool
  phase : Slot → Phase

/-- What the code outside `mtask.c` does next. -/
inductive Call where
  | ktaskExit
  | ktaskKill (p : Slot)
  | procAlloc
  | ktaskInit
  | utaskInit
  | setIntFlag (iflag : Bool)
  | startMtask

inductive MachineEvent where
  | timer
  | call (c : Call)
  | statement

namespace Machine

def goto (s : Machine) (pc : Pc) : Machine := { s with pc }

def setPhase (s : Machine) (p : Slot) (phase : Phase) : Machine :=
  { s with phase := Function.update s.phase p phase }

def setStatus (s : Machine) (p : Slot) (status : ProcessStatus) : Machine :=
  { s with cpu := s.cpu.setStatus p status }

/-- The second half of `context_switch`. -/
def resume (s : Machine) (p : Slot) : Machine :=
  let c := s.context p
  { s with mode := c.mode, pc := c.pc, iflag := c.iflag.getD s.iflag }

/-- `context_switch(&old->context, new->context)`, to go on at `pc`. -/
def contextSwitch (s : Machine) (old new : Slot) (pc : Pc) (iflag : Option Bool) : Machine :=
  let s := { s with context := Function.update s.context old { mode := s.mode, pc, iflag } }
  s.resume new

/-- `int_handler` with a byte in `sys->task_timer`: the interrupt gate clears the flag, and
`sched_handler` runs. -/
def timer (s : Machine) : Option Machine :=
  if s.iflag then
    s.cpu.proc.map fun p =>
      let s := { s with iflag := false }
      let s := s.setStatus p .runnable
      s.contextSwitch p s.cpu.schedProc s.pc (some true)
  else none

/-- A switch to a new process goes to `all_interrupt_ret`, with the flag set in its frame. -/
def entryContext : Context := ⟨.task, .body, some true⟩

/-- The first part of `ktask_init` and `utask_init`: the process will start in its task. -/
def fillProcess (s : Machine) (p : Slot) : Machine :=
  { s with context := Function.update s.context p entryContext }

def setRunnable (s : Machine) (p : Slot) : Machine :=
  let s := s.setStatus p .runnable
  if s.phase p = .returned then s.setPhase p .live else s

def callStep (s : Machine) : Call → Option Machine
  | .ktaskExit =>
    match s.mode, s.pc with
    | .task, .body => some (s.goto (.exitCli s.iflag))
    | _, _ => none
  | .ktaskKill p =>
    match s.mode, s.pc with
    | .task, .body => some (s.goto (.killCli p s.iflag))
    | _, _ => none
  | .procAlloc =>
    match s.pc with
    | .body => some (s.goto (.allocCli s.iflag))
    | _ => none
  | .ktaskInit =>
    match s.pc with
    | .allocated p => some (s.goto (.kinitCli p s.iflag))
    | _ => none
  | .utaskInit =>
    match s.pc with
    | .allocated p => some (s.goto (.uinitFill p))
    | _ => none
  | .setIntFlag iflag =>
    match s.mode, s.pc with
    | .task, .body => some { s with iflag }
    | _, _ => none
  | .startMtask =>
    match s.mode, s.pc with
    | .main, .body => some (s.resume s.cpu.schedProc)
    | _, _ => none

def statement (s : Machine) : Option Machine :=
  match s.pc with
  | .body => none
  | .allocated _ => none
  | .exited => none
  | .exitCli saved => some { s.goto (.exitStatus saved) with iflag := false }
  | .exitStatus saved => s.cpu.proc.map fun p =>
      (s.setStatus p .noalloc).goto (.exitKvfree saved)
  | .exitKvfree saved => s.cpu.proc.map fun p =>
      (s.setPhase p .exited).goto (.exitRestore saved)
  | .exitRestore saved => some { s.goto .exitSwitch with iflag := saved }
  | .exitSwitch => s.cpu.proc.map fun p => s.contextSwitch p s.cpu.schedProc .exited none
  | .killCli p saved => some { s.goto (.killTest p saved) with iflag := false }
  | .killTest p saved =>
    if s.cpu.status p ≠ .running ∧ s.cpu.status p ≠ .runnable then
      some (s.goto (.killRestore saved))
    else some (s.goto (.killCompare p saved))
  | .killCompare p saved =>
    if s.cpu.proc = some p then some (s.goto (.exitCli s.iflag))
    else some (s.goto (.killStatus p saved))
  | .killStatus p saved => some ((s.setStatus p .noalloc).goto (.killKvfree p saved))
  | .killKvfree _ saved => some (s.goto (.killRestore saved))
  | .killRestore saved => some { s.goto .body with iflag := saved }
  | .allocCli saved => some { s.goto (.allocScan saved) with iflag := false }
  | .allocScan saved =>
    let (p, cpu) := s.cpu.procAlloc
    let s := { s with cpu }
    let s := if s.phase p = .exited then s.setPhase p .returned else s
    some (s.goto (.allocRestore p saved))
  | .allocRestore p saved => some { s.goto (.allocated p) with iflag := saved }
  | .kinitCli p saved => some { s.goto (.kinitFill p saved) with iflag := false }
  | .kinitFill p saved => some (((s.fillProcess p).setRunnable p).goto (.kinitRestore saved))
  | .kinitRestore saved => some { s.goto .body with iflag := saved }
  | .uinitFill p => some ((s.fillProcess p).goto (.uinitStatus p))
  | .uinitStatus p => some ((s.setRunnable p).goto .body)
  | .schedTest i =>
    if s.cpu.Selectable i then some (s.goto (.schedProc i)) else some (s.goto (.schedTest (i + 1)))
  | .schedProc i => some ({ s with cpu := { s.cpu with proc := some i } }.goto (.schedStatus i))
  | .schedStatus i => some ((s.setStatus i .running).goto (.schedSwitch i))
  | .schedSwitch i => some (s.contextSwitch s.cpu.schedProc i (.schedTest (i + 1)) none)

def step (s : Machine) : MachineEvent → Option Machine
  | .timer => s.timer
  | .call c => s.callStep c
  | .statement => s.statement

def Step (s : Machine) (e : MachineEvent) (s' : Machine) : Prop := s.step e = some s'

/-- `Main` after `init_mtask`, with the interrupt flag clear. `cpu` and `context` are what the
block of `sys->cpu` held; no slot has exited. -/
def start (cpu : Cpu) (context : Slot → Context) : Machine where
  cpu := { cpu with schedProc := 0, status := fun i => if i = 0 then .nosched else .noalloc }
  context := Function.update context 0 ⟨.scheduler, .schedTest 0, some false⟩
  mode := .main
  pc := .body
  iflag := false
  phase := fun _ => .live

/-- A slot that exited stays off the processor until it is returned and initialised again. -/
def NoResurrection (s : Machine) : Prop :=
  ∀ p, s.phase p ≠ .live → s.cpu.status p ≠ .runnable ∧ s.cpu.status p ≠ .running

@[simp] theorem setRunnable_cpu (s : Machine) (p : Slot) :
    (s.setRunnable p).cpu = s.cpu.setStatus p .runnable := by
  simp only [setRunnable]
  split <;> rfl

@[simp] theorem setRunnable_iflag (s : Machine) (p : Slot) :
    (s.setRunnable p).iflag = s.iflag := by
  simp only [setRunnable]
  split <;> rfl

end Machine

end Uroboros
