import Uroboros.Lib.Segment
import Uroboros.Queue
import Uroboros.VMalloc

/-!
# Timers

`timer.c` on typed records: a `Timer *` is the address of its block, and what a
`Queue8 *` points to is a queue. `timer_alloc` and `timer_free` run with the
interrupts off; `timer_reset` does not, and is cut into its statements.
-/

set_option autoImplicit false

namespace Uroboros

def timerModeContinues : U8 := 0
def timerModeOneshot : U8 := 1

def timerQueueSize : U32 := 32

-- `sizeof` of the records that `kvmalloc` makes room for.
def sizeofTimerCtl : U32 := 4
def sizeofTimer : U32 := 24
def sizeofQueue8 : U32 := 24

structure Timer where
  next : Option U32
  prev : Option U32
  q : U32
  interval : U32
  count : U32
  mode : U8
  deriving DecidableEq

/-- `head` is `sys->timerctl->t`. -/
structure Timers where
  timer : U32 → Timer
  queue : U32 → Queue8
  head : U32

namespace Timers

def modify (s : Timers) (t : U32) (f : Timer → Timer) : Timers :=
  { s with timer := Function.update s.timer t (f (s.timer t)) }

def setQueue (s : Timers) (q : U32) (queue : Queue8) : Timers :=
  { s with queue := Function.update s.queue q queue }

def setNext (s : Timers) (t : U32) (next : Option U32) : Timers :=
  s.modify t fun r => { r with next := next }

def setPrev (s : Timers) (t : U32) (prev : Option U32) : Timers :=
  s.modify t fun r => { r with prev := prev }

def queueOf (s : Timers) (t : U32) : Queue8 := s.queue (s.timer t).q

/-- The test with which `timer_tick` returns. -/
def Blocked (s : Timers) (t : U32) : Prop :=
  (s.timer t).mode = timerModeOneshot ∧ ¬ q8Empty (s.queueOf t)

instance (s : Timers) (t : U32) : Decidable (s.Blocked t) := inferInstanceAs (Decidable (_ ∧ _))

def countDown (s : Timers) (t : U32) : Timers :=
  let s := s.modify t fun r => { r with count := r.count - 1 }
  if (s.timer t).count = 0 then
    let s := s.setQueue (s.timer t).q (q8In (s.queueOf t) 1)
    s.modify t fun r => { r with count := r.interval }
  else s

def restart (s : Timers) (t : U32) : Timers := s.modify t fun r => { r with count := r.interval }

/-- The loop of `timer_tick` from `t` on; `none` when `fuel` passes do not end it. -/
def tickFrom : Nat → Timers → Option U32 → Option Timers
  | _, s, none => some s
  | 0, _, some _ => none
  | fuel + 1, s, some t =>
    if (s.timer t).interval = 0 then tickFrom fuel s (s.timer t).next
    else if s.Blocked t then some (s.restart t)
    else
      let s := s.countDown t
      tickFrom fuel s (s.timer t).next

def timerTick (s : Timers) (fuel : Nat) : Option Timers := tickFrom fuel s (some s.head)

/-- The timer branch of `int_handler`; the number is that of its calls of `sched_handler`. -/
def timerInterrupt (s : Timers) (taskTimer : U32) (fuel : Nat) : Option (Nat × Timers) := do
  let s ← s.timerTick fuel
  if q8Empty (s.queue taskTimer) then return (0, s)
  return (1, s.setQueue taskTimer (q8De (s.queue taskTimer)).2)

/-- `q8_make`; the buffer follows the record and holds `bytes` behind the part that is cleared. -/
def q8Make (s : Timers) (fuel : Nat) (k : Kernel) (size : U32) (defaultValue : U8)
    (bytes : Nat → U8) : Option (U32 × Kernel × Timers) := do
  let (mem, k) ← (k.kvmalloc fuel (sizeofQueue8 + size + 1)).toOption
  let buf := fun i => if i < size.toNat then 0 else bytes i
  return (mem, k, s.setQueue mem (q8Init buf (size + 1) defaultValue))

/-- The loop of `timer_alloc` that looks for the last timer. -/
def lastFrom (s : Timers) : Nat → U32 → Option U32
  | 0, _ => none
  | fuel + 1, t =>
    match (s.timer t).next with
    | none => some t
    | some next => lastFrom s fuel next

/-- Also returns `sys->timerctl`. -/
def timerInit (s : Timers) (fuel : Nat) (k : Kernel) : Option (U32 × Kernel × Timers) := do
  let (timerctl, k) ← (k.kvmalloc fuel sizeofTimerCtl).toOption
  let (t, k) ← (k.kvmalloc fuel sizeofTimer).toOption
  let s := { s with head := t }
  return (timerctl, k, s.modify t fun _ => ⟨none, none, 0, 0, 0, 0⟩)

def timerAlloc (s : Timers) (fuel : Nat) (k : Kernel) (q interval : U32) (mode : U8) :
    Option (U32 × Kernel × Timers) := do
  let t ← s.lastFrom fuel s.head
  let (newTimer, k) ← (k.kvmalloc fuel sizeofTimer).toOption
  let s := s.modify newTimer fun _ => ⟨none, some t, q, interval, interval, mode⟩
  return (newTimer, k, s.setNext t (some newTimer))

/-- The two links that `timer_free` turns; `none` is a store through a `NULL` `prev`. -/
def unlink (s : Timers) (t : U32) : Option Timers := do
  match (s.timer t).next with
  | none =>
    let prev ← (s.timer t).prev
    return s.setNext prev (s.timer t).next
  | some _ =>
    let prev ← (s.timer t).prev
    let s := s.setNext prev (s.timer t).next
    let next ← (s.timer t).next
    return s.setPrev next (s.timer t).prev

def timerFree (s : Timers) (fuel : Nat) (k : Kernel) (t : U32) : Option (Kernel × Timers) := do
  let s ← s.unlink t
  let k ← (k.kvfree fuel t).toOption
  return (k, s)

/-- How far a call of `timer_reset` has come, with its local `interval`. -/
inductive Reset where
  /-- `t->interval` is 0. -/
  | zeroed (interval : U32)
  /-- At the test of the loop. -/
  | draining (interval : U32)
  deriving DecidableEq

/-- The next statement of `timer_reset`; `none` is before and after the call. -/
def resetNext (s : Timers) (t : U32) : Option Reset → Option Reset × Timers
  | none => (some (.zeroed (s.timer t).interval), s.modify t fun r => { r with interval := 0 })
  | some (.zeroed interval) =>
    (some (.draining interval), s.modify t fun r => { r with count := interval })
  | some (.draining interval) =>
    if q8Empty (s.queueOf t) then (none, s.modify t fun r => { r with interval := interval })
    else (some (.draining interval), s.setQueue (s.timer t).q (q8De (s.queueOf t)).2)

end Timers

end Uroboros
