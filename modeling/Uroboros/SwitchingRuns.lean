import Uroboros.IntrEntry
import Uroboros.Switching

/-!
# Runs of the processes

A process that hands over goes on behind its call when its turn comes again, one that
the timer interrupted goes on as if nothing had happened, and a new one starts as
`ktask_init` was told, whatever the others do in between.
-/

set_option autoImplicit false

namespace Uroboros

namespace Switching

open ByteMemory X86 MachineState Coroutines

variable {cpu : U32} {s t u v : Switching} {j k : Slot} {r : Region}
  {tr : List (Switching × SwitchEvent × Switching)}

/-- Slot `k` waits: another process runs, and does not create or kill it. -/
def Waits (k : Slot) (s : Switching) (e : SwitchEvent) : Prop :=
  s.current ≠ k ∧ e.event ≠ .create k ∧ e.event ≠ .kill k

theorem Step.stack_of_waits {e : SwitchEvent} (step : Step cpu s e t) (hk : Waits k s e) :
    t.stack k = s.stack k := by
  obtain ⟨hcurrent, hcreate, hkill⟩ := hk
  cases step with
  | work m => rfl
  | create j taskStack entry args ret _ _ =>
    apply create_stack_of_ne
    rintro rfl
    exact hcreate rfl
  | kill j _ =>
    apply drop_stack_of_ne
    rintro rfl
    exact hkill rfl
  | transfer j _ => rfl
  | exit j _ => exact drop_stack_of_ne hcurrent.symm

theorem stack_of_waits (run : Run (Step cpu) s tr t) (hk : Run.Guarded (Waits k) tr) :
    t.stack k = s.stack k := by
  induction run with
  | nil => rfl
  | snoc _ step ih =>
    obtain ⟨hbefore, hstep⟩ := Run.guarded_snoc.mp hk
    exact (step.stack_of_waits hstep).trans (ih hbefore)

theorem guarded_coroutines (hk : Run.Guarded (Waits k) tr) :
    Run.Guarded (Coroutines.Waits k)
      (tr.map fun x => (x.1.coroutines cpu, x.2.1.event, x.2.2.coroutines cpu)) := by
  intro x hx
  obtain ⟨y, hy, rfl⟩ := List.mem_map.mp hx
  exact hk y hy

theorem Inv.of_run (h : s.Inv cpu) (run : Run (Step cpu) s tr t)
    (hapart : Run.Guarded (KeepsApart cpu) tr) : t.Inv cpu :=
  run.invariant h (fun _ _ _ hinv hkeep step => (step.refines hkeep hinv).1) hapart

theorem frame_of_waits (h : s.Inv cpu) (run : Run (Step cpu) s tr t)
    (hapart : Run.Guarded (KeepsApart cpu) tr) (hk : Run.Guarded (Waits k) tr)
    (hr : s.stack k = some r) : t.stack k = some r ∧ t.frame cpu k r = s.frame cpu k r := by
  have hstack := (stack_of_waits run hk).trans hr
  have hrun := (run.guard hapart).simulate (coroutines cpu) SwitchEvent.event h
    fun _ _ _ hinv step => step.1.refines step.2 hinv
  have hstate := Coroutines.state_of_waits hrun.2 (guarded_coroutines hk)
  refine ⟨hstack, ?_⟩
  simp only [coroutines, hstack, hr, Option.map_some, Option.some.injEq] at hstate
  exact hstate

/-- `context_switch`, called in the machine `c`, has returned in the machine `m`; of the memory the
bytes below `top` count. -/
structure Returned (c m : MachineState) (top : Nat) : Prop where
  eip : m.eip = load32 c.mem (c.reg .esp)
  esp : m.reg .esp = c.reg .esp + 4
  ebp : m.reg .ebp = c.reg .ebp
  ebx : m.reg .ebx = c.reg .ebx
  esi : m.reg .esi = c.reg .esi
  edi : m.reg .edi = c.reg .edi
  cs : m.sreg .cs = c.sreg .cs
  ss : m.sreg .ss = c.sreg .ss
  mem : ∀ x : U32, (c.reg .esp).toNat + 4 ≤ x.toNat → x.toNat < top → m.mem x = c.mem x

/-- A turn of slot `k` and the next one: it hands over, the others run, one of them hands over to
it. -/
inductive NextTurn (k : Slot) : List (Switching × SwitchEvent × Switching) → Prop where
  | intro {first last : Switching × SwitchEvent × Switching} {j : Slot}
      {tr : List (Switching × SwitchEvent × Switching)} :
      first.2.1 = .transfer j → Run.Guarded (Waits k) tr →
      last.2.1 = .transfer k ∨ last.2.1 = .exit k → NextTurn k (first :: (tr ++ [last]))

theorem frame_current : s.frame cpu s.current r = runningFrame s.m r := if_pos rfl

theorem Step.calls {e : SwitchEvent} (step : Step cpu s e t)
    (he : e = .transfer k ∨ e = .exit k) : s.Calls cpu k ∧ t.m = contextSwitch s.m ∧
      t.current = k ∧ t.stack k = s.stack k := by
  rcases he with rfl | rfl
  · cases step with
    | transfer _ hcall => exact ⟨hcall, rfl, rfl, rfl⟩
  · cases step with
    | exit _ hcall => exact ⟨hcall, rfl, rfl, drop_stack_of_ne hcall.other⟩

theorem KeepsApart.room {e : SwitchEvent} (h : s.KeepsApart cpu e)
    (he : e = .transfer k ∨ e = .exit k) : s.Room := by
  rcases he with rfl | rfl <;> exact h

theorem runningFrame_of_calls {e : SwitchEvent} (h : s.Inv cpu) (step : Step cpu s e t)
    (hroom : s.Room) (he : e = .transfer k ∨ e = .exit k) (hr : s.stack k = some r) :
    runningFrame t.m r = s.frame cpu k r ∧ t.m.sreg = s.m.sreg := by
  obtain ⟨hcall, hm, -, -⟩ := step.calls he
  have hframe := (h.switched hcall hroom).frame k r hr
  rw [if_neg hcall.other] at hframe
  rw [hm]
  exact ⟨(if_pos rfl : (s.switchTo k).frame cpu k r = _).symm.trans hframe,
    (contextSwitch_eq s.m).2.1⟩

/-- What holds when the next turn of the running process comes. -/
structure Resumed (s u : Switching) (r : Region) : Prop where
  frame : runningFrame u.m r = (runningFrame s.m r).ret
  current : u.current = s.current
  cs : u.m.sreg .cs = kernelCode
  ss : u.m.sreg .ss = kernelData
  room : s.Room
  kernel : s.m.sreg .cs = kernelCode ∧ s.m.sreg .ss = kernelData

theorem resumed_of_nextTurn (h : s.Inv cpu) (run : Run (Step cpu) s tr u)
    (hapart : Run.Guarded (KeepsApart cpu) tr) (turn : NextTurn s.current tr)
    (hr : s.stack s.current = some r) : Resumed s u r := by
  cases turn with
  | @intro first last j mid hfirst hwaits hlast =>
    obtain ⟨s₀, e₀, t₀⟩ := first
    cases hfirst
    obtain ⟨hs, step, hrest⟩ := run.of_cons
    dsimp only at hs step hrest
    subst hs
    obtain ⟨v, hmid, hend⟩ := hrest.of_append
    obtain ⟨rfl, step', hnil⟩ := hend.of_cons
    cases hnil.eq_of_nil
    have hroom : s₀.Room := hapart _ List.mem_cons_self
    have hapart' := hapart last (by simp)
    have hcall : s₀.Calls cpu j := (step.calls (.inl rfl)).1
    cases step
    have hmidApart : Run.Guarded (KeepsApart cpu) mid := fun x hx => hapart x (by simp [hx])
    obtain ⟨hstack, hframe⟩ := frame_of_waits (h.switchTo hcall hroom) hmid hmidApart hwaits hr
    have hinv := (h.switchTo hcall hroom).of_run hmid hmidApart
    obtain ⟨hcall', -, hcurrent, -⟩ := step'.calls hlast
    obtain ⟨hrun, hsreg⟩ := runningFrame_of_calls hinv step' (hapart'.room hlast) hlast hstack
    have hback := (h.switched hcall hroom).frame _ r hr
    rw [if_pos rfl, frame_current] at hback
    exact ⟨hrun.trans (hframe.trans hback), hcurrent, hsreg ▸ hcall'.cs, hsreg ▸ hcall'.ss, hroom,
      hcall.cs, hcall.ss⟩

theorem mem_of_ret {c m : MachineState} (h : runningFrame m r = (runningFrame c r).ret)
    (hc : (c.reg .esp).toNat + 4 < 2 ^ 32) {x : U32} (hx : r.Contains x)
    (hlo : (c.reg .esp).toNat + 4 ≤ x.toNat) : m.mem x = c.mem x := by
  have hesp : m.reg .esp = c.reg .esp + 4 := congrArg Frame.esp h
  have hbyte := congrFun (congrArg Frame.stack h) x
  change stackInUse _ _ _ _ = if (c.reg .esp).toNat + 4 ≤ x.toNat then stackInUse _ _ _ _ else none
    at hbyte
  rw [if_pos hlo, hesp, stackInUse, stackInUse, if_pos ⟨hx, by bv_omega⟩, if_pos ⟨hx, by omega⟩]
    at hbyte
  exact Option.some.inj hbyte

/-- A process that hands over returns from its call of `context_switch` when its next turn comes. -/
theorem nextTurn_returned (h : s.Inv cpu) (run : Run (Step cpu) s tr u)
    (hapart : Run.Guarded (KeepsApart cpu) tr) (turn : NextTurn s.current tr)
    (hr : s.stack s.current = some r) : u.current = s.current ∧ Returned s.m u.m r.top := by
  obtain ⟨hframe, hcurrent, hcs, hss, ⟨r', hr', hbottom, htop⟩, hkernel⟩ :=
    resumed_of_nextTurn h run hapart turn hr
  cases hr.symm.trans hr'
  have hlt := h.top_lt _ _ hr
  refine ⟨hcurrent, ?_, congrArg Frame.esp hframe, congrArg Frame.ebp hframe,
    congrArg Frame.ebx hframe, congrArg Frame.esi hframe, congrArg Frame.edi hframe,
    hcs.trans hkernel.1.symm, hss.trans hkernel.2.symm, ?_⟩
  · have heip : u.m.eip = load32 (fun x => (stackInUse s.m.mem (s.m.reg .esp) r x).getD 0)
        (s.m.reg .esp) := congrArg Frame.eip hframe
    rw [heip]
    apply load32_congr_on (s.m.reg .esp).toNat r.top
    · intro x hlo hhi
      rw [stackInUse, if_pos ⟨⟨by omega, hhi⟩, hlo⟩]
      rfl
    · exact Nat.le_refl _
    · omega
    · omega
  · intro x hlo hhi
    exact mem_of_ret hframe (by omega) ⟨by omega, hhi⟩ hlo

/-- The compiled code of `int_handler`, `sched_handler` and what they call for the timer interrupt:
from the entry of `int_handler` to the entry of `context_switch`, and from the return of
`context_switch` to the return of `int_handler`. `depth` is the stack that it needs. -/
structure TimerHandler where
  down : MachineState → MachineState
  up : MachineState → MachineState
  depth : Nat

/-- `int_handler`, called in the machine `call`, has returned, and the stack above its frame is as it
was at the call, up to `top`. -/
structure LeavesStack (call after : MachineState) (top : Nat) : Prop where
  esp : after.reg .esp = call.reg .esp + 4
  cs : after.sreg .cs = call.sreg .cs
  ss : after.sreg .ss = call.sreg .ss
  mem : ∀ x : U32, (call.reg .esp).toNat + 4 ≤ x.toNat → x.toNat < top → after.mem x = call.mem x

/-- The calling convention: when `context_switch` returns as a function does, so does
`int_handler`; it has written below its frame only. -/
def TimerHandler.Conforms (handler : TimerHandler) : Prop :=
  ∀ (call m : MachineState) (top : Nat), handler.depth ≤ (call.reg .esp).toNat →
    (call.reg .esp).toNat + 4 ≤ top → top < 2 ^ 32 → Returned (handler.down call) m top →
      LeavesStack call (handler.up m) top

theorem LeavesStack.leavesFrame {call after : MachineState} {top size : Nat}
    (h : LeavesStack call after top) (hsize : (call.reg .esp).toNat + 4 + size ≤ top)
    (htop : top < 2 ^ 32) : LeavesFrame call after size := by
  refine ⟨h.esp, h.cs, h.ss, ?_⟩
  intro i hi
  rw [h.esp]
  apply h.mem <;> bv_omega

theorem resumes {m : MachineState} {vector : U8} {entry esp0 error ret : U32}
    (h : vector ∉ [(17 : U8), 21, 29, 30]) (hm : Interruptible m) {after : MachineState}
    (hafter : LeavesFrame (enterIntHandler m vector entry esp0 error ret) after (frameSize m)) :
    Resumes (after.run usableAtLevel3 allInterruptRet) m := by
  by_cases hlevel : level (m.sreg .cs) = 0
  · exact resumes_inner h hlevel hafter
  · exact resumes_outer h hlevel hm hafter

/-- The timer interrupt of the process at `m`, up to `context_switch`. The frame of the interrupt
and the calls of the handler lie in the stack `r` of the process; `esp0` is the one of `init_tss`. -/
structure Preempted (handler : TimerHandler) (s : Switching) (esp0 : U32) (m call : MachineState)
    (r : Region) : Prop where
  interruptible : Interruptible m
  entered : ∃ entry ret, call = enterIntHandler m 0x20 entry esp0 0 ret
  machine : s.m = handler.down call
  stack : s.stack s.current = some r
  room : r.bottom + handler.depth ≤ (call.reg .esp).toNat
  frame : (call.reg .esp).toNat + 4 + frameSize m ≤ r.top

/-- Two applications cannot be preempted in stacks that are apart: the processor takes both to the
one `esp0`. -/
theorem Preempted.not_apart {handler handler' : TimerHandler} {s' : Switching} {esp0 : U32}
    {m m' call call' : MachineState} {r' : Region} (h : Preempted handler s esp0 m call r)
    (h' : Preempted handler' s' esp0 m' call' r') (hlevel : level (m.sreg .cs) ≠ 0)
    (hlevel' : level (m'.sreg .cs) ≠ 0) : ¬ r.Apart r' := by
  obtain ⟨entry, ret, hcall⟩ := h.entered
  obtain ⟨entry', ret', hcall'⟩ := h'.entered
  have hesp : call.reg .esp = call'.reg .esp := by
    have hframe := @enterIntHandler_esp m 0x20 entry esp0 0 ret (by decide)
    have hframe' := @enterIntHandler_esp m' 0x20 entry' esp0 0 ret' (by decide)
    rw [innerStack, if_pos (inner_iff.mpr hlevel), frameSize, if_neg hlevel, ← hcall] at hframe
    rw [innerStack, if_pos (inner_iff.mpr hlevel'), frameSize, if_neg hlevel', ← hcall'] at hframe'
    exact (BitVec.add_left_inj 4).mp (hframe.trans hframe'.symm)
  have hroom := h.room
  have hroom' := h'.room
  have hframe := h.frame
  have hframe' := h'.frame
  rw [hesp] at hroom hframe
  unfold Region.Apart
  omega

def twoStacks : Slot → Option Region := fun k =>
  if k = 0 then some ⟨0x3010000, 0x3014000⟩
  else if k = 1 then some ⟨0x3020000, 0x3024000⟩ else none

theorem eq_of_twoStacks (h : twoStacks k = some r) :
    k = 0 ∧ r = ⟨0x3010000, 0x3014000⟩ ∨ k = 1 ∧ r = ⟨0x3020000, 0x3024000⟩ := by
  unfold twoStacks at h
  split at h
  · exact .inl ⟨‹_›, (Option.some.inj h).symm⟩
  · split at h
    · exact .inr ⟨‹_›, (Option.some.inj h).symm⟩
    · cases h

def interrupted : MachineState where
  reg r := if r = .esp then 0x3022000 else 0
  sreg s := if s = .cs then kernelCode else kernelData
  eip := 0x100400
  eflags := 0x202
  upper _ := 0
  mem := store32 (fun _ => 0) (contextCell 0x3001000 0) 0x3013000

def callOnly (old new ret : U32) : TimerHandler where
  down call := ((call.push new).push old).push ret
  up m := (m.setReg .esp (m.reg .esp + 8)).popEip
  depth := 12

theorem callOnly_conforms (old new ret : U32) : (callOnly old new ret).Conforms := by
  intro call m top hdepth hbottom htop hreturned
  have hroom : 12 ≤ (call.reg .esp).toNat := hdepth
  have hesp : ((callOnly old new ret).down call).reg .esp = call.reg .esp - 12 := by
    change (((call.push new).push old).push ret).reg .esp = _
    simp only [push_reg, if_pos]
    bv_omega
  have hback := hreturned.esp
  have hmem := hreturned.mem
  rw [hesp] at hback hmem
  have hup : ((callOnly old new ret).up m).reg .esp = call.reg .esp + 4 := by
    change m.reg .esp + 8 + 4 = _
    rw [hback]
    bv_omega
  refine ⟨hup, hreturned.cs, hreturned.ss, ?_⟩
  intro x hlo hhi
  apply (hmem x (by bv_omega) hhi).trans
  exact pushAll_mem [new, old, ret] (by simp only [List.length_cons, List.length_nil]; omega)
    (.inr (by omega))

def switchBack : TimerHandler := callOnly (contextCell 0x3001000 1) 0x3013000 0x100700

def preempted : Switching where
  m := switchBack.down (enterIntHandler interrupted 0x20 0x100500 0 0 0x100600)
  current := 1
  stack := twoStacks

/-- The scheduler creates a task in slot 2, calls `context_switch` for slot 1, and the task of slot 2
is killed before. -/
def scheduled (s : Switching) : Switching :=
  s.create 0x3001000 2 0x3030000 0x100800 [0x2a, 0, 0, 0] 0x100200

def callBack (s : Switching) : MachineState :=
  (scheduled s).m.pushAll [(scheduled s).context 0x3001000 1, contextCell 0x3001000 0, 0x100a00]

def handingBack (s : Switching) : Switching :=
  ({ scheduled s with m := callBack s } : Switching).drop 2

def meanwhile (s : Switching) : List (Switching × SwitchEvent × Switching) :=
  [(s, .create 2 0x3030000 0x100800 [0x2a, 0, 0, 0] 0x100200, scheduled s),
    (scheduled s, .work (callBack s), { scheduled s with m := callBack s }),
    ({ scheduled s with m := callBack s }, .kill 2, handingBack s)]

theorem meanwhile_run (hstack : s.stack = twoStacks) (hcurrent : s.current = 0) :
    Run (Step 0x3001000) s (meanwhile s) (handingBack s) := by
  have hcreate : (2 : Slot) ≠ s.current := by
    rw [hcurrent]
    decide
  have hfree : s.stack 2 = none := by
    rw [hstack]
    rfl
  exact .cons (.create s 2 _ _ _ _ hcreate hfree) (.cons (.work _ _)
    (.cons (.kill _ 2 hcreate) (.nil _)))

theorem callBack_keeps (hstack : s.stack = twoStacks) (hcurrent : s.current = 0)
    (hesp : s.m.reg .esp = 0x3013014) : (scheduled s).Keeps 0x3001000 (callBack s) := by
  intro k r hk hr x hx
  have hoff : x.toNat < (0x3013014 : U32).toNat - 4 * 3 ∨ (0x3013014 : U32).toNat ≤ x.toNat := by
    rcases hx with ⟨hlo, -⟩ | hcell
    · by_cases h2 : k = 2
      · subst k
        cases create_stack_self.symm.trans hr
        exact .inr (Nat.le_trans (by decide) hlo)
      · have hother : twoStacks k = some r := by
          rw [← hstack]
          exact (create_stack_of_ne h2).symm.trans hr
        rcases eq_of_twoStacks hother with ⟨rfl, rfl⟩ | ⟨-, rfl⟩
        · exact absurd hcurrent.symm hk
        · exact .inr (Nat.le_trans (by decide) hlo)
    · exact .inl (Nat.lt_of_lt_of_le (contains_of_inCell (by decide) hcell).2 (by decide))
  have hsame : (scheduled s).m.reg .esp = 0x3013014 := hesp
  apply pushAll_mem
  · rw [hsame]
    exact (by decide : 12 ≤ (0x3013014 : U32).toNat)
  · rw [hsame]
    exact hoff

theorem meanwhile_apart (hstack : s.stack = twoStacks) (hcurrent : s.current = 0)
    (hesp : s.m.reg .esp = 0x3013014) : Run.Guarded (KeepsApart 0x3001000) (meanwhile s) := by
  have hfresh : s.Fresh 0x3001000 0x3030000 := by
    refine ⟨by decide, ?_, .inr (by decide)⟩
    intro k r hr
    rw [hstack] at hr
    rcases eq_of_twoStacks hr with ⟨-, rfl⟩ | ⟨-, rfl⟩ <;> exact .inl (by decide)
  intro x hx
  simp only [meanwhile, List.mem_cons, List.not_mem_nil, or_false] at hx
  rcases hx with rfl | rfl | rfl
  · exact ⟨hfresh, by decide⟩
  · exact callBack_keeps hstack hcurrent hesp
  · trivial

theorem meanwhile_waits (hcurrent : s.current = 0) : Run.Guarded (Waits 1) (meanwhile s) := by
  intro x hx
  have hne : s.current ≠ 1 := by
    rw [hcurrent]
    decide
  simp only [meanwhile, List.mem_cons, List.not_mem_nil, or_false] at hx
  rcases hx with rfl | rfl | rfl <;>
    exact ⟨hne, by simp [SwitchEvent.event], by simp [SwitchEvent.event]⟩

def round : List (Switching × SwitchEvent × Switching) :=
  (preempted, .transfer 0, preempted.switchTo 0) :: (meanwhile (preempted.switchTo 0) ++
    [(handingBack (preempted.switchTo 0), .transfer 1,
      (handingBack (preempted.switchTo 0)).switchTo 1)])

theorem preempted_inv : preempted.Inv 0x3001000 := by
  constructor
  · decide
  · rfl
  · intro k r hr
    rcases eq_of_twoStacks hr with ⟨-, rfl⟩ | ⟨-, rfl⟩ <;> decide
  · intro k j r r' hkj hr hr'
    rcases eq_of_twoStacks hr with ⟨rfl, rfl⟩ | ⟨rfl, rfl⟩ <;>
      rcases eq_of_twoStacks hr' with ⟨rfl, rfl⟩ | ⟨rfl, rfl⟩
    · exact absurd rfl hkj
    · exact .inl (by decide)
    · exact .inr (by decide)
    · exact absurd rfl hkj
  · intro k r hr
    rcases eq_of_twoStacks hr with ⟨-, rfl⟩ | ⟨-, rfl⟩ <;> exact .inr (by decide)
  · intro k r hk hr
    rcases eq_of_twoStacks hr with ⟨rfl, rfl⟩ | ⟨rfl, rfl⟩
    · decide +kernel
    · exact absurd rfl hk

theorem preempted_calls : preempted.Calls 0x3001000 0 :=
  ⟨rfl, rfl, by decide, rfl, by decide +kernel, by decide +kernel⟩

theorem handingBack_calls : (handingBack (preempted.switchTo 0)).Calls 0x3001000 1 :=
  ⟨by decide +kernel, by decide +kernel, by decide, rfl, by decide +kernel, by decide +kernel⟩

theorem round_run : Run (Step 0x3001000) preempted round
    ((handingBack (preempted.switchTo 0)).switchTo 1) :=
  .cons (.transfer _ 0 preempted_calls)
    (.snoc (meanwhile_run rfl rfl) (.transfer _ 1 handingBack_calls))

theorem round_apart : Run.Guarded (KeepsApart 0x3001000) round := by
  have hmeanwhile : Run.Guarded (KeepsApart 0x3001000) (meanwhile (preempted.switchTo 0)) :=
    meanwhile_apart rfl rfl (by decide +kernel)
  intro x hx
  rcases List.mem_cons.mp hx with rfl | hx
  · exact ⟨⟨0x3020000, 0x3024000⟩, rfl, by decide +kernel⟩
  · rcases List.mem_append.mp hx with hx | hx
    · exact hmeanwhile x hx
    · cases List.mem_singleton.mp hx
      exact ⟨⟨0x3010000, 0x3014000⟩, rfl, by decide +kernel⟩

theorem round_nextTurn : NextTurn 1 round := .intro rfl (meanwhile_waits rfl) (.inl rfl)

/-- Every run of the machine whose processes keep apart is one of the coroutines: `context_switch`
changes whose turn it is and nothing else. -/
theorem switching_refines (h : s.Inv cpu) (run : Run (Step cpu) s tr t)
    (hapart : Run.Guarded (KeepsApart cpu) tr) :
    t.Inv cpu ∧ Run (Coroutines.Step Frame.ret) (s.coroutines cpu)
      (tr.map fun x => (x.1.coroutines cpu, x.2.1.event, x.2.2.coroutines cpu))
      (t.coroutines cpu) :=
  (run.guard hapart).simulate (coroutines cpu) SwitchEvent.event h
    fun _ _ _ hinv step => step.1.refines step.2 hinv

theorem switching_refines_round :
    ((handingBack (preempted.switchTo 0)).switchTo 1).Inv 0x3001000 ∧
      Run (Coroutines.Step Frame.ret) (preempted.coroutines 0x3001000)
        (round.map fun x => (x.1.coroutines 0x3001000, x.2.1.event, x.2.2.coroutines 0x3001000))
        (((handingBack (preempted.switchTo 0)).switchTo 1).coroutines 0x3001000) :=
  switching_refines preempted_inv round_run round_apart

/-- The return path reads the frame only: a memory with the same frame will do. -/
theorem run_allInterruptRet_of_agree {m : MachineState} {mem : Mem} {usable : BitVec 16 → Bool}
    (hagree : ∀ i < 68, m.mem (m.reg .esp + BitVec.ofNat 32 i) =
      mem (m.reg .esp + BitVec.ofNat 32 i))
    (hlevel : level (intrFrameAt mem (m.reg .esp)).cs ≤ level (m.sreg .cs)) :
    let f := intrFrameAt mem (m.reg .esp)
    m.run usable allInterruptRet = { m with
      reg := regs f.eax f.ecx f.edx f.ebx (m.reg .esp + 68) f.ebp f.esi f.edi
      sreg := sregs f.cs f.ds f.es f.fs f.gs (m.sreg .ss)
      eip := f.eip
      eflags := f.eflags } := by
  intro f
  have hwords := stackAt_wordsAt mem (m.reg .esp) 17
  have hstack : m.OnStack (wordsAt mem (m.reg .esp) 17) := hwords.congr hagree
  simp only [wordsAt, BitVec.add_assoc, BitVec.reduceAdd] at hstack
  apply (run_allInterruptRet_inner hstack (by rwa [selector_load32])).trans
  simp only [selector_load32]
  rfl

section First

variable {taskStack entry ret : U32} {args : List U8}

theorem first_turn (h : s.Inv cpu) (hk : k ≠ s.current) (hfree : s.stack k = none)
    (hfresh : s.Fresh cpu taskStack) (hsize : args.length + 92 ≤ ktaskStackSize.toNat)
    (run : Run (Step cpu) (s.create cpu k taskStack entry args ret) tr v)
    (hapart : Run.Guarded (KeepsApart cpu) tr) (hwaits : Run.Guarded (Waits k) tr)
    {e : SwitchEvent} (he : e = .transfer k ∨ e = .exit k) (last : Step cpu v e u)
    (hroom : v.Room) :
    let image := ktaskInit s.m.mem taskStack entry args ret
    u.m.eip = load32 image.mem (image.context + 16) ∧ u.m.reg .esp = image.context + 20 ∧
      u.m.sreg .cs = kernelCode ∧ ∀ x : U32, image.context.toNat + 20 ≤ x.toNat →
        x.toNat < taskStack.toNat + ktaskStackSize.toNat → u.m.mem x = image.mem x := by
  intro image
  have hcontext : image.context = _ := ktaskInit_context
  have hstack : ktaskStackSize.toNat = 16384 := rfl
  have hlt := hfresh.top_lt
  have hbound : taskStack.toNat ≤ image.context.toNat ∧
      image.context.toNat + 92 ≤ taskStack.toNat + 16384 := by
    rw [hcontext]
    bv_omega
  have hcreated := @Inv.create cpu s k taskStack entry ret args h hk hfree hfresh hsize
  obtain ⟨hr, hframe⟩ := frame_of_waits hcreated.1 run hapart hwaits create_stack_self
  have hinv := hcreated.1.of_run run hapart
  obtain ⟨hcall, -⟩ := last.calls he
  obtain ⟨hrun, hsreg⟩ := runningFrame_of_calls hinv last hroom he hr
  have hparked : (s.create cpu k taskStack entry args ret).frame cpu k
      ⟨taskStack.toNat, taskStack.toNat + ktaskStackSize.toNat⟩ =
        parkedFrame image.mem image.context
          ⟨taskStack.toNat, taskStack.toNat + ktaskStackSize.toNat⟩ := by
    have hnew := (@Inv.created cpu s k taskStack entry ret args h hk hfree hfresh hsize).2
    rw [frame, if_neg (show k ≠ (s.create cpu k taskStack entry args ret).current from hk), hnew]
    have hin : taskStack.toNat ≤ image.context.toNat ∧
        image.context.toNat + 20 ≤ taskStack.toNat + ktaskStackSize.toNat := by omega
    apply parkedFrame_congr hin hlt
    intro x hx
    have hcell := toNat_contextCell h.cpu_le k
    have hcpu := h.cpu_le
    have hk16 : k.val < 16 := k.isLt
    have hsizeof : sizeofCpu = 520 := rfl
    have houtside : ¬ InCell cpu k x := fun hin =>
      hfresh.table.not_contains hx (contains_of_inCell h.cpu_le hin)
    unfold InCell at houtside
    exact store32_frame _ _ (by omega) (by omega)
  have hfirst := hrun.trans (hframe.trans hparked)
  have hesp : u.m.reg .esp = image.context + 20 := congrArg Frame.esp hfirst
  refine ⟨congrArg Frame.eip hfirst, hesp, ?_, ?_⟩
  · rw [hsreg]
    exact hcall.cs
  · intro x hlo hhi
    have hnext : (image.context + 20).toNat = image.context.toNat + 20 := by bv_omega
    have hx : Region.Contains ⟨taskStack.toNat, taskStack.toNat + ktaskStackSize.toNat⟩ x :=
      ⟨by dsimp only; omega, hhi⟩
    have hbyte := congrFun (congrArg Frame.stack hfirst) x
    change stackInUse _ _ _ _ = stackInUse _ _ _ _ at hbyte
    rw [hesp, stackInUse, stackInUse, hnext, if_pos ⟨hx, hlo⟩, if_pos ⟨hx, hlo⟩] at hbyte
    exact Option.some.inj hbyte

/-- A task starts as if it had been called with its arguments, however long it had to wait. -/
theorem created_task_starts (h : s.Inv cpu) (hk : k ≠ s.current) (hfree : s.stack k = none)
    (hfresh : s.Fresh cpu taskStack) (hsize : args.length + 92 ≤ ktaskStackSize.toNat)
    (run : Run (Step cpu) (s.create cpu k taskStack entry args ret) tr v)
    (hapart : Run.Guarded (KeepsApart cpu) tr) (hwaits : Run.Guarded (Waits k) tr)
    {e : SwitchEvent} (he : e = .transfer k ∨ e = .exit k) (last : Step cpu v e u)
    (hroom : v.Room) :
    u.m.eip = ret ∧
      Starts (u.m.run usableAtLevel3 allInterruptRet) entry kernelCode kernelData ∧
      Called (u.m.run usableAtLevel3 allInterruptRet) args (taskStack + ktaskStackSize) := by
  obtain ⟨heip, hesp, hkernel, hmem⟩ := first_turn h hk hfree hfresh hsize run hapart hwaits
    he last hroom
  have hcontext := @ktaskInit_context s.m.mem taskStack entry ret args
  have hargs := @ktaskInit_args s.m.mem taskStack entry ret args _ rfl hsize
  obtain ⟨hret, hzero, hentry, hflags, hcs, hgs, hfs, hes, hds⟩ :=
    @ktaskInit_frame s.m.mem taskStack entry ret args _ rfl
  generalize ktaskInit s.m.mem taskStack entry args ret = image at *
  have hstack : ktaskStackSize.toNat = 16384 := rfl
  have hlt := hfresh.top_lt
  have hbound : image.context.toNat + 92 + args.length = taskStack.toNat + 16384 := by
    rw [hcontext]
    bv_omega
  have hagree : ∀ i < 72 + args.length, u.m.mem (image.context + 20 + BitVec.ofNat 32 i) =
      image.mem (image.context + 20 + BitVec.ofNat 32 i) := by
    intro i hi
    apply hmem <;> bv_omega
  have hrun := @run_allInterruptRet_of_agree u.m image.mem usableAtLevel3
    (fun i hi => by rw [hesp]; exact hagree i (by omega))
    (by rw [hesp, hcs, hkernel]; decide)
  rw [hesp] at hrun
  refine ⟨heip.trans hret, ?_, ?_⟩
  · rw [hrun]
    refine ⟨hentry, hcs, ?_, (congrArg (· &&& flagIf) hflags).trans BitVec.and_self⟩
    rw [List.forall_mem_cons, List.forall_mem_cons, List.forall_mem_cons, List.forall_mem_singleton]
    exact ⟨hds, hes, hfs, hgs⟩
  · have hstart : (u.m.run usableAtLevel3 allInterruptRet).reg .esp = image.context + 88 := by
      rw [hrun]
      change image.context + 20 + 68 = _
      rw [BitVec.add_assoc]
      rfl
    have hkept : (u.m.run usableAtLevel3 allInterruptRet).mem = u.m.mem := by rw [hrun]
    constructor
    · rw [hstart, hkept, ← hzero]
      apply load32_congr
      intro i hi
      have hoff : image.context + 88 + BitVec.ofNat 32 i =
          image.context + 20 + BitVec.ofNat 32 (68 + i) := by bv_omega
      rw [hoff]
      exact hagree (68 + i) (by omega)
    · rw [hstart, hkept]
      intro i hi
      have hoff : image.context + 88 + 4 + BitVec.ofNat 32 i =
          image.context + 20 + BitVec.ofNat 32 (72 + i) := by bv_omega
      have hsame : image.context + 92 + BitVec.ofNat 32 i =
          image.context + 20 + BitVec.ofNat 32 (72 + i) := by bv_omega
      rw [hoff, hagree (72 + i) (by omega), ← hsame]
      exact hargs i hi
    · rw [hstart]
      bv_omega

end First

def starting : Switching where
  m := { interrupted with reg := fun r => if r = .esp then 0x3013014 else 0 }
  current := 0
  stack k := if k = 0 then some ⟨0x3010000, 0x3014000⟩ else none

def started : Switching := starting.create 0x3001000 1 0x3020000 0x100400 [7, 0, 0, 0] 0x100200

theorem started_stack : started.stack = twoStacks := by
  funext k
  by_cases hk : k = 1
  · subst k
    rfl
  · rw [started, create_stack_of_ne hk, twoStacks, starting]
    simp only [hk, if_false]

theorem created_task_starts_later :
    let u := (handingBack started).switchTo 1
    u.m.eip = 0x100200 ∧
      Starts (u.m.run usableAtLevel3 allInterruptRet) 0x100400 kernelCode kernelData ∧
      Called (u.m.run usableAtLevel3 allInterruptRet) [7, 0, 0, 0]
        (0x3020000 + ktaskStackSize) := by
  intro u
  have hstack : ∀ k r, starting.stack k = some r → k = 0 ∧ r = ⟨0x3010000, 0x3014000⟩ := by
    intro k r hr
    by_cases hk : k = 0
    · subst k
      exact ⟨rfl, (Option.some.inj hr).symm⟩
    · cases (if_neg hk).symm.trans hr
  have hinv : starting.Inv 0x3001000 := by
    refine ⟨by decide, rfl, ?_, ?_, ?_, ?_⟩
    · rintro k r hr
      obtain ⟨-, rfl⟩ := hstack k r hr
      decide
    · intro k j r r' hkj hr hr'
      exact absurd ((hstack k r hr).1.trans (hstack j r' hr').1.symm) hkj
    · intro k r hr
      obtain ⟨-, rfl⟩ := hstack k r hr
      exact .inr (by decide)
    · intro k r hk hr
      exact absurd (hstack k r hr).1 hk
  have hfresh : starting.Fresh 0x3001000 0x3020000 := by
    refine ⟨by decide, ?_, .inr (by decide)⟩
    intro k r hr
    obtain ⟨-, rfl⟩ := hstack k r hr
    exact .inl (by decide)
  have hcalls : (handingBack started).Calls 0x3001000 1 :=
    ⟨rfl, rfl, by decide, rfl, by decide +kernel, by decide +kernel⟩
  have hroom : (handingBack started).Room :=
    ⟨⟨0x3010000, 0x3014000⟩, rfl, by decide +kernel⟩
  exact created_task_starts hinv (by decide) rfl hfresh (by decide)
    (meanwhile_run started_stack rfl) (meanwhile_apart started_stack rfl rfl) (meanwhile_waits rfl)
    (.inl rfl) (.transfer _ 1 hcalls) hroom

end Switching

end Uroboros
