import Uroboros.TimerList
import Uroboros.VMallocFull

/-!
# Preemption

The task timer stays directly behind the dummy, where no other timer stops the tick in
front of it, as long as the block of a new timer is not the block of a live one.
-/

set_option autoImplicit false

namespace Uroboros

section TaskQueue
variable {q : Queue8}

/-- An empty queue with room for a byte takes one and gives it back. -/
structure Queue8.Ready (q : Queue8) : Prop where
  valid : q.Valid
  room : 2 ≤ q.size.toNat
  empty : q8Empty q = true

theorem q8Init_ready {bufSize : U32} (h : 2 ≤ (bufSize + 1).toNat) (buf : Nat → U8)
    (defaultValue : U8) : (q8Init buf bufSize defaultValue).Ready := by
  have hne : bufSize + 1 ≠ 0 := by
    intro hzero
    rw [hzero] at h
    exact absurd h (by decide)
  exact ⟨q8Init_valid hne buf defaultValue, h, rfl⟩

theorem Queue8.Ready.tail_eq (h : q.Ready) : q.tail = q.head := by
  have hempty := h.empty
  rwa [q8Empty, beq_iff_eq] at hempty

theorem Queue8.Ready.next_ne (h : q.Ready) : (q.head + 1) % q.size ≠ q.head := by
  intro heq
  have hlt : q.head.toNat < q.size.toNat := h.valid.head_lt
  have hroom := h.room
  have hsize := q.size.isLt
  have hnat := congrArg BitVec.toNat heq
  rw [BitVec.toNat_umod, QueueSystem.toNat_succ hlt] at hnat
  by_cases hend : q.head.toNat + 1 = q.size.toNat
  · rw [hend, Nat.mod_self] at hnat
    omega
  · rw [Nat.mod_eq_of_lt (by omega)] at hnat
    omega

theorem Queue8.Ready.q8In (h : q.Ready) (data : U8) : q8In q data =
    { q with
      buf := Function.update q.buf q.tail.toNat data
      tail := (q.tail + 1) % q.size } := by
  have hfull : q8Full q ≠ true := by
    rw [q8Full, h.tail_eq, ne_eq, beq_iff_eq]
    exact h.next_ne
  rw [Uroboros.q8In, if_neg hfull]

theorem Queue8.Ready.filled (h : q.Ready) (data : U8) : q8Empty (Uroboros.q8In q data) = false := by
  rw [h.q8In, q8Empty, beq_eq_false_iff_ne, h.tail_eq]
  exact h.next_ne

theorem Queue8.Ready.drained (h : q.Ready) (data : U8) :
    (q8De (Uroboros.q8In q data)).2.Ready := by
  have hvalid := q8De_valid (q8In_valid h.valid data)
  have hde : (q8De (Uroboros.q8In q data)).2 =
      { Uroboros.q8In q data with head := (q.head + 1) % q.size } := by
    rw [q8De, if_neg (by rw [h.filled]; simp), h.q8In]
  refine ⟨hvalid, ?_, ?_⟩
  · rw [hde, h.q8In]
    exact h.room
  · rw [hde, h.q8In, q8Empty, beq_iff_eq, h.tail_eq]

end TaskQueue

namespace Timers

/-- The task timer `task` counts from one behind the dummy, its queue is empty, and no other timer
uses that queue. -/
structure TaskTimer (taskTimer task : U32) (others : List U32) (s : Timers) : Prop where
  list : s.TwoWay (s.head :: task :: others)
  dummy : (s.timer s.head).interval = 0
  task : SameData ⟨none, none, taskTimer, 1, 1, timerModeOneshot⟩ (s.timer task)
  ready : (s.queue taskTimer).Ready
  others : ∀ t ∈ others, (s.timer t).q ≠ taskTimer

variable {s r : Timers} {taskTimer task t x : U32} {others : List U32} {fuel n : Nat}

theorem TaskTimer.nodup (h : TaskTimer taskTimer task others s) :
    s.head ≠ task ∧ s.head ∉ others ∧ task ∉ others := by
  have hnodup := h.list.nodup
  simp only [List.nodup_cons, List.mem_cons, not_or] at hnodup
  exact ⟨hnodup.1.1, hnodup.1.2, hnodup.2.1⟩

theorem TaskTimer.congr (h : TaskTimer taskTimer task others s) (hhead : r.head = s.head)
    (hnext : ∀ x, (r.timer x).next = (s.timer x).next)
    (hprev : ∀ x, (r.timer x).prev = (s.timer x).prev)
    (hq : ∀ x, (r.timer x).q = (s.timer x).q)
    (hsame : ∀ x, x ∉ others → r.timer x = s.timer x)
    (hqueue : r.queue taskTimer = s.queue taskTimer) : TaskTimer taskTimer task others r := by
  obtain ⟨_, hhd, htask⟩ := h.nodup
  constructor
  · rw [hhead]
    exact h.list.congr hhead hnext hprev
  · rw [hhead, hsame _ hhd]
    exact h.dummy
  · rw [hsame _ htask]
    exact h.task
  · rw [hqueue]
    exact h.ready
  · intro t ht
    rw [hq]
    exact h.others t ht

theorem TaskTimer.queueOf (h : TaskTimer taskTimer task others s) :
    s.queueOf task = s.queue taskTimer := by
  rw [Timers.queueOf, h.task.1]

theorem TaskTimer.tickList (h : TaskTimer taskTimer task others s) :
    tickList (s.head :: task :: others) s = Timers.tickList others (s.tickOne task) := by
  have hdummy : ¬ s.Stops s.head := fun hstops => hstops.1 h.dummy
  have htask : ¬ s.Stops task := by
    intro hstops
    have hfull := hstops.2.2
    rw [h.queueOf, h.ready.empty] at hfull
    exact hfull rfl
  have hskip : s.tickOne s.head = s := if_pos h.dummy
  rw [Timers.tickList, if_neg hdummy, hskip, Timers.tickList, if_neg htask]

theorem TaskTimer.tickOne (h : TaskTimer taskTimer task others s) :
    SameData ⟨none, none, taskTimer, 1, 1, timerModeOneshot⟩ ((s.tickOne task).timer task) ∧
      (s.tickOne task).queue taskTimer = q8In (s.queue taskTimer) 1 := by
  obtain ⟨hq, hinterval, hcount, hmode⟩ := h.task
  have halone := tickOne_alone s task
  have hblocked : ¬ ((s.timer task).mode = timerModeOneshot ∧ ¬ q8Empty (s.queueOf task)) := by
    rw [h.queueOf, h.ready.empty]
    simp
  have hzero : (s.timer task).interval ≠ 0 := by
    rw [hinterval]
    simp
  have hfires : (s.timer task).count - 1 = 0 := by
    rw [hcount]
    exact BitVec.sub_self 1
  rw [tickAlone, if_neg hzero, if_neg hblocked, if_pos hfires, Prod.mk.injEq] at halone
  obtain ⟨htimer, hqueue⟩ := halone
  rw [Timers.queueOf, htimer, h.queueOf] at hqueue
  refine ⟨?_, ?_⟩
  · rw [htimer]
    exact ⟨hq, hinterval, hinterval, hmode⟩
  · rw [← hqueue, hq]

/-- The tick fills the queue of the task timer, whatever the timers behind it do. -/
theorem TaskTimer.tick (h : TaskTimer taskTimer task others s) (hr : s.Ticks r) :
    r.queue taskTimer = q8In (s.queue taskTimer) 1 ∧ r.head = s.head ∧
      ∀ queue : Queue8, queue.Ready →
        TaskTimer taskTimer task others (r.setQueue taskTimer queue) := by
  have heq := (ticks_iff h.list.chain).mp hr
  rw [h.tickList] at heq
  subst heq
  obtain ⟨htask, hqueue⟩ := h.tickOne
  obtain ⟨hht, hho, hto⟩ := h.nodup
  have h₁ := frame_tickOne s task
  have h₂ := frame_tickList others (s.tickOne task)
  have hqs : ∀ x, ((Timers.tickList others (s.tickOne task)).timer x).q = (s.timer x).q :=
    fun x => (h₂.q x).trans (h₁.q x)
  have hhead : (Timers.tickList others (s.tickOne task)).head = s.head := h₂.head.trans h₁.head
  refine ⟨?_, hhead, fun queue hready => ⟨?_, ?_, ?_, ?_, ?_⟩⟩
  · rw [← hqueue]
    apply h₂.queue taskTimer
    intro x hx
    rw [h₁.q]
    exact h.others x hx
  · have hlist := h₂.twoWay (h₁.twoWay h.list)
    rw [← hhead] at hlist
    exact hlist.setQueue ..
  · change ((Timers.tickList others (s.tickOne task)).timer
      (Timers.tickList others (s.tickOne task)).head).interval = 0
    rw [h₂.head, h₁.head, h₂.timer _ hho, h₁.timer _ (by simpa using hht)]
    exact h.dummy
  · change SameData _ ((Timers.tickList others (s.tickOne task)).timer task)
    rw [h₂.timer _ hto]
    exact htask
  · rwa [setQueue_self]
  · intro t ht
    change ((Timers.tickList others (s.tickOne task)).timer t).q ≠ taskTimer
    rw [hqs]
    exact h.others t ht

/-- A timer interrupt schedules once and leaves the queue as it was: empty. -/
theorem TaskTimer.interrupt (h : TaskTimer taskTimer task others s)
    (hi : s.timerInterrupt taskTimer fuel = some (n, r)) :
    n = 1 ∧ r.head = s.head ∧ TaskTimer taskTimer task others r := by
  unfold timerInterrupt at hi
  cases htick : s.timerTick fuel with
  | none => simp [htick] at hi
  | some s₁ =>
    obtain ⟨hqueue, hhead, hkeep⟩ := h.tick ⟨fuel, htick⟩
    simp only [htick, hqueue, h.ready.filled, Option.bind_eq_bind, Option.bind_some,
      Option.pure_def, Bool.false_eq_true, if_false, Option.some.injEq, Prod.mk.injEq] at hi
    obtain ⟨rfl, rfl⟩ := hi
    exact ⟨rfl, hhead, hkeep _ (h.ready.drained 1)⟩

theorem TaskTimer.interrupt_returns (h : TaskTimer taskTimer task others s) :
    ∃ fuel n r, s.timerInterrupt taskTimer fuel = some (n, r) := by
  obtain ⟨fuel, hfuel⟩ := (ticks_iff h.list.chain).mpr rfl
  refine ⟨fuel, ?_⟩
  simp only [timerInterrupt, hfuel, Option.bind_eq_bind, Option.bind_some]
  split <;> exact ⟨_, _, rfl⟩

theorem TaskTimer.modify (h : TaskTimer taskTimer task others s) (ht : t ∈ others)
    {f : Timer → Timer} (hf : ∀ a, (f a).next = a.next ∧ (f a).prev = a.prev ∧ (f a).q = a.q) :
    TaskTimer taskTimer task others (s.modify t f) := by
  refine h.congr rfl (modify_field Timer.next fun a => (hf a).1)
    (modify_field Timer.prev fun a => (hf a).2.1) (modify_field Timer.q fun a => (hf a).2.2) ?_ rfl
  intro x hx
  exact modify_of_ne f fun heq => hx (heq ▸ ht)

theorem TaskTimer.setQueue {q : U32} (h : TaskTimer taskTimer task others s) (hq : q ≠ taskTimer)
    (queue : Queue8) : TaskTimer taskTimer task others (s.setQueue q queue) :=
  h.congr rfl (fun _ => rfl) (fun _ => rfl) (fun _ => rfl) (fun _ _ => rfl)
    (Function.update_of_ne hq.symm ..)

theorem TaskTimer.resetNext (h : TaskTimer taskTimer task others s) (ht : t ∈ others)
    (point : Option Reset) : TaskTimer taskTimer task others (s.resetNext t point).2 := by
  unfold Timers.resetNext
  split
  · dsimp only
    apply h.modify ht
    exact fun a => ⟨rfl, rfl, rfl⟩
  · dsimp only
    apply h.modify ht
    exact fun a => ⟨rfl, rfl, rfl⟩
  · split
    · dsimp only
      apply h.modify ht
      exact fun a => ⟨rfl, rfl, rfl⟩
    · exact h.setQueue (h.others t ht) _

theorem TaskTimer.timerAlloc {k k' : Kernel} {q interval : U32} {mode : U8}
    (h : TaskTimer taskTimer task others s) (hq : q ≠ taskTimer)
    (ht : t ∉ s.head :: task :: others)
    (halloc : s.timerAlloc fuel k q interval mode = some (t, k', r)) :
    TaskTimer taskTimer task (others ++ [t]) r ∧ r.head = s.head := by
  obtain ⟨hlist, hhead, hqueue, hnew, hold⟩ := timerAlloc_twoWay h.list ht halloc
  simp only [List.mem_cons, not_or] at ht
  refine ⟨⟨?_, ?_, ?_, ?_, ?_⟩, hhead⟩
  · rw [hhead]
    exact hlist
  · rw [hhead, (hold _ (Ne.symm ht.1)).2.1]
    exact h.dummy
  · exact h.task.trans (hold _ (Ne.symm ht.2.1))
  · rw [hqueue]
    exact h.ready
  · intro x hx
    rcases List.mem_append.mp hx with hx | hx
    · have hxt : x ≠ t := fun heq => ht.2.2 (heq ▸ hx)
      rw [(hold x hxt).1]
      exact h.others x hx
    · rw [List.mem_singleton.mp hx, hnew.1]
      exact hq

theorem TaskTimer.unlink (h : TaskTimer taskTimer task others s) (ht : t ∈ others)
    (hfree : s.unlink t = some r) :
    TaskTimer taskTimer task (others.erase t) r ∧ r.head = s.head := by
  have hne : t ≠ task := fun heq => h.nodup.2.2 (heq ▸ ht)
  obtain ⟨r', hr', hlist, hhead, hqueue, hsame⟩ :=
    unlink_erase h.list (List.mem_cons_of_mem task ht)
  cases hfree.symm.trans hr'
  refine ⟨⟨?_, ?_, ?_, ?_, ?_⟩, hhead⟩
  · rw [hhead, ← List.erase_cons_tail (by simpa using hne.symm)]
    exact hlist
  · rw [hhead, (hsame _).2.1]
    exact h.dummy
  · exact h.task.trans (hsame _)
  · rw [hqueue]
    exact h.ready
  · intro x hx
    rw [(hsame x).1]
    exact h.others x (List.mem_of_mem_erase hx)

end Timers

/-- `live` lists the ranges that `kvmalloc` handed out, `ctl` is `sys->timerctl`, `task` the task
timer, `others` the timers besides it and the dummy. -/
structure TimerState where
  heap : Kernel
  live : List (U32 × U32)
  timers : Timers
  ctl : U32
  task : U32
  others : List U32
  resets : U32 → Option Timers.Reset

namespace TimerState

/-- The blocks that the other code of the kernel does not free. -/
def blocks (s : TimerState) (taskTimer : U32) : List U32 :=
  [s.ctl, taskTimer, s.timers.head, s.task] ++ s.others

end TimerState

inductive TimerEvent where
  | interrupt
  | alloc (q interval : U32) (mode : U8)
  | free (t : U32)
  /-- The next statement of the `timer_reset` of `t`. -/
  | reset (t : U32)
  /-- Other code works on a queue. -/
  | queue (q : U32) (queue : Queue8)
  /-- Other code calls `kvmalloc` or `kvfree`. -/
  | heap (op : HeapOp)

inductive TimerStep (taskTimer : U32) : TimerState → TimerEvent → TimerState → Prop where
  | interrupt {s : TimerState} {n : Nat} {r : Timers} (fuel : Nat) :
      s.timers.timerInterrupt taskTimer fuel = some (n, r) →
      TimerStep taskTimer s .interrupt { s with timers := r }
  | alloc {s : TimerState} {q interval t : U32} {mode : U8} {k : Kernel} {r : Timers}
      (fuel : Nat) : q ≠ taskTimer →
      s.timers.timerAlloc fuel s.heap q interval mode = some (t, k, r) →
      TimerStep taskTimer s (.alloc q interval mode)
        { s with heap := k, live := (t, memPageSize) :: s.live, timers := r,
                 others := s.others ++ [t] }
  | free {s : TimerState} {t : U32} {k : Kernel} {r : Timers} (fuel : Nat) :
      t ∈ s.others → s.resets t = none → s.timers.timerFree fuel s.heap t = some (k, r) →
      TimerStep taskTimer s (.free t)
        { s with heap := k, live := s.live.erase (t, memPageSize), timers := r,
                 others := s.others.erase t }
  | reset {s : TimerState} {t : U32} : t ∈ s.others →
      TimerStep taskTimer s (.reset t)
        { s with timers := (s.timers.resetNext t (s.resets t)).2,
                 resets := Function.update s.resets t (s.timers.resetNext t (s.resets t)).1 }
  | queue {s : TimerState} {q : U32} (queue : Queue8) : q ≠ taskTimer →
      TimerStep taskTimer s (.queue q queue) { s with timers := s.timers.setQueue q queue }
  | heap {s : TimerState} {op : HeapOp} {k : Kernel} {live : List (U32 × U32)} :
      SessionStep (s.heap, s.live) op (k, live) →
      (∀ addr, op = .kvfree addr → addr ∉ s.blocks taskTimer) →
      TimerStep taskTimer s (.heap op) { s with heap := k, live := live }

def TimerEvent.request : TimerEvent → Option U32
  | .alloc _ _ _ => some sizeofTimer
  | .heap (.kvmalloc size _) => some size
  | _ => none

/-- Any step of the source. Where no record or page is left `vmalloc` goes on through `NULL`, over
memory that is mapped, and nothing is said of what such a step leaves. -/
inductive SourceStep (taskTimer : U32) : TimerState → TimerEvent → TimerState → Prop where
  | returns {s s' : TimerState} {e : TimerEvent} : TimerStep taskTimer s e s' →
      SourceStep taskTimer s e s'
  | exhausted {s s' : TimerState} {e : TimerEvent} {size : U32} {f : Fault} (fuel : Nat) :
      e.request = some size → s.heap.kvmalloc fuel size = .error f → f ≠ .diverges →
      SourceStep taskTimer s e s'

/-- `Main` after `init_kvmalloc`: `timer_init`, the queue of the task timer, and the timer. -/
def startTimers (fuel : Nat) (s : Session) (timers : Timers) (bytes : Nat → U8) :
    Option (U32 × TimerState) := do
  let (ctl, k, timers) ← timers.timerInit fuel s.1
  let (taskTimer, k, timers) ← timers.q8Make fuel k timerQueueSize 0 bytes
  let (task, k, timers) ← timers.timerAlloc fuel k taskTimer 1 timerModeOneshot
  return (taskTimer, {
    heap := k
    live := (task, memPageSize) :: (taskTimer, memPageSize) :: (timers.head, memPageSize) ::
      (ctl, memPageSize) :: s.2
    timers, ctl, task, others := [], resets := fun _ => none })

/-- The block that a call frees is joined to no record that does not link to it. -/
def OwnFreesLinked (s : TimerState) : TimerEvent → Prop
  | .free t => FreesLinked (s.heap, s.live) (.kvfree t)
  | .heap op => FreesLinked (s.heap, s.live) op
  | _ => True

/-- The `kvmalloc` of a step finds what it needs. -/
def StepSupplied (s : TimerState) (e : TimerEvent) : Prop := ∀ size ∈ e.request, s.heap.Supplied size

theorem SourceStep.timerStep {taskTimer : U32} (s : TimerState) (e : TimerEvent) (s' : TimerState)
    (h : SourceStep taskTimer s e s' ∧ StepSupplied s e) : TimerStep taskTimer s e s' := by
  obtain ⟨hstep, hsupplied⟩ := h
  cases hstep with
  | returns hstep => exact hstep
  | exhausted fuel hrequest herr hfault =>
    exact absurd (Kernel.kvmalloc_supplied (hsupplied _ hrequest) herr) hfault

structure TimerInv (start stop taskTimer : U32) (s : TimerState) : Prop where
  session : SessionInv start stop (s.heap, s.live)
  timers : s.timers.TaskTimer taskTimer s.task s.others
  distinct : (s.blocks taskTimer).Nodup
  blocks : ∀ t ∈ s.blocks taskTimer, (t, memPageSize) ∈ s.live

/-- The next timer interrupt returns, calls `sched_handler` once and leaves `sys->task_timer`
empty. -/
def Preempts (taskTimer : U32) (s : TimerState) : Prop :=
  (∃ fuel n r, s.timers.timerInterrupt taskTimer fuel = some (n, r)) ∧
    ∀ fuel n r, s.timers.timerInterrupt taskTimer fuel = some (n, r) →
      n = 1 ∧ q8Empty (r.queue taskTimer) = true

section Invariant
variable {start stop taskTimer : U32} {s s' : TimerState}

theorem TimerInv.preempts (h : TimerInv start stop taskTimer s) : Preempts taskTimer s := by
  refine ⟨h.timers.interrupt_returns, ?_⟩
  intro fuel n r hi
  obtain ⟨hn, _, hr⟩ := h.timers.interrupt hi
  exact ⟨hn, hr.ready.empty⟩

theorem nodup_of_disjoint {live : List (U32 × U32)} (h : live.Pairwise RangesDisjoint)
    (hpos : ∀ r ∈ live, 0 < r.2.toNat) : (live.map Prod.fst).Nodup := by
  refine List.pairwise_map.mpr (h.imp_of_mem ?_)
  intro x y hx hy hdisj heq
  have hposx := hpos x hx
  have hposy := hpos y hy
  unfold RangesDisjoint at hdisj
  rw [heq] at hdisj
  omega

theorem notMem_of_disjoint {t x size : U32} {live : List (U32 × U32)}
    (h : ((t, size) :: live).Pairwise RangesDisjoint) (hpos : 0 < size.toNat)
    (hx : (x, size) ∈ live) : x ≠ t := by
  intro heq
  subst x
  have hself := (List.pairwise_cons.mp h).1 _ hx
  unfold RangesDisjoint at hself
  dsimp only at hself
  omega

theorem kvmalloc_page {k : Kernel} {fuel : Nat} {size : U32}
    (hsize : roundup size memPageSize = memPageSize) :
    k.kvmalloc fuel size = k.kvmalloc fuel memPageSize := by
  rw [Kernel.kvmalloc, Kernel.vmalloc_roundup, hsize]
  rfl

theorem sessionStep_page {k k' : Kernel} {fuel : Nat} {size addr : U32}
    {live : List (U32 × U32)} (hsize : roundup size memPageSize = memPageSize)
    (h : k.kvmalloc fuel size = .ok (addr, k')) :
    SessionStep (k, live) (.kvmalloc memPageSize addr) (k', (addr, memPageSize) :: live) :=
  .kvmalloc (.kvmalloc fuel (by decide) (by decide) (kvmalloc_page hsize ▸ h))

theorem sessionStep_erase {k k' : Kernel} {fuel : Nat} {size addr : U32}
    {live : List (U32 × U32)} (hmem : (addr, size) ∈ live) (h : k.kvfree fuel addr = .ok k') :
    SessionStep (k, live) (.kvfree addr) (k', live.erase (addr, size)) := by
  obtain ⟨live₁, live₂, _, heq, herase⟩ := List.exists_erase_eq hmem
  rw [herase, heq]
  exact .kvfree (.kvfree fuel h)

theorem TimerInv.setTimers {r : Timers} {resets : U32 → Option Timers.Reset}
    (h : TimerInv start stop taskTimer s) (hhead : r.head = s.timers.head)
    (hr : r.TaskTimer taskTimer s.task s.others) :
    TimerInv start stop taskTimer { s with timers := r, resets := resets } := by
  have hblocks : TimerState.blocks { s with timers := r, resets := resets } taskTimer =
      s.blocks taskTimer := by
    simp only [TimerState.blocks, hhead]
  exact ⟨h.session, hr, hblocks ▸ h.distinct, fun t ht => h.blocks t (hblocks ▸ ht)⟩

theorem TimerInv.alloc {q interval t : U32} {mode : U8} {k : Kernel} {r : Timers} {fuel : Nat}
    (h : TimerInv start stop taskTimer s) (hq : q ≠ taskTimer)
    (halloc : s.timers.timerAlloc fuel s.heap q interval mode = some (t, k, r)) :
    TimerInv start stop taskTimer { s with
      heap := k, live := (t, memPageSize) :: s.live, timers := r, others := s.others ++ [t] } := by
  obtain ⟨last, _, hret, _⟩ := Timers.timerAlloc_cases halloc
  have hcall : SessionStep (s.heap, s.live) _ (k, _ :: s.live) :=
    sessionStep_page (by decide) hret
  have hsession := sessionInv_step _ (.kvmalloc memPageSize t) _ h.session trivial hcall
  have hnew : t ∉ s.blocks taskTimer := fun ht =>
    notMem_of_disjoint hsession.disjoint (by decide) (h.blocks t ht) rfl
  have hlist : t ∉ s.timers.head :: s.task :: s.others := by
    intro ht
    exact hnew (List.mem_cons_of_mem _ (List.mem_cons_of_mem _ ht))
  obtain ⟨htimers, hhead⟩ := h.timers.timerAlloc hq hlist halloc
  have hblocks : TimerState.blocks { s with
      heap := k, live := (t, memPageSize) :: s.live, timers := r,
      others := s.others ++ [t] } taskTimer = s.blocks taskTimer ++ [t] := by
    simp only [TimerState.blocks, hhead, List.append_assoc]
  refine ⟨hsession, htimers, ?_, ?_⟩
  · rw [hblocks]
    exact List.Nodup.append h.distinct (List.nodup_singleton t)
      (List.disjoint_singleton.mpr hnew)
  · intro x hx
    rw [hblocks] at hx
    rcases List.mem_append.mp hx with hx | hx
    · exact List.mem_cons_of_mem _ (h.blocks x hx)
    · rw [List.mem_singleton.mp hx]
      exact List.mem_cons_self

theorem TimerInv.free {t : U32} {k : Kernel} {r : Timers} {fuel : Nat}
    (h : TimerInv start stop taskTimer s) (ht : t ∈ s.others)
    (hguard : FreesLinked (s.heap, s.live) (.kvfree t))
    (hfree : s.timers.timerFree fuel s.heap t = some (k, r)) :
    TimerInv start stop taskTimer { s with
      heap := k, live := s.live.erase (t, memPageSize), timers := r,
      others := s.others.erase t } := by
  obtain ⟨hunlink, hret⟩ := Timers.timerFree_cases hfree
  obtain ⟨htimers, hhead⟩ := h.timers.unlink ht hunlink
  have hmem : t ∈ s.blocks taskTimer := List.mem_append_right _ ht
  have hcall := sessionStep_erase (h.blocks t hmem) hret
  have hfixed : t ∉ [s.ctl, taskTimer, s.timers.head, s.task] := fun hm =>
    (List.nodup_append.mp h.distinct).2.2 t hm t ht rfl
  have hblocks : TimerState.blocks { s with
      heap := k, live := s.live.erase (t, memPageSize), timers := r,
      others := s.others.erase t } taskTimer = (s.blocks taskTimer).erase t := by
    rw [TimerState.blocks, TimerState.blocks, List.erase_append_right _ hfixed]
    dsimp only
    rw [hhead]
  refine ⟨sessionInv_step _ _ _ h.session hguard hcall, htimers, ?_, ?_⟩
  · rw [hblocks]
    exact h.distinct.erase t
  · intro x hx
    rw [hblocks, h.distinct.mem_erase_iff] at hx
    refine (List.mem_erase_of_ne ?_).mpr (h.blocks x hx.2)
    intro heq
    exact hx.1 (Prod.mk.inj heq).1

theorem TimerInv.heap {op : HeapOp} {k : Kernel} {live : List (U32 × U32)}
    (h : TimerInv start stop taskTimer s) (hguard : FreesLinked (s.heap, s.live) op)
    (hstep : SessionStep (s.heap, s.live) op (k, live))
    (howner : ∀ addr, op = .kvfree addr → addr ∉ s.blocks taskTimer) :
    TimerInv start stop taskTimer { s with heap := k, live := live } := by
  refine ⟨sessionInv_step _ _ _ h.session hguard hstep, h.timers, h.distinct, ?_⟩
  intro x hx
  have hmem := h.blocks x hx
  generalize hst : (s.heap, s.live) = st at hstep
  generalize hst' : (k, live) = st' at hstep
  cases hstep with
  | kvmalloc hcall =>
    cases hst
    cases hst'
    exact List.mem_cons_of_mem _ hmem
  | @kvfree _ _ live₁ live₂ size addr hcall =>
    have hlive := (Prod.mk.inj hst).2
    cases hst'
    rw [hlive] at hmem
    rcases List.mem_append.mp hmem with hmem | hmem
    · exact List.mem_append_left _ hmem
    · rcases List.mem_cons.mp hmem with heq | hmem
      · exact absurd ((Prod.mk.inj heq).1 ▸ hx) (howner addr rfl)
      · exact List.mem_append_right _ hmem

theorem timerInv_step (s : TimerState) (e : TimerEvent) (s' : TimerState)
    (h : TimerInv start stop taskTimer s) (hguard : OwnFreesLinked s e)
    (hstep : TimerStep taskTimer s e s') : TimerInv start stop taskTimer s' := by
  cases hstep with
  | interrupt fuel hi =>
    obtain ⟨_, hhead, hr⟩ := h.timers.interrupt hi
    exact h.setTimers hhead hr
  | alloc fuel hq halloc => exact h.alloc hq halloc
  | free fuel ht _ hfree => exact h.free ht hguard hfree
  | reset ht => exact h.setTimers (Timers.resetNext_head _) (h.timers.resetNext ht _)
  | queue queue hq => exact h.setTimers rfl (h.timers.setQueue hq queue)
  | heap hstep howner => exact h.heap hguard hstep howner

theorem timerInv_start {s₀ : Session} {timers : Timers} {bytes : Nat → U8} {fuel : Nat}
    (h : SessionInv start stop s₀)
    (hstart : startTimers fuel s₀ timers bytes = some (taskTimer, s)) :
    TimerInv start stop taskTimer s := by
  obtain ⟨⟨ctl, k₂, t₂⟩, hinit, hstart⟩ := Option.bind_eq_some_iff.mp hstart
  obtain ⟨⟨queue, k₃, t₃⟩, hmake, hstart⟩ := Option.bind_eq_some_iff.mp hstart
  obtain ⟨⟨task, k₄, t₄⟩, halloc, hstart⟩ := Option.bind_eq_some_iff.mp hstart
  cases hstart
  obtain ⟨k₁, dummy, hctl, hdummy, rfl⟩ := Timers.timerInit_cases hinit
  obtain ⟨hqueue, buf, rfl⟩ := Timers.q8Make_cases hmake
  obtain ⟨last, _, htask, _⟩ := Timers.timerAlloc_cases halloc
  -- four pages, one after the other
  have h₁ := sessionInv_step _ (.kvmalloc memPageSize ctl) _ h trivial
    (sessionStep_page (by decide) hctl)
  have h₂ := sessionInv_step _ (.kvmalloc memPageSize dummy) _ h₁ trivial
    (sessionStep_page (by decide) hdummy)
  have h₃ := sessionInv_step _ (.kvmalloc memPageSize taskTimer) _ h₂ trivial
    (sessionStep_page (by decide) hqueue)
  have h₄ := sessionInv_step _ (.kvmalloc memPageSize task) _ h₃ trivial
    (sessionStep_page (by decide) htask)
  have hpages : ([(task, memPageSize), (taskTimer, memPageSize), (dummy, memPageSize),
      (ctl, memPageSize)].map Prod.fst).Nodup := by
    apply nodup_of_disjoint
    · exact h₄.disjoint.sublist (List.sublist_append_left _ s₀.2)
    · intro r hr
      simp only [List.mem_cons, List.not_mem_nil, or_false] at hr
      have hpage : 0 < memPageSize.toNat := by decide
      rcases hr with rfl | rfl | rfl | rfl <;> exact hpage
  simp only [List.map_cons, List.map_nil, List.nodup_cons, List.mem_cons, List.not_mem_nil,
    or_false, not_or, not_false_eq_true, List.nodup_nil, and_true] at hpages
  obtain ⟨⟨htq, htd, htc⟩, ⟨hqd, hqc⟩, hdc⟩ := hpages
  have hlist := (Timers.twoWay_init timers dummy).setQueue taskTimer
    (q8Init buf (timerQueueSize + 1) 0)
  obtain ⟨hlist', hhead, hqueues, hnew, hold⟩ := Timers.timerAlloc_twoWay hlist
    (fun hm => htd (List.mem_singleton.mp hm)) halloc
  have hhead' : t₄.head = dummy := hhead
  rw [← hhead'] at h₄
  refine ⟨h₄, ⟨?_, ?_, hnew, ?_, ?_⟩, ?_, ?_⟩
  · rw [hhead']
    exact hlist'
  · rw [hhead', (hold dummy (Ne.symm htd)).2.1, Timers.setQueue_timer, Timers.modify_self]
  · rw [hqueues, Timers.setQueue_self]
    exact q8Init_ready (by decide) buf 0
  · exact fun t ht => absurd ht List.not_mem_nil
  · simp only [TimerState.blocks, hhead', List.append_nil, List.nodup_cons, List.mem_cons,
      List.not_mem_nil, or_false, not_or, not_false_eq_true, List.nodup_nil, and_true]
    exact ⟨⟨Ne.symm hqc, Ne.symm hdc, Ne.symm htc⟩, ⟨hqd, Ne.symm htq⟩, Ne.symm htd⟩
  · intro x hx
    simp only [TimerState.blocks, hhead', List.append_nil, List.mem_cons, List.not_mem_nil,
      or_false] at hx
    rcases hx with rfl | rfl | rfl | rfl <;> simp [hhead']

end Invariant

instance (s : TimerState) : (e : TimerEvent) → Decidable (OwnFreesLinked s e)
  | .free t => inferInstanceAs (Decidable (FreesLinked (s.heap, s.live) (.kvfree t)))
  | .heap op => inferInstanceAs (Decidable (FreesLinked (s.heap, s.live) op))
  | .interrupt | .alloc .. | .reset _ | .queue .. => isTrue trivial

namespace TimerState

def perform (taskTimer : U32) (s : TimerState) : TimerEvent → Option (TimerEvent × TimerState)
  | .interrupt => (s.timers.timerInterrupt taskTimer vmemMaxUnits).map fun r =>
      (.interrupt, { s with timers := r.2 })
  | .alloc q interval mode =>
    if q ≠ taskTimer then
      (s.timers.timerAlloc (vmemMaxUnits + 1) s.heap q interval mode).map fun r =>
        (.alloc q interval mode,
          { s with heap := r.2.1, live := (r.1, memPageSize) :: s.live, timers := r.2.2,
                   others := s.others ++ [r.1] })
    else none
  | .free t =>
    if t ∈ s.others ∧ s.resets t = none then
      (s.timers.timerFree vmemMaxUnits s.heap t).map fun r =>
        (.free t,
          { s with heap := r.1, live := s.live.erase (t, memPageSize), timers := r.2,
                   others := s.others.erase t })
    else none
  | _ => none

theorem perform_step {taskTimer : U32} (s : TimerState) (e e' : TimerEvent) (s' : TimerState)
    (h : s.perform taskTimer e = some (e', s')) : TimerStep taskTimer s e' s' := by
  cases e with
  | interrupt =>
    obtain ⟨⟨n, r⟩, hi, heq⟩ := Option.map_eq_some_iff.mp h
    cases heq
    exact .interrupt _ hi
  | alloc q interval mode =>
    simp only [perform] at h
    split at h
    · rename_i hq
      obtain ⟨⟨t, k, r⟩, halloc, heq⟩ := Option.map_eq_some_iff.mp h
      cases heq
      exact .alloc _ hq halloc
    · cases h
  | free t =>
    simp only [perform] at h
    split at h
    · rename_i ht
      obtain ⟨⟨k, r⟩, hfree, heq⟩ := Option.map_eq_some_iff.mp h
      cases heq
      exact .free _ ht.1 ht.2 hfree
    · cases h
  | reset => cases h
  | queue => cases h
  | heap => cases h

end TimerState

def noTimers : Timers := ⟨fun _ => ⟨none, none, 0, 0, 0, 0⟩, fun _ => q8Init (fun _ => 0) 0 0, 0⟩

def performed (es : List TimerEvent) :
    Option (Kernel × (U32 × TimerState) × List (TimerState × TimerEvent × TimerState) ×
      TimerState) :=
  match bareKernel.initVmalloc vmallocStart vmallocInitEnd kernelPdt with
  | .error _ => none
  | .ok k₁ => do
    let r ← startTimers (vmemMaxUnits + 1) (k₁, []) noTimers fun _ => 0
    let u ← Run.exec (TimerState.perform r.1) es r.2
    return (k₁, r, u)

/-- In every run whose `kvmalloc` calls find their records and pages and whose `kvfree` calls join no
block to a record that does not link to it, each timer interrupt schedules once and leaves
`sys->task_timer` empty. -/
theorem preemption_kept {k₀ k₁ : Kernel} {start stop pdt taskTimer : U32}
    (hle : start.toNat ≤ stop.toNat) (hinit : k₀.initVmalloc start stop pdt = .ok k₁)
    {tr₀ : List (Session × HeapOp × Session)} {s₀ : Session}
    (hheap : Run SessionStep (k₁, []) tr₀ s₀) (hheap' : Run.Guarded FreesLinked tr₀)
    {fuel : Nat} {timers : Timers} {bytes : Nat → U8} {s₁ : TimerState}
    (hstart : startTimers fuel s₀ timers bytes = some (taskTimer, s₁))
    {tr : List (TimerState × TimerEvent × TimerState)} {s : TimerState}
    (hrun : Run (SourceStep taskTimer) s₁ tr s) (hsupplied : Run.Guarded StepSupplied tr)
    (hguard : Run.Guarded OwnFreesLinked tr) : Preempts taskTimer s := by
  have hsession := hheap.invariant (sessionInv_init hle hinit) sessionInv_step hheap'
  have hinv := timerInv_start hsession hstart
  have hsteps := (hrun.guard hsupplied).mono SourceStep.timerStep
  exact (hsteps.invariant hinv timerInv_step hguard).preempts

/-- Behind the task timer the list runs into a ring. -/
theorem not_preempts_of_endless {taskTimer task t : U32} {s : TimerState} {c : List U32}
    (hdummy : (s.timers.timer s.timers.head).interval = 0)
    (htask : (s.timers.timer s.timers.head).next = some task) (hstops : ¬ s.timers.Stops task)
    (hnext : (s.timers.timer task).next = some t) (hring : s.timers.Endless c) (ht : t ∈ c) :
    ¬ Preempts taskTimer s := by
  have hnone : ∀ fuel, s.timers.timerTick fuel = none := by
    intro fuel
    rcases fuel with _ | _ | fuel
    · rfl
    · rw [Timers.timerTick, Timers.tickFrom, if_pos hdummy, htask]
      rfl
    · rw [Timers.timerTick, Timers.tickFrom, if_pos hdummy, htask, Timers.tickFrom_pass hstops,
        hnext]
      exact (hring.frame (Timers.frame_tickOne s.timers task)).tickFrom ht fuel
  rintro ⟨⟨fuel, n, r, hi⟩, _⟩
  rw [Timers.timerInterrupt, hnone] at hi
  cases hi

theorem performed_run {es : List TimerEvent} {β : Type} {f : _ → β} {y : β}
    (h : (performed es).map f = some y) : ∃ k₁ taskTimer s₁ tr s,
      bareKernel.initVmalloc vmallocStart vmallocInitEnd kernelPdt = .ok k₁ ∧
      startTimers (vmemMaxUnits + 1) (k₁, []) noTimers (fun _ => 0) = some (taskTimer, s₁) ∧
      Run (TimerStep taskTimer) s₁ tr s ∧ f (k₁, (taskTimer, s₁), tr, s) = y := by
  obtain ⟨⟨k₁, ⟨taskTimer, s₁⟩, tr, s⟩, hperformed, hy⟩ := Option.map_eq_some_iff.mp h
  unfold performed at hperformed
  split at hperformed
  · cases hperformed
  · rename_i hinit
    obtain ⟨r, hstart, hrest⟩ := Option.bind_eq_some_iff.mp hperformed
    obtain ⟨u, hexec, heq⟩ := Option.bind_eq_some_iff.mp hrest
    cases heq
    exact ⟨k₁, taskTimer, s₁, tr, s, hinit, hstart, Run.exec_run TimerState.perform_step hexec, hy⟩

/-- Two timers come and one goes, with interrupts in between. -/
theorem preemption_kept_two : ∃ k₁ taskTimer s₁ tr s,
    bareKernel.initVmalloc vmallocStart vmallocInitEnd kernelPdt = .ok k₁ ∧
      startTimers (vmemMaxUnits + 1) (k₁, []) noTimers (fun _ => 0) = some (taskTimer, s₁) ∧
      Run (SourceStep taskTimer) s₁ tr s ∧ tr.length = 5 ∧ Preempts taskTimer s := by
  let pages : List PPtr := [⟨20, by decide⟩]
  have hperformed : (performed [.alloc 0xa000 3 timerModeOneshot, .interrupt,
      .alloc 0xb000 1 timerModeContinues, .interrupt, .free 0x3004000]).map
      (fun r => (decide (Run.Guarded OwnFreesLinked r.2.2.1), r.2.2.1.length,
        r.2.2.1.all fun x =>
          x.2.1.request.all fun size => decide (Kernel.HasLeft 20 pages x.1.heap size))) =
      some (true, 5, true) := by
    decide +kernel
  obtain ⟨k₁, taskTimer, s₁, tr, s, hinit, hstart, hrun, heq⟩ := performed_run hperformed
  simp only [Prod.mk.injEq, decide_eq_true_eq] at heq
  obtain ⟨hguard, hlen, hleft⟩ := heq
  have hsupplied : Run.Guarded StepSupplied tr := by
    intro x hx size hsize
    have hx' := List.all_eq_true.mp hleft x hx
    rw [Option.mem_def.mp hsize] at hx'
    exact Kernel.HasLeft.supplied (by decide) (of_decide_eq_true hx')
  have hsteps := hrun.mono fun _ _ _ => SourceStep.returns
  exact ⟨k₁, taskTimer, s₁, tr, s, hinit, hstart, hsteps, hlen,
    preemption_kept (by decide) hinit (.nil _) (Run.guarded_nil _) hstart hsteps hsupplied hguard⟩

/-- Four timers; the first two go, and two new ones take their blocks. When the first and the third
go, the page of a live timer becomes free with them, and the next timer but one gets it. -/
theorem preemption_lost : ∃ k₁ taskTimer s₁ tr s,
    bareKernel.initVmalloc vmallocStart vmallocInitEnd kernelPdt = .ok k₁ ∧
      startTimers (vmemMaxUnits + 1) (k₁, []) noTimers (fun _ => 0) = some (taskTimer, s₁) ∧
      Run (TimerStep taskTimer) s₁ tr s ∧ ¬ Preempts taskTimer s := by
  have hperformed : (performed [.alloc 0xb000 0 0, .alloc 0xb000 0 0, .alloc 0xb000 0 0,
      .alloc 0xb000 0 0, .free 0x3004000, .free 0x3005000, .alloc 0xb000 0 0, .alloc 0xb000 0 0,
      .free 0x3004000, .free 0x3006000, .alloc 0xb000 0 0, .alloc 0xb000 0 0,
      .free 0x3004000]).map
      (fun r =>
        let s := r.2.2.2.timers
        (s.head, s.timer 0x3001000, s.timer 0x3003000, q8Empty (s.queueOf 0x3003000),
          s.timer 0x3007000, s.timer 0x3005000)) =
      some (0x3001000, ⟨some 0x3003000, none, 0, 0, 0, 0⟩,
        ⟨some 0x3007000, some 0x3001000, 0x3002000, 1, 1, 1⟩, true,
        ⟨some 0x3005000, some 0x3003000, 0xb000, 0, 0, 0⟩,
        ⟨some 0x3005000, some 0x3005000, 0xb000, 0, 0, 0⟩) := by
    decide +kernel
  obtain ⟨k₁, taskTimer, s₁, tr, s, hinit, hstart, hrun, heq⟩ := performed_run hperformed
  simp only [Prod.mk.injEq] at heq
  obtain ⟨hhead, hdummy, htask, hempty, hlast, hring⟩ := heq
  refine ⟨k₁, taskTimer, s₁, tr, s, hinit, hstart, hrun, ?_⟩
  have hnext : (s.timers.timer s.timers.head).next = some 0x3003000 := by
    rw [hhead, hdummy]
  refine not_preempts_of_endless (t := 0x3007000) (c := [0x3007000, 0x3005000]) ?_ hnext ?_ ?_ ?_ ?_
  · rw [hhead, hdummy]
  · exact fun hstops => hstops.2.2 hempty
  · rw [htask]
  · constructor
    · refine List.forall_mem_cons.mpr ⟨?_, List.forall_mem_singleton.mpr ?_⟩
      · exact ⟨0x3005000, List.mem_cons_of_mem _ List.mem_cons_self, by rw [hlast]⟩
      · exact ⟨0x3005000, List.mem_cons_of_mem _ List.mem_cons_self, by rw [hring]⟩
    · refine List.forall_mem_cons.mpr ⟨?_, List.forall_mem_singleton.mpr ?_⟩
      · exact .inl (by rw [hlast])
      · exact .inl (by rw [hring])
  · exact List.mem_cons_self

end Uroboros
