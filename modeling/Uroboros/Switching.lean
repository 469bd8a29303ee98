import Uroboros.ContextSwitch

/-!
# Processes as coroutines

The machine with all processes, as a refinement of the coroutines of the library: each
process is a coroutine whose state is its frame.
-/

set_option autoImplicit false

namespace Uroboros

open ByteMemory X86 MachineState Coroutines

/-- `sizeof(Cpu)`: two pointers and 16 processes of 32 bytes. -/
def sizeofCpu : Nat := 8 + 32 * processCount

def cpuRegion (cpu : U32) : Region := ⟨cpu.toNat, cpu.toNat + sizeofCpu⟩

/-- `&cpu->sched.proc[i].context`. -/
def contextCell (cpu : U32) (i : Slot) : U32 := cpu + 12 + 32 * BitVec.ofNat 32 i.val

def InCell (cpu : U32) (i : Slot) (x : U32) : Prop :=
  (contextCell cpu i).toNat ≤ x.toNat ∧ x.toNat < (contextCell cpu i).toNat + 4

/-- The machine, the slot whose code runs, and the stacks of the slots in use. -/
structure Switching where
  m : MachineState
  current : Slot
  stack : Slot → Option Region

namespace Switching

variable (cpu : U32)

def context (s : Switching) (k : Slot) : U32 := load32 s.m.mem (contextCell cpu k)

/-- The running process writes neither to the stack nor to the context pointer of another one. -/
def Keeps (s : Switching) (m : MachineState) : Prop :=
  ∀ k r, k ≠ s.current → s.stack k = some r → ∀ x, r.Contains x ∨ InCell cpu k x →
    m.mem x = s.m.mem x

/-- The running process has called `context_switch(&proc->context, proc[k].context)`; only code of
the kernel does. -/
structure Calls (s : Switching) (k : Slot) : Prop where
  cs : s.m.sreg .cs = kernelCode
  ss : s.m.sreg .ss = kernelData
  other : k ≠ s.current
  used : (s.stack k).isSome
  old : load32 s.m.mem (s.m.reg .esp + 4) = contextCell cpu s.current
  new : load32 s.m.mem (s.m.reg .esp + 8) = s.context cpu k

/-- The call and the context that it pushes lie in the stack of the running process. -/
def Room (s : Switching) : Prop :=
  ∃ r, s.stack s.current = some r ∧ r.bottom + 16 ≤ (s.m.reg .esp).toNat ∧
    (s.m.reg .esp).toNat + 12 ≤ r.top

/-- The block of `kvmalloc` for a stack is not in use, neither by a process nor by the table. -/
structure Fresh (s : Switching) (taskStack : U32) : Prop where
  top_lt : taskStack.toNat + ktaskStackSize.toNat < 2 ^ 32
  others : ∀ k r, s.stack k = some r →
    r.Apart ⟨taskStack.toNat, taskStack.toNat + ktaskStackSize.toNat⟩
  table : Region.Apart ⟨taskStack.toNat, taskStack.toNat + ktaskStackSize.toNat⟩ (cpuRegion cpu)

/-- `ktask_init` of slot `k`: the stack, and `proc->context`. -/
def create (s : Switching) (k : Slot) (taskStack entry : U32) (args : List U8) (ret : U32) :
    Switching :=
  let image := ktaskInit s.m.mem taskStack entry args ret
  { s with
    m := { s.m with mem := store32 image.mem (contextCell cpu k) image.context }
    stack := Function.update s.stack k
      (some ⟨taskStack.toNat, taskStack.toNat + ktaskStackSize.toNat⟩) }

/-- `context_switch` to the context of slot `k`. -/
def switchTo (s : Switching) (k : Slot) : Switching :=
  { s with m := contextSwitch s.m, current := k }

def drop (s : Switching) (k : Slot) : Switching :=
  { s with stack := Function.update s.stack k none }

/-- What happens: the running process computes up to the machine `m`, or calls. -/
inductive SwitchEvent where
  | work (m : MachineState)
  | create (k : Slot) (taskStack entry : U32) (args : List U8) (ret : U32)
  | kill (k : Slot)
  | transfer (k : Slot)
  | exit (k : Slot)

def SwitchEvent.event : SwitchEvent → Event Slot
  | .work _ => .work
  | .create k .. => .create k
  | .kill k => .kill k
  | .transfer k => .transfer k
  | .exit k => .exit k

/-- `ktask_exit` is a transfer of a process that is free already. -/
inductive Step : Switching → SwitchEvent → Switching → Prop where
  | work (s : Switching) (m : MachineState) : Step s (.work m) { s with m }
  | create (s : Switching) (k : Slot) (taskStack entry : U32) (args : List U8) (ret : U32) :
      k ≠ s.current → s.stack k = none →
      Step s (.create k taskStack entry args ret) (s.create cpu k taskStack entry args ret)
  | kill (s : Switching) (k : Slot) : k ≠ s.current →
      Step s (.kill k) (s.drop k)
  | transfer (s : Switching) (k : Slot) : s.Calls cpu k →
      Step s (.transfer k) (s.switchTo k)
  | exit (s : Switching) (k : Slot) : s.Calls cpu k →
      Step s (.exit k) ((s.switchTo k).drop s.current)

/-- The processes keep to their stacks: none writes to what is another's, a new one gets a block
that is not in use and large enough for its arguments, and none switches past the end of its
stack. `kvmalloc` keeps to the second while its blocks are disjoint. -/
def KeepsApart (s : Switching) : SwitchEvent → Prop
  | .work m => s.Keeps cpu m
  | .create _ taskStack _ args _ =>
    s.Fresh cpu taskStack ∧ args.length + 92 ≤ ktaskStackSize.toNat
  | .kill _ => True
  | .transfer _ => s.Room
  | .exit _ => s.Room

/-- A waiting process has its context in its stack, and nothing of the kernel overlaps. -/
structure Inv (s : Switching) : Prop where
  cpu_le : cpu.toNat + sizeofCpu ≤ 2 ^ 32
  current : (s.stack s.current).isSome
  top_lt : ∀ k r, s.stack k = some r → r.top < 2 ^ 32
  apart : ∀ k j r r', k ≠ j → s.stack k = some r → s.stack j = some r' → r.Apart r'
  table : ∀ k r, s.stack k = some r → r.Apart (cpuRegion cpu)
  parked : ∀ k r, k ≠ s.current → s.stack k = some r →
    r.bottom ≤ (s.context cpu k).toNat ∧ (s.context cpu k).toNat + 20 ≤ r.top

def frame (s : Switching) (k : Slot) (r : Region) : Frame :=
  if k = s.current then runningFrame s.m r else parkedFrame s.m.mem (s.context cpu k) r

def coroutines (s : Switching) : Coroutines Slot Frame where
  current := s.current
  state k := (s.stack k).map (s.frame cpu k)

variable {cpu} {s t : Switching} {k : Slot} {m : MachineState} {mem mem' : Mem} {c x : U32}
  {r r' : Region}

theorem toNat_contextCell (h : cpu.toNat + sizeofCpu ≤ 2 ^ 32) (k : Slot) :
    (contextCell cpu k).toNat = cpu.toNat + 12 + 32 * k.val := by
  have hk : k.val < 16 := k.isLt
  have hsize : sizeofCpu = 520 := rfl
  unfold contextCell
  bv_omega

theorem contains_of_inCell (h : cpu.toNat + sizeofCpu ≤ 2 ^ 32) (hx : InCell cpu k x) :
    (cpuRegion cpu).Contains x := by
  have hcell := toNat_contextCell h k
  have hk : k.val < 16 := k.isLt
  have hsize : sizeofCpu = 520 := rfl
  obtain ⟨hlo, hhi⟩ := hx
  constructor <;> dsimp only [cpuRegion] <;> omega

theorem eq_of_inCell {j : Slot} (h : cpu.toNat + sizeofCpu ≤ 2 ^ 32) (hj : InCell cpu j x)
    (hk : InCell cpu k x) : j = k := by
  have hcellj := toNat_contextCell h j
  have hcellk := toNat_contextCell h k
  obtain ⟨hloj, hhij⟩ := hj
  obtain ⟨hlok, hhik⟩ := hk
  apply Fin.ext
  omega

theorem stackInUse_congr {esp : U32} (h : ∀ x, r.Contains x → mem' x = mem x) :
    stackInUse mem' esp r = stackInUse mem esp r := by
  funext x
  unfold stackInUse
  split
  · rename_i hx
    rw [h x hx.1]
  · rfl

theorem stackInUse_ret {esp : U32}
    (h : ∀ x, r.Contains x → esp.toNat ≤ x.toNat → mem' x = mem x)
    (hesp : esp.toNat + 4 < 2 ^ 32) : stackInUse mem' (esp + 4) r =
      fun x => if esp.toNat + 4 ≤ x.toNat then stackInUse mem esp r x else none := by
  funext x
  have hnext : (esp + 4).toNat = esp.toNat + 4 := by bv_omega
  unfold stackInUse
  rw [hnext]
  by_cases hx : esp.toNat + 4 ≤ x.toNat
  · rw [if_pos hx]
    by_cases hr : r.Contains x
    · rw [if_pos ⟨hr, hx⟩, if_pos ⟨hr, by omega⟩, h x hr (by omega)]
    · rw [if_neg (fun hc => hr hc.1), if_neg (fun hc => hr hc.1)]
  · rw [if_neg (fun hc => hx hc.2), if_neg hx]

theorem runningFrame_congr (h : ∀ x, r.Contains x → mem' x = m.mem x) :
    runningFrame { m with mem := mem' } r = runningFrame m r := by
  apply Frame.ext
  case stack => exact stackInUse_congr h
  all_goals rfl

theorem ktaskInit_mem_of_not_contains {taskStack entry ret : U32} {args : List U8}
    (htop : taskStack.toNat + ktaskStackSize.toNat < 2 ^ 32)
    (hsize : args.length + 92 ≤ ktaskStackSize.toNat)
    (hx : ¬ Region.Contains ⟨taskStack.toNat, taskStack.toNat + ktaskStackSize.toNat⟩ x) :
    (ktaskInit mem taskStack entry args ret).mem x = mem x := by
  have hstack : ktaskStackSize.toNat = 16384 := rfl
  have hc := @ktaskInit_context mem taskStack entry ret args
  unfold Region.Contains at hx
  rw [ktaskInit_mem rfl]
  generalize (ktaskInit mem taskStack entry args ret).context = c at hc ⊢
  have hcn : c.toNat = taskStack.toNat + 16384 - args.length - 92 := by bv_omega
  rw [store32_of_le (by bv_omega), store32_of_le (by bv_omega), store16_of_le (by bv_omega),
    store32_of_le (by bv_omega), store32_of_le (by bv_omega), store16_of_le (by bv_omega),
    store16_of_le (by bv_omega), store16_of_le (by bv_omega), store16_of_le (by bv_omega),
    store32_of_le (by bv_omega), storeBytes_of_le (by bv_omega)]

theorem parkedFrame_congr (hr : r.bottom ≤ c.toNat ∧ c.toNat + 20 ≤ r.top) (htop : r.top < 2 ^ 32)
    (h : ∀ x, r.Contains x → mem' x = mem x) :
    parkedFrame mem' c r = parkedFrame mem c r := by
  have hword : ∀ n < 17, load32 mem' (c + BitVec.ofNat 32 n) = load32 mem (c + BitVec.ofNat 32 n) := by
    intro n hn
    apply load32_congr_on r.bottom r.top
    · exact fun x hlo hhi => h x ⟨hlo, hhi⟩
    · bv_omega
    · bv_omega
    · bv_omega
  have h0 := hword 0 (by omega)
  rw [show c + BitVec.ofNat 32 0 = c from BitVec.add_zero c] at h0
  apply Frame.ext
  · exact hword 16 (by omega)
  · rfl
  · exact hword 12 (by omega)
  · exact hword 8 (by omega)
  · exact hword 4 (by omega)
  · exact h0
  · exact stackInUse_congr h

/-- A memory that leaves stack and context pointer of a waiting process leaves its frame. -/
theorem Inv.frame_of_kept (h : s.Inv cpu) (hk : k ≠ s.current) (hr : s.stack k = some r)
    (hkeep : ∀ x, r.Contains x ∨ InCell cpu k x → mem x = s.m.mem x) :
    load32 mem (contextCell cpu k) = s.context cpu k ∧
      parkedFrame mem (s.context cpu k) r = s.frame cpu k r := by
  have hcell := toNat_contextCell h.cpu_le k
  have hcpu := h.cpu_le
  have hk16 : k.val < 16 := k.isLt
  have hsize : sizeofCpu = 520 := rfl
  refine ⟨?_, ?_⟩
  · apply load32_congr_on (contextCell cpu k).toNat ((contextCell cpu k).toNat + 4)
    · exact fun x hlo hhi => hkeep x (.inr ⟨hlo, hhi⟩)
    · exact Nat.le_refl _
    · exact Nat.le_refl _
    · omega
  · rw [frame, if_neg hk]
    exact parkedFrame_congr (h.parked k r hk hr) (h.top_lt k r hr) fun x hx => hkeep x (.inl hx)

theorem Room.stored (hroom : s.Room) (hr : s.stack s.current = some r)
    (hx : Stored s.m (contextCell cpu s.current) x) : r.Contains x ∨ InCell cpu s.current x := by
  obtain ⟨r', hr', hbottom, htop⟩ := hroom
  cases hr.symm.trans hr'
  rcases hx with ⟨hlo, hhi⟩ | hx
  · exact .inl ⟨by omega, by omega⟩
  · exact .inr hx

theorem Inv.not_stored (h : s.Inv cpu) (hroom : s.Room) {j : Slot} (hj : j ≠ s.current)
    (hr : s.stack j = some r) (hx : r.Contains x ∨ InCell cpu j x) :
    ¬ Stored s.m (contextCell cpu s.current) x := by
  have ⟨r₀, hr₀, _⟩ := hroom
  intro hstored
  rcases hroom.stored hr₀ hstored with hx₀ | hx₀ <;> rcases hx with hx | hx
  · exact (h.apart _ _ _ _ hj hr hr₀).not_contains hx hx₀
  · exact (h.table _ _ hr₀).not_contains hx₀ (contains_of_inCell h.cpu_le hx)
  · exact (h.table _ _ hr).not_contains hx (contains_of_inCell h.cpu_le hx₀)
  · exact hj (eq_of_inCell h.cpu_le hx hx₀)

/-- The bytes in front of the pointer of the running process are its own. -/
theorem Inv.room (h : s.Inv cpu) (hroom : s.Room) :
    16 ≤ (s.m.reg .esp).toNat ∧ (contextCell cpu s.current).toNat + 4 ≤ 2 ^ 32 ∧
      ((s.m.reg .esp).toNat ≤ (contextCell cpu s.current).toNat ∨
        (contextCell cpu s.current).toNat + 4 ≤ (s.m.reg .esp).toNat - 16) := by
  obtain ⟨r, hr, hbottom, htop⟩ := hroom
  have hcell := toNat_contextCell h.cpu_le s.current
  have hcpu := h.cpu_le
  have hi16 : s.current.val < 16 := s.current.isLt
  have hsize : sizeofCpu = 520 := rfl
  have htable := h.table _ _ hr
  unfold Region.Apart cpuRegion at htable
  dsimp only at htable
  omega

/-- The process that calls `context_switch` is parked where the call returns. -/
theorem Inv.parkedFrame_saved (h : s.Inv cpu) (hroom : s.Room)
    (hr : s.stack s.current = some r) :
    parkedFrame (savedMem s.m (contextCell cpu s.current)) (s.m.reg .esp - 16) r =
      (s.frame cpu s.current r).ret := by
  obtain ⟨hesp, hold, hapart⟩ := h.room hroom
  obtain ⟨r', hr', hbottom, htop⟩ := hroom
  cases hr.symm.trans hr'
  obtain ⟨hedi, hesi, hebx, hebp⟩ := savedMem_context hesp hold hapart
  have hlt := h.top_lt _ _ hr
  have hback : s.m.reg .esp - 16 + 16 = s.m.reg .esp := BitVec.sub_add_cancel ..
  have hret : s.m.reg .esp - 16 + 20 = s.m.reg .esp + 4 := by bv_omega
  have hkeep : ∀ x, r.Contains x → (s.m.reg .esp).toNat ≤ x.toNat →
      savedMem s.m (contextCell cpu s.current) x = s.m.mem x := by
    intro x hx hlo
    apply savedMem_of_not_stored hesp hold
    rintro (⟨-, hhi⟩ | hcell)
    · omega
    · exact (h.table _ _ hr).not_contains hx (contains_of_inCell h.cpu_le hcell)
  rw [frame, if_pos rfl]
  apply Frame.ext
  · change load32 _ _ = load32 (fun x => (stackInUse s.m.mem (s.m.reg .esp) r x).getD 0) _
    rw [hback]
    apply load32_congr_on (s.m.reg .esp).toNat r.top
    · intro x hlo hhi
      have hx : r.Contains x := ⟨by omega, hhi⟩
      rw [hkeep x hx hlo, stackInUse, if_pos ⟨hx, hlo⟩]
      rfl
    · exact Nat.le_refl _
    · omega
    · omega
  · exact hret
  · exact hebp
  · exact hebx
  · exact hesi
  · exact hedi
  · exact (congrArg (stackInUse _ · r) hret).trans (stackInUse_ret hkeep (by omega))

/-- What a call of `context_switch` does to every process. -/
structure Switched (cpu : U32) (s t : Switching) (k : Slot) : Prop where
  frame : ∀ j r, s.stack j = some r →
    t.frame cpu j r = if j = s.current then (s.frame cpu j r).ret else s.frame cpu j r
  parked : ∀ j r, j ≠ k → s.stack j = some r →
    r.bottom ≤ (t.context cpu j).toNat ∧ (t.context cpu j).toNat + 20 ≤ r.top

theorem Inv.switched (h : s.Inv cpu) (hcall : s.Calls cpu k) (hroom : s.Room) :
    Switched cpu s (s.switchTo k) k := by
  obtain ⟨hmem, -, hrun⟩ := contextSwitch_eq s.m
  rw [hcall.old] at hmem hrun
  rw [hcall.new] at hrun
  obtain ⟨hesp, hold, hapart⟩ := h.room hroom
  have hkept : ∀ j r, j ≠ s.current → s.stack j = some r →
      load32 (savedMem s.m (contextCell cpu s.current)) (contextCell cpu j) = s.context cpu j ∧
        parkedFrame (savedMem s.m (contextCell cpu s.current)) (s.context cpu j) r =
          s.frame cpu j r := by
    intro j r hj hr
    apply h.frame_of_kept hj hr
    intro x hx
    exact savedMem_of_not_stored hesp hold (h.not_stored hroom hj hr hx)
  have hcontext : ∀ j, (s.switchTo k).context cpu j =
      load32 (savedMem s.m (contextCell cpu s.current)) (contextCell cpu j) := by
    intro j
    exact congrArg (load32 · _) hmem
  constructor
  · intro j r hr
    by_cases hjk : j = k
    · subst j
      rw [if_neg hcall.other, ← (hkept k r hcall.other hr).2, ← hrun]
      exact if_pos rfl
    · have hframe : (s.switchTo k).frame cpu j r =
          parkedFrame (contextSwitch s.m).mem ((s.switchTo k).context cpu j) r := if_neg hjk
      rw [hframe, hcontext, hmem]
      by_cases hj : j = s.current
      · subst j
        rw [if_pos rfl, load32_savedMem_old, h.parkedFrame_saved hroom hr]
      · rw [if_neg hj, (hkept j r hj hr).1, (hkept j r hj hr).2]
  · intro j r hjk hr
    rw [hcontext]
    by_cases hj : j = s.current
    · subst j
      obtain ⟨r', hr', hbottom, htop⟩ := hroom
      cases hr.symm.trans hr'
      rw [load32_savedMem_old]
      bv_omega
    · rw [(hkept j r hj hr).1]
      exact h.parked j r hj hr

theorem coroutines_eq {current : Slot} {state : Slot → Option Frame} (hcurrent : s.current = current)
    (hstate : ∀ j, (s.stack j).map (s.frame cpu j) = state j) :
    s.coroutines cpu = ⟨current, state⟩ := by
  subst hcurrent
  exact congrArg (Coroutines.mk s.current) (funext hstate)

theorem Inv.of_parked (h : s.Inv cpu) (hstack : t.stack = s.stack)
    (hcurrent : (t.stack t.current).isSome)
    (hparked : ∀ j r, j ≠ t.current → s.stack j = some r →
      r.bottom ≤ (t.context cpu j).toNat ∧ (t.context cpu j).toNat + 20 ≤ r.top) : t.Inv cpu := by
  refine ⟨h.cpu_le, hcurrent, ?_, ?_, ?_, ?_⟩
  all_goals rw [hstack]
  · exact h.top_lt
  · exact h.apart
  · exact h.table
  · exact hparked

theorem drop_stack_self : (s.drop k).stack k = none := Function.update_self ..

theorem drop_stack_of_ne {j : Slot} (hj : j ≠ k) : (s.drop k).stack j = s.stack j :=
  Function.update_of_ne hj ..

theorem of_drop_stack {j : Slot} (hr : (s.drop k).stack j = some r) : s.stack j = some r := by
  by_cases hj : j = k
  · subst j
    rw [drop_stack_self] at hr
    cases hr
  · rwa [drop_stack_of_ne hj] at hr

theorem Inv.drop (h : s.Inv cpu) (hk : k ≠ s.current) : (s.drop k).Inv cpu where
  cpu_le := h.cpu_le
  current := by
    rw [drop_stack_of_ne (show (s.drop k).current ≠ k from hk.symm)]
    exact h.current
  top_lt j r hr := h.top_lt j r (of_drop_stack hr)
  apart j i r r' hij hr hr' := h.apart j i r r' hij (of_drop_stack hr) (of_drop_stack hr')
  table j r hr := h.table j r (of_drop_stack hr)
  parked j r hj hr := h.parked j r hj (of_drop_stack hr)

theorem coroutines_drop (s : Switching) (k : Slot) : (s.drop k).coroutines cpu =
    { s.coroutines cpu with state := Function.update (s.coroutines cpu).state k none } := by
  apply coroutines_eq rfl
  intro j
  by_cases hj : j = k
  · subst j
    rw [Function.update_self, drop_stack_self]
    rfl
  · rw [Function.update_of_ne hj, drop_stack_of_ne hj]
    rfl

theorem Inv.created {taskStack entry ret : U32} {args : List U8} (h : s.Inv cpu)
    (hk : k ≠ s.current) (hfree : s.stack k = none) (hfresh : s.Fresh cpu taskStack)
    (hsize : args.length + 92 ≤ ktaskStackSize.toNat) :
    let t := s.create cpu k taskStack entry args ret
    (∀ j r, s.stack j = some r → t.frame cpu j r = s.frame cpu j r ∧
      (j ≠ s.current → t.context cpu j = s.context cpu j)) ∧
    t.context cpu k = (ktaskInit s.m.mem taskStack entry args ret).context := by
  intro t
  have hcell := toNat_contextCell h.cpu_le k
  have hcpu := h.cpu_le
  have hk16 : k.val < 16 := k.isLt
  have hsizeof : sizeofCpu = 520 := rfl
  have hkeep : ∀ x, ¬ Region.Contains ⟨taskStack.toNat, taskStack.toNat + ktaskStackSize.toNat⟩ x →
      ¬ InCell cpu k x → t.m.mem x = s.m.mem x := by
    intro x hx hcellx
    unfold InCell at hcellx
    exact (store32_frame _ _ (by omega) (by omega)).trans
      (ktaskInit_mem_of_not_contains hfresh.top_lt hsize hx)
  have houter : ∀ j r, s.stack j = some r → ∀ x, r.Contains x ∨ (j ≠ k ∧ InCell cpu j x) →
      t.m.mem x = s.m.mem x := by
    intro j r hr x hx
    apply hkeep
    · rcases hx with hx | ⟨-, hx⟩
      · exact (hfresh.others j r hr).not_contains hx
      · exact fun hnew => hfresh.table.not_contains hnew (contains_of_inCell h.cpu_le hx)
    · rcases hx with hx | ⟨hjk, hx⟩
      · exact fun hk => (h.table j r hr).not_contains hx (contains_of_inCell h.cpu_le hk)
      · exact fun hk => hjk (eq_of_inCell h.cpu_le hx hk)
  refine ⟨fun j r hr => ?_, load32_store32_same ..⟩
  by_cases hj : j = s.current
  · subst j
    refine ⟨?_, fun hne => absurd rfl hne⟩
    have hrun : t.frame cpu s.current r = runningFrame t.m r := if_pos rfl
    rw [hrun, frame, if_pos rfl]
    exact runningFrame_congr fun x hx => houter _ _ hr x (.inl hx)
  · have hjk : j ≠ k := by
      rintro rfl
      rw [hfree] at hr
      cases hr
    have hsame : ∀ x, r.Contains x ∨ InCell cpu j x → t.m.mem x = s.m.mem x :=
      fun x hx => houter j r hr x (hx.imp_right fun hx => ⟨hjk, hx⟩)
    obtain ⟨hcontext, hframe⟩ := h.frame_of_kept hj hr hsame
    refine ⟨?_, fun _ => hcontext⟩
    rw [← hframe, frame, if_neg (show j ≠ t.current from hj), context, hcontext]

theorem map_frame {j : Slot} (hstack : t.stack j = s.stack j)
    (hframe : ∀ r, s.stack j = some r → t.frame cpu j r = s.frame cpu j r) :
    (t.stack j).map (t.frame cpu j) = (s.coroutines cpu).state j := by
  rw [hstack]
  exact Option.map_congr hframe

theorem Inv.work (h : s.Inv cpu) (hkeep : s.Keeps cpu m) :
    ({ s with m } : Switching).Inv cpu ∧
      Coroutines.Step Frame.ret (s.coroutines cpu) .work
        (({ s with m } : Switching).coroutines cpu) := by
  have hkept := fun j r hj hr => @frame_of_kept cpu s j m.mem r h hj hr (hkeep j r hj hr)
  constructor
  · apply h.of_parked (t := { s with m }) rfl h.current
    intro j r hj hr
    rw [show context cpu { s with m } j = s.context cpu j from (hkept j r hj hr).1]
    exact h.parked j r hj hr
  · obtain ⟨r₀, hr₀⟩ := Option.isSome_iff_exists.mp h.current
    have heq : ({ s with m } : Switching).coroutines cpu = { s.coroutines cpu with
        state := Function.update (s.coroutines cpu).state s.current (some (runningFrame m r₀)) } := by
      apply coroutines_eq rfl
      intro j
      by_cases hj : j = s.current
      · subst j
        rw [Function.update_self, hr₀, Option.map_some, frame, if_pos rfl]
      · rw [Function.update_of_ne hj]
        apply map_frame (s := s) (t := { s with m }) rfl
        intro r hr
        rw [frame, if_neg hj, ← (hkept j r hj hr).2, context, (hkept j r hj hr).1]
    rw [heq]
    exact .work _ _

section Create

variable {taskStack entry ret : U32} {args : List U8}

theorem create_stack_self : (s.create cpu k taskStack entry args ret).stack k =
    some ⟨taskStack.toNat, taskStack.toNat + ktaskStackSize.toNat⟩ := Function.update_self ..

theorem create_stack_of_ne {j : Slot} (hj : j ≠ k) :
    (s.create cpu k taskStack entry args ret).stack j = s.stack j := Function.update_of_ne hj ..

end Create

theorem Inv.create {taskStack entry ret : U32} {args : List U8} (h : s.Inv cpu)
    (hk : k ≠ s.current) (hfree : s.stack k = none) (hfresh : s.Fresh cpu taskStack)
    (hsize : args.length + 92 ≤ ktaskStackSize.toNat) :
    (s.create cpu k taskStack entry args ret).Inv cpu ∧
      Coroutines.Step Frame.ret (s.coroutines cpu) (.create k)
        ((s.create cpu k taskStack entry args ret).coroutines cpu) := by
  obtain ⟨hold, hnew⟩ := @created cpu s k taskStack entry ret args h hk hfree hfresh hsize
  have hstack : ktaskStackSize.toNat = 16384 := rfl
  have hcases : ∀ j r, (s.create cpu k taskStack entry args ret).stack j = some r →
      (j = k ∧ r = ⟨taskStack.toNat, taskStack.toNat + ktaskStackSize.toNat⟩) ∨
        (j ≠ k ∧ s.stack j = some r) := by
    intro j r hr
    by_cases hj : j = k
    · subst j
      rw [create_stack_self] at hr
      exact .inl ⟨rfl, (Option.some.inj hr).symm⟩
    · rw [create_stack_of_ne hj] at hr
      exact .inr ⟨hj, hr⟩
  constructor
  · refine ⟨h.cpu_le, ?_, ?_, ?_, ?_, ?_⟩
    · rw [show (s.create cpu k taskStack entry args ret).current = s.current from rfl,
        create_stack_of_ne hk.symm]
      exact h.current
    · intro j r hr
      rcases hcases j r hr with ⟨-, rfl⟩ | ⟨-, hr⟩
      · exact hfresh.top_lt
      · exact h.top_lt j r hr
    · intro i j r r' hij hr hr'
      rcases hcases i r hr with ⟨hi, rfl⟩ | ⟨-, hr⟩ <;>
        rcases hcases j r' hr' with ⟨hj, rfl⟩ | ⟨-, hr'⟩
      · exact absurd (hi.trans hj.symm) hij
      · exact (hfresh.others j r' hr').symm
      · exact hfresh.others i r hr
      · exact h.apart i j r r' hij hr hr'
    · intro j r hr
      rcases hcases j r hr with ⟨-, rfl⟩ | ⟨-, hr⟩
      · exact hfresh.table
      · exact h.table j r hr
    · intro j r hj hr
      rcases hcases j r hr with ⟨rfl, rfl⟩ | ⟨-, hr⟩
      · have hlt := hfresh.top_lt
        rw [hnew, ktaskInit_context]
        constructor <;> dsimp only <;> bv_omega
      · rw [(hold j r hr).2 hj]
        exact h.parked j r hj hr
  · have heq : (s.create cpu k taskStack entry args ret).coroutines cpu = { s.coroutines cpu with
        state := Function.update (s.coroutines cpu).state k (some
          ((s.create cpu k taskStack entry args ret).frame cpu k
            ⟨taskStack.toNat, taskStack.toNat + ktaskStackSize.toNat⟩)) } := by
      apply coroutines_eq rfl
      intro j
      by_cases hj : j = k
      · subst j
        rw [Function.update_self, create_stack_self, Option.map_some]
      · rw [Function.update_of_ne hj]
        exact map_frame (create_stack_of_ne hj) fun r hr => (hold j r hr).1
    rw [heq]
    refine .create _ _ _ hk ?_
    exact congrArg (Option.map _) hfree

theorem Inv.switchTo (h : s.Inv cpu) (hcall : s.Calls cpu k) (hroom : s.Room) :
    (s.switchTo k).Inv cpu :=
  h.of_parked (t := s.switchTo k) rfl hcall.used (h.switched hcall hroom).parked

/-- The one that called finds itself returned, the others are where they were. -/
theorem Inv.coroutines_switchTo (h : s.Inv cpu) (hcall : s.Calls cpu k) (hroom : s.Room) :
    (s.switchTo k).coroutines cpu = ⟨k, Function.update (s.coroutines cpu).state s.current
      (((s.coroutines cpu).state s.current).map Frame.ret)⟩ := by
  have hsw := h.switched hcall hroom
  apply coroutines_eq rfl
  intro j
  by_cases hj : j = s.current
  · subst j
    rw [Function.update_self]
    change (s.stack s.current).map _ = ((s.stack s.current).map _).map _
    rw [Option.map_map]
    apply Option.map_congr
    intro r hr
    rw [hsw.frame _ r hr, if_pos rfl]
    rfl
  · rw [Function.update_of_ne hj]
    apply map_frame (s := s) (t := s.switchTo k) rfl
    intro r hr
    rw [hsw.frame j r hr, if_neg hj]

theorem Calls.used_coroutine (hcall : s.Calls cpu k) : ((s.coroutines cpu).state k).isSome := by
  rw [coroutines, Option.isSome_map]
  exact hcall.used

theorem Inv.transfer (h : s.Inv cpu) (hcall : s.Calls cpu k) (hroom : s.Room) :
    Coroutines.Step Frame.ret (s.coroutines cpu) (.transfer k) ((s.switchTo k).coroutines cpu) := by
  rw [h.coroutines_switchTo hcall hroom]
  exact .transfer _ _ hcall.other hcall.used_coroutine

theorem Inv.exit (h : s.Inv cpu) (hcall : s.Calls cpu k) (hroom : s.Room) :
    Coroutines.Step Frame.ret (s.coroutines cpu) (.exit k)
      (((s.switchTo k).drop s.current).coroutines cpu) := by
  rw [coroutines_drop, h.coroutines_switchTo hcall hroom]
  dsimp only
  rw [Function.update_idem]
  exact .exit _ _ hcall.other hcall.used_coroutine

theorem Step.refines {e : SwitchEvent} (step : Step cpu s e t) (hapart : s.KeepsApart cpu e)
    (h : s.Inv cpu) :
    t.Inv cpu ∧ Coroutines.Step Frame.ret (s.coroutines cpu) e.event (t.coroutines cpu) := by
  cases step with
  | work m => exact h.work hapart
  | create k taskStack entry args ret hk hfree => exact h.create hk hfree hapart.1 hapart.2
  | kill k hk =>
    refine ⟨h.drop hk, ?_⟩
    rw [coroutines_drop]
    exact .kill _ _ hk
  | transfer k hcall => exact ⟨h.switchTo hcall hapart, h.transfer hcall hapart⟩
  | exit k hcall => exact ⟨(h.switchTo hcall hapart).drop hcall.other.symm, h.exit hcall hapart⟩

end Switching

end Uroboros
