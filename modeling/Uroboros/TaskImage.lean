import Uroboros.IntrFrame

/-!
# The stack of a new task

`ktask_init` and `utask_init` write a frame and a context by hand. The tail of
`context_switch` and the code behind `all_interrupt_ret` then read them as if the
task had been interrupted.
-/

set_option autoImplicit false

namespace Uroboros

open ByteMemory X86 MachineState

/-- The tail of `context_switch`, from `mov esp, edx` on; `start_mtask` ends with the same code. -/
def contextSwitchTail (newContext : U32) : List Instr :=
  [.movEsp newContext, .popReg .edi, .popReg .esi, .popReg .ebx, .popReg .ebp, .ret]

def ktaskStackSize : U32 := 4096 * 4

def sizeofContext : U32 := 20

/-- `proc->iframe`, `proc->context` and the memory, where the frame and the context point. -/
structure TaskImage where
  mem : Mem
  iframe : U32
  context : U32

/-- `taskStack` is what `kvmalloc` returned, `allInterruptRetAddr` the address of the code. -/
def ktaskInit (mem : Mem) (taskStack taskEntryAddr : U32) (args : List U8)
    (allInterruptRetAddr : U32) : TaskImage :=
  let argSize := BitVec.ofNat 32 args.length
  let sp := taskStack + ktaskStackSize
  let mem := storeBytes mem (sp - argSize) args
  let sp := sp - argSize
  let sp := sp - 4
  let mem := store32 mem sp 0
  let sp := sp - (sizeofIntrFrame - 8)
  let iframe := sp
  let mem := store16 mem (iframe + 32) kernelData
  let mem := store16 mem (iframe + 36) kernelData
  let mem := store16 mem (iframe + 40) kernelData
  let mem := store16 mem (iframe + 44) kernelData
  let mem := store32 mem (iframe + 64) (1 <<< 9)
  let mem := store32 mem (iframe + 56) taskEntryAddr
  let mem := store16 mem (iframe + 60) kernelCode
  let mem := store32 mem (iframe + 8) (taskStack + ktaskStackSize)
  let sp := sp - sizeofContext
  let context := sp
  let mem := store32 mem (context + 16) allInterruptRetAddr
  ⟨mem, iframe, context⟩

/-- The frame keeps `esp` and `ss` for the change to level 3. -/
def utaskInit (mem : Mem) (taskStack entry : U32) (allInterruptRetAddr : U32) : TaskImage :=
  let sp := taskStack + ktaskStackSize
  let sp := sp - sizeofIntrFrame
  let iframe := sp
  let mem := store16 mem (iframe + 32) appData
  let mem := store16 mem (iframe + 36) appData
  let mem := store16 mem (iframe + 40) appData
  let mem := store16 mem (iframe + 44) appData
  let mem := store32 mem (iframe + 64) (1 <<< 9)
  let mem := store32 mem (iframe + 56) entry
  let mem := store16 mem (iframe + 60) appCode
  let mem := store32 mem (iframe + 8) (taskStack + ktaskStackSize)
  let sp := sp - sizeofContext
  let context := sp
  let mem := store32 mem (context + 16) allInterruptRetAddr
  let mem := store16 mem (iframe + 72) appData
  let mem := store32 mem (iframe + 68) (load32 mem (iframe + 8))
  ⟨mem, iframe, context⟩

variable {m : MachineState} {usable : BitVec 16 → Bool}

theorem run_contextSwitchTail {c edi esi ebx ebp eip : U32} {ws : List U32}
    (h : StackAt m.mem c (edi :: esi :: ebx :: ebp :: eip :: ws)) :
    (m.run usable (contextSwitchTail c)).eip = eip ∧
      (m.run usable (contextSwitchTail c)).reg .esp = c + 20 ∧
      (m.run usable (contextSwitchTail c)).sreg = m.sreg ∧
      (m.run usable (contextSwitchTail c)).mem = m.mem := by
  have h₀ : (m.setReg .esp c).OnStack (edi :: esi :: ebx :: ebp :: eip :: ws) := by
    rw [OnStack, setReg_reg, if_pos rfl]
    exact h
  have h₁ := h₀.popReg (r := .edi) (by simp)
  have h₂ := h₁.popReg (r := .esi) (by simp)
  have h₃ := h₂.popReg (r := .ebx) (by simp)
  have h₄ := h₃.popReg (r := .ebp) (by simp)
  refine ⟨h₄.top, ?_, rfl, rfl⟩
  change ((((((m.setReg .esp c).popReg .edi).popReg .esi).popReg .ebx).popReg .ebp).pop).reg .esp
    = _
  simp [BitVec.add_assoc]

section Image

variable {mem : Mem} {taskStack entry ret : U32} {args : List U8}

theorem ktaskInit_context : (ktaskInit mem taskStack entry args ret).context =
    taskStack + ktaskStackSize - BitVec.ofNat 32 args.length - 92 := by
  simp only [ktaskInit, sizeofIntrFrame, sizeofContext]
  bv_omega

theorem ktaskInit_mem {c : U32} (hc : (ktaskInit mem taskStack entry args ret).context = c) :
    (ktaskInit mem taskStack entry args ret).mem =
      store32 (store32 (store16 (store32 (store32
        (store16 (store16 (store16 (store16
          (store32 (storeBytes mem (c + 92) args) (c + 88) 0)
          (c + 52) kernelData) (c + 56) kernelData) (c + 60) kernelData) (c + 64) kernelData)
        (c + 84) flagIf) (c + 76) entry) (c + 80) kernelCode)
        (c + 28) (taskStack + ktaskStackSize)) (c + 16) ret := by
  rw [ktaskInit_context] at hc
  have hargs : taskStack + ktaskStackSize - BitVec.ofNat 32 args.length = c + 92 := by bv_omega
  have hret : c + 92 - 4 = c + 88 := by bv_omega
  have hframe : c + 88 - (sizeofIntrFrame - 8) = c + 20 := by
    rw [show sizeofIntrFrame - 8 = 68 from rfl]
    bv_omega
  have hcontext : c + 20 - sizeofContext = c := BitVec.add_sub_cancel ..
  simp only [ktaskInit, hargs, hret, hframe, hcontext, BitVec.add_assoc]
  rfl

theorem ktaskInit_frame {c : U32} (hc : (ktaskInit mem taskStack entry args ret).context = c) :
    let image := (ktaskInit mem taskStack entry args ret).mem
    let f := intrFrameAt image (c + 20)
    load32 image (c + 16) = ret ∧ load32 image (c + 88) = 0 ∧ f.eip = entry ∧
      f.eflags = flagIf ∧ f.cs = kernelCode ∧ f.gs = kernelData ∧ f.fs = kernelData ∧
      f.es = kernelData ∧ f.ds = kernelData := by
  intro image f
  simp only [f, intrFrameAt, BitVec.add_assoc, BitVec.reduceAdd]
  simp (disch := rw [apart_add_left]; decide) only [image, ktaskInit_mem hc, load32_store32_same,
    load16_store16_same, load32_store32_apart, load32_store16_apart, load16_store32_apart,
    load16_store16_apart, BitVec.ofNat_eq_ofNat, and_self]

theorem ktaskInit_args {c : U32} (hc : (ktaskInit mem taskStack entry args ret).context = c)
    (hsize : args.length + 92 ≤ ktaskStackSize.toNat) :
    BytesAt (ktaskInit mem taskStack entry args ret).mem (c + 92) args := by
  have hlen : args.length + 92 ≤ 16384 := hsize
  intro i hi
  have hbytes : BytesAt (storeBytes mem (c + 92) args) (c + 92) args :=
    bytesAt_storeBytes (by omega)
  have hbyte := hbytes i hi
  rw [ktaskInit_mem hc, store32_of_le (by bv_omega), store32_of_le (by bv_omega),
    store16_of_le (by bv_omega), store32_of_le (by bv_omega), store32_of_le (by bv_omega),
    store16_of_le (by bv_omega), store16_of_le (by bv_omega), store16_of_le (by bv_omega),
    store16_of_le (by bv_omega), store32_of_le (by bv_omega)]
  exact hbyte

theorem utaskInit_context : (utaskInit mem taskStack entry ret).context =
    taskStack + ktaskStackSize - 96 := by
  simp only [utaskInit, sizeofIntrFrame, sizeofContext]
  bv_omega

theorem utaskInit_mem {c : U32} (hc : (utaskInit mem taskStack entry ret).context = c) :
    (utaskInit mem taskStack entry ret).mem =
      let image := store16 (store32 (store32 (store16 (store32 (store32
        (store16 (store16 (store16 (store16 mem
          (c + 52) appData) (c + 56) appData) (c + 60) appData) (c + 64) appData)
        (c + 84) flagIf) (c + 76) entry) (c + 80) appCode)
        (c + 28) (taskStack + ktaskStackSize)) (c + 16) ret) (c + 92) appData
      store32 image (c + 88) (load32 image (c + 28)) := by
  rw [utaskInit_context] at hc
  have hframe : taskStack + ktaskStackSize - sizeofIntrFrame = c + 20 := by
    rw [show sizeofIntrFrame = 76 from rfl]
    bv_omega
  have hcontext : c + 20 - sizeofContext = c := BitVec.add_sub_cancel ..
  simp only [utaskInit, hframe, hcontext, BitVec.add_assoc]
  rfl

theorem utaskInit_frame {c : U32} (hc : (utaskInit mem taskStack entry ret).context = c) :
    let image := (utaskInit mem taskStack entry ret).mem
    let f := intrFrameAt image (c + 20)
    load32 image (c + 16) = ret ∧ f.eip = entry ∧ f.eflags = flagIf ∧ f.cs = appCode ∧
      f.esp = taskStack + ktaskStackSize ∧ f.ss = appData ∧ f.gs = appData ∧ f.fs = appData ∧
      f.es = appData ∧ f.ds = appData := by
  intro image f
  simp only [f, intrFrameAt, BitVec.add_assoc, BitVec.reduceAdd]
  simp (disch := rw [apart_add_left]; decide) only [image, utaskInit_mem hc, load32_store32_same,
    load16_store16_same, load32_store32_apart, load32_store16_apart, load16_store32_apart,
    load16_store16_apart, BitVec.ofNat_eq_ofNat, and_self]

end Image

structure Starts (m : MachineState) (entry : U32) (code data : BitVec 16) : Prop where
  eip : m.eip = entry
  cs : m.sreg .cs = code
  data : ∀ s ∈ [SReg.ds, .es, .fs, .gs], m.sreg s = data
  interrupts : m.eflags &&& flagIf = flagIf

/-- The stack of a function that was called with the argument bytes `args`. -/
structure Called (m : MachineState) (args : List U8) (stackEnd : U32) : Prop where
  ret : load32 m.mem (m.reg .esp) = 0
  bytes : BytesAt m.mem (m.reg .esp + 4) args
  stackEnd : m.reg .esp + 4 + BitVec.ofNat 32 args.length = stackEnd

/-- `context_switch` to the image: the machine before and after `all_interrupt_ret`. -/
def TaskImage.switched (image : TaskImage) (m : MachineState) : MachineState :=
  { m with mem := image.mem }.run usableAtLevel3 (contextSwitchTail image.context)

def TaskImage.started (image : TaskImage) (m : MachineState) : MachineState :=
  (image.switched m).run usableAtLevel3 allInterruptRet

theorem TaskImage.switched_spec (image : TaskImage) (m : MachineState) :
    (image.switched m).eip = load32 image.mem (image.context + 16) ∧
      (image.switched m).reg .esp = image.context + 20 ∧
      (image.switched m).sreg = m.sreg ∧ (image.switched m).mem = image.mem := by
  have hstack := stackAt_wordsAt image.mem image.context 5
  have hspec := @run_contextSwitchTail { m with mem := image.mem } usableAtLevel3
    _ _ _ _ _ _ _ hstack
  simp only [BitVec.add_assoc, BitVec.reduceAdd] at hspec
  exact hspec

theorem started_ktask (m : MachineState) (mem : Mem) (taskStack entry ret : U32) (args : List U8)
    (hsize : args.length + 92 ≤ ktaskStackSize.toNat) (hkernel : level (m.sreg .cs) = 0) :
    let image := ktaskInit mem taskStack entry args ret
    (image.switched m).eip = ret ∧ Starts (image.started m) entry kernelCode kernelData ∧
      Called (image.started m) args (taskStack + ktaskStackSize) := by
  intro image
  obtain ⟨heip, hesp, hsreg, hmem⟩ := image.switched_spec m
  obtain ⟨hret, hzero, hentry, hflags, hcs, hgs, hfs, hes, hds⟩ :=
    ktaskInit_frame (rfl : image.context = _)
  have hframe : intrFrameAt (image.switched m).mem ((image.switched m).reg .esp) =
      intrFrameAt image.mem (image.context + 20) := by rw [hmem, hesp]
  have hrun := @run_allInterruptRet_frame (image.switched m) usableAtLevel3
    (by rw [hframe, hcs, hsreg, hkernel]; decide)
  rw [hframe] at hrun
  refine ⟨heip.trans hret, ?_, ?_⟩
  · rw [TaskImage.started, hrun]
    refine ⟨hentry, hcs, ?_, (congrArg (· &&& flagIf) hflags).trans BitVec.and_self⟩
    rw [List.forall_mem_cons, List.forall_mem_cons, List.forall_mem_cons, List.forall_mem_singleton]
    exact ⟨hds, hes, hfs, hgs⟩
  · have hstart : (image.started m).reg .esp = image.context + 88 := by
      rw [TaskImage.started, hrun]
      change (image.switched m).reg .esp + 68 = _
      rw [hesp, BitVec.add_assoc]
      rfl
    have hkept : (image.started m).mem = image.mem := by
      simp only [TaskImage.started, hrun, hmem]
    have hcontext : image.context = _ := ktaskInit_context
    constructor
    · rw [hstart, hkept]
      exact hzero
    · rw [hstart, hkept, BitVec.add_assoc]
      exact ktaskInit_args rfl hsize
    · rw [hstart, hcontext]
      generalize taskStack + ktaskStackSize = top
      generalize BitVec.ofNat 32 args.length = size
      bv_omega

theorem started_utask (m : MachineState) (mem : Mem) (taskStack entry ret : U32)
    (hkernel : level (m.sreg .cs) = 0) :
    let image := utaskInit mem taskStack entry ret
    (image.switched m).eip = ret ∧ Starts (image.started m) entry appCode appData ∧
      (image.started m).sreg .ss = appData ∧
      (image.started m).reg .esp = taskStack + ktaskStackSize := by
  intro image
  obtain ⟨heip, hesp, hsreg, hmem⟩ := image.switched_spec m
  obtain ⟨hret, hentry, hflags, hcs, hspare, hss, hgs, hfs, hes, hds⟩ :=
    utaskInit_frame (rfl : image.context = _)
  have hframe : intrFrameAt (image.switched m).mem ((image.switched m).reg .esp) =
      intrFrameAt image.mem (image.context + 20) := by rw [hmem, hesp]
  have hrun := @run_allInterruptRet_frame_outer (image.switched m) usableAtLevel3
    (by rw [hframe, hcs, hsreg, hkernel]; decide)
  rw [hframe] at hrun
  have hkept : kept usableAtLevel3 appData = appData := rfl
  refine ⟨heip.trans hret, ?_, ?_, ?_⟩
  · rw [TaskImage.started, hrun]
    refine ⟨hentry, hcs, ?_, (congrArg (· &&& flagIf) hflags).trans BitVec.and_self⟩
    rw [List.forall_mem_cons, List.forall_mem_cons, List.forall_mem_cons, List.forall_mem_singleton]
    exact ⟨(congrArg _ hds).trans hkept, (congrArg _ hes).trans hkept,
      (congrArg _ hfs).trans hkept, (congrArg _ hgs).trans hkept⟩
  · rw [TaskImage.started, hrun]
    exact hss
  · rw [TaskImage.started, hrun]
    exact hspare

/-- A kernel task starts as if it had been called with its arguments, an application at level 3 on
an empty stack. -/
theorem task_starts (m : MachineState) (mem : Mem) (taskStack entry ret : U32) (args : List U8)
    (hsize : args.length + 92 ≤ ktaskStackSize.toNat) (hkernel : level (m.sreg .cs) = 0) :
    (let image := ktaskInit mem taskStack entry args ret
     (image.switched m).eip = ret ∧ Starts (image.started m) entry kernelCode kernelData ∧
      Called (image.started m) args (taskStack + ktaskStackSize)) ∧
    (let image := utaskInit mem taskStack entry ret
     (image.switched m).eip = ret ∧ Starts (image.started m) entry appCode appData ∧
      (image.started m).sreg .ss = appData ∧
      (image.started m).reg .esp = taskStack + ktaskStackSize) :=
  ⟨started_ktask m mem taskStack entry ret args hsize hkernel,
    started_utask m mem taskStack entry ret hkernel⟩

/-- A task with the argument `0x12345678`. -/
theorem task_starts_word :
    let m : MachineState := ⟨fun _ => 0, fun _ => kernelCode, 0, 0, fun _ => 0, fun _ => 0⟩
    Called ((ktaskInit m.mem 0x3000000 0x100000 [0x78, 0x56, 0x34, 0x12] 0x100200).started m)
      [0x78, 0x56, 0x34, 0x12] 0x3004000 :=
  (task_starts _ _ _ _ _ _ (by decide) rfl).1.2.2

end Uroboros
