import Uroboros.IntrFrame

/-!
# The way into `int_handler` and back

Which vectors hand `int_handler` a frame that tells the truth. The frame is read off
the list of words that the processor and the stub push, and the return path pops
the same list.
-/

set_option autoImplicit false

namespace Uroboros

open ByteMemory X86 MachineState

variable {m : MachineState} {vector : U8} {entry esp0 error ret : U32}

def pushesErrorCode (vector : U8) : Bool :=
  [8, 10, 11, 12, 13, 14, 17, 21, 29, 30].contains vector

def errorCode (vector : U8) (error : U32) : Option U32 :=
  if pushesErrorCode vector then some error else none

/-- From the interrupted instruction to the first instruction of `int_handler`: the processor
finds `intXX_handler` at `entry` and changes stacks to the `ss0:esp0` of `init_tss`; `ret` is the
return address of the `call` in `all_interrupt`. -/
def enterIntHandler (m : MachineState) (vector : U8) (entry esp0 error ret : U32) : MachineState :=
  let m := m.interrupt kernelCode entry kernelData esp0 (errorCode vector error)
  (m.run usableAtLevel3 (intHandlerStub vector)).push ret

def stubFrame (m : MachineState) (vector : U8) (orgEsp : U32) : List U32 :=
  [m.reg .edi, m.reg .esi, m.reg .ebp, orgEsp, m.reg .ebx, m.reg .edx, m.reg .ecx, m.reg .eax,
    m.sword .gs, m.sword .fs, m.sword .es, m.sword .ds, vector.setWidth 32] ++
    if insertDummyErrorCode vector then [0] else []

theorem run_intHandlerStub (m : MachineState) (vector : U8) : ∃ orgEsp,
    m.run usableAtLevel3 (intHandlerStub vector) =
      m.pushAll (stubFrame m vector orgEsp).reverse := by
  by_cases hdummy : insertDummyErrorCode vector
  · refine ⟨m.reg .esp - 4 - 4 - 4 - 4 - 4 - 4, ?_⟩
    simp only [intHandlerStub, stubFrame, if_pos hdummy]
    rfl
  · refine ⟨m.reg .esp - 4 - 4 - 4 - 4 - 4, ?_⟩
    simp only [intHandlerStub, stubFrame, if_neg hdummy]
    rfl

theorem stubFrame_congr {m₂ : MachineState} (hreg : ∀ r, r ≠ .esp → m₂.reg r = m.reg r)
    (hsreg : ∀ s, s ≠ .cs → s ≠ .ss → m₂.sreg s = m.sreg s) (hupper : m₂.upper = m.upper)
    (orgEsp : U32) : stubFrame m₂ vector orgEsp = stubFrame m vector orgEsp := by
  simp only [stubFrame, sword, hupper, hreg _ (show Reg.edi ≠ .esp by simp),
    hreg _ (show Reg.esi ≠ .esp by simp), hreg _ (show Reg.ebp ≠ .esp by simp),
    hreg _ (show Reg.ebx ≠ .esp by simp), hreg _ (show Reg.edx ≠ .esp by simp),
    hreg _ (show Reg.ecx ≠ .esp by simp), hreg _ (show Reg.eax ≠ .esp by simp),
    hsreg .gs (by simp) (by simp), hsreg .fs (by simp) (by simp),
    hsreg .es (by simp) (by simp), hsreg .ds (by simp) (by simp)]

theorem stubFrame_length (m : MachineState) (vector : U8) (orgEsp : U32) :
    (stubFrame m vector orgEsp).length ≤ 14 := by
  rw [stubFrame]
  split <;> simp

def frameWords (m : MachineState) (vector : U8) (error orgEsp : U32) : List U32 :=
  stubFrame m vector orgEsp ++ m.interruptFrame kernelCode (errorCode vector error)

theorem enterIntHandler_eq (m : MachineState) (vector : U8) (entry esp0 error ret : U32) :
    ∃ orgEsp, enterIntHandler m vector entry esp0 error ret =
      ((m.interrupt kernelCode entry kernelData esp0 (errorCode vector error)).pushAll
        (stubFrame m vector orgEsp).reverse).push ret := by
  set m₁ := m.interrupt kernelCode entry kernelData esp0 (errorCode vector error) with hm₁
  obtain ⟨orgEsp, hrun⟩ := run_intHandlerStub m₁ vector
  have hstub : stubFrame m₁ vector orgEsp = stubFrame m vector orgEsp := by
    apply stubFrame_congr
    · intro r hr
      exact interrupt_reg hr
    · intro s hcs hss
      rw [hm₁, interrupt_sreg, if_neg hcs, innerStack]
      split
      · exact Function.update_of_ne hss ..
      · rfl
    · exact interrupt_upper
  refine ⟨orgEsp, ?_⟩
  rw [← hstub, ← hrun]
  rfl

theorem enterIntHandler_frame (m : MachineState) (vector : U8) (entry esp0 error ret : U32) :
    ∃ orgEsp,
    StackAt (enterIntHandler m vector entry esp0 error ret).mem
      ((enterIntHandler m vector entry esp0 error ret).reg .esp + 4)
      (frameWords m vector error orgEsp) ∧
    (enterIntHandler m vector entry esp0 error ret).reg .esp + 4 =
      (m.innerStack kernelCode kernelData esp0).reg .esp -
        BitVec.ofNat 32 (4 * (frameWords m vector error orgEsp).length) ∧
    ∀ s, (enterIntHandler m vector entry esp0 error ret).sreg s =
      if s = .cs then kernelCode else (m.innerStack kernelCode kernelData esp0).sreg s := by
  obtain ⟨orgEsp, henter⟩ := enterIntHandler_eq m vector entry esp0 error ret
  set m₁ := m.interrupt kernelCode entry kernelData esp0 (errorCode vector error) with hm₁
  have hlen₁ := interruptFrame_length m kernelCode (errorCode vector error)
  have hlen₂ := stubFrame_length m vector orgEsp
  have hframe : m₁.OnStack (m.interruptFrame kernelCode (errorCode vector error)) :=
    interrupt_onStack
  have hstack : (m₁.pushAll (stubFrame m vector orgEsp).reverse).OnStack _ :=
    hframe.pushAll (by rw [List.length_reverse]; omega)
  rw [List.reverse_reverse] at hstack
  refine ⟨orgEsp, ?_, ?_, ?_⟩
  · rw [henter]
    have hroom : 4 * (stubFrame m vector orgEsp ++
        m.interruptFrame kernelCode (errorCode vector error)).length + 4 ≤ 2 ^ 32 := by
      rw [List.length_append]
      omega
    exact (hstack.push (v := ret) hroom).2
  · have hesp : (m₁.pushAll (stubFrame m vector orgEsp).reverse).reg .esp =
        m₁.reg .esp - BitVec.ofNat 32 (4 * (stubFrame m vector orgEsp).length) := by
      rw [pushAll_esp, List.length_reverse]
    rw [henter, push_reg, if_pos rfl, BitVec.sub_add_cancel, hesp, hm₁, interrupt_esp, frameWords,
      List.length_append]
    generalize (m.interruptFrame kernelCode (errorCode vector error)).length = a
    generalize (stubFrame m vector orgEsp).length = b
    rw [Nat.mul_add, BitVec.ofNat_add]
    bv_omega
  · intro s
    rw [henter]
    change (m₁.pushAll _).sreg s = _
    rw [pushAll_sreg]
    exact interrupt_sreg

/-- A program that an interrupt can meet: outside the kernel's level, the data segment registers
hold selectors that the processor lets it load. -/
def Interruptible (m : MachineState) : Prop :=
  level (m.sreg .cs) ≠ 0 → ∀ s ∈ [SReg.ds, .es, .fs, .gs], usableAtLevel3 (m.sreg s)

structure Shows (f : IntrFrame) (m : MachineState) (vector : U8) : Prop where
  intrnum : f.intrnum = vector.setWidth 32
  eip : f.eip = m.eip
  cs : f.cs = m.sreg .cs
  eflags : f.eflags = m.eflags
  outer : level (m.sreg .cs) ≠ 0 → f.esp = m.reg .esp ∧ f.ss = m.sreg .ss

/-- `int_handler` has returned and left the frame, of `size` bytes, as it was at the call. -/
structure LeavesFrame (call after : MachineState) (size : Nat) : Prop where
  esp : after.reg .esp = call.reg .esp + 4
  cs : after.sreg .cs = call.sreg .cs
  ss : after.sreg .ss = call.sreg .ss
  frame : ∀ i < size, after.mem (after.reg .esp + BitVec.ofNat 32 i) =
    call.mem (after.reg .esp + BitVec.ofNat 32 i)

structure Resumes (after m : MachineState) : Prop where
  eip : after.eip = m.eip
  eflags : after.eflags = m.eflags
  reg : after.reg = m.reg
  sreg : after.sreg = m.sreg

/-- Without a change of privilege the processor does not push `esp` and `ss`. -/
def frameSize (m : MachineState) : Nat := if level (m.sreg .cs) = 0 then 68 else 76

def FrameAgrees (vector : U8) : Prop :=
  ∀ (m : MachineState) (entry esp0 error ret : U32), Interruptible m →
    let call := enterIntHandler m vector entry esp0 error ret
    Shows (intrFrameAt call.mem (call.reg .esp + 4)) m vector ∧
      ∀ after, LeavesFrame call after (frameSize m) →
        Resumes (after.run usableAtLevel3 allInterruptRet) m

/-- At these vectors both the processor and the stub push an error code. -/
theorem pushed_twice (h : vector ∈ [(17 : U8), 21, 29, 30]) :
    pushesErrorCode vector ∧ insertDummyErrorCode vector := by
  simp only [List.mem_cons, List.not_mem_nil, or_false] at h
  rcases h with rfl | rfl | rfl | rfl <;> decide

theorem pushed_once (h : vector ∉ [(17 : U8), 21, 29, 30]) :
    pushesErrorCode vector = !insertDummyErrorCode vector := by
  have hlist : vector ∈ [(8 : U8), 10, 11, 12, 13, 14, 17, 21, 29, 30] ↔
      vector ∈ [(8 : U8), 10, 11, 12, 13, 14] := by
    rw [show [(8 : U8), 10, 11, 12, 13, 14, 17, 21, 29, 30] =
      [8, 10, 11, 12, 13, 14] ++ [17, 21, 29, 30] from rfl, List.mem_append]
    exact or_iff_left h
  rw [pushesErrorCode, insertDummyErrorCode, Bool.not_not, Bool.eq_iff_iff, List.contains_iff_mem,
    List.contains_iff_mem]
  exact hlist

theorem frameWords_of_pushed_once (h : vector ∉ [(17 : U8), 21, 29, 30]) (m : MachineState)
    (error orgEsp : U32) :
    ∃ code, frameWords m vector error orgEsp =
      m.reg .edi :: m.reg .esi :: m.reg .ebp :: orgEsp :: m.reg .ebx :: m.reg .edx ::
        m.reg .ecx :: m.reg .eax :: m.sword .gs :: m.sword .fs :: m.sword .es :: m.sword .ds ::
        vector.setWidth 32 :: code :: m.eip :: m.sword .cs :: m.eflags ::
        if level kernelCode < level (m.sreg .cs) then [m.reg .esp, m.sword .ss] else [] := by
  have hpush := pushed_once h
  cases hdummy : insertDummyErrorCode vector with
  | true =>
    refine ⟨0, ?_⟩
    simp [frameWords, stubFrame, interruptFrame, errorCode, hpush, hdummy]
  | false =>
    refine ⟨error, ?_⟩
    simp [frameWords, stubFrame, interruptFrame, errorCode, hpush, hdummy]

theorem level_kernelCode : level kernelCode = 0 := rfl

theorem inner_iff {x : BitVec 16} : level kernelCode < level x ↔ level x ≠ 0 := by
  rw [level_kernelCode]
  bv_omega

theorem frameWords_length (h : vector ∉ [(17 : U8), 21, 29, 30]) (orgEsp : U32) :
    4 * (frameWords m vector error orgEsp).length = frameSize m := by
  obtain ⟨code, hwords⟩ := frameWords_of_pushed_once h m error orgEsp
  rw [hwords, frameSize]
  by_cases hlevel : level (m.sreg .cs) = 0
  · rw [if_pos hlevel, if_neg (mt inner_iff.mp (not_not.mpr hlevel))]
    rfl
  · rw [if_neg hlevel, if_pos (inner_iff.mpr hlevel)]
    rfl

theorem enterIntHandler_esp (h : vector ∉ [(17 : U8), 21, 29, 30]) :
    (enterIntHandler m vector entry esp0 error ret).reg .esp + 4 =
      (m.innerStack kernelCode kernelData esp0).reg .esp - BitVec.ofNat 32 (frameSize m) := by
  obtain ⟨orgEsp, -, hesp, -⟩ := enterIntHandler_frame m vector entry esp0 error ret
  rwa [frameWords_length h] at hesp

/-- The way into the handler does not write behind its frame. -/
theorem enterIntHandler_mem (h : vector ∉ [(17 : U8), 21, 29, 30]) {x : U32}
    (hroom : ((enterIntHandler m vector entry esp0 error ret).reg .esp).toNat + 4 + frameSize m <
      2 ^ 32)
    (hx : ((enterIntHandler m vector entry esp0 error ret).reg .esp).toNat + 4 + frameSize m ≤
      x.toNat) : (enterIntHandler m vector entry esp0 error ret).mem x = m.mem x := by
  have hesp := @enterIntHandler_esp m vector entry esp0 error ret h
  have hinner : ((m.innerStack kernelCode kernelData esp0).reg .esp).toNat =
      ((enterIntHandler m vector entry esp0 error ret).reg .esp).toNat + 4 + frameSize m := by
    bv_omega
  obtain ⟨orgEsp, henter⟩ := enterIntHandler_eq m vector entry esp0 error ret
  have hlen := @frameWords_length m vector error h orgEsp
  rw [frameWords, List.length_append] at hlen
  have hmem : (enterIntHandler m vector entry esp0 error ret).mem =
      ((m.innerStack kernelCode kernelData esp0).pushAll
        ((m.interruptFrame kernelCode (errorCode vector error)).reverse ++
          ((stubFrame m vector orgEsp).reverse ++ [ret]))).mem := by
    rw [henter, pushAll_append, ← pushAll_concat, interrupt_eq_pushAll]
    exact pushAll_mem_congr _ rfl rfl
  rw [hmem, pushAll_mem]
  · rw [innerStack]
    split <;> rfl
  · simp only [List.length_append, List.length_reverse, List.length_singleton]
    omega
  · omega

theorem load16_of_load32 {mem : Mem} {a w : U32} (h : load32 mem a = w) :
    load16 mem a = selector w := by
  rw [load16_eq_extractLsb', h]
  rfl

theorem shows_of_pushed_once (h : vector ∉ [(17 : U8), 21, 29, 30]) :
    Shows (intrFrameAt (enterIntHandler m vector entry esp0 error ret).mem
      ((enterIntHandler m vector entry esp0 error ret).reg .esp + 4)) m vector := by
  obtain ⟨orgEsp, hstack, -, -⟩ := enterIntHandler_frame m vector entry esp0 error ret
  obtain ⟨code, hwords⟩ := frameWords_of_pushed_once h m error orgEsp
  rw [hwords] at hstack
  constructor
  · exact hstack.load 12 (by simp)
  · exact hstack.load 14 (by simp)
  · exact (load16_of_load32 (hstack.load 15 (by simp))).trans (selector_sword ..)
  · exact hstack.load 16 (by simp)
  · intro hlevel
    rw [if_pos (inner_iff.mpr hlevel)] at hstack
    exact ⟨hstack.load 17 (by simp),
      (load16_of_load32 (hstack.load 18 (by simp))).trans (selector_sword ..)⟩

theorem LeavesFrame.onStack {call after : MachineState} {size : Nat} {ws : List U32}
    (h : LeavesFrame call after size) (hstack : StackAt call.mem (call.reg .esp + 4) ws)
    (hsize : 4 * ws.length = size) : after.OnStack ws := by
  rw [OnStack, h.esp]
  apply hstack.congr
  intro i hi
  have hbyte := h.frame i (by omega)
  rwa [h.esp] at hbyte

theorem resumes_inner (h : vector ∉ [(17 : U8), 21, 29, 30]) (hlevel : level (m.sreg .cs) = 0)
    {after : MachineState}
    (hafter : LeavesFrame (enterIntHandler m vector entry esp0 error ret) after (frameSize m)) :
    Resumes (after.run usableAtLevel3 allInterruptRet) m := by
  obtain ⟨orgEsp, hstack, hesp, hsreg⟩ := enterIntHandler_frame m vector entry esp0 error ret
  obtain ⟨code, hwords⟩ := frameWords_of_pushed_once h m error orgEsp
  have hin : ¬ level kernelCode < level (m.sreg .cs) := by
    rw [inner_iff]
    exact not_not.mpr hlevel
  rw [hwords, if_neg hin] at hstack hesp
  rw [innerStack, if_neg hin] at hesp
  have hon := hafter.onStack hstack (by rw [frameSize, if_pos hlevel]; rfl)
  have hss : after.sreg .ss = m.sreg .ss := by
    rw [hafter.ss, hsreg, if_neg (by simp), innerStack, if_neg hin]
  rw [run_allInterruptRet_inner hon (by rw [selector_sword, hlevel]; bv_omega)]
  refine ⟨rfl, rfl, ?_, ?_⟩
  · funext x
    cases x
    case esp => exact (congrArg (· + 68) (hafter.esp.trans hesp)).trans (BitVec.sub_add_cancel ..)
    all_goals rfl
  · funext x
    cases x
    case ss => exact hss
    all_goals exact selector_sword ..

theorem resumes_outer (h : vector ∉ [(17 : U8), 21, 29, 30]) (hlevel : level (m.sreg .cs) ≠ 0)
    (hm : Interruptible m) {after : MachineState}
    (hafter : LeavesFrame (enterIntHandler m vector entry esp0 error ret) after (frameSize m)) :
    Resumes (after.run usableAtLevel3 allInterruptRet) m := by
  obtain ⟨orgEsp, hstack, -, hsreg⟩ := enterIntHandler_frame m vector entry esp0 error ret
  obtain ⟨code, hwords⟩ := frameWords_of_pushed_once h m error orgEsp
  rw [hwords, if_pos (inner_iff.mpr hlevel)] at hstack
  have hon := hafter.onStack hstack (by rw [frameSize, if_neg hlevel]; rfl)
  have hcs : after.sreg .cs = kernelCode := by rw [hafter.cs, hsreg, if_pos rfl]
  have hout : ¬ level (selector (m.sword .cs)) ≤ level (after.sreg .cs) := by
    rw [selector_sword, hcs, BitVec.not_le]
    exact inner_iff.mpr hlevel
  have hkept : ∀ s ∈ [SReg.ds, .es, .fs, .gs],
      kept usableAtLevel3 (selector (m.sword s)) = m.sreg s := by
    intro s hs
    rw [selector_sword, kept, if_pos (hm hlevel s hs)]
  rw [run_allInterruptRet_outer hon hout]
  refine ⟨rfl, rfl, ?_, ?_⟩
  · funext x
    cases x <;> rfl
  · funext x
    cases x
    case cs => exact selector_sword ..
    case ss => exact selector_sword ..
    all_goals exact hkept _ (by simp)

/-- Where both push, the frame shows the error code as the interrupted address. -/
theorem eip_of_pushed_twice (h : vector ∈ [(17 : U8), 21, 29, 30]) :
    (intrFrameAt (enterIntHandler m vector entry esp0 error ret).mem
      ((enterIntHandler m vector entry esp0 error ret).reg .esp + 4)).eip = error := by
  obtain ⟨orgEsp, hstack, -, -⟩ := enterIntHandler_frame m vector entry esp0 error ret
  obtain ⟨hpush, hdummy⟩ := pushed_twice h
  have hwords : ∃ ws, frameWords m vector error orgEsp =
      m.reg .edi :: m.reg .esi :: m.reg .ebp :: orgEsp :: m.reg .ebx :: m.reg .edx ::
        m.reg .ecx :: m.reg .eax :: m.sword .gs :: m.sword .fs :: m.sword .es :: m.sword .ds ::
        vector.setWidth 32 :: 0 :: error :: ws := by
    refine ⟨[m.eip, m.sword .cs, m.eflags] ++
      if level kernelCode < level (m.sreg .cs) then [m.reg .esp, m.sword .ss] else [], ?_⟩
    simp [frameWords, stubFrame, interruptFrame, errorCode, hpush, hdummy]
  obtain ⟨ws, hwords⟩ := hwords
  rw [hwords] at hstack
  exact hstack.load 14 (by simp)

theorem not_frameAgrees_of_pushed_twice (h : vector ∈ [(17 : U8), 21, 29, 30]) :
    ¬ FrameAgrees vector := by
  intro hagrees
  let m : MachineState := ⟨fun _ => 0, fun _ => kernelCode, 0, 0, fun _ => 0, fun _ => 0⟩
  have hkernel : level (m.sreg .cs) = 0 := level_kernelCode
  have hm : Interruptible m := fun hlevel => absurd hkernel hlevel
  have heip := (hagrees m 0 0 1 0 hm).1.eip
  rw [eip_of_pushed_twice h] at heip
  exact absurd heip (by decide)

end Uroboros
