import Uroboros.Config
import Uroboros.Lib.X86

/-!
# Interrupt stubs and the frame of `int_handler`

The code of `asm_interrupts.s`, as the generator script writes it, and the packed
`IntrFrame` of `iframe.h`, laid over the words that the processor and a stub push.
-/

set_option autoImplicit false

namespace Uroboros

open ByteMemory X86

def gdtSegnumKernelData : BitVec 16 := 1
def gdtSegnumKernelCode : BitVec 16 := 2
def gdtSegnumAppData : BitVec 16 := 3
def gdtSegnumAppCode : BitVec 16 := 4

def kernelData : BitVec 16 := gdtSegnumKernelData <<< 3
def kernelCode : BitVec 16 := gdtSegnumKernelCode <<< 3
def appData : BitVec 16 := gdtSegnumAppData <<< 3 ||| 3
def appCode : BitVec 16 := gdtSegnumAppCode <<< 3 ||| 3

/-- Selectors that a data segment register keeps at level 3: 0, and those of the descriptors to
which `init_gdt` gives the level 3. The processor loads 0 for the null selectors 1 to 3. -/
def usableAtLevel3 (selector : BitVec 16) : Bool :=
  let index := selector >>> 3
  selector == 0 || index == gdtSegnumAppData || index == gdtSegnumAppCode

def insertDummyErrorCode (i : U8) : Bool := !([8, 10, 11, 12, 13, 14].contains i)

/-- `intXX_handler`. -/
def intHandlerStub (i : U8) : List Instr :=
  (if insertDummyErrorCode i then [.pushImm 0] else []) ++
    [.pushImm (i.setWidth 32), .pushSreg .ds, .pushSreg .es, .pushSreg .fs, .pushSreg .gs, .pusha]

def allInterruptRet : List Instr :=
  [.popa, .popSreg .gs, .popSreg .fs, .popSreg .es, .popSreg .ds, .addEsp 8, .iret]

structure IntrFrame where
  edi : U32
  esi : U32
  ebp : U32
  orgEsp : U32
  ebx : U32
  edx : U32
  ecx : U32
  eax : U32
  gs : BitVec 16
  fs : BitVec 16
  es : BitVec 16
  ds : BitVec 16
  intrnum : U32
  error : U32
  eip : U32
  cs : BitVec 16
  eflags : U32
  esp : U32
  ss : BitVec 16

def sizeofIntrFrame : U32 := 76

def intrFrameAt (m : Mem) (p : U32) : IntrFrame where
  edi := load32 m p
  esi := load32 m (p + 4)
  ebp := load32 m (p + 8)
  orgEsp := load32 m (p + 12)
  ebx := load32 m (p + 16)
  edx := load32 m (p + 20)
  ecx := load32 m (p + 24)
  eax := load32 m (p + 28)
  gs := load16 m (p + 32)
  fs := load16 m (p + 36)
  es := load16 m (p + 40)
  ds := load16 m (p + 44)
  intrnum := load32 m (p + 48)
  error := load32 m (p + 52)
  eip := load32 m (p + 56)
  cs := load16 m (p + 60)
  eflags := load32 m (p + 64)
  esp := load32 m (p + 68)
  ss := load16 m (p + 72)

section Return

open MachineState

variable {m : MachineState} {ws : List U32} {usable : BitVec 16 → Bool}
  {edi esi ebp orgEsp ebx edx ecx eax gs fs es ds intrnum error eip cs eflags esp ss : U32}

theorem run_restore (usable : BitVec 16 → Bool)
    (h : m.OnStack (edi :: esi :: ebp :: orgEsp :: ebx :: edx :: ecx :: eax ::
      gs :: fs :: es :: ds :: intrnum :: error :: ws)) :
    m.run usable (allInterruptRet.take 6) = { m with
      reg := regs eax ecx edx ebx (m.reg .esp + 56) ebp esi edi
      sreg := sregs (m.sreg .cs) (selector ds) (selector es) (selector fs) (selector gs)
        (m.sreg .ss) } ∧
      (m.run usable (allInterruptRet.take 6)).OnStack ws := by
  obtain ⟨hpopa, h₀⟩ := h.popa
  have h₁ := h₀.popSreg (s := .gs)
  have h₂ := h₁.popSreg (s := .fs)
  have h₃ := h₂.popSreg (s := .es)
  have h₄ := h₃.popSreg (s := .ds)
  refine ⟨?_, h₄.addEsp⟩
  have hrun : m.run usable (allInterruptRet.take 6) =
      ((((m.popa.popSreg .gs).popSreg .fs).popSreg .es).popSreg .ds).setReg .esp
        (((((m.popa.popSreg .gs).popSreg .fs).popSreg .es).popSreg .ds).reg .esp + 8) := rfl
  have hreg : (m.run usable (allInterruptRet.take 6)).reg =
      regs eax ecx edx ebx (m.reg .esp + 56) ebp esi edi := by
    funext x
    rw [hrun]
    cases x <;> simp [hpopa, regs, BitVec.add_assoc]
  have hsreg : (m.run usable (allInterruptRet.take 6)).sreg =
      sregs (m.sreg .cs) (selector ds) (selector es) (selector fs) (selector gs)
        (m.sreg .ss) := by
    funext x
    rw [hrun]
    cases x <;> simp [h₀.top, h₁.top, h₂.top, h₃.top, sregs, selector]
    · rw [hpopa]
    · rw [hpopa]
  rw [← hreg, ← hsreg]
  rfl

theorem run_allInterruptRet_inner
    (h : m.OnStack (edi :: esi :: ebp :: orgEsp :: ebx :: edx :: ecx :: eax ::
      gs :: fs :: es :: ds :: intrnum :: error :: eip :: cs :: eflags :: ws))
    (hlevel : level (selector cs) ≤ level (m.sreg .cs)) :
    m.run usable allInterruptRet = { m with
      reg := regs eax ecx edx ebx (m.reg .esp + 68) ebp esi edi
      sreg := sregs (selector cs) (selector ds) (selector es) (selector fs) (selector gs)
        (m.sreg .ss)
      eip := eip
      eflags := eflags } := by
  obtain ⟨heq, hstack⟩ := run_restore usable h
  have hiret := hstack.iret_inner usable (by rwa [heq])
  apply hiret.trans
  rw [heq]
  congr 1
  · funext x
    cases x <;> simp [regs, BitVec.add_assoc]
  · funext x
    cases x <;> simp [sregs]

theorem run_allInterruptRet_outer
    (h : m.OnStack (edi :: esi :: ebp :: orgEsp :: ebx :: edx :: ecx :: eax ::
      gs :: fs :: es :: ds :: intrnum :: error :: eip :: cs :: eflags :: esp :: ss :: ws))
    (hlevel : ¬ level (selector cs) ≤ level (m.sreg .cs)) :
    m.run usable allInterruptRet = { m with
      reg := regs eax ecx edx ebx esp ebp esi edi
      sreg := sregs (selector cs) (kept usable (selector ds)) (kept usable (selector es))
        (kept usable (selector fs)) (kept usable (selector gs)) (selector ss)
      eip := eip
      eflags := eflags } := by
  obtain ⟨heq, hstack⟩ := run_restore usable h
  have hiret := hstack.iret_outer usable (by rwa [heq])
  apply hiret.trans
  rw [heq]
  congr 1
  funext x
  cases x <;> simp [regs]

theorem selector_load32 (mem : Mem) (a : U32) : selector (load32 mem a) = load16 mem a :=
  (load16_eq_extractLsb' mem a).symm

/-- The return path takes the machine to the state that the frame on its stack describes. -/
theorem run_allInterruptRet_frame (hlevel :
    level (intrFrameAt m.mem (m.reg .esp)).cs ≤ level (m.sreg .cs)) :
    let f := intrFrameAt m.mem (m.reg .esp)
    m.run usable allInterruptRet = { m with
      reg := regs f.eax f.ecx f.edx f.ebx (m.reg .esp + 68) f.ebp f.esi f.edi
      sreg := sregs f.cs f.ds f.es f.fs f.gs (m.sreg .ss)
      eip := f.eip
      eflags := f.eflags } := by
  intro f
  have hstack : m.OnStack (wordsAt m.mem (m.reg .esp) 17) := stackAt_wordsAt ..
  simp only [wordsAt, BitVec.add_assoc, BitVec.reduceAdd] at hstack
  apply (run_allInterruptRet_inner hstack (by rwa [selector_load32])).trans
  simp only [selector_load32]
  rfl

theorem run_allInterruptRet_frame_outer (hlevel :
    ¬ level (intrFrameAt m.mem (m.reg .esp)).cs ≤ level (m.sreg .cs)) :
    let f := intrFrameAt m.mem (m.reg .esp)
    m.run usable allInterruptRet = { m with
      reg := regs f.eax f.ecx f.edx f.ebx f.esp f.ebp f.esi f.edi
      sreg := sregs f.cs (kept usable f.ds) (kept usable f.es) (kept usable f.fs)
        (kept usable f.gs) f.ss
      eip := f.eip
      eflags := f.eflags } := by
  intro f
  have hstack : m.OnStack (wordsAt m.mem (m.reg .esp) 19) := stackAt_wordsAt ..
  simp only [wordsAt, BitVec.add_assoc, BitVec.reduceAdd] at hstack
  apply (run_allInterruptRet_outer hstack (by rwa [selector_load32])).trans
  simp only [selector_load32]
  rfl

theorem run_allInterruptRet_mem : (m.run usable allInterruptRet).mem = m.mem := by
  by_cases hlevel : level (intrFrameAt m.mem (m.reg .esp)).cs ≤ level (m.sreg .cs)
  · rw [run_allInterruptRet_frame hlevel]
  · rw [run_allInterruptRet_frame_outer hlevel]

end Return

end Uroboros
