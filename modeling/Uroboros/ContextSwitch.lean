import Uroboros.Mtask
import Uroboros.TaskImage
import Uroboros.Lib.Coroutine

/-!
# Context switches

`context_switch` on the registers and the memory, and the processes as coroutines: each has its
registers and the part of its stack in use, and `context_switch` only changes
whose turn it is. A process is a slot with its stack; what the running one does in between
is any change of the machine that leaves the stacks and contexts of the others.
-/

set_option autoImplicit false

namespace Uroboros

open ByteMemory X86 MachineState

/-- `context_switch`; `[esp]` is its return address. -/
def contextSwitch (m : MachineState) : MachineState :=
  let m := m.setReg .eax (load32 m.mem (m.reg .esp + 4))
  let m := m.setReg .edx (load32 m.mem (m.reg .esp + 8))
  let m := (((m.push (m.reg .ebp)).push (m.reg .ebx)).push (m.reg .esi)).push (m.reg .edi)
  let m := { m with mem := store32 m.mem (m.reg .eax) (m.reg .esp) }
  m.run usableAtLevel3 (contextSwitchTail (m.reg .edx))

/-- The memory when `context_switch` has stored the old context at `old`. -/
def savedMem (m : MachineState) (old : U32) : Mem :=
  let esp := m.reg .esp
  let mem := store32 m.mem (esp - 4) (m.reg .ebp)
  let mem := store32 mem (esp - 8) (m.reg .ebx)
  let mem := store32 mem (esp - 12) (m.reg .esi)
  let mem := store32 mem (esp - 16) (m.reg .edi)
  store32 mem old (esp - 16)

/-- What a process finds in the processor, and the bytes of its stack in use. -/
@[ext] structure Frame where
  eip : U32
  esp : U32
  ebp : U32
  ebx : U32
  esi : U32
  edi : U32
  stack : U32 → Option U8

structure Region where
  bottom : Nat
  top : Nat

def Region.Contains (r : Region) (x : U32) : Prop := r.bottom ≤ x.toNat ∧ x.toNat < r.top

instance (r : Region) (x : U32) : Decidable (r.Contains x) := inferInstanceAs (Decidable (_ ∧ _))

def Region.Apart (r r' : Region) : Prop := r.top ≤ r'.bottom ∨ r'.top ≤ r.bottom

theorem Region.Apart.not_contains {r r' : Region} {x : U32} (h : r.Apart r') (hx : r.Contains x) :
    ¬ r'.Contains x := by
  unfold Region.Apart Region.Contains at *
  omega

def stackInUse (mem : Mem) (esp : U32) (r : Region) : U32 → Option U8 := fun x =>
  if r.Contains x ∧ esp.toNat ≤ x.toNat then some (mem x) else none

def runningFrame (m : MachineState) (r : Region) : Frame where
  eip := m.eip
  esp := m.reg .esp
  ebp := m.reg .ebp
  ebx := m.reg .ebx
  esi := m.reg .esi
  edi := m.reg .edi
  stack := stackInUse m.mem (m.reg .esp) r

/-- The frame that the `Context` at `c` keeps. -/
def parkedFrame (mem : Mem) (c : U32) (r : Region) : Frame where
  eip := load32 mem (c + 16)
  esp := c + 20
  ebp := load32 mem (c + 12)
  ebx := load32 mem (c + 8)
  esi := load32 mem (c + 4)
  edi := load32 mem c
  stack := stackInUse mem (c + 20) r

/-- The frame in which a call whose return address is on top of the stack has returned. -/
def Frame.ret (f : Frame) : Frame :=
  { f with
    eip := load32 (fun x => (f.stack x).getD 0) f.esp
    esp := f.esp + 4
    stack := fun x => if f.esp.toNat + 4 ≤ x.toNat then f.stack x else none }

variable {m : MachineState} {mem mem' : Mem} {r : Region}

def contextRegs (mem : Mem) (c : U32) (reg : Reg → U32) : Reg → U32
  | .esp => c + 20
  | .ebp => load32 mem (c + 12)
  | .ebx => load32 mem (c + 8)
  | .esi => load32 mem (c + 4)
  | .edi => load32 mem c
  | r => reg r

theorem run_contextSwitchTail_eq (m : MachineState) (c : U32) :
    m.run usableAtLevel3 (contextSwitchTail c) = { m with
      reg := contextRegs m.mem c m.reg
      eip := load32 m.mem (c + 16) } := by
  have hstack := stackAt_wordsAt m.mem c 5
  simp only [wordsAt, BitVec.add_assoc, BitVec.reduceAdd] at hstack
  have h₀ : (m.setReg .esp c).OnStack [load32 m.mem c, load32 m.mem (c + 4),
      load32 m.mem (c + 8#32), load32 m.mem (c + 12#32), load32 m.mem (c + 16#32)] := by
    rw [OnStack, setReg_reg, if_pos rfl]
    exact hstack
  have h₁ := h₀.popReg (r := .edi) (by simp)
  have h₂ := h₁.popReg (r := .esi) (by simp)
  have h₃ := h₂.popReg (r := .ebx) (by simp)
  have h₄ := h₃.popReg (r := .ebp) (by simp)
  have hrun : m.run usableAtLevel3 (contextSwitchTail c) =
    (((((m.setReg .esp c).popReg .edi).popReg .esi).popReg .ebx).popReg .ebp).popEip := rfl
  have hreg : (m.run usableAtLevel3 (contextSwitchTail c)).reg = contextRegs m.mem c m.reg := by
    funext r
    rw [hrun]
    cases r <;> simp [popEip, contextRegs, h₀.top, h₁.top, h₂.top, h₃.top, BitVec.add_assoc]
  have heip : (m.run usableAtLevel3 (contextSwitchTail c)).eip = load32 m.mem (c + 16) := h₄.top
  rw [← hreg, ← heip]
  rfl

def saveContext (m : MachineState) (old : U32) : MachineState :=
  let m := m.pushAll [m.reg .ebp, m.reg .ebx, m.reg .esi, m.reg .edi]
  { m with mem := store32 m.mem old (m.reg .esp) }

theorem saveContext_mem (m : MachineState) (old : U32) :
    (saveContext m old).mem = savedMem m old := by
  have hsub : ∀ a b : U32, m.reg .esp - a - b = m.reg .esp - (a + b) := by
    intro a b
    bv_omega
  simp [saveContext, savedMem, pushAll, push, hsub]

/-- The new context is read after the old one has been stored. -/
theorem contextSwitch_eq (m : MachineState) :
    let mem := savedMem m (load32 m.mem (m.reg .esp + 4))
    let c := load32 m.mem (m.reg .esp + 8)
    (contextSwitch m).mem = mem ∧ (contextSwitch m).sreg = m.sreg ∧
      ∀ r, runningFrame (contextSwitch m) r = parkedFrame mem c r := by
  intro mem c
  have hsaved : (saveContext ((m.setReg .eax (load32 m.mem (m.reg .esp + 4))).setReg .edx c)
      (load32 m.mem (m.reg .esp + 4))).mem = mem := saveContext_mem ..
  have hswitch : contextSwitch m = (saveContext ((m.setReg .eax (load32 m.mem (m.reg .esp + 4))).setReg
      .edx c) (load32 m.mem (m.reg .esp + 4))).run usableAtLevel3 (contextSwitchTail c) := rfl
  rw [run_contextSwitchTail_eq, hsaved] at hswitch
  rw [hswitch]
  exact ⟨rfl, rfl, fun r => rfl⟩

def Stored (m : MachineState) (old x : U32) : Prop :=
  (m.reg .esp).toNat - 16 ≤ x.toNat ∧ x.toNat < (m.reg .esp).toNat ∨
    old.toNat ≤ x.toNat ∧ x.toNat < old.toNat + 4

section Saved

variable {old x : U32}

theorem load32_savedMem_old : load32 (savedMem m old) old = m.reg .esp - 16 :=
  load32_store32_same ..

variable (hesp : 16 ≤ (m.reg .esp).toNat) (hold : old.toNat + 4 ≤ 2 ^ 32)
include hesp hold

theorem savedMem_of_not_stored (hx : ¬ Stored m old x) : savedMem m old x = m.mem x := by
  unfold Stored at hx
  have hlt := (m.reg .esp).isLt
  rw [savedMem, store32_frame _ _ hold (by omega), store32_frame _ _ (by bv_omega) (by bv_omega),
    store32_frame _ _ (by bv_omega) (by bv_omega), store32_frame _ _ (by bv_omega) (by bv_omega),
    store32_frame _ _ (by bv_omega) (by bv_omega)]

variable (hapart : (m.reg .esp).toNat ≤ old.toNat ∨ old.toNat + 4 ≤ (m.reg .esp).toNat - 16)
include hapart

theorem savedMem_context :
    load32 (savedMem m old) (m.reg .esp - 16) = m.reg .edi ∧
      load32 (savedMem m old) (m.reg .esp - 16 + 4) = m.reg .esi ∧
      load32 (savedMem m old) (m.reg .esp - 16 + 8) = m.reg .ebx ∧
      load32 (savedMem m old) (m.reg .esp - 16 + 12) = m.reg .ebp := by
  have hlt := (m.reg .esp).isLt
  have h4 : m.reg .esp - 16 + 4 = m.reg .esp - 12 := by bv_omega
  have h8 : m.reg .esp - 16 + 8 = m.reg .esp - 8 := by bv_omega
  have h12 : m.reg .esp - 16 + 12 = m.reg .esp - 4 := by bv_omega
  rw [h4, h8, h12]
  refine ⟨?_, ?_, ?_, ?_⟩
  · rw [savedMem, load32_store32_disjoint _ _ hold (by bv_omega) (by bv_omega),
      load32_store32_same]
  · rw [savedMem, load32_store32_disjoint _ _ hold (by bv_omega) (by bv_omega),
      load32_store32_disjoint _ _ (by bv_omega) (by bv_omega) (by bv_omega), load32_store32_same]
  · rw [savedMem, load32_store32_disjoint _ _ hold (by bv_omega) (by bv_omega),
      load32_store32_disjoint _ _ (by bv_omega) (by bv_omega) (by bv_omega),
      load32_store32_disjoint _ _ (by bv_omega) (by bv_omega) (by bv_omega), load32_store32_same]
  · rw [savedMem, load32_store32_disjoint _ _ hold (by bv_omega) (by bv_omega),
      load32_store32_disjoint _ _ (by bv_omega) (by bv_omega) (by bv_omega),
      load32_store32_disjoint _ _ (by bv_omega) (by bv_omega) (by bv_omega),
      load32_store32_disjoint _ _ (by bv_omega) (by bv_omega) (by bv_omega), load32_store32_same]

end Saved

end Uroboros
