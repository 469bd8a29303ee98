import Uroboros.Lib.ByteMemory

/-!
# The stack of a 32-bit x86 processor

Registers and a flat memory, the instructions that move words between them over
the stack, and what the processor itself pushes at an interrupt. `StackAt` lists
the words of the stack. Privilege levels are the lower bits of `cs`; faults are
not modelled, and `iret` never meets a task gate or virtual-8086 mode.
-/

set_option autoImplicit false

namespace X86

open ByteMemory

inductive Reg where
  | eax | ecx | edx | ebx | esp | ebp | esi | edi
  deriving DecidableEq

inductive SReg where
  | cs | ds | es | fs | gs | ss
  deriving DecidableEq

/-- A push of a segment register fills the upper half of its word with `upper`, which the processor
does not define. -/
structure MachineState where
  reg : Reg → BitVec 32
  sreg : SReg → BitVec 16
  eip : BitVec 32
  eflags : BitVec 32
  upper : SReg → BitVec 16
  mem : Mem

inductive Instr where
  | pushImm (v : BitVec 32)
  | pushSreg (s : SReg)
  | pusha
  | popReg (r : Reg)
  | popSreg (s : SReg)
  | popa
  | movEsp (v : BitVec 32)
  | addEsp (v : BitVec 32)
  | ret
  | iret

namespace MachineState

def setReg (m : MachineState) (r : Reg) (v : BitVec 32) : MachineState :=
  { m with reg := Function.update m.reg r v }

def setSreg (m : MachineState) (s : SReg) (v : BitVec 16) : MachineState :=
  { m with sreg := Function.update m.sreg s v }

def push (m : MachineState) (v : BitVec 32) : MachineState :=
  let esp := m.reg .esp - 4
  { m with reg := Function.update m.reg .esp esp, mem := store32 m.mem esp v }

def sword (m : MachineState) (s : SReg) : BitVec 32 := m.upper s ++ m.sreg s

def top (m : MachineState) : BitVec 32 := load32 m.mem (m.reg .esp)

def pop (m : MachineState) : MachineState := m.setReg .esp (m.reg .esp + 4)

def popReg (m : MachineState) (r : Reg) : MachineState := m.pop.setReg r m.top

def popSreg (m : MachineState) (s : SReg) : MachineState := m.pop.setSreg s (m.top.extractLsb' 0 16)

def level (selector : BitVec 16) : BitVec 16 := selector &&& 3

def popEip (m : MachineState) : MachineState := { m.pop with eip := m.top }

def popEflags (m : MachineState) : MachineState := { m.pop with eflags := m.top }

def pusha (m : MachineState) : MachineState :=
  let esp := m.reg .esp
  let m := (((m.push (m.reg .eax)).push (m.reg .ecx)).push (m.reg .edx)).push (m.reg .ebx)
  (((m.push esp).push (m.reg .ebp)).push (m.reg .esi)).push (m.reg .edi)

/-- The word of `esp` is skipped. -/
def popa (m : MachineState) : MachineState :=
  let m := ((m.popReg .edi).popReg .esi).popReg .ebp
  let m := m.pop
  (((m.popReg .ebx).popReg .edx).popReg .ecx).popReg .eax

/-- On a return to an outer level the data segment registers lose a selector that is not `usable`
there. -/
def dropUnusable (m : MachineState) (usable : BitVec 16 → Bool) : MachineState :=
  { m with sreg := fun s =>
      match s with
      | .cs | .ss => m.sreg s
      | _ => if usable (m.sreg s) then m.sreg s else 0 }

def iret (m : MachineState) (usable : BitVec 16 → Bool) : MachineState :=
  let old := level (m.sreg .cs)
  let m := ((m.popEip).popSreg .cs).popEflags
  if level (m.sreg .cs) ≤ old then m
  else
    let esp := m.top
    let m := (m.pop.popSreg .ss).setReg .esp esp
    m.dropUnusable usable

def exec (usable : BitVec 16 → Bool) (m : MachineState) : Instr → MachineState
  | .pushImm v => m.push v
  | .pushSreg s => m.push (m.sword s)
  | .pusha => m.pusha
  | .popReg r => m.popReg r
  | .popSreg s => m.popSreg s
  | .popa => m.popa
  | .movEsp v => m.setReg .esp v
  | .addEsp v => m.setReg .esp (m.reg .esp + v)
  | .ret => m.popEip
  | .iret => m.iret usable

def run (usable : BitVec 16 → Bool) (m : MachineState) (code : List Instr) : MachineState :=
  code.foldl (exec usable) m

/-- `IF`, and the flags besides that an interrupt gate clears: `TF`, `NT`, `RF` and `VM`. -/
def flagIf : BitVec 32 := 0x200
def gateFlags : BitVec 32 := flagIf ||| 0x34100

/-- The processor takes an interrupt through a gate to `cs:entry`; from an outer level it changes to
the stack `ss0:esp0`. -/
def interrupt (m : MachineState) (cs : BitVec 16) (entry : BitVec 32) (ss0 : BitVec 16)
    (esp0 : BitVec 32) (error : Option (BitVec 32)) : MachineState :=
  let inner := level cs < level (m.sreg .cs)
  let m₁ := if inner then
      (((m.setReg .esp esp0).push (m.sword .ss)).push (m.reg .esp)).setSreg .ss ss0
    else m
  let m₁ := ((m₁.push m.eflags).push (m.sword .cs)).push m.eip
  let m₁ := match error with
    | none => m₁
    | some code => m₁.push code
  { m₁.setSreg .cs cs with eip := entry, eflags := m.eflags &&& ~~~gateFlags }

end MachineState

def StackAt (m : Mem) : BitVec 32 → List (BitVec 32) → Prop
  | _, [] => True
  | a, w :: ws => load32 m a = w ∧ StackAt m (a + 4) ws

variable {m m' : Mem} {a w : BitVec 32} {ws : List (BitVec 32)}

theorem StackAt.load (h : StackAt m a ws) (i : Nat) (hi : i < ws.length) :
    load32 m (a + BitVec.ofNat 32 (4 * i)) = ws[i] := by
  induction ws generalizing a i with
  | nil => exact absurd hi (Nat.not_lt_zero i)
  | cons w ws ih =>
    cases i with
    | zero => simpa using h.1
    | succ i =>
      have hoff : a + BitVec.ofNat 32 (4 * (i + 1)) = a + 4 + BitVec.ofNat 32 (4 * i) := by
        rw [BitVec.add_assoc, show 4 * (i + 1) = 4 + 4 * i by omega, BitVec.ofNat_add]
        rfl
      rw [hoff]
      exact ih h.2 i (Nat.lt_of_succ_lt_succ hi)

def wordsAt (m : Mem) : BitVec 32 → Nat → List (BitVec 32)
  | _, 0 => []
  | a, n + 1 => load32 m a :: wordsAt m (a + 4) n

theorem stackAt_wordsAt (m : Mem) (a : BitVec 32) (n : Nat) : StackAt m a (wordsAt m a n) := by
  induction n generalizing a with
  | zero => trivial
  | succ n ih => exact ⟨rfl, ih (a + 4)⟩

theorem StackAt.congr (h : StackAt m a ws)
    (heq : ∀ i < 4 * ws.length, m' (a + BitVec.ofNat 32 i) = m (a + BitVec.ofNat 32 i)) :
    StackAt m' a ws := by
  induction ws generalizing a with
  | nil => trivial
  | cons w ws ih =>
    rw [List.length_cons] at heq
    refine ⟨(load32_congr fun i hi => heq i (by omega)).trans h.1, ih h.2 ?_⟩
    intro i hi
    have hoff : a + 4 + BitVec.ofNat 32 i = a + BitVec.ofNat 32 (4 + i) := by
      rw [BitVec.add_assoc, BitVec.ofNat_add]
      rfl
    rw [hoff]
    exact heq (4 + i) (by omega)

/-- A push puts a word in front, as long as the stack does not meet itself. -/
theorem StackAt.push (h : StackAt m a ws) (hlen : 4 * ws.length + 4 ≤ 2 ^ 32) :
    StackAt (store32 m (a - 4) w) (a - 4) (w :: ws) := by
  refine ⟨load32_store32_same .., ?_⟩
  have hback : a - 4 + 4 = a := BitVec.sub_add_cancel ..
  rw [hback]
  apply h.congr
  intro i hi
  rw [store32_apply, if_neg (by bv_omega), if_neg (by bv_omega), if_neg (by bv_omega),
    if_neg (by bv_omega)]

namespace MachineState

variable {m : MachineState} {r x : Reg} {s t : SReg}
  {v edi esi ebp esp ebx edx ecx eax eip cs eflags ss : BitVec 32}
  {usable : BitVec 16 → Bool}

def OnStack (m : MachineState) (ws : List (BitVec 32)) : Prop := StackAt m.mem (m.reg .esp) ws

def pushAll (m : MachineState) (ws : List (BitVec 32)) : MachineState := ws.foldl push m

theorem push_reg : (m.push v).reg x = if x = .esp then m.reg .esp - 4 else m.reg x :=
  Function.update_apply ..

theorem pushAll_sreg (m : MachineState) (vs : List (BitVec 32)) : (m.pushAll vs).sreg = m.sreg := by
  induction vs generalizing m with
  | nil => rfl
  | cons v vs ih => exact ih (m.push v)

theorem pushAll_upper (m : MachineState) (vs : List (BitVec 32)) :
    (m.pushAll vs).upper = m.upper := by
  induction vs generalizing m with
  | nil => rfl
  | cons v vs ih => exact ih (m.push v)

theorem pushAll_esp (m : MachineState) (vs : List (BitVec 32)) :
    (m.pushAll vs).reg .esp = m.reg .esp - BitVec.ofNat 32 (4 * vs.length) := by
  induction vs generalizing m with
  | nil => simp [pushAll]
  | cons v vs ih =>
    have hstep := ih (m.push v)
    rw [push_reg, if_pos rfl] at hstep
    apply hstep.trans
    rw [List.length_cons, show 4 * (vs.length + 1) = 4 + 4 * vs.length by omega,
      BitVec.ofNat_add]
    change _ - 4#32 - _ = _
    bv_omega

theorem pushAll_reg (m : MachineState) (vs : List (BitVec 32)) (hx : x ≠ .esp) :
    (m.pushAll vs).reg x = m.reg x := by
  induction vs generalizing m with
  | nil => rfl
  | cons v vs ih => exact (ih (m.push v)).trans (push_reg.trans (if_neg hx))

theorem pushAll_append (m : MachineState) (vs ws : List (BitVec 32)) :
    m.pushAll (vs ++ ws) = (m.pushAll vs).pushAll ws := List.foldl_append ..

theorem pushAll_concat (m : MachineState) (vs : List (BitVec 32)) (v : BitVec 32) :
    m.pushAll (vs ++ [v]) = (m.pushAll vs).push v := pushAll_append m vs [v]

theorem pushAll_mem_congr {m₂ : MachineState} (vs : List (BitVec 32)) (hmem : m.mem = m₂.mem)
    (hesp : m.reg .esp = m₂.reg .esp) : (m.pushAll vs).mem = (m₂.pushAll vs).mem := by
  induction vs generalizing m m₂ with
  | nil => exact hmem
  | cons v vs ih =>
    apply ih
    · change store32 m.mem _ v = store32 m₂.mem _ v
      rw [hmem, hesp]
    · rw [push_reg, push_reg, if_pos rfl, if_pos rfl, hesp]

theorem pushAll_mem {a : BitVec 32} (vs : List (BitVec 32))
    (hesp : 4 * vs.length ≤ (m.reg .esp).toNat)
    (ha : a.toNat < (m.reg .esp).toNat - 4 * vs.length ∨ (m.reg .esp).toNat ≤ a.toNat) :
    (m.pushAll vs).mem a = m.mem a := by
  induction vs generalizing m with
  | nil => rfl
  | cons v vs ih =>
    rw [List.length_cons] at hesp ha
    have hnext : ((m.push v).reg .esp).toNat = (m.reg .esp).toNat - 4 := by
      rw [push_reg, if_pos rfl]
      bv_omega
    apply (ih (by omega) (by omega)).trans
    exact store32_frame _ _ (by bv_omega) (by bv_omega)

theorem OnStack.push (h : m.OnStack ws) (hlen : 4 * ws.length + 4 ≤ 2 ^ 32) :
    (m.push v).OnStack (v :: ws) := by
  rw [OnStack, push_reg, if_pos rfl]
  exact StackAt.push h hlen

theorem OnStack.pushAll {vs : List (BitVec 32)} (h : m.OnStack ws)
    (hlen : 4 * (vs.length + ws.length) ≤ 2 ^ 32) :
    (m.pushAll vs).OnStack (vs.reverse ++ ws) := by
  induction vs generalizing m ws with
  | nil => exact h
  | cons v vs ih =>
    rw [List.length_cons] at hlen
    rw [List.reverse_cons, List.append_assoc]
    have hrest : 4 * (vs.length + (v :: ws).length) ≤ 2 ^ 32 := by
      rw [List.length_cons]
      omega
    exact ih (h.push (by omega)) hrest

theorem pushAll_onStack (m : MachineState) (vs : List (BitVec 32)) (hlen : 4 * vs.length ≤ 2 ^ 32) :
    (m.pushAll vs).OnStack vs.reverse := by
  have hnil : m.OnStack [] := trivial
  simpa using hnil.pushAll hlen

variable {code : BitVec 16} {entry esp0 : BitVec 32} {ss0 : BitVec 16}
  {error : Option (BitVec 32)}

/-- The processor changes to the stack of the level at which it pushes. -/
def innerStack (m : MachineState) (code ss0 : BitVec 16) (esp0 : BitVec 32) : MachineState :=
  if level code < level (m.sreg .cs) then (m.setReg .esp esp0).setSreg .ss ss0 else m

def interruptFrame (m : MachineState) (code : BitVec 16) (error : Option (BitVec 32)) :
    List (BitVec 32) :=
  error.toList ++ [m.eip, m.sword .cs, m.eflags] ++
    if level code < level (m.sreg .cs) then [m.reg .esp, m.sword .ss] else []

theorem interrupt_eq_pushAll : m.interrupt code entry ss0 esp0 error =
    { ((m.innerStack code ss0 esp0).pushAll (m.interruptFrame code error).reverse).setSreg
        .cs code with
      eip := entry
      eflags := m.eflags &&& ~~~gateFlags } := by
  by_cases hinner : level code < level (m.sreg .cs)
  · simp only [interrupt, interruptFrame, innerStack, if_pos hinner]
    cases error <;> rfl
  · simp only [interrupt, interruptFrame, innerStack, if_neg hinner]
    cases error <;> rfl

theorem interrupt_reg (hx : x ≠ .esp) :
    (m.interrupt code entry ss0 esp0 error).reg x = m.reg x := by
  rw [interrupt_eq_pushAll]
  apply (pushAll_reg _ _ hx).trans
  rw [innerStack]
  split
  · exact Function.update_of_ne hx ..
  · rfl

theorem interrupt_esp : (m.interrupt code entry ss0 esp0 error).reg .esp =
    (m.innerStack code ss0 esp0).reg .esp -
      BitVec.ofNat 32 (4 * (m.interruptFrame code error).length) := by
  rw [interrupt_eq_pushAll]
  apply (pushAll_esp _ _).trans
  rw [List.length_reverse]

theorem interrupt_sreg : (m.interrupt code entry ss0 esp0 error).sreg s =
    if s = .cs then code else (m.innerStack code ss0 esp0).sreg s := by
  rw [interrupt_eq_pushAll, ← pushAll_sreg (m.innerStack code ss0 esp0)]
  exact Function.update_apply ..

theorem interrupt_upper : (m.interrupt code entry ss0 esp0 error).upper = m.upper := by
  rw [interrupt_eq_pushAll]
  apply (pushAll_upper _ _).trans
  rw [innerStack]
  split <;> rfl

theorem interruptFrame_length (m : MachineState) (code : BitVec 16) (error : Option (BitVec 32)) :
    (m.interruptFrame code error).length ≤ 6 := by
  rw [interruptFrame]
  split <;> cases error <;> simp

theorem interrupt_onStack :
    (m.interrupt code entry ss0 esp0 error).OnStack (m.interruptFrame code error) := by
  rw [interrupt_eq_pushAll]
  have hlen := interruptFrame_length m code error
  have hstack := pushAll_onStack (m.innerStack code ss0 esp0)
    (m.interruptFrame code error).reverse (by rw [List.length_reverse]; omega)
  rwa [List.reverse_reverse] at hstack

@[simp] theorem setReg_reg : (m.setReg r v).reg x = if x = r then v else m.reg x :=
  Function.update_apply ..

@[simp] theorem setReg_sreg : (m.setReg r v).sreg = m.sreg := rfl

@[simp] theorem pop_reg : m.pop.reg x = if x = .esp then m.reg .esp + 4 else m.reg x :=
  Function.update_apply ..

@[simp] theorem popReg_reg : (m.popReg r).reg x =
    if x = r then m.top else if x = .esp then m.reg .esp + 4 else m.reg x := by
  rw [popReg, setReg_reg, pop_reg]

@[simp] theorem popSreg_reg :
    (m.popSreg s).reg x = if x = .esp then m.reg .esp + 4 else m.reg x :=
  pop_reg

@[simp] theorem popSreg_sreg :
    (m.popSreg s).sreg t = if t = s then m.top.extractLsb' 0 16 else m.sreg t :=
  Function.update_apply ..

theorem OnStack.top (h : m.OnStack (w :: ws)) : m.top = w := h.1

theorem OnStack.pop (h : m.OnStack (w :: ws)) : m.pop.OnStack ws := by
  rw [OnStack, pop_reg, if_pos rfl]
  exact h.2

theorem OnStack.popReg (h : m.OnStack (w :: ws)) (hr : r ≠ .esp) : (m.popReg r).OnStack ws := by
  rw [OnStack, popReg_reg, if_neg hr.symm, if_pos rfl]
  exact h.2

theorem OnStack.popSreg (h : m.OnStack (w :: ws)) : (m.popSreg s).OnStack ws := h.pop

theorem OnStack.popEip (h : m.OnStack (w :: ws)) : m.popEip.OnStack ws := h.pop

theorem OnStack.popEflags (h : m.OnStack (w :: ws)) : m.popEflags.OnStack ws := h.pop

def selector (w : BitVec 32) : BitVec 16 := w.extractLsb' 0 16

@[simp] theorem selector_sword (m : MachineState) (s : SReg) : selector (m.sword s) = m.sreg s :=
  BitVec.extractLsb'_append_eq_right

def kept (usable : BitVec 16 → Bool) (x : BitVec 16) : BitVec 16 := if usable x then x else 0

def sregs (cs ds es fs gs ss : BitVec 16) : SReg → BitVec 16
  | .cs => cs
  | .ds => ds
  | .es => es
  | .fs => fs
  | .gs => gs
  | .ss => ss

def regs (eax ecx edx ebx esp ebp esi edi : BitVec 32) : Reg → BitVec 32
  | .eax => eax
  | .ecx => ecx
  | .edx => edx
  | .ebx => ebx
  | .esp => esp
  | .ebp => ebp
  | .esi => esi
  | .edi => edi

theorem OnStack.popa
    (h : m.OnStack (edi :: esi :: ebp :: esp :: ebx :: edx :: ecx :: eax :: ws)) :
    m.popa = { m with reg := regs eax ecx edx ebx (m.reg .esp + 32) ebp esi edi } ∧
      m.popa.OnStack ws := by
  have h₁ := h.popReg (r := .edi) (by simp)
  have h₂ := h₁.popReg (r := .esi) (by simp)
  have h₃ := h₂.popReg (r := .ebp) (by simp)
  have h₄ := h₃.pop
  have h₅ := h₄.popReg (r := .ebx) (by simp)
  have h₆ := h₅.popReg (r := .edx) (by simp)
  have h₇ := h₆.popReg (r := .ecx) (by simp)
  refine ⟨?_, h₇.popReg (by simp)⟩
  have hreg : m.popa.reg = regs eax ecx edx ebx (m.reg .esp + 32) ebp esi edi := by
    funext x
    cases x <;> simp [MachineState.popa, regs, h.top, h₁.top, h₂.top, h₄.top, h₅.top, h₆.top,
      h₇.top, BitVec.add_assoc]
  rw [← hreg]
  rfl

theorem OnStack.addEsp (h : m.OnStack (w :: v :: ws)) :
    (m.setReg .esp (m.reg .esp + 8)).OnStack ws := by
  have hrest := h.pop.pop
  rw [OnStack, pop_reg, if_pos rfl, pop_reg, if_pos rfl, BitVec.add_assoc] at hrest
  rw [OnStack, setReg_reg, if_pos rfl]
  exact hrest

theorem OnStack.popReturn (h : m.OnStack (eip :: cs :: eflags :: ws)) :
    (m.popEip.popSreg .cs).popEflags = { m with
      reg := Function.update m.reg .esp (m.reg .esp + 12)
      sreg := Function.update m.sreg .cs (selector cs)
      eip := eip
      eflags := eflags } ∧ (m.popEip.popSreg .cs).popEflags.OnStack ws := by
  have h₁ := h.popEip
  have h₂ := h₁.popSreg (s := .cs)
  refine ⟨?_, h₂.popEflags⟩
  have hreg : ((m.popEip.popSreg .cs).popEflags).reg =
      Function.update m.reg .esp (m.reg .esp + 12) := by
    funext x
    cases x <;> simp [MachineState.popEip, MachineState.popEflags, BitVec.add_assoc]
  have hsreg : ((m.popEip.popSreg .cs).popEflags).sreg =
      Function.update m.sreg .cs (selector cs) := by
    funext x
    change (m.popEip.popSreg .cs).sreg x = _
    rw [popSreg_sreg, Function.update_apply, h₁.top]
    rfl
  rw [← hreg, ← hsreg, ← h.top, ← h₂.top]
  rfl

theorem OnStack.iret_inner (usable : BitVec 16 → Bool)
    (h : m.OnStack (eip :: cs :: eflags :: ws))
    (hlevel : level (selector cs) ≤ level (m.sreg .cs)) :
    m.iret usable = { m with
      reg := Function.update m.reg .esp (m.reg .esp + 12)
      sreg := Function.update m.sreg .cs (selector cs)
      eip := eip
      eflags := eflags } := by
  rw [iret, h.popReturn.1]
  exact if_pos (by simpa using hlevel)

theorem OnStack.popOuter (h : m.OnStack (esp :: ss :: ws)) :
    ((m.pop.popSreg .ss).setReg .esp m.top).dropUnusable usable = { m with
      reg := Function.update m.reg .esp esp
      sreg := sregs (m.sreg .cs) (kept usable (m.sreg .ds)) (kept usable (m.sreg .es))
        (kept usable (m.sreg .fs)) (kept usable (m.sreg .gs)) (selector ss) } := by
  have hreg : (((m.pop.popSreg .ss).setReg .esp m.top).dropUnusable usable).reg =
      Function.update m.reg .esp esp := by
    funext x
    cases x <;> simp [dropUnusable, setReg, h.top]
  have hsreg : (((m.pop.popSreg .ss).setReg .esp m.top).dropUnusable usable).sreg =
      sregs (m.sreg .cs) (kept usable (m.sreg .ds)) (kept usable (m.sreg .es))
        (kept usable (m.sreg .fs)) (kept usable (m.sreg .gs)) (selector ss) := by
    funext x
    cases x <;> simp [dropUnusable, setReg, h.pop.top, sregs, kept, selector]
    all_goals rfl
  rw [← hreg, ← hsreg]
  rfl

theorem OnStack.iret_outer (usable : BitVec 16 → Bool)
    (h : m.OnStack (eip :: cs :: eflags :: esp :: ss :: ws))
    (hlevel : ¬ level (selector cs) ≤ level (m.sreg .cs)) :
    m.iret usable = { m with
      reg := Function.update m.reg .esp esp
      sreg := sregs (selector cs) (kept usable (m.sreg .ds)) (kept usable (m.sreg .es))
        (kept usable (m.sreg .fs)) (kept usable (m.sreg .gs)) (selector ss)
      eip := eip
      eflags := eflags } := by
  obtain ⟨heq, hrest⟩ := h.popReturn
  rw [iret, heq]
  rw [heq] at hrest
  apply (if_neg (by simpa using hlevel)).trans
  apply hrest.popOuter.trans
  simp [Function.update_idem]

end MachineState

end X86
