import Uroboros.Boot
import Uroboros.Lib.X86

/-!
# `enable_paging`

`enable_paging` of `asmlib.s` moves the kernel's stack to its new frames, switches to
it and turns paging on. Up to its `ret` it reaches memory directly, `ret` goes through the
tables.
-/

set_option autoImplicit false

namespace Uroboros

open ByteMemory ForLoop X86 MachineState

def virtualByte (m : Mem) (pdt v : U32) : Option U8 := (walk m pdt v).map m

def virtualLoad32 (m : Mem) (pdt v : U32) : Option U32 := do
  let b0 ← virtualByte m pdt v
  let b1 ← virtualByte m pdt (v + 1)
  let b2 ← virtualByte m pdt (v + 2)
  let b3 ← virtualByte m pdt (v + 3)
  pure (b3 ++ b2 ++ b1 ++ b0)

namespace EnablePaging

/-- `ORG_STACK_BASE` of `asmlib.s`. -/
def orgStackBase : U32 := 0x00031000

structure State where
  m : MachineState
  cr0 : U32
  cr3 : U32

structure Copying where
  esp : U32
  eax : U32
  ecx : U32
  mem : Mem

def copyStackPass (s : Copying) : Copying where
  esp := s.esp + 4
  eax := s.eax + 4
  ecx := load32 s.mem s.esp
  mem := store32 s.mem s.eax (load32 s.mem s.esp)

/-- `jle` compares signed. -/
def copyStackAgain (s : Copying) : Bool := s.esp.sle orgStackBase

/-- The arithmetic flags are left out. -/
def enablePaging (fuel : Nat) (s : State) : Option State :=
  let esp := s.m.reg .esp
  let cr3 := load32 s.m.mem (esp + 4)
  let edx := esp - orgStackBase + load32 s.m.mem (esp + 12)
  let ebp := s.m.reg .ebp - orgStackBase + load32 s.m.mem (esp + 12)
  let eax := esp - orgStackBase + load32 s.m.mem (esp + 8)
  (doWhile copyStackPass copyStackAgain fuel ⟨esp, eax, s.m.reg .ecx, s.m.mem⟩).bind fun c =>
  let cr0 := s.cr0 ||| 0x80000000
  (virtualLoad32 c.mem cr3 edx).map fun eip =>
    { m := { s.m with
        reg := regs c.eax cr0 edx (s.m.reg .ebx) (edx + 4) ebp (s.m.reg .esi) (s.m.reg .edi)
        eip := eip
        eflags := s.m.eflags &&& ~~~flagIf
        mem := c.mem }
      cr0 := cr0
      cr3 := cr3 }

def passes (esp : U32) : Nat := (orgStackBase.toNat - esp.toNat) / 4 + 1

variable {mem : Mem} {esp eax ecx : U32}

theorem copyStackPass_iterate (hesp : esp.toNat ≤ orgStackBase.toNat)
    (heax : 0x40000 ≤ eax.toNat) (hroom : eax.toNat + 0x40000 ≤ 2 ^ 32) {k : Nat}
    (hk : k ≤ passes esp) : ∃ ecx', copyStackPass^[k] ⟨esp, eax, ecx, mem⟩ =
      ⟨esp + BitVec.ofNat 32 (4 * k), eax + BitVec.ofNat 32 (4 * k), ecx',
        ByteMemory.overlay mem eax (4 * k) fun i => mem (esp + BitVec.ofNat 32 i)⟩ := by
  have horg : orgStackBase.toNat = 0x31000 := rfl
  unfold passes at hk
  induction k with
  | zero =>
    refine ⟨ecx, ?_⟩
    rw [Nat.mul_zero, ByteMemory.overlay_zero, BitVec.add_zero, BitVec.add_zero]
    rfl
  | succ k ih =>
    obtain ⟨ecx', hbefore⟩ := ih (by omega)
    have hcopy := @copyWord_overlay mem eax (esp + BitVec.ofNat 32 (4 * k)) (4 * k)
      (fun i => mem (esp + BitVec.ofNat 32 i))
      (fun i _ => by rw [BitVec.add_assoc, BitVec.ofNat_add])
      ⟨by bv_omega, by bv_omega⟩ (by omega)
    have hnext : ∀ a : U32, a + BitVec.ofNat 32 (4 * k) + 4 = a + BitVec.ofNat 32 (4 * (k + 1)) := by
      intro a
      rw [Nat.mul_succ, BitVec.ofNat_add, BitVec.add_assoc]
      rfl
    refine ⟨load32 (ByteMemory.overlay mem eax (4 * k) fun i => mem (esp + BitVec.ofNat 32 i))
      (esp + BitVec.ofNat 32 (4 * k)), ?_⟩
    rw [Function.iterate_succ_apply', hbefore, copyStackPass]
    dsimp only
    rw [hcopy, hnext, hnext]
    rfl

theorem doWhile_copyStack (hesp : esp.toNat ≤ orgStackBase.toNat)
    (heax : 0x40000 ≤ eax.toNat) (hroom : eax.toNat + 0x40000 ≤ 2 ^ 32) :
    ∃ ecx', doWhile copyStackPass copyStackAgain (passes esp) ⟨esp, eax, ecx, mem⟩ = some
      ⟨esp + BitVec.ofNat 32 (4 * passes esp), eax + BitVec.ofNat 32 (4 * passes esp), ecx',
        ByteMemory.overlay mem eax (4 * passes esp) fun i => mem (esp + BitVec.ofNat 32 i)⟩ := by
  have horg : orgStackBase.toNat = 0x31000 := rfl
  have hagain : ∀ k ≤ passes esp,
      copyStackAgain (copyStackPass^[k] ⟨esp, eax, ecx, mem⟩) = decide (k < passes esp) := by
    intro k hk
    obtain ⟨ecx', hstate⟩ := @copyStackPass_iterate mem esp eax ecx hesp heax hroom k hk
    have hsum : (esp + BitVec.ofNat 32 (4 * k)).toNat = esp.toNat + 4 * k := by
      unfold passes at hk
      bv_omega
    have hint : (esp + BitVec.ofNat 32 (4 * k)).toInt = (esp.toNat + 4 * k : Nat) := by
      rw [← hsum]
      apply BitVec.toInt_eq_toNat_of_lt
      unfold passes at hk
      omega
    have horgInt : orgStackBase.toInt = 0x31000 := rfl
    rw [hstate, copyStackAgain, BitVec.sle, hint, horgInt, decide_eq_decide]
    unfold passes
    omega
  obtain ⟨ecx', hlast⟩ := @copyStackPass_iterate mem esp eax ecx hesp heax hroom (passes esp)
    (Nat.le_refl _)
  refine ⟨ecx', ?_⟩
  rw [← hlast]
  apply doWhile_iterate
  · exact (hagain _ (Nat.le_refl _)).trans (decide_eq_false (Nat.lt_irrefl _))
  · intro j hj
    have hlt : j + 1 < passes esp := Nat.succ_lt_succ hj
    exact (hagain _ (Nat.le_of_lt hlt)).trans (decide_eq_true hlt)

theorem mapFreshPage_frame (cr0 v : U32) (i : Nat) (m : Mem) {x : U32} (ht : ¬ InTables x)
    (hm : ¬ Flat.InManager x) : mapFreshPage cr0 v i m x = m x :=
  (mapMemory4k_frame _ _ _ ht).trans (Flat.pmalloc4k_frame cr0 m hm)

theorem mapStack_frame (cr0 newStackP : U32) (m : Mem) {x : U32} (ht : ¬ InTables x)
    (hm : ¬ Flat.InManager x) : (mapStack cr0 newStackP m).2 x = m x := by
  rw [mapStack_snd]
  exact forLoop_invariant (fun (_ : Nat) (t : Mem) => t x = m x) rfl
    fun i t _ ih => (mapFreshPage_frame cr0 _ i t ht hm).trans ih

theorem mapStack_fst (cr0 newStackP : U32) (m : Mem) :
    (mapStack cr0 newStackP (initKernelMem cr0 m)).1 = 0x1400000 := by
  have hfirst : (Flat.pmalloc4k cr0 (initKernelMem cr0 m)).1 = 0x1400000 := by
    have hk : 1024 < pmallocMaxPage := by decide
    exact (Flat.pmalloc4k_firstUsed hk (initKernelMem_mapped cr0 m).manager cr0).1
  have hn : 0 < (memNpage kernelStackSize).toNat := by decide
  have hloop := @forLoop_invariant _ (mapStackPage cr0) (memNpage kernelStackSize).toNat
    (newStackP, initKernelMem cr0 m)
    (fun i s => (i = 0 → s.2 = initKernelMem cr0 m) ∧ (0 < i → s.1 = 0x1400000))
    ⟨fun _ => rfl, fun h => absurd h (Nat.lt_irrefl 0)⟩ (by
      intro i t _ ih
      refine ⟨fun h => absurd h (Nat.succ_ne_zero i), fun _ => ?_⟩
      unfold mapStackPage
      dsimp only
      split
      · rename_i hi
        rw [ih.1 hi, hfirst]
      · exact ih.2 (by omega))
  exact hloop.2 hn

def newStackBasePhy (cr0 newStackP : U32) (m₀ : Mem) : U32 :=
  (mapStack cr0 newStackP (initKernelMem cr0 m₀)).1 + kernelStackSize - 4

def newStackBaseVirt : U32 := kernelStackTopV + kernelStackSize - 4

/-- Where a byte of the old stack stands after the switch. -/
def moved (a : U32) : U32 := a - orgStackBase + newStackBaseVirt

/-- `Main` has reached the call from memory `m₀`. Below `0x40000` lies the old stack, on which any
calls may have left their frames. -/
structure AtCall (cr0 newStackP : U32) (m₀ : Mem) (s : State) : Prop where
  above : ∀ x, 0x40000 ≤ x.toNat → s.m.mem x = (mapStack cr0 newStackP (initKernelMem cr0 m₀)).2 x
  esp : (s.m.reg .esp).toNat ≤ orgStackBase.toNat
  pdt : load32 s.m.mem (s.m.reg .esp + 4) = kernelPdt
  phy : load32 s.m.mem (s.m.reg .esp + 8) = newStackBasePhy cr0 newStackP m₀
  virt : load32 s.m.mem (s.m.reg .esp + 12) = newStackBaseVirt

/-- The caller goes on at its return address, on a copy of its stack. -/
structure StackMoved (m₀ : Mem) (s t : State) : Prop where
  cr3 : t.cr3 = kernelPdt
  cr0 : t.cr0 = s.cr0 ||| cr0FlagPg
  eip : t.m.eip = s.m.top
  esp : t.m.reg .esp = moved (s.m.reg .esp + 4)
  ebp : t.m.reg .ebp = moved (s.m.reg .ebp)
  kept : ∀ r ∈ [Reg.ebx, .esi, .edi], t.m.reg r = s.m.reg r
  stack : ∀ a, s.m.reg .esp ≤ a → a.toNat < orgStackBase.toNat + 1 →
    virtualByte t.m.mem kernelPdt (moved a) = some (s.m.mem a)
  -- the instruction after `mov cr0, ecx` is fetched through the tables
  image : ∀ off < kernelSize,
    virtualByte t.m.mem kernelPdt (kernelAddr + off) = some (m₀ (kernelAddr + off))
  -- pointers into the old stack fault
  old : ∀ a, 0x10000 ≤ a.toNat → a.toNat < 0x100000 → virtualByte t.m.mem kernelPdt a = none

section Call

variable {cr0 newStackP : U32} {m₀ : Mem} {s : State} (h : AtCall cr0 newStackP m₀ s)
include h

/-- The translation sees neither the frames of the calls nor the copied stack. -/
theorem AtCall.translation {t : Mem} (hframe : ∀ x, InTables x → t x = s.m.mem x) :
    walk t kernelPdt = Uroboros.overlay kernelMap kernelStackTopV 0x1400000 0x2000000 := by
  have hboot := mapStack_state cr0 newStackP m₀
  have hagree : ∀ x, InTables x → (mapStack cr0 newStackP (initKernelMem cr0 m₀)).2 x = t x := by
    intro x hx
    rw [hframe x hx]
    unfold InTables at hx
    exact (h.above x (by omega)).symm
  rw [funext (walk_congr hagree hboot.tables), hboot.walk]
  rfl

theorem AtCall.image {i : Nat} (hi : i < 0x400000) :
    s.m.mem (pmallocStart + BitVec.ofNat 32 i) = m₀ (kernelAddr + BitVec.ofNat 32 i) := by
  have hstart : pmallocStart.toNat = 0x1000000 := rfl
  have hx : (pmallocStart + BitVec.ofNat 32 i).toNat = 0x1000000 + i := by bv_omega
  rw [h.above _ (by omega), mapStack_frame, (initKernelMem_mapped cr0 m₀).copied i hi]
  · unfold InTables
    omega
  · unfold Flat.InManager
    omega

def copied (s : State) : Mem :=
  ByteMemory.overlay s.m.mem (s.m.reg .esp - orgStackBase + load32 s.m.mem (s.m.reg .esp + 8))
    (4 * passes (s.m.reg .esp)) fun i => s.m.mem (s.m.reg .esp + BitVec.ofNat 32 i)

theorem AtCall.copiedAt : s.m.reg .esp - orgStackBase + load32 s.m.mem (s.m.reg .esp + 8) =
    s.m.reg .esp - orgStackBase + 0x33FFFFC := by
  rw [h.phy, newStackBasePhy, mapStack_fst]
  rfl

theorem AtCall.copied_frame {x : U32} (hx : x.toNat < 0x33C0000 ∨ 0x3400000 ≤ x.toNat) :
    copied s x = s.m.mem x := by
  have hesp := h.esp
  have horg : orgStackBase.toNat = 0x31000 := rfl
  rw [copied, h.copiedAt, ByteMemory.overlay_of_le]
  unfold passes
  bv_omega

theorem AtCall.translation_copied :
    walk (copied s) kernelPdt = Uroboros.overlay kernelMap kernelStackTopV 0x1400000 0x2000000 := by
  apply h.translation
  intro x hx
  apply h.copied_frame
  unfold InTables at hx
  omega

theorem AtCall.virtualByte_moved {i : Nat} (hi : i < 4 * passes (s.m.reg .esp)) :
    virtualByte (copied s) kernelPdt (moved (s.m.reg .esp) + BitVec.ofNat 32 i) =
      some (s.m.mem (s.m.reg .esp + BitVec.ofNat 32 i)) := by
  have hesp := h.esp
  have horg : orgStackBase.toNat = 0x31000 := rfl
  have hvirt : newStackBaseVirt.toNat = 0x2FFFFFC := rfl
  have htop : kernelStackTopV.toNat = 0x1000000 := rfl
  have hn : passes (s.m.reg .esp) = (orgStackBase.toNat - (s.m.reg .esp).toNat) / 4 + 1 := rfl
  have hrange : Uroboros.InRange kernelStackTopV 0x2000000
      (moved (s.m.reg .esp) + BitVec.ofNat 32 i) := by
    unfold InRange moved
    bv_omega
  have hframe : 0x1400000 + (moved (s.m.reg .esp) + BitVec.ofNat 32 i - kernelStackTopV) =
      s.m.reg .esp - orgStackBase + 0x33FFFFC + BitVec.ofNat 32 i := by
    unfold moved
    bv_omega
  rw [virtualByte, h.translation_copied, Uroboros.overlay, if_pos hrange, hframe, Option.map_some, copied,
    h.copiedAt, ByteMemory.overlay_apply hi (by omega)]

theorem AtCall.virtualLoad32_moved : virtualLoad32 (copied s) kernelPdt (moved (s.m.reg .esp)) =
    some s.m.top := by
  have hn : 4 ≤ 4 * passes (s.m.reg .esp) := Nat.mul_le_mul_left 4 (Nat.succ_pos _)
  have hbyte : ∀ i : Nat, i < 4 →
      virtualByte (copied s) kernelPdt (moved (s.m.reg .esp) + BitVec.ofNat 32 i) =
        some (s.m.mem (s.m.reg .esp + BitVec.ofNat 32 i)) :=
    fun i hi => h.virtualByte_moved (Nat.lt_of_lt_of_le hi hn)
  have h0 := hbyte 0 (by decide)
  have h1 := hbyte 1 (by decide)
  have h2 := hbyte 2 (by decide)
  have h3 := hbyte 3 (by decide)
  rw [BitVec.add_zero, BitVec.add_zero] at h0
  simp only [virtualLoad32, h0, h1, h2, h3, BitVec.ofNat_eq_ofNat]
  rfl

theorem AtCall.virtualByte_image {off : U32} (hoff : off < kernelSize) :
    virtualByte (copied s) kernelPdt (kernelAddr + off) = some (m₀ (kernelAddr + off)) := by
  have hlt : off.toNat < 0x400000 := hoff
  have hkernel : kernelAddr.toNat = 0x100000 := rfl
  have hstart : pmallocStart.toNat = 0x1000000 := rfl
  have htop : kernelStackTopV.toNat = 0x1000000 := rfl
  have hsum : (kernelAddr + off).toNat = 0x100000 + off.toNat := by bv_omega
  have hframe : (pmallocStart + off).toNat = 0x1000000 + off.toNat := by bv_omega
  have himage := h.image hlt
  rw [BitVec.ofNat_toNat, BitVec.setWidth_eq] at himage
  rw [virtualByte, h.translation_copied, Uroboros.overlay,
    if_neg (by unfold InRange; omega), kernelMap, if_neg (by omega), if_pos (by omega),
    BitVec.add_comm kernelAddr, BitVec.add_sub_cancel, Option.map_some,
    h.copied_frame (by omega), himage, BitVec.add_comm]

theorem AtCall.virtualByte_old {a : U32} (hlo : 0x10000 ≤ a.toNat) (hhi : a.toNat < 0x100000) :
    virtualByte (copied s) kernelPdt a = none := by
  have htop : kernelStackTopV.toNat = 0x1000000 := rfl
  rw [virtualByte, h.translation_copied, Uroboros.overlay,
    if_neg (by unfold InRange; omega), kernelMap, if_neg (by omega), if_neg (by omega),
    if_neg (by omega), if_neg (by omega)]
  rfl

/-- The state behind `ret`. -/
theorem AtCall.enablePaging_eq : ∃ eax, enablePaging (passes (s.m.reg .esp)) s =
    some
      { m := { s.m with
          reg := regs eax (s.cr0 ||| cr0FlagPg) (moved (s.m.reg .esp)) (s.m.reg .ebx)
            (moved (s.m.reg .esp) + 4) (moved (s.m.reg .ebp)) (s.m.reg .esi) (s.m.reg .edi)
          eip := s.m.top
          eflags := s.m.eflags &&& ~~~flagIf
          mem := copied s }
        cr0 := s.cr0 ||| cr0FlagPg
        cr3 := kernelPdt } := by
  have hesp := h.esp
  have horg : orgStackBase.toNat = 0x31000 := rfl
  have hdest := h.copiedAt
  obtain ⟨ecx, hloop⟩ := @doWhile_copyStack s.m.mem (s.m.reg .esp)
    (s.m.reg .esp - orgStackBase + load32 s.m.mem (s.m.reg .esp + 8)) (s.m.reg .ecx) hesp
    (by rw [hdest]; bv_omega) (by rw [hdest]; bv_omega)
  have hret : virtualLoad32 (copied s) kernelPdt (s.m.reg .esp - orgStackBase + newStackBaseVirt) =
      some s.m.top := h.virtualLoad32_moved
  unfold copied at hret
  refine ⟨s.m.reg .esp - orgStackBase + load32 s.m.mem (s.m.reg .esp + 8) +
    BitVec.ofNat 32 (4 * passes (s.m.reg .esp)), ?_⟩
  unfold enablePaging
  dsimp only
  rw [hloop, h.pdt, h.virt, Option.bind_some]
  dsimp only
  rw [hret, Option.map_some]
  unfold moved copied cr0FlagPg
  rfl

end Call

/-- `enable_paging` hands the running kernel over to its new stack and to the translated
addresses: the loop ends, no access faults, and `Main` goes on where it was. -/
theorem enablePaging_moves_stack {cr0 newStackP : U32} {m₀ : Mem} {s : State}
    (h : AtCall cr0 newStackP m₀ s) : ∃ fuel t, enablePaging fuel s = some t ∧ StackMoved m₀ s t := by
  obtain ⟨eax, heq⟩ := h.enablePaging_eq
  refine ⟨_, _, heq, ?_⟩
  constructor
  case cr3 => rfl
  case cr0 => rfl
  case eip => rfl
  case esp =>
    change moved (s.m.reg .esp) + 4 = moved (s.m.reg .esp + 4)
    unfold moved
    bv_omega
  case ebp => rfl
  case kept => simp [regs]
  case stack =>
    intro a hlo hhi
    have horg : orgStackBase.toNat = 0x31000 := rfl
    have hbyte := h.virtualByte_moved (i := (a - s.m.reg .esp).toNat) (by
      unfold passes
      bv_omega)
    have hsum : s.m.reg .esp + (a - s.m.reg .esp) = a := by bv_omega
    have hmoved : moved (s.m.reg .esp) + (a - s.m.reg .esp) = moved a := by
      unfold moved
      bv_omega
    rwa [BitVec.ofNat_toNat, BitVec.setWidth_eq, hsum, hmoved] at hbyte
  case image => exact fun off hoff => h.virtualByte_image hoff
  case old => exact fun a hlo hhi => h.virtualByte_old hlo hhi

def callMem (cr0 : U32) (m₀ : Mem) : Mem :=
  store32 (store32 (store32 (store32 (mapStack cr0 0 (initKernelMem cr0 m₀)).2
    0x30FEC newStackBaseVirt) 0x30FE8 (newStackBasePhy cr0 0 m₀)) 0x30FE4 kernelPdt)
    0x30FE0 0x100040

def callState (cr0 : U32) (m₀ : Mem) : State where
  m :=
    { reg := regs 0 0 0 0 0x30FE0 0x30FF8 0 0
      sreg := sregs 0x10 8 8 8 8 8
      eip := 0x100100
      eflags := 0x202
      upper := fun _ => 0
      mem := callMem cr0 m₀ }
  cr0 := cr0
  cr3 := 0

theorem callState_atCall (cr0 : U32) (m₀ : Mem) : AtCall cr0 0 m₀ (callState cr0 m₀) := by
  constructor
  case above =>
    intro x hx
    change callMem cr0 m₀ x = _
    unfold callMem
    rw [store32_frame, store32_frame, store32_frame, store32_frame] <;> bv_omega
  case esp =>
    change (0x30FE0 : U32).toNat ≤ orgStackBase.toNat
    decide
  case pdt =>
    change load32 (callMem cr0 m₀) 0x30FE4 = _
    unfold callMem
    rw [load32_store32_disjoint _ _ (by decide) (by decide) (by decide), load32_store32_same]
  case phy =>
    change load32 (callMem cr0 m₀) 0x30FE8 = _
    unfold callMem
    rw [load32_store32_disjoint _ _ (by decide) (by decide) (by decide),
      load32_store32_disjoint _ _ (by decide) (by decide) (by decide), load32_store32_same]
  case virt =>
    change load32 (callMem cr0 m₀) 0x30FEC = _
    unfold callMem
    rw [load32_store32_disjoint _ _ (by decide) (by decide) (by decide),
      load32_store32_disjoint _ _ (by decide) (by decide) (by decide),
      load32_store32_disjoint _ _ (by decide) (by decide) (by decide), load32_store32_same]

theorem callState_top (cr0 : U32) (m₀ : Mem) : (callState cr0 m₀).m.top = 0x100040 :=
  load32_store32_same _ _ _

/-- An image of `nop`s. -/
theorem enablePaging_moves_stack_atCall : ∃ fuel t,
    enablePaging fuel (callState 1 fun _ => 0x90) = some t ∧
      StackMoved (fun _ => 0x90) (callState 1 fun _ => 0x90) t :=
  enablePaging_moves_stack (callState_atCall 1 fun _ => 0x90)

end EnablePaging

end Uroboros
