import Uroboros.Config
import Uroboros.Lib.ByteMemory
import Uroboros.Lib.ForLoop

/-!
# Two-level page tables in physical memory

The functions of `mem.c` that write page directories and page tables, on a
byte memory that the addresses reach directly. `walk` is the translation the
processor makes; the flag bits beyond "present" do not enter it.
-/

set_option autoImplicit false

namespace Uroboros

open ByteMemory ForLoop

def pteP : U32 := 0x00000001
def pteRw : U32 := 0x00000002
def pteUs : U32 := 0x00000004
def pteFrameAddr : U32 := 0xFFFFF000
def pdeP : U32 := 0x00000001
def pdeRw : U32 := 0x00000002
def pdeUs : U32 := 0x00000004
def pdePtAddr : U32 := 0xFFFFF000
def pdPdeIndex : U32 := 0xFFC00000
def ptPteIndex : U32 := 0x003FF000

def initPdt (m : Mem) (pde : U32) : Mem :=
  forLoop (fun i m => store32 m (pde + 4#32 * BitVec.ofNat 32 i) 0) 1024 m

def initPt (m : Mem) (pte : U32) : Mem :=
  forLoop (fun i m => store32 m (pte + 4#32 * BitVec.ofNat 32 i) 0) 1024 m

def setPte (m : Mem) (pte addr flags : U32) : Mem :=
  let m := store32 m pte 0
  let m := store32 m pte (load32 m pte ||| (addr &&& pteFrameAddr))
  store32 m pte (load32 m pte ||| flags)

def setPde (m : Mem) (pde pt flags : U32) : Mem :=
  let m := store32 m pde 0
  let m := store32 m pde (load32 m pde ||| (pt &&& pdePtAddr))
  store32 m pde (load32 m pde ||| flags)

/-- Entries are four bytes wide: `pt0 + n` in the source is `pt0 + 4 * n` here. -/
def mapMemory4k (m : Mem) (pdt virtualAddr physicalAddr : U32) : Mem :=
  let pdeIndex := (virtualAddr &&& pdPdeIndex) >>> 22
  let pteIndex := (virtualAddr &&& ptPteIndex) >>> 12
  let pt0 := kernelPt0 &&& pdePtAddr
  let pt := pt0 + 4#32 * (pdeIndex * 1024#32)
  let m := setPde m (pdt + 4#32 * pdeIndex) pt (pdeP ||| pdeRw ||| pdeUs)
  setPte m (pt + 4#32 * pteIndex) physicalAddr (pteP ||| pteRw ||| pteUs)

/-- The x86 walk of a virtual address; `none` is a page fault. -/
def walk (m : Mem) (pdt v : U32) : Option U32 :=
  let pde := load32 m (pdt + 4#32 * (v >>> 22))
  if pde &&& pdeP = 0 then none else
  let pte := load32 m ((pde &&& pdePtAddr) + 4#32 * ((v >>> 12) &&& 0x3ff#32))
  if pte &&& pteP = 0 then none else some ((pte &&& pteFrameAddr) ||| (v &&& 0xfff#32))

def ptAddr (v : U32) : U32 := kernelPt0 + 4096#32 * (v >>> 22)

def pdeAddr (v : U32) : U32 := kernelPdt + 4#32 * (v >>> 22)

def pteAddr (v : U32) : U32 := ptAddr v + 4#32 * ((v >>> 12) &&& 0x3ff#32)

def pageNumber (v : U32) : U32 := v >>> 12

def presentEntry (a : U32) : U32 := (a &&& pteFrameAddr) ||| 7#32

theorem toNat_shiftRight (v : U32) (n : Nat) : (v >>> n).toNat = v.toNat / 2 ^ n := by
  rw [BitVec.toNat_ushiftRight, Nat.shiftRight_eq_div_pow]

theorem toNat_pageNumber (v : U32) : (pageNumber v).toNat = v.toNat / 4096 := toNat_shiftRight v 12

theorem toNat_pteIndex (v : U32) : ((v >>> 12) &&& 0x3ff#32).toNat = v.toNat / 4096 % 1024 := by
  rw [BitVec.toNat_and, toNat_shiftRight]
  exact Nat.and_two_pow_sub_one_eq_mod _ 10

theorem toNat_pageOffset (v : U32) : (v &&& 0xfff#32).toNat = v.toNat % 4096 := by
  rw [BitVec.toNat_and]
  exact Nat.and_two_pow_sub_one_eq_mod _ 12

theorem toNat_frameAddr (a : U32) : (a &&& pteFrameAddr).toNat = a.toNat / 4096 * 4096 := by
  have hdisj : (a &&& pteFrameAddr) &&& (a &&& 0xfff#32) = 0 := by
    have hmask : pteFrameAddr &&& 0xfff#32 = 0 := by decide
    rw [BitVec.and_comm a pteFrameAddr, BitVec.and_assoc, ← BitVec.and_assoc a, BitVec.and_self,
      BitVec.and_comm a, ← BitVec.and_assoc, hmask]
    exact BitVec.zero_and
  have hsplit : (a &&& pteFrameAddr) + (a &&& 0xfff#32) = a := by
    have hmask : pteFrameAddr ||| 0xfff#32 = BitVec.allOnes 32 := by decide
    rw [BitVec.add_eq_or_of_and_eq_zero _ _ hdisj, ← BitVec.and_or_distrib_left, hmask,
      BitVec.and_allOnes]
  have hsum := BitVec.toNat_add_of_and_eq_zero hdisj
  rw [hsplit, toNat_pageOffset] at hsum
  omega

theorem frameAddr_or_offset (a v : U32) :
    ((a &&& pteFrameAddr) ||| (v &&& 0xfff#32)).toNat = a.toNat / 4096 * 4096 + v.toNat % 4096 := by
  have hdisj : (a &&& pteFrameAddr) &&& (v &&& 0xfff#32) = 0 := by
    have hmask : pteFrameAddr &&& 0xfff#32 = 0 := by decide
    rw [BitVec.and_comm v 0xfff#32, BitVec.and_assoc, ← BitVec.and_assoc pteFrameAddr, hmask]
    simp
  rw [← BitVec.add_eq_or_of_and_eq_zero _ _ hdisj, BitVec.toNat_add_of_and_eq_zero hdisj,
    toNat_frameAddr, toNat_pageOffset]

@[simp] theorem presentEntry_present (a : U32) : presentEntry a &&& pteP = 1 := by
  have hflag : 7#32 &&& pteP = 1 := by decide
  have hmask : pteFrameAddr &&& pteP = 0 := by decide
  rw [presentEntry, BitVec.and_comm, BitVec.and_or_distrib_left, BitVec.and_comm, BitVec.and_assoc,
    hmask, BitVec.and_comm pteP, hflag]
  simp

@[simp] theorem presentEntry_frame (a : U32) :
    presentEntry a &&& pteFrameAddr = a &&& pteFrameAddr := by
  have hflag : pteFrameAddr &&& 7#32 = 0 := by decide
  rw [presentEntry, BitVec.and_comm, BitVec.and_or_distrib_left, hflag, BitVec.and_comm,
    BitVec.and_assoc, BitVec.and_self]
  simp

theorem toNat_ptAddr (v : U32) : (ptAddr v).toNat = 0x501000 + 4096 * (v.toNat / 2 ^ 22) := by
  have hv := v.isLt
  have hs := toNat_shiftRight v 22
  have h0 : kernelPt0.toNat = 0x501000 := rfl
  have h1 : (4096#32).toNat = 4096 := rfl
  rw [ptAddr, BitVec.toNat_add, BitVec.toNat_mul, hs, h0, h1]
  omega

theorem toNat_pdeAddr (v : U32) : (pdeAddr v).toNat = 0x500000 + 4 * (v.toNat / 2 ^ 22) := by
  have hv := v.isLt
  have hs := toNat_shiftRight v 22
  have h0 : kernelPdt.toNat = 0x500000 := rfl
  have h1 : (4#32).toNat = 4 := rfl
  rw [pdeAddr, BitVec.toNat_add, BitVec.toNat_mul, hs, h0, h1]
  omega

theorem toNat_pteAddr (v : U32) :
    (pteAddr v).toNat = 0x501000 + 4096 * (v.toNat / 2 ^ 22) + 4 * (v.toNat / 4096 % 1024) := by
  have hv := v.isLt
  have hs := toNat_pteIndex v
  have h1 : (4#32).toNat = 4 := rfl
  rw [pteAddr, BitVec.toNat_add, BitVec.toNat_mul, toNat_ptAddr, hs, h1]
  omega

theorem pdeAddr_aligned (v : U32) : Aligned (pdeAddr v) := by
  rw [Aligned, toNat_pdeAddr]
  omega

theorem pteAddr_aligned (v : U32) : Aligned (pteAddr v) := by
  rw [Aligned, toNat_pteAddr]
  omega

theorem pteAddr_eq_iff (v w : U32) : pteAddr v = pteAddr w ↔ pageNumber v = pageNumber w := by
  have hv := v.isLt
  have hw := w.isLt
  rw [← BitVec.toNat_inj, ← BitVec.toNat_inj, toNat_pteAddr, toNat_pteAddr, toNat_pageNumber,
    toNat_pageNumber]
  omega

theorem pteAddr_ne_pdeAddr (v w : U32) : pteAddr v ≠ pdeAddr w := by
  have hw := w.isLt
  rw [ne_eq, ← BitVec.toNat_inj, toNat_pteAddr, toNat_pdeAddr]
  omega

theorem setPte_eq (m : Mem) (pte addr flags : U32) :
    setPte m pte addr flags = store32 m pte ((addr &&& pteFrameAddr) ||| flags) := by
  simp only [setPte, load32_store32_same, store32_store32]
  rw [show (0 : U32) ||| (addr &&& pteFrameAddr) = addr &&& pteFrameAddr from BitVec.zero_or]

theorem setPde_eq (m : Mem) (pde pt flags : U32) :
    setPde m pde pt flags = store32 m pde ((pt &&& pdePtAddr) ||| flags) := by
  simp only [setPde, load32_store32_same, store32_store32]
  rw [show (0 : U32) ||| (pt &&& pdePtAddr) = pt &&& pdePtAddr from BitVec.zero_or]

theorem pdeIndex_eq (v : U32) : (v &&& pdPdeIndex) >>> 22 = v >>> 22 := by
  have hmask : pdPdeIndex >>> 22 = 0x3ff#32 := by decide
  have hv := v.isLt
  rw [BitVec.ushiftRight_and_distrib, hmask, ← BitVec.toNat_inj, BitVec.toNat_and, toNat_shiftRight]
  have hmod : v.toNat / 2 ^ 22 &&& (0x3ff#32).toNat = v.toNat / 2 ^ 22 % 2 ^ 10 :=
    Nat.and_two_pow_sub_one_eq_mod _ 10
  omega

theorem pteIndex_eq (v : U32) : (v &&& ptPteIndex) >>> 12 = (v >>> 12) &&& 0x3ff#32 := by
  have hmask : ptPteIndex >>> 12 = 0x3ff#32 := by decide
  rw [BitVec.ushiftRight_and_distrib, hmask]

/-- One call stores the directory entry of `v` and the table entry of `v`. -/
theorem mapMemory4k_eq (m : Mem) (v p : U32) :
    mapMemory4k m kernelPdt v p =
      store32 (store32 m (pdeAddr v) (presentEntry (ptAddr v))) (pteAddr v) (presentEntry p) := by
  have hpt0 : kernelPt0 &&& pdePtAddr = kernelPt0 := by decide
  have hflags : pdeP ||| pdeRw ||| pdeUs = 7#32 := by decide
  have hflags' : pteP ||| pteRw ||| pteUs = 7#32 := by decide
  have hmul : 4#32 * ((v >>> 22) * 1024#32) = 4096#32 * (v >>> 22) := by
    rw [BitVec.mul_comm (v >>> 22), ← BitVec.mul_assoc]
    rfl
  simp only [mapMemory4k, setPte_eq, setPde_eq, pdeIndex_eq, pteIndex_eq, hpt0, hflags, hflags',
    hmul]
  rfl

end Uroboros
