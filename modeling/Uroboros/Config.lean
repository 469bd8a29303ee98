import Mathlib.Algebra.Order.Ring.Nat

/-!
# Machine words and the memory layout of `config.h`

`uint32_t` and `uint8_t` are bit vectors. The constants keep their names;
sizes that only count something (pages, table entries, slots) are naturals.
-/

set_option autoImplicit false

namespace Uroboros

abbrev U8 := BitVec 8

abbrev U32 := BitVec 32

-- Layout of `config.h`.
def pmallocManAddrV : U32 := 0x00901000
def pmallocManAddrP : U32 := 0x00901000
def pmallocStart : U32 := 0x01000000
def pmallocMaxPage : Nat := 1024 * 512

def vmallocManAddr : U32 := 0x00a01000
def vmallocStart : U32 := 0x03000000
def vmallocInitEnd : U32 := 0x04000000

def kernelAddr : U32 := 0x00100000
def kernelStackV : U32 := 0x03000000
def kernelStackTopV : U32 := 0x01000000
def kernelStackSize : U32 := kernelStackV - kernelStackTopV

def kernelPdt : U32 := 0x00500000
def kernelPt0 : U32 := 0x00501000
def kernelPtSize : U32 := 4 * 1024 * 1024
def kernelSize : U32 := 4 * 1024 * 1024

def vramAddr : U32 := 0x000A0000
def vramAddrV : U32 := 0x00000000
def screenXsize : U32 := 320
def screenYsize : U32 := 200
def vramSize : U32 := screenXsize * screenYsize * 1

def gdtIdtHeadAddr : U32 := 0x00F00000

def fdBufferV : U32 := 0x00B01000
def fdBufferP : U32 := 0x00000000

-- Constants of `mem.h`.
def cr0FlagPg : U32 := 0x80000000
def memPageSize : U32 := 4096
def vmemMaxUnits : Nat := 256

/-- `sizeof(V_MEMMAN)`: four words, the block records of 24 bytes, and `entry`. -/
def sizeofVMemMan : U32 := 16 + 24 * BitVec.ofNat 32 vmemMaxUnits + 4

/-- `roundup` of `stdlibc.c`. -/
def roundup (x n : U32) : U32 :=
  let m := x % n
  if m = 0 then x else n * (x / n) + n

/-- `rounddown` of `stdlibc.c`. -/
def rounddown (x n : U32) : U32 := (x / n) * n

/-- `mem_npage` of `mem.c`. -/
def memNpage (size : U32) : U32 := roundup size memPageSize / memPageSize

theorem roundup_of_dvd {x : U32} (h : x.toNat % 4096 = 0) : roundup x memPageSize = x := by
  have hm : x % memPageSize = 0 := by
    apply BitVec.eq_of_toNat_eq
    simpa [memPageSize, BitVec.toNat_umod] using h
  simp only [roundup, hm, if_pos]

theorem memNpage_of_dvd {x : U32} (h : x.toNat % 4096 = 0) :
    (memNpage x).toNat = x.toNat / 4096 := by
  rw [memNpage, roundup_of_dvd h]
  rfl

theorem toNat_roundup (x : U32) :
    (roundup x memPageSize).toNat = (x.toNat + 4095) / 4096 * 4096 % 2 ^ 32 := by
  have hx := x.isLt
  have hpage : memPageSize.toNat = 4096 := rfl
  unfold roundup
  dsimp only
  split
  · rename_i hm
    have hnat : x.toNat % 4096 = 0 := congrArg BitVec.toNat hm
    omega
  · rename_i hm
    have hnat : x.toNat % 4096 ≠ 0 := by
      intro hzero
      exact hm (BitVec.eq_of_toNat_eq hzero)
    rw [BitVec.toNat_add, BitVec.toNat_mul, BitVec.toNat_udiv, hpage]
    omega

/-- Sizes from `0xFFFFF001` on are rounded to zero. -/
theorem le_roundup_iff (x : U32) : x ≤ roundup x memPageSize ↔ x ≤ 0xFFFFF000#32 := by
  have hx := x.isLt
  have hlimit : (0xFFFFF000#32).toNat = 0xFFFFF000 := rfl
  rw [BitVec.le_def, BitVec.le_def, toNat_roundup, hlimit]
  omega

theorem roundup_mod (x : U32) : (roundup x memPageSize).toNat % 4096 = 0 := by
  unfold roundup memPageSize
  dsimp only
  split
  · rename_i hm
    have hnat := congrArg BitVec.toNat hm
    simpa [BitVec.toNat_umod] using hnat
  · rw [BitVec.toNat_add, BitVec.toNat_mul]
    simp

end Uroboros
