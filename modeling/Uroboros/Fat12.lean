import Uroboros.Config
import Uroboros.Lib.ByteMemory

/-!
# The file allocation table of a FAT12 disk

`get_fat12_entry` of `fat12.c` on the bytes of a disk image, and the layout it
decodes: two entries of twelve bits in three bytes, of which they share the
middle one.
-/

set_option autoImplicit false

namespace Uroboros

open ByteMemory

abbrev U16 := BitVec 16

-- Fields of the packed `BPB`.
def bytesPerSector (m : Mem) (bpb : U32) : U16 := load16 m (bpb + 11)

def reservedSectors (m : Mem) (bpb : U32) : U16 := load16 m (bpb + 14)

/-- The factors are promoted to `int`, so that the product is one of 32 bits. -/
def getFat12 (m : Mem) (bpb : U32) : U32 :=
  bpb + (reservedSectors m bpb).setWidth 32 * (bytesPerSector m bpb).setWidth 32

def getFat12Entry (m : Mem) (bpb : U32) (clusterNumber : U16) : U16 :=
  let fatOffset := clusterNumber / 2
  let fatOffset := fatOffset * 3
  let p := getFat12 m bpb + fatOffset.setWidth 32
  if clusterNumber % 2 = 0 then
    (m p).setWidth 16 ||| (m (p + 1) &&& 0x0f).setWidth 16 <<< 8
  else
    ((m (p + 1)).setWidth 16 &&& 0xf0) >>> 4 ||| (m (p + 2)).setWidth 16 <<< 4

/-- The entries `e` in the layout of FAT12 from `fat` on. -/
structure Packed (m : Mem) (fat : U32) (e : List (BitVec 12)) : Prop where
  even : ∀ k (h : 2 * k < e.length),
    m (fat + BitVec.ofNat 32 (3 * k)) = e[2 * k].extractLsb' 0 8 ∧
    (m (fat + BitVec.ofNat 32 (3 * k + 1))).extractLsb' 0 4 = e[2 * k].extractLsb' 8 4
  odd : ∀ k (h : 2 * k + 1 < e.length),
    (m (fat + BitVec.ofNat 32 (3 * k + 1))).extractLsb' 4 4 = e[2 * k + 1].extractLsb' 0 4 ∧
    m (fat + BitVec.ofNat 32 (3 * k + 2)) = e[2 * k + 1].extractLsb' 4 8

def encodeFat12 : List (BitVec 12) → List U8
  | [] => []
  | [x] => [x.extractLsb' 0 8, (0#4 ++ x.extractLsb' 8 4)]
  | x :: y :: e =>
    x.extractLsb' 0 8 :: (y.extractLsb' 0 4 ++ x.extractLsb' 8 4) :: y.extractLsb' 4 8 ::
      encodeFat12 e

section
variable {m : Mem} {bpb fat : U32} {e : List (BitVec 12)} {x : BitVec 12} {a b : U8} {i : Nat}

/-- Neither the product of the fields nor the promotion of its factors loses a bit. -/
theorem getFat12_eq (m : Mem) (bpb : U32) : getFat12 m bpb =
    bpb + BitVec.ofNat 32 ((reservedSectors m bpb).toNat * (bytesPerSector m bpb).toNat) := by
  rw [getFat12, BitVec.ofNat_mul, BitVec.ofNat_toNat, BitVec.ofNat_toNat]

theorem low_nibble (b : U8) : b &&& 0x0f = (b.extractLsb' 0 4).setWidth 8 := by
  revert b
  decide +kernel

theorem high_nibble (b : U8) :
    (b.setWidth 16 &&& 0xf0) >>> 4 = (b.extractLsb' 4 4).setWidth 16 := by
  revert b
  decide +kernel

theorem even_entry (ha : a = x.extractLsb' 0 8) (hb : b.extractLsb' 0 4 = x.extractLsb' 8 4) :
    a.setWidth 16 ||| (b &&& 0x0f).setWidth 16 <<< 8 = x.setWidth 16 := by
  rw [low_nibble, ha, hb]
  ext i hi
  simp only [BitVec.getElem_or, BitVec.getElem_setWidth, BitVec.getElem_shiftLeft,
    BitVec.getLsbD_extractLsb', BitVec.getLsbD_setWidth]
  by_cases hlow : i < 8
  · simp [hlow]
  · have hcases : i - 8 < 4 ∨ 12 ≤ i := by omega
    rcases hcases with h | h
    · simp [hlow, h, show i - 8 < 8 by omega, show 8 + (i - 8) = i by omega]
    · simp [hlow, show ¬ i - 8 < 4 by omega, BitVec.getLsbD_of_ge x i h]

theorem odd_entry (ha : a.extractLsb' 4 4 = x.extractLsb' 0 4) (hb : b = x.extractLsb' 4 8) :
    (a.setWidth 16 &&& 0xf0) >>> 4 ||| b.setWidth 16 <<< 4 = x.setWidth 16 := by
  rw [high_nibble, ha, hb]
  ext i hi
  simp only [BitVec.getElem_or, BitVec.getElem_setWidth, BitVec.getElem_shiftLeft,
    BitVec.getLsbD_extractLsb']
  by_cases hlow : i < 4
  · simp [hlow]
  · have hcases : i - 4 < 8 ∨ 12 ≤ i := by omega
    rcases hcases with h | h
    · simp [hlow, h, show 4 + (i - 4) = i by omega]
    · simp [hlow, show ¬ i - 4 < 8 by omega, BitVec.getLsbD_of_ge x i h]

theorem fatOffset_eq (hi : i < 4096) :
    (BitVec.ofNat 16 i / 2 * 3).setWidth 32 = BitVec.ofNat 32 (3 * (i / 2)) := by
  apply BitVec.eq_of_toNat_eq
  have h2 : (2#16).toNat = 2 := rfl
  have h3 : (3#16).toNat = 3 := rfl
  have hlt : i / 2 * 3 < 2 ^ 16 := by omega
  simp only [BitVec.toNat_setWidth, BitVec.toNat_mul, BitVec.toNat_udiv, BitVec.toNat_ofNat,
    BitVec.ofNat_eq_ofNat, h2, h3]
  rw [Nat.mod_eq_of_lt (a := i) (by omega), Nat.mod_eq_of_lt hlt, Nat.mul_comm]

theorem mod_two_eq_zero_iff : BitVec.ofNat 16 i % 2 = 0 ↔ i % 2 = 0 := by
  rw [← BitVec.toNat_inj]
  have h2 : (2#16).toNat = 2 := rfl
  simp only [BitVec.toNat_umod, BitVec.toNat_ofNat, BitVec.ofNat_eq_ofNat, h2]
  omega

theorem Packed.cons {y : BitVec 12} (h : Packed m (fat + 3) e)
    (hx : m fat = x.extractLsb' 0 8) (hxy : m (fat + 1) = y.extractLsb' 0 4 ++ x.extractLsb' 8 4)
    (hy : m (fat + 2) = y.extractLsb' 4 8) : Packed m fat (x :: y :: e) := by
  have hoff : ∀ k r : Nat, fat + BitVec.ofNat 32 (3 * (k + 1) + r) =
      fat + 3 + BitVec.ofNat 32 (3 * k + r) := by
    intro k r
    rw [BitVec.add_assoc, show 3 * (k + 1) + r = 3 + (3 * k + r) by omega, BitVec.ofNat_add]
    rfl
  constructor
  · intro k hk
    cases k with
    | zero =>
      refine ⟨by simpa using hx, ?_⟩
      have hmid : m (fat + BitVec.ofNat 32 (3 * 0 + 1)) = m (fat + 1) := rfl
      rw [hmid, hxy]
      exact BitVec.extractLsb'_append_eq_right
    | succ k =>
      rw [hoff, show 3 * (k + 1) = 3 * (k + 1) + 0 from rfl, hoff]
      exact h.even k (by simp only [List.length_cons] at hk; omega)
  · intro k hk
    cases k with
    | zero =>
      refine ⟨?_, hy⟩
      have hmid : m (fat + BitVec.ofNat 32 (3 * 0 + 1)) = m (fat + 1) := rfl
      rw [hmid, hxy]
      exact BitVec.extractLsb'_append_eq_left
    | succ k =>
      rw [hoff, hoff]
      exact h.odd k (by simp only [List.length_cons] at hk; omega)

theorem packed_encodeFat12 (h : BytesAt m fat (encodeFat12 e)) : Packed m fat e := by
  fun_induction encodeFat12 e generalizing fat with
  | case1 => exact ⟨fun k hk => absurd hk (by simp), fun k hk => absurd hk (by simp)⟩
  | case2 x =>
    obtain ⟨hlow, hhigh, _⟩ := bytesAt_cons.mp h |>.imp_right bytesAt_cons.mp
    constructor
    · intro k hk
      obtain rfl : k = 0 := by simp only [List.length_singleton] at hk; omega
      refine ⟨by simpa using hlow, ?_⟩
      have hmid : m (fat + BitVec.ofNat 32 (3 * 0 + 1)) = m (fat + 1) := rfl
      rw [hmid, hhigh]
      exact BitVec.extractLsb'_append_eq_right
    · intro k hk
      simp only [List.length_singleton] at hk
      omega
  | case3 x y e ih =>
    obtain ⟨hx, h⟩ := bytesAt_cons.mp h
    obtain ⟨hxy, h⟩ := bytesAt_cons.mp h
    obtain ⟨hy, h⟩ := bytesAt_cons.mp h
    have hnext : fat + 1 + 1 = fat + 2 := by rw [BitVec.add_assoc]; rfl
    rw [hnext] at hy h
    have hrest : fat + 2 + 1 = fat + 3 := by rw [BitVec.add_assoc]; rfl
    rw [hrest] at h
    exact (ih h).cons hx hxy hy

theorem Packed.entry (h : Packed m (getFat12 m bpb) e) (hi : i < e.length) (hbound : i < 4096) :
    getFat12Entry m bpb (BitVec.ofNat 16 i) = e[i].setWidth 16 := by
  simp only [getFat12Entry, fatOffset_eq hbound, mod_two_eq_zero_iff]
  have hmid : getFat12 m bpb + BitVec.ofNat 32 (3 * (i / 2)) + 1 =
      getFat12 m bpb + BitVec.ofNat 32 (3 * (i / 2) + 1) := by
    rw [BitVec.ofNat_add, ← BitVec.add_assoc]
    rfl
  have hlast : getFat12 m bpb + BitVec.ofNat 32 (3 * (i / 2)) + 2 =
      getFat12 m bpb + BitVec.ofNat 32 (3 * (i / 2) + 2) := by
    rw [BitVec.ofNat_add, ← BitVec.add_assoc]
    rfl
  split
  · have hk : 2 * (i / 2) = i := by omega
    obtain ⟨hlow, hhigh⟩ := h.even (i / 2) (by omega)
    simp only [hk] at hlow hhigh
    rw [hmid]
    exact even_entry hlow hhigh
  · have hk : 2 * (i / 2) + 1 = i := by omega
    obtain ⟨hlow, hhigh⟩ := h.odd (i / 2) (by omega)
    simp only [hk] at hlow hhigh
    rw [hmid, hlast]
    exact odd_entry hlow hhigh

theorem getFat12Entry_eq (hlen : e.length ≤ 4096)
    (h : Packed m (bpb + BitVec.ofNat 32
      ((reservedSectors m bpb).toNat * (bytesPerSector m bpb).toNat)) e)
    (i : Nat) (hi : i < e.length) :
    getFat12Entry m bpb (BitVec.ofNat 16 i) = e[i].setWidth 16 := by
  rw [← getFat12_eq] at h
  exact h.entry hi (by omega)

end

def disk (e : List (BitVec 12)) : Mem := fun a =>
  if 512 ≤ a.toNat then (encodeFat12 e)[a.toNat - 512]?.getD 0
  else if a = 12 then 2 else if a = 14 then 1 else 0

theorem getFat12Entry_eq_last : getFat12Entry (disk [0xff0, 0xfff, 0x003]) 0 2 = 0x003 :=
  getFat12Entry_eq (by decide)
    (packed_encodeFat12 (e := [0xff0, 0xfff, 0x003]) (by unfold BytesAt; decide)) 2 (by decide)

end Uroboros
