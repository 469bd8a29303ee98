import Uroboros.Lib.ForLoop
import Uroboros.Stdlibc

/-!
# Characters on the screen

`print_asc` and `put_font_asc` of `graphic.c`. The frame buffer is where
`sys->vram` points, the font is a table of its own: what is read of it is read
inside it, or the call ends.
-/

set_option autoImplicit false

namespace Uroboros.Graphic

open ByteMemory ForLoop Stdlibc

inductive Fault where
  | diverges
  | outsideFont
  deriving DecidableEq

/-- `if((d & mask) != 0) p[k] = color;`. -/
def putBit (p : U32) (color d mask : U8) (k : U32) (m : Mem) : Mem :=
  if d &&& mask ≠ 0 then store8 m (p + k) color else m

/-- The body of the loop over the rows. -/
def putRow (p : U32) (color d : U8) (m : Mem) : Mem :=
  putBit p color d 0x01 7 <| putBit p color d 0x02 6 <| putBit p color d 0x04 5 <|
    putBit p color d 0x08 4 <| putBit p color d 0x10 3 <| putBit p color d 0x20 2 <|
      putBit p color d 0x40 1 <| putBit p color d 0x80 0 m

def putFontAsc (m : Mem) (vram posX posY : U32) (color : U8) (font : Nat → U8) : Mem :=
  forLoop (fun i m =>
    putRow (vram + (posY + BitVec.ofNat 32 i) * screenXsize + posX) color (font i) m) 16 m

/-- `hankaku + k`, where 16 bytes are going to be read. -/
def fontAt (hankaku : List U8) (k : Int) : Except Fault (Nat → U8) :=
  if 0 ≤ k ∧ k + 16 ≤ hankaku.length then .ok fun i => hankaku.getD (k.toNat + i) 0
  else .error .outsideFont

def printAscLoop (vram : U32) (hankaku : List U8) (posX posY : U32) (color : U8) (s : CStr) :
    Nat → Nat → Mem → Except Fault Mem
  | 0, _, _ => .error .diverges
  | fuel + 1, i, m =>
    if s i = 0 then .ok m
    else (fontAt hankaku ((s i).toInt * 16)).bind fun font =>
      printAscLoop vram hankaku posX posY color s fuel (i + 1)
        (putFontAsc m vram (posX + BitVec.ofNat 32 i * 8) posY color font)

def printAsc (fuel : Nat) (m : Mem) (vram : U32) (hankaku : List U8) (posX posY : U32)
    (color : U8) (s : CStr) : Except Fault Mem :=
  printAscLoop vram hankaku posX posY color s fuel 0 m

/-- The memory with the pixels of `g` in a colour, the left upper one at (`x`, `y`). -/
def paint (vram x y : U32) (color : U8) (g : Nat → Nat → Bool) (m : Mem) : Mem := fun a =>
  if ∃ i : Nat, i < 16 ∧ ∃ j : Nat, j < 8 ∧
    g i j = true ∧ a = vram + (y + BitVec.ofNat 32 i) * screenXsize + x + BitVec.ofNat 32 j
  then color else m a

/-- The columns of a row, the leftmost in the highest bit. -/
def rowBit (d : U8) (j : Nat) : Bool := d.getLsbD (7 - j)

variable {m : Mem} {vram x y p : U32} {color d : U8} {g : Nat → Nat → Bool} {hankaku : List U8}

theorem putBit_apply (mask : U8) (k : U32) (m : Mem) (a : U32) :
    putBit p color d mask k m a = if d &&& mask ≠ 0 ∧ a = p + k then color else m a := by
  unfold putBit
  by_cases hbit : d &&& mask ≠ 0
  · by_cases ha : a = p + k
    · rw [if_pos hbit, if_pos ⟨hbit, ha⟩, ha, store8_same]
    · rw [if_pos hbit, if_neg fun h => ha h.2, store8_ne m color ha]
  · rw [if_neg hbit, if_neg fun h => hbit h.1]

theorem putRow_eq (m : Mem) : putRow p color d m = forLoop (fun j m =>
    putBit p color d ((0x80 : U8) >>> j) (BitVec.ofNat 32 j) m) 8 m := rfl

theorem and_mask_ne_zero {j : Nat} (hj : j < 8) (d : U8) :
    d &&& (0x80 : U8) >>> j ≠ 0 ↔ rowBit d j = true := by
  have hall : ∀ j < 8, ∀ d : U8, d &&& (0x80 : U8) >>> j ≠ 0 ↔ rowBit d j = true := by
    decide +kernel
  exact hall j hj d

theorem putRow_apply (m : Mem) (a : U32) : putRow p color d m a =
    if ∃ j : Nat, j < 8 ∧ rowBit d j = true ∧ a = p + BitVec.ofNat 32 j then color else m a := by
  have hbody : ∀ j < 8, ∀ m a, putBit p color d ((0x80 : U8) >>> j) (BitVec.ofNat 32 j) m a =
      if rowBit d j = true ∧ a = p + BitVec.ofNat 32 j then color else m a := by
    intro j hj m a
    rw [putBit_apply]
    exact if_congr (and_congr_left' (and_mask_ne_zero hj d)) rfl rfl
  rw [putRow_eq]
  exact forLoop_overwrite hbody m a

theorem putFontAsc_eq (m : Mem) (font : Nat → U8) (hfont : ∀ i < 16, ∀ j < 8,
    rowBit (font i) j = g i j) : putFontAsc m vram x y color font = paint vram x y color g m := by
  funext a
  have hbody : ∀ i < 16, ∀ m a,
      putRow (vram + (y + BitVec.ofNat 32 i) * screenXsize + x) color (font i) m a =
        if ∃ j : Nat, j < 8 ∧ g i j = true ∧
          a = vram + (y + BitVec.ofNat 32 i) * screenXsize + x + BitVec.ofNat 32 j
        then color else m a := by
    intro i hi m a
    rw [putRow_apply]
    refine if_congr (exists_congr fun j => and_congr_right fun hj => ?_) rfl rfl
    rw [hfont i hi j hj]
  exact forLoop_overwrite hbody m a

end Uroboros.Graphic
