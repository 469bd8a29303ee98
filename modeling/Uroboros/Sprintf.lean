import Uroboros.Stdlibc

/-!
# `sprintf`

One pass of the loop of `sprintf` for each piece of the format. `fmt` are the bytes from
`format` on, those behind the NUL included; `arg` are the words behind it on the
stack, and `m` is the memory of the strings they point to. What is stored
through `s` touches none of them.
-/

set_option autoImplicit false

namespace Uroboros.Sprintf

open ByteMemory Stdlibc Numeral

structure State where
  /-- What has been stored through `s`, one byte after the other. -/
  out : List U8
  /-- How far `format` has been moved. -/
  format : Nat
  /-- How many arguments have been taken. -/
  args : Nat
  dispDigit : U8
  padChar : U8

/-- `conv_len` and `tmp` after the conversion, and what it has changed besides. -/
structure Converted where
  convLen : U32
  tmp : List U8
  st : State

/-- `while(isdigit(*format)) format++;`. -/
def skipDigits (fmt : CStr) : Nat → Nat → Option Nat
  | 0, _ => none
  | fuel + 1, p => if isdigit (fmt p) then skipDigits fmt fuel (p + 1) else some p

/-- What stands between `%` and the conversion. -/
def readWidth (fmt : CStr) (fuel : Nat) (st : State) : Option State :=
  if isdigit (fmt st.format) then
    (atoi fuel fun i => fmt (st.format + i)).bind fun width =>
    (skipDigits fmt fuel st.format).map fun p =>
      { st with
        padChar := if fmt st.format = 0x30 then 0x30 else 0x20
        dispDigit := width.setWidth 8
        format := p }
  else some st

def clearedTmp : List U8 := List.replicate 256 0

def place (tmp : List U8) (o : Nat) (l : List U8) : List U8 :=
  tmp.take o ++ l ++ tmp.drop (o + l.length)

/-- The conversions `d` and `u`; a number is taken for negative by its bit 15. -/
def convertInt (st : State) (c : U8) (dataInt : U32) : Converted :=
  if dataInt &&& 0x8000 ≠ 0 ∧ c = 0x64 then
    let asc := toDecAsc (~~~dataInt + 1)
    if st.padChar = 0x20 then
      { convLen := asc.1 + 1, tmp := place (place clearedTmp 0 [0x2d]) 1 asc.2, st := st }
    else if st.padChar = 0x30 then
      { convLen := asc.1
        tmp := place clearedTmp 0 asc.2
        st := { st with out := st.out ++ [0x2d], dispDigit := st.dispDigit - 1 } }
    else { convLen := 0, tmp := clearedTmp, st := st }
  else
    let asc := toDecAsc dataInt
    { convLen := asc.1, tmp := place clearedTmp 0 asc.2, st := st }

def convertHex (st : State) (capital : Bool) (dataInt : U32) : Converted :=
  let asc := toHexAsc dataInt capital
  { convLen := asc.1, tmp := place clearedTmp 0 asc.2, st := st }

/-- Where `tmp` has no NUL, `strlen` runs on behind its 256 bytes, and the bound applies. -/
def convertStr (m : Mem) (st : State) (str : U32) : Converted :=
  let tmp := strncpy (charsAt m str) 256
  let convLen := BitVec.ofNat 32 (strlen tmp)
  { convLen := if 255 < convLen then 255 else convLen, tmp := tmp, st := st }

def convert (m : Mem) (fmt : CStr) (arg : Nat → U32) (st : State) : Converted :=
  let c := fmt st.format
  let taken := { st with args := st.args + 1 }
  if c = 0x64 ∨ c = 0x75 then convertInt taken c (arg st.args)
  else if c = 0x78 then convertHex taken false (arg st.args)
  else if c = 0x58 then convertHex taken true (arg st.args)
  else if c = 0x73 then convertStr m taken (arg st.args)
  else { convLen := 0, tmp := clearedTmp, st := st }

/-- The padding, which is asked for without sign and counted with it, `memcpy`, and the end of the
pass. -/
def emit (padFlg : Bool) (conv : Converted) : State :=
  let st := conv.st
  let width := charToInt st.dispDigit
  let padding := if padFlg = true ∧ conv.convLen < width then
      List.replicate (width.toInt - conv.convLen.toInt).toNat st.padChar
    else []
  { st with
    out := st.out ++ padding ++ conv.tmp.take conv.convLen.toNat
    format := st.format + 1 }

/-- One pass; after the `break` of a single `%` at the end the test of the loop fails. -/
def pass (m : Mem) (fmt : CStr) (arg : Nat → U32) (fuel : Nat) (st : State) : Option State :=
  if fmt st.format = 0x25 then
    let st := { st with format := st.format + 1 }
    if fmt st.format = 0 then some st
    else if fmt st.format = 0x25 then
      some { st with out := st.out ++ [0x25], format := st.format + 1 }
    else (readWidth fmt fuel st).map fun read =>
      emit (isdigit (fmt st.format)) (convert m fmt arg read)
  else some { st with out := st.out ++ [fmt st.format], format := st.format + 1 }

def sprintfLoop (m : Mem) (fmt : CStr) (arg : Nat → U32) (fuel : Nat) : Nat → State → Option State
  | 0, _ => none
  | k + 1, st =>
    if fmt st.format = 0 then some st
    else (pass m fmt arg fuel st).bind (sprintfLoop m fmt arg fuel k)

/-- `disp_digit` and `pad_char` are what the stack holds. -/
def start (dispDigit padChar : U8) : State where
  out := []
  format := 0
  args := 0
  dispDigit := dispDigit
  padChar := padChar

/-- The value returned, and all bytes stored. -/
def sprintf (m : Mem) (fmt : CStr) (arg : Nat → U32) (dispDigit padChar : U8) (fuel : Nat) :
    Option (U32 × List U8) :=
  (sprintfLoop m fmt arg fuel fuel (start dispDigit padChar)).map fun st =>
    (BitVec.ofNat 32 st.out.length, st.out ++ [fmt st.format])

def widthVal (w : List U8) : Nat := horner 10 0 (w.map digitVal)

def padOf (w : List U8) : U8 := if w.head? = some 0x30 then 0x30 else 0x20

/-- The state in front of the conversion of `%`, the width `w` and another character. -/
def widthRead (st : State) (w : List U8) : State :=
  if w = [] then { st with format := st.format + 1 }
  else
    { st with
      padChar := padOf w
      dispDigit := BitVec.ofNat 8 (widthVal w)
      format := st.format + 1 + w.length }

section
variable {m : Mem} {fmt : CStr} {arg : Nat → U32} {st : State} {w t : List U8} {c : U8}
  {fuel k p : Nat} {conv : Converted}

theorem skipDigits_eq (hs : Spells fmt p (w ++ [c])) (hw : ∀ d ∈ w, isdigit d = true)
    (hc : ¬ isdigit c = true) (hfuel : w.length < fuel) :
    skipDigits fmt fuel p = some (p + w.length) := by
  induction w generalizing p fuel with
  | nil =>
    obtain ⟨k, rfl⟩ := Nat.exists_eq_succ_of_ne_zero (Nat.ne_of_gt hfuel)
    rw [skipDigits, hs.1, if_neg hc]
    rfl
  | cons d w ih =>
    obtain ⟨k, rfl⟩ := Nat.exists_eq_succ_of_ne_zero (Nat.ne_of_gt (Nat.zero_lt_of_lt hfuel))
    rw [skipDigits, hs.1, if_pos (hw d List.mem_cons_self),
      ih hs.2 (fun d hd => hw d (List.mem_cons_of_mem _ hd)) (Nat.lt_of_succ_lt_succ hfuel),
      List.length_cons, Nat.add_assoc, Nat.add_comm 1]

theorem spells_shift : Spells (fun i => fmt (p + i)) k w ↔ Spells fmt (p + k) w := by
  induction w generalizing k with
  | nil => exact Iff.rfl
  | cons d w ih => rw [Spells, Spells, ih, Nat.add_assoc]

theorem readWidth_digits (hs : Spells fmt st.format (w ++ [c])) (hw : ∀ d ∈ w, isdigit d = true)
    (hc : ¬ isdigit c = true) (hfuel : w.length < fuel) (hne : w ≠ []) :
    readWidth fmt fuel st = some
      { st with
        padChar := padOf w
        dispDigit := BitVec.ofNat 8 (widthVal w)
        format := st.format + w.length } := by
  obtain ⟨d, w, rfl⟩ := List.exists_cons_of_ne_nil hne
  have hd := hw d List.mem_cons_self
  have hfirst : fmt st.format = d := hs.1
  have hnum : atoi fuel (fun i => fmt (st.format + i)) =
      some (BitVec.ofNat 32 (widthVal (d :: w))) := by
    rw [atoi, Nat.add_zero, hfirst, if_neg (isdigit_ne hd).2.2]
    exact atoiLoop_digits (spells_shift.mpr hs) hw hc hfuel 0
  have hwidth : (BitVec.ofNat 32 (widthVal (d :: w))).setWidth 8 =
      BitVec.ofNat 8 (widthVal (d :: w)) := by
    apply BitVec.eq_of_toNat_eq
    rw [BitVec.toNat_setWidth, BitVec.toNat_ofNat, BitVec.toNat_ofNat]
    omega
  have hpad : (if d = 0x30 then 0x30 else 0x20) = padOf (d :: w) := by
    rw [padOf, List.head?_cons]
    exact if_congr Option.some_inj.symm rfl rfl
  rw [readWidth, hfirst, if_pos hd, hnum, Option.bind_some, skipDigits_eq hs hw hc hfuel,
    Option.map_some, hwidth, hpad]

theorem pass_conversion (hs : Spells fmt st.format (0x25 :: w ++ [c]))
    (hw : ∀ d ∈ w, isdigit d = true) (hc : ¬ isdigit c = true) (hfuel : w.length < fuel)
    (hempty : w = [] → c ≠ 0 ∧ c ≠ 0x25) : pass m fmt arg fuel st =
      some (emit (decide (w ≠ [])) (convert m fmt arg (widthRead st w))) := by
  have hpercent : fmt st.format = 0x25 := hs.1
  rw [pass, if_pos hpercent]
  dsimp only
  cases w with
  | nil =>
    have hchar : fmt (st.format + 1) = c := hs.2.1
    obtain ⟨hzero, hnot⟩ := hempty rfl
    rw [hchar, if_neg hzero, if_neg hnot, readWidth]
    dsimp only
    rw [hchar, if_neg hc, Option.map_some, Bool.eq_false_of_not_eq_true hc]
    rfl
  | cons d w =>
    have hd := hw d List.mem_cons_self
    have hchar : fmt (st.format + 1) = d := hs.2.1
    have hread : readWidth fmt fuel { st with format := st.format + 1 } = _ :=
      readWidth_digits hs.2 hw hc hfuel (List.cons_ne_nil d w)
    rw [hchar, if_neg (isdigit_ne hd).1, if_neg (isdigit_ne hd).2.1, hread, Option.map_some, hd]
    rfl

theorem pass_percent (hs : Spells fmt st.format [0x25, 0x25]) : pass m fmt arg fuel st =
    some { st with out := st.out ++ [0x25], format := st.format + 2 } := by
  have hfirst : fmt st.format = 0x25 := hs.1
  have hsecond : fmt (st.format + 1) = 0x25 := hs.2.1
  rw [pass, if_pos hfirst]
  dsimp only
  rw [hsecond, if_neg (by decide), if_pos rfl]

theorem pass_ordinary (hs : fmt st.format = c) (hc : c ≠ 0x25) : pass m fmt arg fuel st =
    some { st with out := st.out ++ [c], format := st.format + 1 } := by
  rw [pass, hs, if_neg hc]

theorem pass_break (hs : Spells fmt st.format [0x25, 0]) :
    pass m fmt arg fuel st = some { st with format := st.format + 1 } := by
  have hfirst : fmt st.format = 0x25 := hs.1
  have hsecond : fmt (st.format + 1) = 0 := hs.2.1
  rw [pass, if_pos hfirst]
  dsimp only
  rw [hsecond, if_pos rfl]

theorem widthRead_format (st : State) (w : List U8) :
    (widthRead st w).format = st.format + 1 + w.length := by
  unfold widthRead
  split_ifs with hempty
  · rw [hempty, List.length_nil]
  · rfl

theorem widthRead_out (st : State) (w : List U8) : (widthRead st w).out = st.out := by
  unfold widthRead
  split_ifs <;> rfl

theorem widthRead_args (st : State) (w : List U8) : (widthRead st w).args = st.args := by
  unfold widthRead
  split_ifs <;> rfl

theorem widthRead_char (hs : Spells fmt st.format (0x25 :: w ++ [c])) :
    fmt (widthRead st w).format = c := by
  have hlast := (spells_append.mp hs).2.1
  rw [List.length_cons] at hlast
  rw [widthRead_format, Nat.add_assoc, Nat.add_comm 1]
  exact hlast

theorem convert_format (m : Mem) (fmt : CStr) (arg : Nat → U32) (st : State) :
    (convert m fmt arg st).st.format = st.format := by
  unfold convert convertInt
  dsimp only
  split_ifs <;> rfl

theorem emit_format (padFlg : Bool) (conv : Converted) :
    (emit padFlg conv).format = conv.st.format + 1 := rfl

theorem convert_int (m : Mem) (arg : Nat → U32) (h : fmt st.format = c)
    (hc : c = 0x64 ∨ c = 0x75) : convert m fmt arg st =
      convertInt { st with args := st.args + 1 } c (arg st.args) := by
  rw [convert, h, if_pos hc]

theorem convert_hex (m : Mem) (arg : Nat → U32) (h : fmt st.format = 0x78) :
    convert m fmt arg st = convertHex { st with args := st.args + 1 } false (arg st.args) := by
  rw [convert, h, if_neg (by decide), if_pos rfl]

theorem convert_str (m : Mem) (arg : Nat → U32) (h : fmt st.format = 0x73) :
    convert m fmt arg st = convertStr m { st with args := st.args + 1 } (arg st.args) := by
  rw [convert, h, if_neg (by decide), if_neg (by decide), if_neg (by decide), if_pos rfl]

structure HasText (conv : Converted) (t : List U8) : Prop where
  short : t.length < 256
  convLen : conv.convLen = BitVec.ofNat 32 t.length
  tmp : conv.tmp.take t.length = t

theorem toInt_charToInt (c : U8) : (charToInt c).toInt = c.toInt :=
  BitVec.toInt_signExtend_of_le (by decide)

/-- The text, padded to the width; a negative width pads nothing, though it is compared without
sign. -/
theorem emit_eq (h : HasText conv t) (padFlg : Bool) : emit padFlg conv =
    { conv.st with
      out := conv.st.out ++ (if padFlg = true then
        List.replicate (conv.st.dispDigit.toInt - t.length).toNat conv.st.padChar else []) ++ t
      format := conv.st.format + 1 } := by
  have hshort := h.short
  have hnat : conv.convLen.toNat = t.length := by
    rw [h.convLen, BitVec.toNat_ofNat]
    omega
  have hint : conv.convLen.toInt = t.length := by
    rw [BitVec.toInt_eq_toNat_cond, hnat, if_pos (by omega)]
  have hwidth := toInt_charToInt conv.st.dispDigit
  have hpad : (if padFlg = true ∧ conv.convLen < charToInt conv.st.dispDigit then
      List.replicate ((charToInt conv.st.dispDigit).toInt - conv.convLen.toInt).toNat
        conv.st.padChar else []) =
      if padFlg = true then
        List.replicate (conv.st.dispDigit.toInt - t.length).toNat conv.st.padChar else [] := by
    rw [hwidth, hint]
    cases padFlg with
    | false => rfl
    | true =>
      rw [if_pos rfl]
      by_cases hlt : conv.convLen < charToInt conv.st.dispDigit
      · rw [if_pos ⟨rfl, hlt⟩]
      · have hnone : (conv.st.dispDigit.toInt - t.length).toNat = 0 := by
          rw [BitVec.lt_def, hnat] at hlt
          rw [BitVec.toInt_eq_toNat_cond] at hwidth
          have hsize := (charToInt conv.st.dispDigit).isLt
          have hbound := BitVec.toInt_lt (x := conv.st.dispDigit)
          split_ifs at hwidth
          · omega
          · omega
        rw [if_neg fun hand => hlt hand.2, hnone]
        rfl
  rw [emit]
  dsimp only
  rw [hpad, hnat, h.tmp]

theorem hasText_place (st : State) (ht : t.length < 256) : HasText
    { convLen := BitVec.ofNat 32 t.length, tmp := place clearedTmp 0 t, st := st } t where
  short := ht
  convLen := rfl
  tmp := List.take_left

theorem convertInt_unsigned (st : State) {n : U32} (h : ¬ (n &&& 0x8000 ≠ 0 ∧ c = 0x64)) :
    HasText (convertInt st c n) (decimal n.toNat) ∧ (convertInt st c n).st = st := by
  have hlen := length_decimal_le n
  rw [convertInt, if_neg h]
  dsimp only
  rw [toDecAsc_eq]
  exact ⟨hasText_place st (by omega), rfl⟩

theorem convertHex_text (st : State) (capital : Bool) (n : U32) :
    HasText (convertHex st capital n) (hexadecimal capital n.toNat) := by
  have hlen := length_hexadecimal_le n capital
  rw [convertHex, toHexAsc_eq]
  exact hasText_place st (by omega)

theorem convertStr_text (st : State) {a : U32} (hs : Spells (charsAt m a) 0 (t ++ [0]))
    (ht : ∀ c ∈ t, c ≠ 0) (hlen : t.length < 256) : HasText (convertStr m st a) t := by
  have htmp : strncpy (charsAt m a) 256 = t ++ List.replicate (256 - t.length) 0 :=
    strncpyLoop_eq hs ht hlen
  have hstrlen : strlen (strncpy (charsAt m a) 256) = t.length := by
    obtain ⟨n, hn⟩ := Nat.exists_eq_succ_of_ne_zero (show 256 - t.length ≠ 0 by omega)
    rw [htmp, hn, List.replicate_succ, strlen_append ht]
  constructor
  · exact hlen
  · have hsmall : ¬ 255 < BitVec.ofNat 32 t.length := by
      rw [BitVec.lt_def, BitVec.toNat_ofNat]
      have h255 : (255 : U32).toNat = 255 := rfl
      omega
    rw [convertStr]
    dsimp only
    rw [hstrlen, if_neg hsmall]
  · rw [convertStr]
    dsimp only
    rw [htmp, List.take_left]

end

end Uroboros.Sprintf
