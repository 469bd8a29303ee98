import Uroboros.SprintfFormat

/-!
# Numbers with a sign

The conversion `d` takes a number for negative by its bit 15, and then goes by
the pad character, which nothing has set when there is no width.
-/

set_option autoImplicit false

namespace Uroboros.Sprintf

open ByteMemory Stdlibc Numeral

def signed (v : Int) : List U8 :=
  if v < 0 then 0x2d :: decimal v.natAbs else decimal v.natAbs

/-- The numeral filled up on the left: with zeros behind the sign, or with spaces in front of it. -/
def paddedInt (w : List U8) (v : Int) : List U8 :=
  if w = [] then signed v
  else if padOf w = 0x30 then
    (if v < 0 then [0x2d] else []) ++ List.replicate (widthVal w - (signed v).length) 0x30 ++
      decimal v.natAbs
  else List.replicate (widthVal w - (signed v).length) 0x20 ++ signed v

/-- What comes of `%d` with the width `w`, when the stack holds `padChar`. -/
def intOutput (padChar : U8) (w : List U8) (n : U32) : List U8 :=
  if n &&& 0x8000 = 0 then padded w (decimal n.toNat)
  else if padFor padChar w = 0x20 then padded w (0x2d :: decimal (-n).toNat)
  else if padFor padChar w = 0x30 then
    0x2d :: (if w = [] then [] else
      List.replicate (widthVal w - 1 - (decimal (-n).toNat).length) 0x30) ++ decimal (-n).toNat
  else []

/-- `sprintf(s, "%<w>d", v)` writes the numeral of `v`, and `atoi` reads it back. -/
def PrintsInt (m : Mem) (fmt : CStr) (arg : Nat → U32) (dispDigit padChar : U8) (w : List U8)
    (v : U32) : Prop :=
  ∃ enough, ∀ fuel ≥ enough,
    sprintf m fmt arg dispDigit padChar fuel = some
      (BitVec.ofNat 32 (paddedInt w v.toInt).length, paddedInt w v.toInt ++ [0]) ∧
    (w = [] → ∀ s : CStr, Spells s 0 (paddedInt w v.toInt ++ [0]) → atoi fuel s = some v)

variable {m : Mem} {fmt s : CStr} {arg : Nat → U32} {st : State} {w t : List U8} {n v : U32}
  {dispDigit padChar c : U8} {fuel : Nat}

theorem not_add_one (n : U32) : ~~~n + 1 = -n := (BitVec.neg_eq_not_add n).symm

theorem ne_zero_of_space (h : c = 0x20) : ¬ c = 0x30 := by
  rw [h]
  decide

theorem ne_space_of_zero (h : c = 0x30) : ¬ c = 0x20 := by
  rw [h]
  decide

theorem convertInt_space (st : State) (hneg : n &&& 0x8000 ≠ 0) (hpad : st.padChar = 0x20) :
    HasText (convertInt st 0x64 n) (0x2d :: decimal (-n).toNat) ∧
      (convertInt st 0x64 n).st = st := by
  have hlen := length_decimal_le (-n)
  rw [convertInt, if_pos ⟨hneg, rfl⟩]
  dsimp only
  rw [if_pos hpad, not_add_one, toDecAsc_eq]
  refine ⟨⟨by rw [List.length_cons]; omega, ?_, ?_⟩, rfl⟩
  · rw [List.length_cons, BitVec.ofNat_add]
    rfl
  · rw [List.length_cons]
    exact congrArg (0x2d :: ·) List.take_left

/-- With zeros the sign is stored at once, and the width counted down. -/
theorem convertInt_zero (st : State) (hneg : n &&& 0x8000 ≠ 0) (hpad : st.padChar = 0x30) :
    HasText (convertInt st 0x64 n) (decimal (-n).toNat) ∧
      (convertInt st 0x64 n).st =
        { st with out := st.out ++ [0x2d], dispDigit := st.dispDigit - 1 } := by
  have hlen := length_decimal_le (-n)
  rw [convertInt, if_pos ⟨hneg, rfl⟩]
  dsimp only
  rw [if_neg (ne_space_of_zero hpad), if_pos hpad, not_add_one, toDecAsc_eq]
  exact ⟨hasText_place _ (by omega), rfl⟩

theorem convertInt_neither (st : State) (hneg : n &&& 0x8000 ≠ 0) (hspace : st.padChar ≠ 0x20)
    (hzero : st.padChar ≠ 0x30) :
    HasText (convertInt st 0x64 n) [] ∧ (convertInt st 0x64 n).st = st := by
  rw [convertInt, if_pos ⟨hneg, rfl⟩]
  dsimp only
  rw [if_neg hspace, if_neg hzero]
  exact ⟨⟨by decide, rfl, rfl⟩, rfl⟩

theorem padOf_cases (w : List U8) : padOf w = 0x30 ∨ padOf w = 0x20 := by
  unfold padOf
  split_ifs
  · exact .inl rfl
  · exact .inr rfl

theorem toInt_width_sub_one (hw : IsWidth w) :
    (BitVec.ofNat 8 (widthVal w) - 1).toInt = (widthVal w : Int) - 1 := by
  have hle := hw.le
  rw [BitVec.toInt_eq_toNat_cond, BitVec.toNat_sub, BitVec.toNat_ofNat]
  have hone : (1 : U8).toNat = 1 := rfl
  rw [hone]
  split_ifs <;> omega

theorem emit_int (hw : IsWidth w) (hst : st.out = [])
    (hpad : st.padChar = padFor padChar w)
    (hdigit : w ≠ [] → st.dispDigit = BitVec.ofNat 8 (widthVal w)) :
    (emit (decide (w ≠ [])) (convertInt st 0x64 n)).out = intOutput padChar w n := by
  have hpadw : w ≠ [] → st.padChar = padOf w := fun hne => hpad.trans (if_neg hne)
  have hdigitw : w ≠ [] → st.dispDigit.toInt = widthVal w := fun hne => by
    rw [hdigit hne, toInt_width hw]
  rw [intOutput, ← hpad]
  by_cases hpos : n &&& 0x8000 = 0
  · obtain ⟨htext, hsame⟩ := convertInt_unsigned st (c := 0x64) (n := n) fun h => h.1 hpos
    rw [if_pos hpos, emit_out htext (by rwa [hsame]) (by rwa [hsame]), hsame, hst, List.nil_append]
  rw [if_neg hpos]
  by_cases hspace : st.padChar = 0x20
  · obtain ⟨htext, hsame⟩ := convertInt_space st hpos hspace
    rw [if_pos hspace, emit_out htext (by rwa [hsame]) (by rwa [hsame]), hsame, hst,
      List.nil_append]
  rw [if_neg hspace]
  by_cases hzero : st.padChar = 0x30
  · obtain ⟨htext, hsame⟩ := convertInt_zero st hpos hzero
    rw [if_pos hzero]
    by_cases hempty : w = []
    · rw [if_pos hempty, emit_out_nil htext hempty, hsame, hst]
      rfl
    · have hcount : ((widthVal w : Int) - 1 - (decimal (-n).toNat).length).toNat =
          widthVal w - 1 - (decimal (-n).toNat).length := by omega
      rw [if_neg hempty, emit_out_width htext hempty, hsame, hst]
      dsimp only
      rw [hdigit hempty, toInt_width_sub_one hw, hcount, hzero]
      rfl
  · obtain ⟨htext, hsame⟩ := convertInt_neither st hpos hspace hzero
    have hempty : w = [] := by
      by_contra hne
      rw [hpadw hne] at hspace hzero
      exact (padOf_cases w).elim hzero hspace
    rw [if_neg hzero, emit_out_nil htext hempty, hsame, hst]
    rfl

theorem sprintf_int (hw : IsWidth w) (hfmt : Spells fmt 0 (0x25 :: w ++ [0x64, 0]))
    (hfuel : w.length + 2 ≤ fuel) : sprintf m fmt arg dispDigit padChar fuel = some
      (BitVec.ofNat 32 (intOutput padChar w (arg 0)).length,
        intOutput padChar w (arg 0) ++ [0]) := by
  let st := widthRead (start dispDigit padChar) w
  let conv := convertInt { st with args := st.args + 1 } 0x64 (arg st.args)
  have hsplit : (0x25 :: w) ++ [0x64, 0] = (0x25 :: w ++ [0x64]) ++ [0] := by
    rw [List.append_assoc]
    rfl
  rw [hsplit, spells_append] at hfmt
  obtain ⟨hconversion, hnul, _⟩ := hfmt
  have hpass : pass m fmt arg fuel (start dispDigit padChar) =
      some (emit (decide (w ≠ [])) conv) := by
    rw [pass_conversion hconversion hw.digits (by decide) (by omega) fun _ => by decide,
      convert_int m arg (widthRead_char hconversion) (.inl rfl)]
  have hend : fmt (emit (decide (w ≠ [])) conv).format = 0 := by
    have hformat := convert_format m fmt arg st
    rw [convert_int m arg (widthRead_char hconversion) (.inl rfl)] at hformat
    rw [emit_format, hformat, widthRead_format, ← hnul, List.length_append, List.length_cons,
      List.length_singleton]
    congr 1
    change 0 + 1 + w.length + 1 = 0 + (w.length + 1 + 1)
    omega
  have hout : (emit (decide (w ≠ [])) conv).out = intOutput padChar w (arg 0) := by
    have hargs : st.args = 0 := widthRead_args _ w
    have hdigit : w ≠ [] → st.dispDigit = BitVec.ofNat 8 (widthVal w) := by
      intro hne
      rw [show st = widthRead (start dispDigit padChar) w from rfl, widthRead, if_neg hne]
    rw [← hargs]
    exact emit_int hw (widthRead_out _ w) (widthRead_padChar _ w) hdigit
  obtain ⟨k, rfl⟩ : ∃ k, fuel = k + 2 := ⟨fuel - 2, by omega⟩
  have hstart : fmt (start dispDigit padChar).format ≠ 0 := by
    have hpercent : fmt (start dispDigit padChar).format = 0x25 := hconversion.1
    rw [hpercent]
    decide
  rw [sprintf, sprintfLoop, if_neg hstart, hpass, Option.bind_some, sprintfLoop, if_pos hend,
    Option.map_some, hout, hend]

theorem minus_not_mem_decimal (k : Nat) : (0x2d : U8) ∉ decimal k := by
  intro hmem
  exact absurd (isdigit_of_mem_decimal hmem) (by decide)

theorem minus_mem_padded : (0x2d : U8) ∈ padded w t ↔ (0x2d : U8) ∈ t := by
  unfold padded
  split_ifs with hempty
  · rfl
  · rw [List.mem_append, or_iff_right]
    intro hmem
    have heq := List.eq_of_mem_replicate hmem
    rcases padOf_cases w with hpad | hpad
    · rw [hpad] at heq
      exact absurd heq (by decide)
    · rw [hpad] at heq
      exact absurd heq (by decide)

theorem pad_cases (padChar : U8) (w : List U8) :
    (padFor padChar w = 0x20 ∨ padFor padChar w = 0x30) ↔
      (w = [] → padChar = 0x20 ∨ padChar = 0x30) := by
  unfold padFor
  split_ifs with hempty
  · exact ⟨fun h _ => h, fun h => h hempty⟩
  · exact iff_of_true (padOf_cases w).symm fun h => absurd h hempty

/-- A minus sign is stored for bit 15, if the pad character is one of the two expected. -/
theorem minus_mem_intOutput : (0x2d : U8) ∈ intOutput padChar w n ↔
    n &&& 0x8000 ≠ 0 ∧ (w = [] → padChar = 0x20 ∨ padChar = 0x30) := by
  rw [← pad_cases, intOutput]
  by_cases hpos : n &&& 0x8000 = 0
  · rw [if_pos hpos, minus_mem_padded]
    exact iff_of_false (minus_not_mem_decimal _) fun h => h.1 hpos
  by_cases hspace : padFor padChar w = 0x20
  · rw [if_neg hpos, if_pos hspace, minus_mem_padded]
    exact iff_of_true List.mem_cons_self ⟨hpos, .inl hspace⟩
  by_cases hzero : padFor padChar w = 0x30
  · rw [if_neg hpos, if_neg hspace, if_pos hzero]
    exact iff_of_true List.mem_cons_self ⟨hpos, .inr hzero⟩
  · rw [if_neg hpos, if_neg hspace, if_neg hzero]
    exact iff_of_false List.not_mem_nil fun h => h.2.elim hspace hzero

theorem intOutput_eq_nil (hneg : n &&& 0x8000 ≠ 0)
    (hpad : ¬ (w = [] → padChar = 0x20 ∨ padChar = 0x30)) : intOutput padChar w n = [] := by
  rw [← pad_cases, not_or] at hpad
  rw [intOutput, if_neg hneg, if_neg hpad.1, if_neg hpad.2]

theorem signed_of_neg {v : Int} (h : v < 0) : signed v = 0x2d :: decimal v.natAbs := if_pos h

theorem signed_of_not_neg {v : Int} (h : ¬ v < 0) : signed v = decimal v.natAbs := if_neg h

theorem minus_mem_signed (v : Int) : (0x2d : U8) ∈ signed v ↔ v < 0 := by
  unfold signed
  split_ifs with hneg
  · exact iff_of_true List.mem_cons_self hneg
  · exact iff_of_false (minus_not_mem_decimal _) hneg

theorem minus_mem_paddedInt (w : List U8) (v : Int) : (0x2d : U8) ∈ paddedInt w v ↔ v < 0 := by
  rw [← minus_mem_signed]
  unfold paddedInt
  split_ifs with hempty hzero hneg
  · rfl
  · rw [signed_of_neg hneg]
    exact iff_of_true List.mem_cons_self List.mem_cons_self
  · rw [signed_of_not_neg hneg, List.nil_append, List.mem_append, or_iff_right]
    intro hmem
    exact absurd (List.eq_of_mem_replicate hmem) (by decide)
  · rw [List.mem_append, or_iff_right]
    intro hmem
    exact absurd (List.eq_of_mem_replicate hmem) (by decide)

theorem paddedInt_ne_nil (w : List U8) (v : Int) : paddedInt w v ≠ [] := by
  have hsigned : signed v ≠ [] := by
    unfold signed
    split_ifs
    · exact List.cons_ne_nil _ _
    · exact decimal_ne_nil _
  unfold paddedInt
  split_ifs
  · exact hsigned
  · exact List.append_ne_nil_of_right_ne_nil _ (decimal_ne_nil _)
  · exact List.append_ne_nil_of_right_ne_nil _ (decimal_ne_nil _)
  · exact List.append_ne_nil_of_right_ne_nil _ hsigned

theorem natAbs_toInt (v : U32) :
    v.toInt.natAbs = if v.toInt < 0 then (-v).toNat else v.toNat := by
  have hlt := v.isLt
  rw [BitVec.toInt_eq_toNat_cond, BitVec.toNat_neg]
  split_ifs <;> omega

theorem paddedInt_of_not_neg {v : Int} (h : ¬ v < 0) (w : List U8) :
    paddedInt w v = padded w (decimal v.natAbs) := by
  rw [paddedInt, padded, signed_of_not_neg h]
  by_cases hempty : w = []
  · rw [if_pos hempty, if_pos hempty]
  rw [if_neg hempty, if_neg hempty]
  rcases padOf_cases w with hpad | hpad
  · rw [if_pos hpad, if_neg h, hpad, List.nil_append]
  · rw [if_neg (ne_zero_of_space hpad), hpad]

theorem paddedInt_of_neg {v : Int} (h : v < 0) (w : List U8) : paddedInt w v =
    if w ≠ [] ∧ padOf w = 0x30 then
      0x2d :: List.replicate (widthVal w - 1 - (decimal v.natAbs).length) 0x30 ++ decimal v.natAbs
    else padded w (0x2d :: decimal v.natAbs) := by
  rw [paddedInt, padded, signed_of_neg h]
  by_cases hempty : w = []
  · rw [if_pos hempty, if_neg fun hand => hand.1 hempty, if_pos hempty]
  · rcases padOf_cases w with hpad | hpad
    · have hcount : widthVal w - (0x2d :: decimal v.natAbs).length =
          widthVal w - 1 - (decimal v.natAbs).length := by
        rw [List.length_cons]
        omega
      rw [if_neg hempty, if_pos hpad, if_pos h, if_pos ⟨hempty, hpad⟩, hcount]
      rfl
    · have hother := ne_zero_of_space hpad
      rw [if_neg hempty, if_neg hother, if_neg fun hand => hother hand.2, if_neg hempty, hpad]

/-- The sign and the padding are as they should be for a number with bit 15, if the pad character
is one of the two expected. -/
theorem intOutput_of_neg (hneg : n &&& 0x8000 ≠ 0)
    (hpad : w = [] → padChar = 0x20 ∨ padChar = 0x30) : intOutput padChar w n =
      if w ≠ [] ∧ padOf w = 0x30 then
        0x2d :: List.replicate (widthVal w - 1 - (decimal (-n).toNat).length) 0x30 ++
          decimal (-n).toNat
      else padded w (0x2d :: decimal (-n).toNat) := by
  rw [intOutput, if_neg hneg]
  by_cases hempty : w = []
  · have hplain : padded w (0x2d :: decimal (-n).toNat) = 0x2d :: decimal (-n).toNat :=
      if_pos hempty
    have hfor : padFor padChar w = padChar := if_pos hempty
    have hnone : ¬ (w ≠ [] ∧ padOf w = 0x30) := fun hand => hand.1 hempty
    rw [hfor, hplain, if_pos hempty, if_neg hnone]
    rcases hpad hempty with hspace | hzero
    · rw [if_pos hspace]
    · rw [hzero]
      rfl
  · have hfor : padFor padChar w = padOf w := if_neg hempty
    rw [hfor, if_neg hempty]
    rcases padOf_cases w with hzero | hspace
    · have hboth : w ≠ [] ∧ padOf w = 0x30 := ⟨hempty, hzero⟩
      rw [if_pos hboth, hzero]
      rfl
    · have hnone : ¬ (w ≠ [] ∧ padOf w = 0x30) := fun hand => ne_zero_of_space hspace hand.2
      rw [if_neg hnone, if_pos hspace]

/-- The sign test and the pad character decide whether the output is right. -/
theorem intOutput_eq_iff : intOutput padChar w v = paddedInt w v.toInt ↔
    (v.toInt < 0 ↔ v &&& 0x8000 ≠ 0) ∧
      (w = [] → v.toInt < 0 → padChar = 0x20 ∨ padChar = 0x30) := by
  constructor
  · intro heq
    have hsign : v &&& 0x8000 ≠ 0 ∧ (w = [] → padChar = 0x20 ∨ padChar = 0x30) ↔ v.toInt < 0 := by
      rw [← minus_mem_intOutput, heq, minus_mem_paddedInt]
    refine ⟨⟨fun hneg => (hsign.mpr hneg).1, ?_⟩, fun hempty hneg => (hsign.mpr hneg).2 hempty⟩
    intro hbit
    by_contra hneg
    have hpad : ¬ (w = [] → padChar = 0x20 ∨ padChar = 0x30) :=
      fun h => hneg (hsign.mp ⟨hbit, h⟩)
    rw [intOutput_eq_nil hbit hpad] at heq
    exact paddedInt_ne_nil w v.toInt heq.symm
  · rintro ⟨hsign, hpad⟩
    have habs := natAbs_toInt v
    by_cases hneg : v.toInt < 0
    · rw [if_pos hneg] at habs
      rw [intOutput_of_neg (hsign.mp hneg) fun hempty => hpad hempty hneg, paddedInt_of_neg hneg,
        habs]
    · rw [if_neg hneg] at habs
      rw [intOutput, if_pos (not_not.mp (mt hsign.mpr hneg)), paddedInt_of_not_neg hneg, habs]

theorem atoi_signed (hs : Spells s 0 (signed v.toInt ++ [0])) (hfuel : 11 ≤ fuel) :
    atoi fuel s = some v := by
  have habs := natAbs_toInt v
  by_cases hneg : v.toInt < 0
  · rw [if_pos hneg] at habs
    rw [signed_of_neg hneg, habs] at hs
    rw [atoi, if_pos hs.1, atoiLoop_decimal hs.2 hfuel, Option.map_some, BitVec.mul_neg]
    exact congrArg some ((congrArg Neg.neg (BitVec.mul_one _)).trans BitVec.neg_neg)
  · rw [if_neg hneg] at habs
    rw [signed_of_not_neg hneg, habs] at hs
    exact atoi_decimal hs hfuel

/-- Every number is printed and read back exactly when its bit 15 is its sign and, where no width
was given, the stack happens to hold one of the two pad characters for a negative one. -/
theorem sprintf_int_iff (m : Mem) (fmt : CStr) (arg : Nat → U32) (dispDigit padChar : U8)
    (w : List U8) (hw : IsWidth w) (hfmt : Spells fmt 0 (0x25 :: w ++ [0x64, 0])) :
    PrintsInt m fmt arg dispDigit padChar w (arg 0) ↔
      ((arg 0).toInt < 0 ↔ arg 0 &&& 0x8000 ≠ 0) ∧
        (w = [] → (arg 0).toInt < 0 → padChar = 0x20 ∨ padChar = 0x30) := by
  rw [← intOutput_eq_iff]
  constructor
  · rintro ⟨enough, hprints⟩
    obtain ⟨hrun, _⟩ := hprints (enough + (w.length + 2)) (Nat.le_add_right _ _)
    rw [sprintf_int hw hfmt (Nat.le_add_left _ _)] at hrun
    exact List.append_cancel_right (Prod.mk.inj (Option.some.inj hrun)).2
  · intro heq
    refine ⟨w.length + 11, ?_⟩
    intro fuel hfuel
    refine ⟨?_, ?_⟩
    · rw [sprintf_int hw hfmt (by omega), heq]
    · intro hempty s hs
      rw [paddedInt, if_pos hempty] at hs
      exact atoi_signed hs (by omega)

def fiveWide : CStr := fun i => [0x25, 0x35, 0x64].getD i 0

theorem isWidth_five : IsWidth [0x35] := ⟨by decide, by decide⟩

theorem spells_fiveWide : Spells fiveWide 0 (0x25 :: [0x35] ++ [0x64, 0]) :=
  ⟨rfl, rfl, rfl, rfl, trivial⟩

theorem sprintf_int_minus_three :
    PrintsInt (fun _ => 0) fiveWide (fun _ => -3) 0 0 [0x35] (-3) :=
  (sprintf_int_iff (fun _ => 0) fiveWide (fun _ => -3) 0 0 [0x35] isWidth_five
    spells_fiveWide).mpr ⟨by decide, by decide⟩

/-- `%5d` prints 32768 as `-4294934528`. -/
theorem sprintf_int_bit_fifteen :
    (∀ fuel ≥ 3, sprintf (fun _ => 0) fiveWide (fun _ => 0x8000) 0 0 fuel = some
      (11, [0x2d, 0x34, 0x32, 0x39, 0x34, 0x39, 0x33, 0x34, 0x35, 0x32, 0x38, 0])) ∧
      IsWidth [0x35] ∧ Spells fiveWide 0 (0x25 :: [0x35] ++ [0x64, 0]) ∧
      ¬ PrintsInt (fun _ => 0) fiveWide (fun _ => 0x8000) 0 0 [0x35] 0x8000 := by
  have hdecimal : decimal (-(0x8000 : U32)).toNat =
      [0x34, 0x32, 0x39, 0x34, 0x39, 0x33, 0x34, 0x35, 0x32, 0x38] := by
    have hasc := (congrArg Prod.snd (toDecAsc_eq (-(0x8000 : U32)))).symm
    exact hasc.trans (by decide +kernel)
  have hrun : ∀ fuel ≥ 3, sprintf (fun _ => 0) fiveWide (fun _ => 0x8000) 0 0 fuel = some
      (11, [0x2d, 0x34, 0x32, 0x39, 0x34, 0x39, 0x33, 0x34, 0x35, 0x32, 0x38, 0]) := by
    intro fuel hfuel
    have hout : intOutput 0 [0x35] 0x8000 = 0x2d :: decimal (-(0x8000 : U32)).toNat := by
      rw [intOutput_of_neg (by decide) (by decide), hdecimal]
      decide
    rw [sprintf_int isWidth_five spells_fiveWide hfuel, hout, hdecimal]
    rfl
  refine ⟨hrun, isWidth_five, spells_fiveWide, ?_⟩
  rintro ⟨enough, hprints⟩
  have hright := (hprints (enough + 3) (Nat.le_add_right _ _)).1
  rw [hrun (enough + 3) (Nat.le_add_left _ _)] at hright
  have htext := (Prod.mk.inj (Option.some.inj hright)).2
  have hmem : (0x2d : U8) ∈ paddedInt [0x35] (0x8000 : U32).toInt ++ [0] :=
    htext ▸ List.mem_cons_self
  rcases List.mem_append.mp hmem with hminus | hnul
  · exact absurd ((minus_mem_paddedInt _ _).mp hminus) (by decide)
  · exact absurd hnul (by decide)

end Uroboros.Sprintf
