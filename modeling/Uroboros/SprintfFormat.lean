import Uroboros.Sprintf

/-!
# `sprintf` as a formatter

A format is written as a list of pieces: ordinary characters, `%%` and conversions
with their arguments. The loop makes one pass for each of them, and each pass
adds the text of its piece.
-/

set_option autoImplicit false

namespace Uroboros.Sprintf

open ByteMemory Stdlibc Numeral

/-- A piece of a format; `w` is what stands for the width, and `t` what the pointer `a` points
to. -/
inductive Piece where
  | ordinary (c : U8)
  | percent
  | unsigned (w : List U8) (a : U32)
  | hex (w : List U8) (a : U32)
  | string (w : List U8) (a : U32) (t : List U8)

/-- The decimal digits of a number up to 127, or none. -/
structure IsWidth (w : List U8) : Prop where
  digits : ∀ d ∈ w, isdigit d = true
  le : widthVal w ≤ 127

def padded (w t : List U8) : List U8 :=
  if w = [] then t else List.replicate (widthVal w - t.length) (padOf w) ++ t

def lowerHex (n : Nat) : List U8 :=
  (numeral 16 n).map fun d => BitVec.ofNat 8 (if d < 10 then 48 + d else 87 + d)

namespace Piece

def bytes : Piece → List U8
  | ordinary c => [c]
  | percent => [0x25, 0x25]
  | unsigned w _ => 0x25 :: w ++ [0x75]
  | hex w _ => 0x25 :: w ++ [0x78]
  | string w _ _ => 0x25 :: w ++ [0x73]

def arguments : Piece → List U32
  | ordinary _ => []
  | percent => []
  | unsigned _ a => [a]
  | hex _ a => [a]
  | string _ a _ => [a]

def text : Piece → List U8
  | ordinary c => [c]
  | percent => [0x25]
  | unsigned w a => padded w (decimal a.toNat)
  | hex w a => padded w (lowerHex a.toNat)
  | string w _ t => padded w t

def Ok (m : Mem) : Piece → Prop
  | ordinary c => c ≠ 0 ∧ c ≠ 0x25
  | percent => True
  | unsigned w _ => IsWidth w
  | hex w _ => IsWidth w
  | string w a t => IsWidth w ∧ t.length < 256 ∧ (∀ c ∈ t, c ≠ 0) ∧
      Spells (charsAt m a) 0 (t ++ [0])

end Piece

variable {m : Mem} {fmt : CStr} {arg : Nat → U32} {st : State} {w t : List U8} {c : U8}
  {fuel k n : Nat} {a : U32} {piece : Piece} {pieces : List Piece}

theorem hexadecimal_false (n : Nat) : hexadecimal false n = lowerHex n := by
  rw [hexadecimal, lowerHex, List.map_inj_left]
  intro d hd
  have hchars : ∀ d < 16, hexChar false d = BitVec.ofNat 8 (if d < 10 then 48 + d else 87 + d) := by
    decide
  exact hchars d (lt_of_mem_numeral (by decide) hd)

theorem toInt_width (hw : IsWidth w) : (BitVec.ofNat 8 (widthVal w)).toInt = widthVal w := by
  have hle := hw.le
  rw [BitVec.toInt_eq_toNat_cond, BitVec.toNat_ofNat]
  split_ifs <;> omega

theorem emit_out_nil {conv : Converted} (h : HasText conv t) (hempty : w = []) :
    (emit (decide (w ≠ [])) conv).out = conv.st.out ++ t := by
  have hflag : decide (w ≠ []) = false := decide_eq_false fun hne => hne hempty
  rw [emit_eq h, hflag, if_neg Bool.false_ne_true, List.append_nil]

theorem emit_out_width {conv : Converted} (h : HasText conv t) (hne : w ≠ []) :
    (emit (decide (w ≠ [])) conv).out = conv.st.out ++
      List.replicate (conv.st.dispDigit.toInt - t.length).toNat conv.st.padChar ++ t := by
  rw [emit_eq h, if_pos (decide_eq_true hne)]

theorem emit_out {conv : Converted} (h : HasText conv t)
    (hpad : w ≠ [] → conv.st.padChar = padOf w)
    (hdigit : w ≠ [] → conv.st.dispDigit.toInt = widthVal w) :
    (emit (decide (w ≠ [])) conv).out = conv.st.out ++ padded w t := by
  rw [padded]
  by_cases hempty : w = []
  · rw [if_pos hempty, emit_out_nil h hempty]
  · rw [if_neg hempty, emit_out_width h hempty, hpad hempty, hdigit hempty, Int.toNat_sub,
      List.append_assoc]

def padFor (padChar : U8) (w : List U8) : U8 := if w = [] then padChar else padOf w

theorem widthRead_padChar (st : State) (w : List U8) :
    (widthRead st w).padChar = padFor st.padChar w := by
  unfold widthRead padFor
  split_ifs <;> rfl

theorem widthRead_dispDigit (hw : IsWidth w) (hne : w ≠ []) :
    (widthRead st w).dispDigit.toInt = widthVal w := by
  rw [widthRead, if_neg hne]
  exact toInt_width hw

theorem emit_padded {conv : Converted} (hw : IsWidth w) (h : HasText conv t)
    (hst : conv.st = { widthRead st w with args := st.args + 1 }) :
    (emit (decide (w ≠ [])) conv).out = st.out ++ padded w t ∧
      (emit (decide (w ≠ [])) conv).format = st.format + (w.length + 2) ∧
      (emit (decide (w ≠ [])) conv).args = st.args + 1 := by
  refine ⟨?_, ?_, ?_⟩
  · rw [emit_out h, hst]
    · dsimp only
      rw [widthRead_out]
    · intro hne
      rw [hst]
      exact (widthRead_padChar st w).trans (if_neg hne)
    · rw [hst]
      exact widthRead_dispDigit hw
  · rw [emit_format, hst]
    dsimp only
    rw [widthRead_format]
    omega
  · rw [emit_eq h, hst]

theorem pass_text (hs : Spells fmt st.format (0x25 :: w ++ [c])) (hw : IsWidth w)
    (hc : ¬ isdigit c = true ∧ c ≠ 0 ∧ c ≠ 0x25) (hfuel : (0x25 :: w ++ [c]).length ≤ fuel)
    (h : HasText (convert m fmt arg (widthRead st w)) t)
    (hst : (convert m fmt arg (widthRead st w)).st =
      { widthRead st w with args := st.args + 1 }) :
    ∃ st', pass m fmt arg fuel st = some st' ∧ st'.out = st.out ++ padded w t ∧
      st'.format = st.format + (0x25 :: w ++ [c]).length ∧ st'.args = st.args + 1 := by
  have hlen : (0x25 :: w ++ [c]).length = w.length + 2 := by
    rw [List.length_append, List.length_cons, List.length_singleton]
  rw [hlen] at hfuel ⊢
  exact ⟨_, pass_conversion hs hw.digits hc.1 (by omega) fun _ => hc.2, emit_padded hw h hst⟩

theorem arg_widthRead (w : List U8) (harg : Spells arg st.args [a]) :
    arg (widthRead st w).args = a := by
  rw [widthRead_args]
  exact harg.1

theorem pass_piece (hok : piece.Ok m) (hfmt : Spells fmt st.format piece.bytes)
    (harg : Spells arg st.args piece.arguments) (hfuel : piece.bytes.length ≤ fuel) :
    ∃ st', pass m fmt arg fuel st = some st' ∧ st'.out = st.out ++ piece.text ∧
      st'.format = st.format + piece.bytes.length ∧
      st'.args = st.args + piece.arguments.length := by
  cases piece with
  | ordinary c =>
    exact ⟨_, pass_ordinary hfmt.1 hok.2, rfl, rfl, rfl⟩
  | percent =>
    exact ⟨_, pass_percent hfmt, rfl, rfl, rfl⟩
  | unsigned w a =>
    have hconvert := convert_int m arg (widthRead_char hfmt) (.inr rfl)
    rw [arg_widthRead w harg, widthRead_args] at hconvert
    obtain ⟨htext, hst⟩ := convertInt_unsigned { widthRead st w with args := st.args + 1 }
      (c := 0x75) (n := a) fun h => absurd h.2 (by decide)
    rw [← hconvert] at htext hst
    exact pass_text hfmt hok (by decide) hfuel htext hst
  | hex w a =>
    have hconvert := convert_hex m arg (widthRead_char hfmt)
    rw [arg_widthRead w harg, widthRead_args] at hconvert
    have htext := convertHex_text { widthRead st w with args := st.args + 1 } false a
    rw [← hconvert, hexadecimal_false] at htext
    exact pass_text hfmt hok (by decide) hfuel htext (by rw [hconvert]; rfl)
  | string w a t =>
    obtain ⟨hw, hlen, hnonzero, hspells⟩ := hok
    have hconvert := convert_str m arg (widthRead_char hfmt)
    rw [arg_widthRead w harg, widthRead_args] at hconvert
    have htext := convertStr_text { widthRead st w with args := st.args + 1 } hspells hnonzero
      hlen
    rw [← hconvert] at htext
    exact pass_text hfmt hw (by decide) hfuel htext (by rw [hconvert]; rfl)

theorem bytes_ne_nil (piece : Piece) : piece.bytes ≠ [] := by
  cases piece <;> exact List.cons_ne_nil _ _

theorem char_ne_zero (hok : piece.Ok m) (hfmt : Spells fmt st.format piece.bytes) :
    fmt st.format ≠ 0 := by
  cases piece with
  | ordinary c =>
    rw [hfmt.1]
    exact hok.1
  | percent => exact hfmt.1 ▸ by decide
  | unsigned w a => exact hfmt.1 ▸ by decide
  | hex w a => exact hfmt.1 ▸ by decide
  | string w a t => exact hfmt.1 ▸ by decide

/-- The loop makes one pass for each piece, and ends at the NUL. -/
theorem sprintfLoop_pieces (hok : ∀ piece ∈ pieces, piece.Ok m)
    (hfmt : Spells fmt st.format (pieces.flatMap Piece.bytes ++ [0]))
    (harg : Spells arg st.args (pieces.flatMap Piece.arguments))
    (hfuel : (pieces.flatMap Piece.bytes).length ≤ fuel)
    (hk : (pieces.flatMap Piece.bytes).length < k) :
    ∃ st', sprintfLoop m fmt arg fuel k st = some st' ∧
      st'.out = st.out ++ pieces.flatMap Piece.text ∧ fmt st'.format = 0 := by
  obtain ⟨k, rfl⟩ := Nat.exists_eq_succ_of_ne_zero (Nat.ne_of_gt (Nat.zero_lt_of_lt hk))
  induction pieces generalizing st k with
  | nil =>
    have hend : fmt st.format = 0 := hfmt.1
    refine ⟨st, ?_, (List.append_nil _).symm, hend⟩
    rw [sprintfLoop, if_pos hend]
  | cons piece pieces ih =>
    rw [List.flatMap_cons] at hfmt harg hfuel hk ⊢
    rw [List.append_assoc, spells_append] at hfmt
    rw [spells_append] at harg
    rw [List.length_append] at hfuel hk
    have hpiece := hok piece List.mem_cons_self
    have hlong := List.length_pos_of_ne_nil (bytes_ne_nil piece)
    obtain ⟨st₁, hpass, hout, hformat, hargs⟩ :=
      pass_piece hpiece hfmt.1 harg.1 (Nat.le_trans (Nat.le_add_right _ _) hfuel)
    obtain ⟨k, rfl⟩ := Nat.exists_eq_succ_of_ne_zero (show k ≠ 0 by omega)
    have hfmt' : Spells fmt st₁.format _ := hformat ▸ hfmt.2
    have harg' : Spells arg st₁.args _ := hargs ▸ harg.2
    obtain ⟨st₂, hloop, hout', hend⟩ := ih
      (fun q hq => hok q (List.mem_cons_of_mem _ hq)) hfmt' harg' (by omega) k (by omega)
    refine ⟨st₂, ?_, ?_, hend⟩
    · rw [sprintfLoop, if_neg (char_ne_zero hpiece hfmt.1), hpass, Option.bind_some, hloop]
    · rw [hout', hout, List.append_assoc]

/-- `sprintf` writes the texts of the pieces and a NUL, and returns their length. -/
theorem sprintf_pieces (m : Mem) (pieces : List Piece) (fmt : CStr) (arg : Nat → U32)
    (dispDigit padChar : U8) (hok : ∀ piece ∈ pieces, piece.Ok m)
    (hfmt : Spells fmt 0 (pieces.flatMap Piece.bytes ++ [0]))
    (harg : Spells arg 0 (pieces.flatMap Piece.arguments)) :
    ∃ enough, ∀ fuel ≥ enough, sprintf m fmt arg dispDigit padChar fuel =
      some (BitVec.ofNat 32 (pieces.flatMap Piece.text).length,
        pieces.flatMap Piece.text ++ [0]) := by
  refine ⟨(pieces.flatMap Piece.bytes).length + 1, ?_⟩
  intro fuel hfuel
  have hrun : ∃ st, sprintfLoop m fmt arg fuel fuel (start dispDigit padChar) = some st ∧
      st.out = [] ++ pieces.flatMap Piece.text ∧ fmt st.format = 0 :=
    sprintfLoop_pieces hok hfmt harg (by omega) (by omega)
  obtain ⟨st, hloop, hout, hend⟩ := hrun
  have hall : st.out = pieces.flatMap Piece.text := hout.trans (List.nil_append _)
  rw [sprintf, hloop, Option.map_some, hall, hend]

/-- The pieces of `n%03u%%%x%4s`. -/
def samplePieces : List Piece :=
  [.ordinary 0x6e, .unsigned [0x30, 0x33] 7, .percent, .hex [] 255,
    .string [0x34] 0x100 [0x68, 0x69]]

def sampleMem : Mem := fun x => if x = 0x100 then 0x68 else if x = 0x101 then 0x69 else 0

theorem sprintf_sample : ∃ enough, ∀ fuel ≥ enough,
    sprintf sampleMem (fun i => (samplePieces.flatMap Piece.bytes).getD i 0)
      (fun i => [7, 255, 0x100].getD i 0) 0 0 fuel =
        some (11, [0x6e, 0x30, 0x30, 0x37, 0x25, 0x66, 0x66, 0x20, 0x20, 0x68, 0x69, 0]) := by
  have hok : ∀ piece ∈ samplePieces, piece.Ok sampleMem := by
    intro piece hpiece
    simp only [samplePieces, List.mem_cons, List.not_mem_nil, or_false] at hpiece
    rcases hpiece with rfl | rfl | rfl | rfl | rfl
    · exact ⟨by decide, by decide⟩
    · exact ⟨by decide, by decide⟩
    · exact trivial
    · exact ⟨by decide, by decide⟩
    · exact ⟨⟨by decide, by decide⟩, by decide, by simp, by decide, by decide, by decide, trivial⟩
  have htext : samplePieces.flatMap Piece.text =
      [0x6e, 0x30, 0x30, 0x37, 0x25, 0x66, 0x66, 0x20, 0x20, 0x68, 0x69] := by
    have h7 : decimal 7 = [0x37] := by rw [decimal, numeral_of_lt (by decide)]; rfl
    have h255 : lowerHex 255 = [0x66, 0x66] := by
      rw [lowerHex, numeral_of_le (by decide) (by decide), numeral_of_lt (by decide)]
      rfl
    have hword : (7 : U32).toNat = 7 ∧ (255 : U32).toNat = 255 := ⟨rfl, rfl⟩
    simp only [samplePieces, List.flatMap_cons, List.flatMap_nil, Piece.text, hword.1, hword.2,
      h7, h255]
    decide
  have h := sprintf_pieces sampleMem samplePieces
    (fun i => (samplePieces.flatMap Piece.bytes).getD i 0) (fun i => [7, 255, 0x100].getD i 0) 0 0
    hok ⟨rfl, rfl, rfl, rfl, rfl, rfl, rfl, rfl, rfl, rfl, rfl, rfl, rfl, trivial⟩
    ⟨rfl, rfl, rfl, trivial⟩
  rwa [htext] at h

end Uroboros.Sprintf
