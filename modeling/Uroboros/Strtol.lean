import Uroboros.SprintfInt

/-!
# `strtol`, and what it reads back

The stages of `strtol` one after the other, each from the character on where the
last one has stopped. `to_dec_asc` and `to_hex_asc` are read back by `atoi` and
`strtol`; of the numerals written by hand `strtol` reads only a part.
-/

set_option autoImplicit false

namespace Uroboros.Stdlibc

open ByteMemory Numeral

/-- `while(*s == ' ') s++;`. -/
def skipSpaces (s : CStr) : Nat → Nat → Option Nat
  | 0, _ => none
  | fuel + 1, p => if s p = 0x20 then skipSpaces s fuel (p + 1) else some p

/-- The values assigned to `_base` for `base == 0`, one after the other. The second test is no
`else` of the first. -/
def assignedBases (s : CStr) : List U32 :=
  (if strncmp s (fun i => [0x30, 0x78].getD i 0) 2 = 0
      ∨ strncmp s (fun i => [0x30, 0x58].getD i 0) 2 = 0 then [16] else [])
    ++ [if strncmp s (fun i => [0x30].getD i 0) 1 = 0 then 8 else 10]

def detectBase (s : CStr) : U32 := (assignedBases s).getLastD 0

/-- What a character adds in base 10, if it is a digit. -/
def decDigit (c : U8) : Option U32 := if isdigit c then some (charToInt c - 0x30) else none

def hexDigit (c : U8) : Option U32 :=
  if isdigit c then some (charToInt c - 0x30)
  else if BitVec.sle 0x61 c ∧ BitVec.sle c 0x66 then some (charToInt c - 0x61 + 10)
  else if BitVec.sle 0x41 c ∧ BitVec.sle c 0x46 then some (charToInt c - 0x41 + 10)
  else none

/-- The loops over the digits; `ret`, and where they stop. -/
def digitsLoop (base : U32) (digit : U8 → Option U32) (s : CStr) :
    Nat → Nat → U32 → Option (U32 × Nat)
  | 0, _, _ => none
  | fuel + 1, p, ret =>
    (digit (s p)).elim (some (ret, p)) fun d =>
      digitsLoop base digit s fuel (p + 1) (ret * base + d)

def strtol (fuel : Nat) (s : CStr) (base : U32) : Option (U32 × Nat) :=
  (skipSpaces s fuel 0).bind fun p =>
  let base := if base = 0 then detectBase fun i => s (p + i) else base
  (if base = 16 then digitsLoop 16 hexDigit s fuel p 0 else some (0, p)).bind fun r =>
  (if base = 10 then digitsLoop 10 decDigit s fuel r.2 r.1 else some r).map fun r =>
  (if s p = 0x2d then r.1 * (-1) else r.1, r.2)

section
variable {s : CStr} {p k b fuel : Nat} {digit : U8 → Option U32} {value : U8 → Nat}
  {l ds : List U8} {c : U8} {base : U32} {n v : U32}

theorem skipSpaces_eq (hs : Spells s p (List.replicate k 0x20 ++ [c])) (hc : c ≠ 0x20)
    (hfuel : k < fuel) : skipSpaces s fuel p = some (p + k) := by
  induction k generalizing p fuel with
  | zero =>
    obtain ⟨fuel, rfl⟩ := Nat.exists_eq_succ_of_ne_zero (Nat.ne_of_gt hfuel)
    rw [skipSpaces, hs.1, if_neg hc]
    rfl
  | succ k ih =>
    obtain ⟨fuel, rfl⟩ := Nat.exists_eq_succ_of_ne_zero (Nat.ne_of_gt (Nat.zero_lt_of_lt hfuel))
    rw [skipSpaces, hs.1, if_pos rfl, ih hs.2 (Nat.lt_of_succ_lt_succ hfuel), Nat.add_assoc,
      Nat.add_comm 1]

theorem digitsLoop_eq (hs : Spells s p (ds ++ [c]))
    (hds : ∀ d ∈ ds, digit d = some (BitVec.ofNat 32 (value d))) (hc : digit c = none)
    (hfuel : ds.length < fuel) (r : Nat) :
    digitsLoop (BitVec.ofNat 32 b) digit s fuel p (BitVec.ofNat 32 r) =
      some (BitVec.ofNat 32 (horner b r (ds.map value)), p + ds.length) := by
  induction ds generalizing p fuel r with
  | nil =>
    obtain ⟨fuel, rfl⟩ := Nat.exists_eq_succ_of_ne_zero (Nat.ne_of_gt hfuel)
    rw [digitsLoop, hs.1, hc]
    rfl
  | cons d ds ih =>
    obtain ⟨fuel, rfl⟩ := Nat.exists_eq_succ_of_ne_zero (Nat.ne_of_gt (Nat.zero_lt_of_lt hfuel))
    rw [digitsLoop, hs.1, hds d List.mem_cons_self, Option.elim_some, ← BitVec.ofNat_mul,
      ← BitVec.ofNat_add, ih hs.2 (fun d hd => hds d (List.mem_cons_of_mem _ hd))
        (Nat.lt_of_succ_lt_succ hfuel), List.length_cons, Nat.add_assoc, Nat.add_comm 1]
    rfl

theorem digitsLoop_stop (hc : digit (s p) = none) (hfuel : 0 < fuel) (r : U32) :
    digitsLoop base digit s fuel p r = some (r, p) := by
  obtain ⟨fuel, rfl⟩ := Nat.exists_eq_succ_of_ne_zero (Nat.ne_of_gt hfuel)
  rw [digitsLoop, hc]
  rfl

theorem decDigit_of_isdigit (h : isdigit c = true) :
    decDigit c = some (BitVec.ofNat 32 (digitVal c)) := by
  rw [decDigit, if_pos h, charToInt_of_isdigit h]

section
variable {r : U32 × Nat} (hskip : skipSpaces s fuel 0 = some p)
include hskip

theorem strtol_base16 (hread : digitsLoop 16 hexDigit s fuel p 0 = some r) :
    strtol fuel s 16 = some (if s p = 0x2d then r.1 * (-1) else r.1, r.2) := by
  have hzero : ¬ (16 : U32) = 0 := by decide
  have hten : ¬ (16 : U32) = 10 := by decide
  rw [strtol, hskip, Option.bind_some]
  dsimp only
  rw [if_neg hzero, if_pos rfl, hread, Option.bind_some, if_neg hten, Option.map_some]

theorem strtol_base10
    (hbase : base = 10 ∨ base = 0 ∧ (detectBase fun i => s (p + i)) = 10)
    (hread : digitsLoop 10 decDigit s fuel p 0 = some r) :
    strtol fuel s base = some (if s p = 0x2d then r.1 * (-1) else r.1, r.2) := by
  have hused : (if base = 0 then detectBase fun i => s (p + i) else base) = 10 := by
    rcases hbase with rfl | ⟨rfl, hdetect⟩
    · exact if_neg (by decide)
    · rw [if_pos rfl, hdetect]
  have hsixteen : ¬ (10 : U32) = 16 := by decide
  rw [strtol, hskip, Option.bind_some]
  dsimp only
  rw [hused, if_neg hsixteen, Option.bind_some, if_pos rfl, hread, Option.map_some]

theorem strtol_base8 (hdetect : (detectBase fun i => s (p + i)) = 8) :
    strtol fuel s 0 = some (if s p = 0x2d then 0 * (-1) else 0, p) := by
  have hsixteen : ¬ (8 : U32) = 16 := by decide
  have hten : ¬ (8 : U32) = 10 := by decide
  rw [strtol, hskip, Option.bind_some]
  dsimp only
  rw [if_pos rfl, hdetect, if_neg hsixteen, Option.bind_some, if_neg hten, Option.map_some]

end

/-- Only the first character decides. -/
theorem detectBase_eq (s : CStr) : detectBase s = if s 0 = 0x30 then 8 else 10 := by
  have hfirst : strncmp s (fun i => [0x30].getD i 0) 1 = 0 ↔ s 0 = 0x30 := by
    rw [strncmp_eq_zero_iff (k := 0) rfl (by decide)]
    constructor
    · exact fun h => h 0 Nat.one_pos
    · intro h j hj
      obtain rfl : j = 0 := by omega
      exact h
  rw [detectBase, assignedBases, List.getLastD_concat]
  exact if_congr hfirst rfl rfl

/-- The digits that `to_dec_asc` writes, what they stand for, and the way back. -/
theorem toDecAsc_round_trip (n : U32) :
    (toDecAsc n).1 = ndigit n 10 ∧ (toDecAsc n).2.length = (ndigit n 10).toNat ∧
      (∀ c ∈ (toDecAsc n).2, isdigit c = true) ∧
      ((toDecAsc n).2.head? = some 0x30 → n = 0) ∧
      horner 10 0 ((toDecAsc n).2.map digitVal) = n.toNat ∧
      (∀ i < (ndigit n 10).toNat, 10 ^ i < 2 ^ 32 ∧ (upow 10 i).toNat = 10 ^ i) ∧
      (n.toNat < 2 ^ 31 → ∃ enough, ∀ fuel ≥ enough, ∀ s : CStr,
        Spells s 0 ((toDecAsc n).2 ++ [0]) → ∃ r, atoi fuel s = some r ∧ r.toInt = n.toNat) := by
  have hcount : (ndigit n 10).toNat = (decimal n.toNat).length := by
    rw [decimal, List.length_map]
    exact toNat_ndigit (by decide)
  have hlen := length_decimal_le n
  refine ⟨rfl, ?_, ?_, ?_, ?_, ?_, ?_⟩
  · rw [toDecAsc_eq, hcount]
  · rw [toDecAsc_eq]
    exact fun c hc => isdigit_of_mem_decimal hc
  · rw [toDecAsc_eq]
    intro hhead
    exact BitVec.eq_of_toNat_eq (eq_zero_of_head?_decimal hhead)
  · rw [toDecAsc_eq, horner_decimal]
  · intro i hi
    have hpow : 10 ^ i < 2 ^ 32 :=
      Nat.lt_of_le_of_lt (Nat.pow_le_pow_right (by decide) (show i ≤ 9 by omega)) (by decide)
    exact ⟨hpow, toNat_upow hpow⟩
  · intro hsmall
    refine ⟨11, ?_⟩
    intro fuel hfuel s hs
    rw [toDecAsc_eq] at hs
    have hint : n.toInt = n.toNat := by
      rw [BitVec.toInt_eq_toNat_cond, if_pos (by omega)]
    exact ⟨n, atoi_decimal hs hfuel, hint⟩

def hexVal (c : U8) : Nat :=
  if c.toNat < 58 then c.toNat - 48 else if c.toNat < 71 then c.toNat - 55 else c.toNat - 87

def upperHex (n : Nat) : List U8 :=
  (numeral 16 n).map fun d => BitVec.ofNat 8 (if d < 10 then 48 + d else 55 + d)

/-- What `to_hex_asc` should write, and `strtol` read back. -/
def HexRoundTrip (n : U32) (capital : Bool) : Prop :=
  (toHexAsc n capital).1 = ndigit n 16 ∧ (toHexAsc n capital).2.length = (ndigit n 16).toNat ∧
    (toHexAsc n capital).2 = (if capital then upperHex n.toNat else Sprintf.lowerHex n.toNat) ∧
    ∃ enough, ∀ fuel ≥ enough, ∀ s : CStr, Spells s 0 ((toHexAsc n capital).2 ++ [0]) →
      strtol fuel s 16 = some (n, (toHexAsc n capital).2.length)

theorem hexDigit_hexChar {d : Nat} (h : d < 16) :
    hexDigit (hexChar false d) = some (BitVec.ofNat 32 (hexVal (hexChar false d))) := by
  have hall : ∀ d < 16, hexDigit (hexChar false d) =
      some (BitVec.ofNat 32 (hexVal (hexChar false d))) := by decide
  exact hall d h

theorem hexVal_hexChar {d : Nat} (h : d < 16) : hexVal (hexChar false d) = d := by
  have hall : ∀ d < 16, hexVal (hexChar false d) = d := by decide
  exact hall d h

theorem hexChar_true_ne {d : Nat} (h : d < 16) :
    hexChar true d ≠ BitVec.ofNat 8 (if d < 10 then 48 + d else 55 + d) := by
  have hall : ∀ d < 16, hexChar true d ≠ BitVec.ofNat 8 (if d < 10 then 48 + d else 55 + d) := by
    decide
  exact hall d h

theorem strtol_hexadecimal (hs : Spells s 0 (hexadecimal false n.toNat ++ [0]))
    (hfuel : 9 ≤ fuel) :
    strtol fuel s 16 = some (n, (hexadecimal false n.toNat).length) := by
  have hlen := length_hexadecimal_le n false
  have hdigits : ∀ c ∈ hexadecimal false n.toNat,
      hexDigit c = some (BitVec.ofNat 32 (hexVal c)) ∧ c ≠ 0x20 ∧ c ≠ 0x2d := by
    intro c hc
    obtain ⟨d, hd, rfl⟩ := List.mem_map.mp hc
    have hlt := lt_of_mem_numeral (by decide) hd
    have hplain : ∀ d < 16, hexChar false d ≠ 0x20 ∧ hexChar false d ≠ 0x2d := by decide
    exact ⟨hexDigit_hexChar hlt, hplain d hlt⟩
  have hfirst : s 0 ≠ 0x20 ∧ s 0 ≠ 0x2d := by
    have hne : hexadecimal false n.toNat ≠ [] := by
      rw [hexadecimal, ne_eq, List.map_eq_nil_iff]
      exact numeral_ne_nil 16 n.toNat
    obtain ⟨c, l, hcons⟩ := List.exists_cons_of_ne_nil hne
    rw [hcons] at hs hdigits
    rw [hs.1]
    exact (hdigits c List.mem_cons_self).2
  have hskip : skipSpaces s fuel 0 = some 0 := by
    obtain ⟨fuel, rfl⟩ := Nat.exists_eq_succ_of_ne_zero (show fuel ≠ 0 by omega)
    rw [skipSpaces, if_neg hfirst.1]
  have hread : digitsLoop 16 hexDigit s fuel 0 0 = _ :=
    digitsLoop_eq hs (fun c hc => (hdigits c hc).1) (by decide) (by omega) 0
  have hvalue : horner 16 0 ((hexadecimal false n.toNat).map hexVal) = n.toNat :=
    horner_map_numeral (by decide) (fun _ => hexVal_hexChar) n.toNat
  rw [hvalue, Nat.zero_add, BitVec.ofNat_toNat, BitVec.setWidth_eq] at hread
  rw [strtol_base16 hskip hread, if_neg hfirst.2]

/-- Capital numerals never come out right, the others always. -/
theorem hex_round_trip_iff (n : U32) (capital : Bool) :
    HexRoundTrip n capital ↔ capital = false := by
  constructor
  · rintro ⟨_, _, hwrites, _⟩
    cases capital with
    | false => rfl
    | true =>
      rw [if_pos rfl, toHexAsc_eq] at hwrites
      obtain ⟨d, l, hcons⟩ := List.exists_cons_of_ne_nil (numeral_ne_nil 16 n.toNat)
      have hlt : d < 16 := lt_of_mem_numeral (n := n.toNat) (by decide) (hcons ▸ List.mem_cons_self)
      rw [hexadecimal, upperHex, hcons, List.map_cons, List.map_cons] at hwrites
      exact absurd (List.cons.inj hwrites).1 (hexChar_true_ne hlt)
  · rintro rfl
    have hcount : (ndigit n 16).toNat = (hexadecimal false n.toNat).length := by
      rw [hexadecimal, List.length_map]
      exact toNat_ndigit (by decide)
    refine ⟨rfl, ?_, ?_, 9, ?_⟩
    · rw [toHexAsc_eq, hcount]
    · rw [toHexAsc_eq, if_neg Bool.false_ne_true, Sprintf.hexadecimal_false]
    · intro fuel hfuel s hs
      rw [toHexAsc_eq] at hs ⊢
      exact strtol_hexadecimal hs hfuel

/-- For 0x1A a control character and a small letter are written. -/
theorem hex_round_trip_capital :
    toHexAsc 0x1a true = (2, [0x11, 0x61]) ∧ ¬ HexRoundTrip 0x1a true := by
  have hwritten : toHexAsc 0x1a true = (2, [0x11, 0x61]) := by decide +kernel
  refine ⟨hwritten, ?_⟩
  rintro ⟨_, _, hwrites, _⟩
  rw [hwritten, if_pos rfl, upperHex, numeral_of_le (by decide) (by decide),
    numeral_of_lt (by decide)] at hwrites
  exact absurd hwrites (by decide)

end

inductive NumberText where
  | decimal (base : U32) (zeros : Nat) (v : U32)
  | hexadecimal (x : U8) (ds : List U8)

namespace NumberText

def chars : NumberText → List U8
  | decimal _ zeros v =>
    (if v.toInt < 0 then [0x2d] else [])
      ++ (List.replicate zeros 0x30 ++ Stdlibc.decimal v.toInt.natAbs)
  | hexadecimal x ds => 0x30 :: x :: ds

def base : NumberText → U32
  | decimal base _ _ => base
  | hexadecimal _ _ => 0

def value : NumberText → U32
  | decimal _ _ v => v
  | hexadecimal _ ds => BitVec.ofNat 32 (horner 16 0 (ds.map hexVal))

def digit : NumberText → U8 → Option U32
  | decimal _ _ _ => decDigit
  | hexadecimal _ _ => hexDigit

/-- Zeros in front of the digits would select another base when none is given. -/
def Ok : NumberText → Prop
  | decimal base zeros _ => base = 10 ∨ base = 0 ∧ zeros = 0
  | hexadecimal x ds => (x = 0x78 ∨ x = 0x58) ∧ ds ≠ [] ∧
    (∀ d ∈ ds, (hexDigit d).isSome) ∧ horner 16 0 (ds.map hexVal) < 2 ^ 31

/-- The numbers that `strtol` does read: no sign is skipped, and a first '0' selects base 8, in
which nothing is read. -/
def IsRead : NumberText → Prop
  | decimal base _ v => 0 ≤ v.toInt ∧ (base = 0 → v ≠ 0)
  | hexadecimal _ _ => False

end NumberText

/-- `strtol` returns the value, and `*endp` points just past the last digit. -/
def Accepted (s : CStr) (k : Nat) (text : NumberText) : Prop :=
  ∃ enough, ∀ fuel ≥ enough,
    strtol fuel s text.base = some (text.value, k + text.chars.length)

variable {s : CStr} {k fuel : Nat} {text : NumberText} {l ds : List U8} {c : U8} {base : U32}

theorem strtol_minus (hskip : skipSpaces s fuel 0 = some k) (hminus : s k = 0x2d)
    (hbase : base = 10 ∨ base = 0) (hfuel : 0 < fuel) :
    strtol fuel s base = some (0 * (-1), k) := by
  have hdetect : (detectBase fun i => s (k + i)) = 10 := by
    rw [detectBase_eq, Nat.add_zero, hminus]
    rfl
  have hread : digitsLoop 10 decDigit s fuel k 0 = some (0, k) := by
    refine digitsLoop_stop ?_ hfuel 0
    rw [hminus]
    rfl
  rw [strtol_base10 hskip (hbase.imp_right fun h => ⟨h, hdetect⟩) hread, if_pos hminus]

theorem strtol_zero (hskip : skipSpaces s fuel 0 = some k) (hzero : s k = 0x30) :
    strtol fuel s 0 = some (0, k) := by
  have hdetect : (detectBase fun i => s (k + i)) = 8 := by
    rw [detectBase_eq, Nat.add_zero, if_pos hzero]
  have hplus : ¬ s k = 0x2d := by
    rw [hzero]
    decide
  rw [strtol_base8 hskip hdetect, if_neg hplus]

/-- Where the end stands in front of the number, nothing is accepted. -/
theorem not_accepted (hne : text.chars ≠ [])
    (hstop : ∀ fuel ≥ k + 1, ∃ r, strtol fuel s text.base = some (r, k)) :
    ¬ Accepted s k text := by
  rintro ⟨enough, henough⟩
  have hread := henough (enough + (k + 1)) (Nat.le_add_right enough (k + 1))
  obtain ⟨r, hr⟩ := hstop (enough + (k + 1)) (Nat.le_add_left (k + 1) enough)
  rw [hr, Option.some_inj, Prod.mk.injEq] at hread
  have hpos := List.length_pos_iff.mpr hne
  omega

theorem horner_zeros (b z : Nat) (l : List Nat) :
    horner b 0 (List.replicate z 0 ++ l) = horner b 0 l := by
  induction z with
  | zero => rfl
  | succ z ih =>
    rw [List.replicate_succ, List.cons_append, ← ih, horner, List.foldl_cons, Nat.zero_mul]
    rfl

theorem skipSpaces_chars (hs : Spells s 0 (List.replicate k 0x20 ++ c :: l)) (hc : c ≠ 0x20)
    (hfuel : k + 1 ≤ fuel) : s k = c ∧ skipSpaces s fuel 0 = some k := by
  have hsplit : List.replicate k 0x20 ++ c :: l = (List.replicate k 0x20 ++ [c]) ++ l :=
    List.append_cons _ _ _
  rw [hsplit] at hs
  have hfront := (spells_append.mp hs).1
  have hchar := (spells_append.mp hfront).2.1
  rw [List.length_replicate, Nat.zero_add] at hchar
  have hskip := skipSpaces_eq hfront hc hfuel
  rw [Nat.zero_add] at hskip
  exact ⟨hchar, hskip⟩

theorem strtol_digits (hs : Spells s 0 (List.replicate k 0x20 ++ ds ++ [c]))
    (hds : ∀ d ∈ ds, isdigit d = true) (hne : ds ≠ [])
    (hbase : base = 10 ∨ base = 0 ∧ ds.head? ≠ some 0x30) (hc : decDigit c = none)
    (hfuel : k + ds.length + 1 ≤ fuel) :
    strtol fuel s base =
      some (BitVec.ofNat 32 (horner 10 0 (ds.map digitVal)), k + ds.length) := by
  obtain ⟨d, l, rfl⟩ := List.exists_cons_of_ne_nil hne
  have hdigit := hds d List.mem_cons_self
  have hplain : d ≠ 0x20 ∧ d ≠ 0x2d := by
    have hall : ∀ d, isdigit d = true → d ≠ 0x20 ∧ d ≠ 0x2d := by decide +kernel
    exact hall d hdigit
  have hspells := hs
  rw [List.append_assoc, List.cons_append] at hs
  obtain ⟨hchar, hskip⟩ := skipSpaces_chars hs hplain.1 (by omega : k + 1 ≤ fuel)
  have hdetect : base = 10 ∨ base = 0 ∧ (detectBase fun i => s (k + i)) = 10 := by
    refine hbase.imp_right fun h => ⟨h.1, ?_⟩
    rw [detectBase_eq, Nat.add_zero, hchar, if_neg]
    exact fun heq => h.2 (congrArg some heq)
  rw [List.append_assoc, spells_append, List.length_replicate, Nat.zero_add] at hspells
  have hread : digitsLoop 10 decDigit s fuel k 0 = _ :=
    digitsLoop_eq hspells.2 (fun d hd => decDigit_of_isdigit (hds d hd)) hc (by omega) 0
  rw [strtol_base10 hskip hdetect hread, hchar, if_neg hplain.2]

section decimal
variable {zeros : Nat} {v : U32}
  (hs : Spells s 0 (List.replicate k 0x20 ++ (NumberText.decimal base zeros v).chars ++ [c]))
  (hok : (NumberText.decimal base zeros v).Ok)

theorem chars_of_not_neg (hneg : ¬ v.toInt < 0) : (NumberText.decimal base zeros v).chars =
    List.replicate zeros 0x30 ++ Stdlibc.decimal v.toNat := by
  rw [NumberText.chars, if_neg hneg, Sprintf.natAbs_toInt, if_neg hneg, List.nil_append]

theorem isdigit_of_mem_chars (hneg : ¬ v.toInt < 0) :
    ∀ d ∈ (NumberText.decimal base zeros v).chars, isdigit d = true := by
  intro d hd
  rw [chars_of_not_neg hneg, List.mem_append] at hd
  rcases hd with hd | hd
  · rw [List.eq_of_mem_replicate hd]
    decide
  · exact isdigit_of_mem_decimal hd

theorem horner_chars (hneg : ¬ v.toInt < 0) :
    horner 10 0 ((NumberText.decimal base zeros v).chars.map digitVal) = v.toNat := by
  have hfront : digitVal 0x30 = 0 := by decide
  rw [chars_of_not_neg hneg, List.map_append, List.map_replicate, hfront, horner_zeros,
    horner_decimal]

include hs hok

theorem not_accepted_neg (hneg : v.toInt < 0) : ¬ Accepted s k (.decimal base zeros v) := by
  have hchars : (NumberText.decimal base zeros v).chars =
      0x2d :: (List.replicate zeros 0x30 ++ Stdlibc.decimal v.toInt.natAbs) := by
    rw [NumberText.chars, if_pos hneg, List.singleton_append]
  have hne : (NumberText.decimal base zeros v).chars ≠ [] := by
    rw [hchars]
    exact List.cons_ne_nil _ _
  refine not_accepted hne ?_
  intro fuel hfuel
  rw [hchars, List.append_assoc, List.cons_append] at hs
  obtain ⟨hchar, hskip⟩ := skipSpaces_chars hs (by decide) hfuel
  exact ⟨_, strtol_minus hskip hchar (hok.imp_right And.left) (Nat.zero_lt_of_lt hfuel)⟩

theorem not_accepted_zero (hbase : base = 0) (hv : v = 0) :
    ¬ Accepted s k (.decimal base zeros v) := by
  have hzeros : zeros = 0 := by
    rcases hok with h | h
    · exact absurd (h.symm.trans hbase) (by decide)
    · exact h.2
  subst hbase hv hzeros
  have hchars : (NumberText.decimal 0 0 0).chars = [0x30] := by decide
  refine not_accepted (by decide) ?_
  intro fuel hfuel
  rw [hchars, List.append_assoc, List.singleton_append] at hs
  obtain ⟨hchar, hskip⟩ := skipSpaces_chars hs (by decide) hfuel
  exact ⟨0, strtol_zero hskip hchar⟩

theorem accepted_decimal (hneg : ¬ v.toInt < 0) (hzero : ¬ (base = 0 ∧ v = 0))
    (hc : decDigit c = none) : Accepted s k (.decimal base zeros v) := by
  have hfirst : base = 10 ∨
      base = 0 ∧ (NumberText.decimal base zeros v).chars.head? ≠ some 0x30 := by
    refine hok.imp_right fun h => ⟨h.1, fun hhead => hzero ⟨h.1, ?_⟩⟩
    rw [chars_of_not_neg hneg, h.2, List.replicate_zero, List.nil_append] at hhead
    exact BitVec.eq_of_toNat_eq (eq_zero_of_head?_decimal hhead)
  have hne : (NumberText.decimal base zeros v).chars ≠ [] := by
    rw [chars_of_not_neg hneg]
    exact List.append_ne_nil_of_right_ne_nil _ (decimal_ne_nil _)
  refine ⟨k + (NumberText.decimal base zeros v).chars.length + 1, ?_⟩
  intro fuel hfuel
  have hread := strtol_digits hs (isdigit_of_mem_chars hneg) hne hfirst hc hfuel
  rw [horner_chars hneg, BitVec.ofNat_toNat, BitVec.setWidth_eq] at hread
  exact hread

end decimal

/-- Of the numbers written by hand exactly these are accepted. -/
theorem strtol_accepts_iff (text : NumberText) (hok : text.Ok) (s : CStr) (k : Nat) (c : U8)
    (hs : Spells s 0 (List.replicate k 0x20 ++ text.chars ++ [c])) (hc : text.digit c = none) :
    Accepted s k text ↔ text.IsRead := by
  cases text with
  | decimal base zeros v =>
    by_cases hneg : v.toInt < 0
    · exact iff_of_false (not_accepted_neg hs hok hneg) fun h => absurd h.1 (Int.not_le.mpr hneg)
    · by_cases hzero : base = 0 ∧ v = 0
      · exact iff_of_false (not_accepted_zero hs hok hzero.1 hzero.2) fun h =>
          h.2 hzero.1 hzero.2
      · exact iff_of_true (accepted_decimal hs hok hneg hzero hc)
          ⟨Int.not_lt.mp hneg, fun hbase hv => hzero ⟨hbase, hv⟩⟩
  | hexadecimal x ds =>
    rw [NumberText.chars, List.append_assoc, List.cons_append] at hs
    refine iff_of_false (not_accepted (List.cons_ne_nil _ _) ?_) (fun hread => hread)
    intro fuel hfuel
    obtain ⟨hchar, hskip⟩ := skipSpaces_chars hs (by decide) hfuel
    exact ⟨0, strtol_zero hskip hchar⟩

def padded : CStr := fun i => [0x20, 0x20, 0x30, 0x30, 0x31, 0x32, 0x30, 0x3b, 0].getD i 0

def hexAfterSpace : CStr := fun i => [0x20, 0x30, 0x58, 0x66, 0x46, 0].getD i 0

/-- "  00120;" in base 10, and " 0XfF" without a base. -/
theorem strtol_accepts_iff_padded :
    Accepted padded 2 (.decimal 10 2 120) ∧
      ¬ Accepted hexAfterSpace 1 (.hexadecimal 0x58 [0x66, 0x46]) := by
  have hchars : (NumberText.decimal 10 2 120).chars = [0x30, 0x30, 0x31, 0x32, 0x30] := by
    decide +kernel
  have hpadded : Spells padded 0
      (List.replicate 2 0x20 ++ (NumberText.decimal 10 2 120).chars ++ [0x3b]) := by
    rw [hchars]
    exact ⟨rfl, rfl, rfl, rfl, rfl, rfl, rfl, rfl, trivial⟩
  have hdecimal := strtol_accepts_iff (.decimal 10 2 120) (Or.inl rfl) padded 2 0x3b hpadded rfl
  have hhex := strtol_accepts_iff (.hexadecimal 0x58 [0x66, 0x46])
    ⟨Or.inr rfl, by decide, by decide, by decide⟩ hexAfterSpace 1 0
    ⟨rfl, rfl, rfl, rfl, rfl, rfl, trivial⟩ rfl
  exact ⟨hdecimal.mpr ⟨by decide, by decide⟩, hhex.mp⟩

def minusFive : CStr := fun i => [0x2d, 0x35, 0].getD i 0

def hexTen : CStr := fun i => [0x30, 0x78, 0x31, 0x30, 0].getD i 0

/-- Of "-5" in base 10 and of "0x10" without a base nothing is read. -/
theorem strtol_rejects :
    (∃ text : NumberText, text.Ok ∧ Spells minusFive 0 (text.chars ++ [0]) ∧
      strtol 9 minusFive text.base = some (0, 0) ∧ ¬ Accepted minusFive 0 text) ∧
    ∃ text : NumberText, text.Ok ∧ Spells hexTen 0 (text.chars ++ [0]) ∧
      strtol 9 hexTen text.base = some (0, 0) ∧ ¬ Accepted hexTen 0 text := by
  constructor
  · have hok : (NumberText.decimal 10 0 (-5)).Ok := Or.inl rfl
    have hchars : (NumberText.decimal 10 0 (-5)).chars = [0x2d, 0x35] := by decide +kernel
    have hspells : Spells minusFive 0 ((NumberText.decimal 10 0 (-5)).chars ++ [0]) := by
      rw [hchars]
      exact ⟨rfl, rfl, rfl, trivial⟩
    exact ⟨_, hok, hspells, by decide, not_accepted_neg (k := 0) hspells hok (by decide)⟩
  · have hok : (NumberText.hexadecimal 0x78 [0x31, 0x30]).Ok := by
      refine ⟨Or.inl rfl, by decide, ?_, by decide⟩
      decide
    refine ⟨_, hok, ⟨rfl, rfl, rfl, rfl, rfl, trivial⟩, by decide, not_accepted (by decide) ?_⟩
    intro fuel hfuel
    obtain ⟨hchar, hskip⟩ :=
      skipSpaces_chars (k := 0) (l := [0x78]) (s := hexTen) ⟨rfl, rfl, trivial⟩ (by decide) hfuel
    exact ⟨0, strtol_zero hskip hchar⟩

end Uroboros.Stdlibc
