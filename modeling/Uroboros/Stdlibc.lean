import Uroboros.Config
import Uroboros.Lib.ByteMemory
import Uroboros.Lib.Numeral

/-!
# Strings and numbers in `stdlibc.c`

A `char *` that is only read is the function of the bytes from it on. Nothing
marks the end of an array, so that a loop that runs past it reads what follows.
What a function writes upwards from a buffer is the list of the bytes stored.
-/

set_option autoImplicit false

namespace Uroboros

open ByteMemory Numeral

abbrev CStr := Nat → U8

def charsAt (m : Mem) (a : U32) : CStr := fun i => m (a + BitVec.ofNat 32 i)

@[simp] theorem charsAt_zero (m : Mem) (a : U32) : charsAt m a 0 = m a :=
  congrArg m (BitVec.add_zero a)

/-- A `char` is signed. -/
def charToInt (c : U8) : U32 := c.signExtend 32

namespace Stdlibc

/-- The loop of `strncmp`, with `k` for `n - i`; where it leaves the strings. -/
def strncmpLoop (s1 s2 : CStr) : Nat → Nat → Nat
  | 0, i => i
  | k + 1, i =>
    if s1 i ≠ 0 ∧ s2 i ≠ 0 ∧ k ≠ 0 ∧ s1 i = s2 i then strncmpLoop s1 s2 k (i + 1) else i

def strncmp (s1 s2 : CStr) (n : U32) : U32 :=
  let i := strncmpLoop s1 s2 n.toNat 0
  charToInt (s1 i) - charToInt (s2 i)

variable {s1 s2 : CStr} {k i : Nat} {n : U32} {a b : U8}

theorem charToInt_inj : charToInt a = charToInt b ↔ a = b := by
  rw [charToInt, charToInt, ← BitVec.toInt_inj, BitVec.toInt_signExtend_of_le (by decide),
    BitVec.toInt_signExtend_of_le (by decide), BitVec.toInt_inj]

theorem charToInt_sub_eq_zero : charToInt a - charToInt b = 0 ↔ a = b := by
  rw [← charToInt_inj]
  constructor
  · intro h
    bv_omega
  · intro h
    rw [h, BitVec.sub_self]
    rfl

theorem strncmpLoop_eq_iff (h2 : ∀ j, i ≤ j → j < i + (k + 1) → s2 j ≠ 0) :
    s1 (strncmpLoop s1 s2 (k + 1) i) = s2 (strncmpLoop s1 s2 (k + 1) i) ↔
      ∀ j, i ≤ j → j < i + (k + 1) → s1 j = s2 j := by
  induction k generalizing i with
  | zero =>
    rw [strncmpLoop, if_neg fun h => h.2.2.1 rfl]
    constructor
    · intro heq j hlo hhi
      have hj : j = i := by omega
      rw [hj, heq]
    · intro hall
      exact hall i (Nat.le_refl i) (by omega)
  | succ k ih =>
    have hi2 := h2 i (Nat.le_refl i) (by omega)
    rw [strncmpLoop]
    by_cases heq : s1 i = s2 i
    · have hi1 : s1 i ≠ 0 := heq ▸ hi2
      rw [if_pos ⟨hi1, hi2, Nat.succ_ne_zero k, heq⟩,
        ih fun j hlo hhi => h2 j (by omega) (by omega)]
      constructor
      · intro hrest j hlo hhi
        rcases Nat.eq_or_lt_of_le hlo with hj | hj
        · exact hj ▸ heq
        · exact hrest j hj (by omega)
      · intro hall j hlo hhi
        exact hall j (by omega) (by omega)
    · rw [if_neg fun h => heq h.2.2.2]
      exact iff_of_false heq fun hall => heq (hall i (Nat.le_refl i) (by omega))

theorem strncmp_eq_zero_iff (hn : n.toNat = k + 1) (h2 : ∀ j < k + 1, s2 j ≠ 0) :
    strncmp s1 s2 n = 0 ↔ ∀ j < k + 1, s1 j = s2 j := by
  rw [strncmp, charToInt_sub_eq_zero, hn, strncmpLoop_eq_iff fun j _ hj => h2 j (by omega)]
  constructor
  · intro hall j hj
    exact hall j (Nat.zero_le j) (by omega)
  · intro hall j _ hj
    exact hall j (by omega)

def isdigit (c : U8) : Bool := BitVec.sle 0x30 c && BitVec.sle c 0x39

def upow (x : U32) : Nat → U32
  | 0 => 1
  | 1 => x
  | n + 2 => x * upow x (n + 1)

/-- The loop of `ndigit`; from base 2 on 32 passes are enough. -/
def ndigitLoop (base : U32) : Nat → U32 → U32 → U32
  | 0, _, i => i
  | k + 1, n, i => if base ≤ n then ndigitLoop base k (n / base) (i + 1) else i

def ndigit (n base : U32) : U32 := ndigitLoop base 32 n 1

/-- What the loop of `to_dec_asc` stores. -/
def decDigits (n : U32) : Nat → List U8
  | 0 => []
  | i + 1 => (n / upow 10 i % 10 + 0x30).setWidth 8 :: decDigits n i

/-- The value returned, and the bytes. -/
def toDecAsc (n : U32) : U32 × List U8 := (ndigit n 10, decDigits n (ndigit n 10).toNat)

def charset : List U8 :=
  [0x30, 0x31, 0x32, 0x33, 0x34, 0x35, 0x36, 0x37, 0x38, 0x39, 0x61, 0x62, 0x63, 0x64, 0x65, 0x66]

/-- A character of the hexadecimal numeral; `capital` changes those of the digits. -/
def hexChar (capital : Bool) (d : Nat) : U8 :=
  let c := charset.getD d 0
  if capital && isdigit c then c - 0x20 else c

def hexDigits (n : U32) (capital : Bool) : Nat → List U8
  | 0 => []
  | i + 1 => hexChar capital (n / upow 16 i % 16).toNat :: hexDigits n capital i

def toHexAsc (n : U32) (capital : Bool) : U32 × List U8 :=
  (ndigit n 16, hexDigits n capital (ndigit n 16).toNat)

def decChar (d : Nat) : U8 := BitVec.ofNat 8 (48 + d)

/-- The decimal numeral of `n`, and the hexadecimal one. -/
def decimal (n : Nat) : List U8 := (numeral 10 n).map decChar

def hexadecimal (capital : Bool) (n : Nat) : List U8 := (numeral 16 n).map (hexChar capital)

variable {x base : U32}

theorem upow_eq (x : U32) (n : Nat) : upow x n = BitVec.ofNat 32 (x.toNat ^ n) := by
  induction n with
  | zero => rfl
  | succ n ih =>
    cases n with
    | zero => rw [upow, Nat.zero_add, pow_one, BitVec.ofNat_toNat, BitVec.setWidth_eq]
    | succ n => rw [upow, ih, pow_succ' x.toNat (n + 1), BitVec.ofNat_mul, BitVec.ofNat_toNat,
        BitVec.setWidth_eq]

theorem toNat_upow (h : x.toNat ^ k < 2 ^ 32) : (upow x k).toNat = x.toNat ^ k := by
  rw [upow_eq, BitVec.toNat_ofNat, Nat.mod_eq_of_lt h]

theorem ndigitLoop_eq (hbase : 1 < base.toNat) (hn : n.toNat < 2 ^ k) (x : U32) :
    ndigitLoop base k n x =
      x + BitVec.ofNat 32 ((numeral base.toNat n.toNat).length - 1) := by
  induction k generalizing n x with
  | zero =>
    have hzero : n.toNat = 0 := by omega
    rw [ndigitLoop, hzero, numeral_of_lt (by omega)]
    exact (BitVec.add_zero x).symm
  | succ k ih =>
    rw [ndigitLoop]
    split_ifs with hle
    · rw [BitVec.le_def] at hle
      have hquot : (n / base).toNat = n.toNat / base.toNat := BitVec.toNat_udiv
      have hlt : (n / base).toNat < 2 ^ k := by
        rw [hquot, Nat.div_lt_iff_lt_mul (by omega)]
        calc n.toNat < 2 ^ (k + 1) := hn
          _ = 2 ^ k * 2 := pow_succ 2 k
          _ ≤ 2 ^ k * base.toNat := Nat.mul_le_mul_left _ hbase
      have hpos := List.length_pos_of_ne_nil (numeral_ne_nil base.toNat (n.toNat / base.toNat))
      rw [ih hlt, hquot, numeral_of_le hbase hle, List.length_append, List.length_singleton]
      bv_omega
    · rw [BitVec.le_def] at hle
      rw [numeral_of_lt (Nat.lt_of_not_le hle)]
      exact (BitVec.add_zero x).symm

theorem ndigit_eq (hbase : 1 < base.toNat) (n : U32) :
    ndigit n base = BitVec.ofNat 32 (numeral base.toNat n.toNat).length := by
  have hpos := List.length_pos_of_ne_nil (numeral_ne_nil base.toNat n.toNat)
  have hone : (1 : U32) = BitVec.ofNat 32 1 := rfl
  rw [ndigit, ndigitLoop_eq hbase n.isLt, hone, ← BitVec.ofNat_add, Nat.add_sub_cancel' hpos]

theorem toNat_ndigit (hbase : 1 < base.toNat) :
    (ndigit n base).toNat = (numeral base.toNat n.toNat).length := by
  have hpow : n.toNat < base.toNat ^ 32 :=
    Nat.lt_of_lt_of_le n.isLt (Nat.pow_le_pow_left hbase 32)
  have hlen := length_numeral_le hbase (by omega) hpow
  rw [ndigit_eq hbase, BitVec.toNat_ofNat]
  omega

theorem length_numeral_word {b : Nat} (hb : 1 < b) (hk : 0 < k) (h : 2 ^ 32 ≤ b ^ k) (n : U32) :
    (numeral b n.toNat).length ≤ k :=
  length_numeral_le hb hk (Nat.lt_of_lt_of_le n.isLt h)

theorem toNat_digit (n : U32) (hpow : base.toNat ^ k < 2 ^ 32) :
    (n / upow base k % base).toNat = n.toNat / base.toNat ^ k % base.toNat := by
  rw [BitVec.toNat_umod, BitVec.toNat_udiv, toNat_upow hpow]

theorem decDigits_eq (n : U32) (hk : k ≤ 10) :
    decDigits n k = (lowDigits 10 n.toNat k).map decChar := by
  induction k with
  | zero => rfl
  | succ k ih =>
    have hpow : 10 ^ k < 2 ^ 32 :=
      Nat.lt_of_le_of_lt (Nat.pow_le_pow_right (by decide) (show k ≤ 9 by omega)) (by decide)
    have hdigit : (n / upow 10 k % 10).toNat = n.toNat / 10 ^ k % 10 := toNat_digit n hpow
    have hchar : (n / upow 10 k % 10 + 0x30).setWidth 8 = decChar (n.toNat / 10 ^ k % 10) := by
      apply BitVec.eq_of_toNat_eq
      have hlt := Nat.mod_lt (n.toNat / 10 ^ k) (show 0 < 10 by decide)
      have hzero : (0x30 : U32).toNat = 48 := rfl
      rw [decChar, BitVec.toNat_setWidth, BitVec.toNat_add, hdigit, hzero, BitVec.toNat_ofNat]
      omega
    rw [decDigits, lowDigits, List.map_cons, ih (by omega), hchar]

/-- `to_dec_asc` takes its argument for a number without sign. -/
theorem toDecAsc_eq (n : U32) :
    toDecAsc n = (BitVec.ofNat 32 (decimal n.toNat).length, decimal n.toNat) := by
  have hten : (10 : U32).toNat = 10 := rfl
  have hlen : (numeral 10 n.toNat).length ≤ 10 :=
    length_numeral_word (by decide) (by decide) (by decide) n
  have hdigits : (ndigit n 10).toNat = (numeral 10 n.toNat).length := toNat_ndigit (by decide)
  rw [toDecAsc, hdigits, decDigits_eq n hlen, lowDigits_length_numeral (by decide), decimal,
    List.length_map, ndigit_eq (by decide), hten]

theorem hexDigits_eq (n : U32) (capital : Bool) (hk : k ≤ 8) :
    hexDigits n capital k = (lowDigits 16 n.toNat k).map (hexChar capital) := by
  induction k with
  | zero => rfl
  | succ k ih =>
    have hpow : 16 ^ k < 2 ^ 32 :=
      Nat.lt_of_le_of_lt (Nat.pow_le_pow_right (by decide) (show k ≤ 7 by omega)) (by decide)
    have hdigit : (n / upow 16 k % 16).toNat = n.toNat / 16 ^ k % 16 := toNat_digit n hpow
    rw [hexDigits, lowDigits, List.map_cons, ih (by omega), hdigit]

theorem toHexAsc_eq (n : U32) (capital : Bool) : toHexAsc n capital =
    (BitVec.ofNat 32 (hexadecimal capital n.toNat).length, hexadecimal capital n.toNat) := by
  have hlen : (numeral 16 n.toNat).length ≤ 8 :=
    length_numeral_word (by decide) (by decide) (by decide) n
  have hsixteen : (16 : U32).toNat = 16 := rfl
  have hdigits : (ndigit n 16).toNat = (numeral 16 n.toNat).length := toNat_ndigit (by decide)
  rw [toHexAsc, hdigits, hexDigits_eq n capital hlen, lowDigits_length_numeral (by decide),
    hexadecimal, List.length_map, ndigit_eq (by decide), hsixteen]

def Spells {α : Type} (s : Nat → α) : Nat → List α → Prop
  | _, [] => True
  | p, c :: l => s p = c ∧ Spells s (p + 1) l

/-- On the bytes of an array that holds the end. -/
def strlen : List U8 → Nat
  | [] => 0
  | c :: l => if c = 0 then 0 else strlen l + 1

/-- The loop of `strncpy`, with `k` for `n - i`; what it stores. -/
def strncpyLoop (s2 : CStr) : Nat → Nat → Bool → List U8
  | 0, _, _ => []
  | k + 1, i, ended =>
    if ended then 0 :: strncpyLoop s2 k (i + 1) true
    else s2 i :: strncpyLoop s2 k (i + 1) (s2 i == 0)

def strncpy (s2 : CStr) (n : Nat) : List U8 := strncpyLoop s2 n 0 false

/-- The loop of `atoi`, from `i` on. -/
def atoiLoop (s : CStr) : Nat → Nat → U32 → Option U32
  | 0, _, _ => none
  | fuel + 1, i, result =>
    if isdigit (s i) then atoiLoop s fuel (i + 1) (result * 10 + (charToInt (s i) - 0x30))
    else some result

def atoi (fuel : Nat) (s : CStr) : Option U32 :=
  if s 0 = 0x2d then (atoiLoop s fuel 1 0).map fun result => result * (-1)
  else atoiLoop s fuel 0 0

def digitVal (c : U8) : Nat := c.toNat - 48

variable {s : CStr} {p fuel : Nat} {l l' ds : List U8} {c : U8}

theorem spells_append {α : Type} {s : Nat → α} {l l' : List α} {p : Nat} :
    Spells s p (l ++ l') ↔ Spells s p l ∧ Spells s (p + l.length) l' := by
  induction l generalizing p with
  | nil => exact (and_iff_right trivial).symm
  | cons c l ih =>
    have hnext : p + 1 + l.length = p + (l.length + 1) := by omega
    rw [List.cons_append, Spells, Spells, ih, List.length_cons, hnext, and_assoc]

theorem isdigit_iff : isdigit c = true ↔ 48 ≤ c.toNat ∧ c.toNat ≤ 57 := by
  revert c
  decide +kernel

theorem charToInt_of_isdigit (h : isdigit c = true) :
    charToInt c - 0x30 = BitVec.ofNat 32 (digitVal c) := by
  revert c
  decide +kernel

theorem isdigit_decChar {d : Nat} (h : d < 10) : isdigit (decChar d) = true := by
  rw [isdigit_iff, decChar, BitVec.toNat_ofNat]
  omega

theorem digitVal_decChar {d : Nat} (h : d < 10) : digitVal (decChar d) = d := by
  rw [digitVal, decChar, BitVec.toNat_ofNat]
  omega

theorem atoiLoop_digits (hs : Spells s i (ds ++ [c])) (hds : ∀ c ∈ ds, isdigit c = true)
    (hc : ¬ isdigit c = true) (hfuel : ds.length < fuel) (r : Nat) :
    atoiLoop s fuel i (BitVec.ofNat 32 r) =
      some (BitVec.ofNat 32 (horner 10 r (ds.map digitVal))) := by
  induction ds generalizing i fuel r with
  | nil =>
    obtain ⟨k, rfl⟩ := Nat.exists_eq_succ_of_ne_zero (Nat.ne_of_gt hfuel)
    rw [atoiLoop, hs.1, if_neg hc]
    rfl
  | cons d ds ih =>
    obtain ⟨k, rfl⟩ := Nat.exists_eq_succ_of_ne_zero (Nat.ne_of_gt (Nat.zero_lt_of_lt hfuel))
    have hd := hds d List.mem_cons_self
    rw [atoiLoop, hs.1, if_pos hd, charToInt_of_isdigit hd]
    have hstep : BitVec.ofNat 32 r * 10 + BitVec.ofNat 32 (digitVal d) =
        BitVec.ofNat 32 (r * 10 + digitVal d) := by
      rw [BitVec.ofNat_add, BitVec.ofNat_mul]
      rfl
    rw [hstep, ih hs.2 (fun c hc => hds c (List.mem_cons_of_mem d hc))
      (Nat.lt_of_succ_lt_succ hfuel)]
    rfl

theorem strncpyLoop_ended (s : CStr) (k i : Nat) :
    strncpyLoop s k i true = List.replicate k 0 := by
  induction k generalizing i with
  | zero => rfl
  | succ k ih => rw [strncpyLoop, if_pos rfl, ih, List.replicate_succ]

theorem strncpyLoop_eq (hs : Spells s i (l ++ [0])) (hl : ∀ c ∈ l, c ≠ 0) (hlen : l.length < k) :
    strncpyLoop s k i false = l ++ List.replicate (k - l.length) 0 := by
  obtain ⟨k, rfl⟩ := Nat.exists_eq_succ_of_ne_zero (Nat.ne_of_gt (Nat.zero_lt_of_lt hlen))
  induction l generalizing i k with
  | nil =>
    have hzero : s i = 0 := hs.1
    rw [strncpyLoop, if_neg Bool.false_ne_true, hzero, beq_self_eq_true, strncpyLoop_ended]
    rfl
  | cons c l ih =>
    have hc : (c == 0) = false := beq_eq_false_iff_ne.mpr (hl c List.mem_cons_self)
    rw [List.length_cons] at hlen
    obtain ⟨k, rfl⟩ := Nat.exists_eq_succ_of_ne_zero (show k ≠ 0 by omega)
    rw [strncpyLoop, if_neg Bool.false_ne_true, hs.1, hc,
      ih hs.2 (fun c hc => hl c (List.mem_cons_of_mem _ hc)) k (by omega), List.length_cons,
      Nat.succ_sub_succ]
    rfl

theorem strlen_append (hl : ∀ c ∈ l, c ≠ 0) : strlen (l ++ 0 :: l') = l.length := by
  induction l with
  | nil => exact if_pos rfl
  | cons c l ih =>
    rw [List.cons_append, strlen, if_neg (hl c List.mem_cons_self),
      ih fun c hc => hl c (List.mem_cons_of_mem _ hc), List.length_cons]

theorem isdigit_ne {d : U8} (h : isdigit d = true) : d ≠ 0 ∧ d ≠ 0x25 ∧ d ≠ 0x2d := by
  revert d
  decide +kernel

theorem length_decimal_le (n : U32) : (decimal n.toNat).length ≤ 10 := by
  rw [decimal, List.length_map]
  exact length_numeral_word (by decide) (by decide) (by decide) n

theorem length_hexadecimal_le (n : U32) (capital : Bool) :
    (hexadecimal capital n.toNat).length ≤ 8 := by
  rw [hexadecimal, List.length_map]
  exact length_numeral_word (by decide) (by decide) (by decide) n

theorem decimal_ne_nil (n : Nat) : decimal n ≠ [] := by
  rw [decimal, ne_eq, List.map_eq_nil_iff]
  exact numeral_ne_nil 10 n

theorem isdigit_of_mem_decimal {k : Nat} (h : c ∈ decimal k) : isdigit c = true := by
  obtain ⟨d, hd, heq⟩ := List.mem_map.mp h
  exact heq ▸ isdigit_decChar (lt_of_mem_numeral (by decide) hd)

theorem horner_decimal (k : Nat) : horner 10 0 ((decimal k).map digitVal) = k :=
  horner_map_numeral (by decide) (fun _ => digitVal_decChar) k

theorem eq_zero_of_head?_decimal {k : Nat} (h : (decimal k).head? = some 0x30) : k = 0 := by
  rw [decimal, List.head?_map, Option.map_eq_some_iff] at h
  obtain ⟨d, hd, hchar⟩ := h
  have hlt := lt_of_mem_numeral (show 1 < 10 by decide) (List.mem_of_mem_head? hd)
  have hzero : d = 0 := by
    rw [← digitVal_decChar hlt, hchar]
    rfl
  exact eq_zero_of_head? (hzero ▸ hd)

theorem atoiLoop_decimal {i : Nat} (hs : Spells s i (decimal n.toNat ++ [0]))
    (hfuel : 11 ≤ fuel) : atoiLoop s fuel i 0 = some n := by
  have hlen := length_decimal_le n
  have hread : atoiLoop s fuel i 0 = _ := atoiLoop_digits hs (fun c hc => isdigit_of_mem_decimal hc)
    (by decide) (by omega) 0
  rw [hread, horner_decimal, BitVec.ofNat_toNat, BitVec.setWidth_eq]

theorem atoi_decimal (hs : Spells s 0 (decimal n.toNat ++ [0])) (hfuel : 11 ≤ fuel) :
    atoi fuel s = some n := by
  have hdigit : isdigit (s 0) = true := by
    obtain ⟨c, l, hcons⟩ := List.exists_cons_of_ne_nil (decimal_ne_nil n.toNat)
    rw [hcons] at hs
    rw [hs.1]
    exact isdigit_of_mem_decimal (k := n.toNat) (hcons ▸ List.mem_cons_self)
  rw [atoi, if_neg (isdigit_ne hdigit).2.2, atoiLoop_decimal hs hfuel]

end Stdlibc

end Uroboros
