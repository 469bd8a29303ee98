import Mathlib.Algebra.Order.Ring.Nat
import Mathlib.Logic.Function.Basic
import Mathlib.Tactic.SplitIfs

/-!
# A flat byte memory with little-endian words

Addresses are 32-bit, a word occupies four consecutive bytes with its low
byte first. The frame lemmas speak of address intervals as natural numbers.
-/

set_option autoImplicit false

namespace ByteMemory

abbrev Mem := BitVec 32 → BitVec 8

def store8 (m : Mem) (a : BitVec 32) (b : BitVec 8) : Mem := Function.update m a b

def load16 (m : Mem) (a : BitVec 32) : BitVec 16 := m (a + 1) ++ m a

def load32 (m : Mem) (a : BitVec 32) : BitVec 32 :=
  m (a + 3) ++ m (a + 2) ++ m (a + 1) ++ m a

def store32 (m : Mem) (a w : BitVec 32) : Mem :=
  store8 (store8 (store8 (store8 m a (w.extractLsb' 0 8)) (a + 1) (w.extractLsb' 8 8))
    (a + 2) (w.extractLsb' 16 8)) (a + 3) (w.extractLsb' 24 8)

def store16 (m : Mem) (a : BitVec 32) (w : BitVec 16) : Mem :=
  store8 (store8 m a (w.extractLsb' 0 8)) (a + 1) (w.extractLsb' 8 8)

def storeBytes (m : Mem) (a : BitVec 32) : List (BitVec 8) → Mem
  | [] => m
  | b :: bs => storeBytes (store8 m a b) (a + 1) bs

def BytesAt (m : Mem) (a : BitVec 32) (bs : List (BitVec 8)) : Prop :=
  ∀ i (h : i < bs.length), m (a + BitVec.ofNat 32 i) = bs[i]

def Aligned (a : BitVec 32) : Prop := a.toNat % 4 = 0

theorem bytesAt_cons {m : Mem} {a : BitVec 32} {b : BitVec 8} {bs : List (BitVec 8)} :
    BytesAt m a (b :: bs) ↔ m a = b ∧ BytesAt m (a + 1) bs := by
  have hoff : ∀ i : Nat, a + BitVec.ofNat 32 (i + 1) = a + 1 + BitVec.ofNat 32 i := by
    intro i
    rw [Nat.add_comm, BitVec.ofNat_add, BitVec.add_assoc]
    rfl
  constructor
  · intro h
    refine ⟨?_, ?_⟩
    · simpa using h 0 (Nat.zero_lt_succ _)
    · intro i hi
      rw [← hoff]
      exact h (i + 1) (Nat.succ_lt_succ hi)
  · intro h i hi
    cases i with
    | zero => simpa using h.1
    | succ i =>
      rw [hoff]
      exact h.2 i (Nat.lt_of_succ_lt_succ hi)

theorem load16_eq_extractLsb' (m : Mem) (a : BitVec 32) :
    load16 m a = (load32 m a).extractLsb' 0 16 := by
  unfold load16 load32
  ext i hi
  rw [BitVec.getElem_extractLsb', Nat.zero_add, BitVec.getElem_append, BitVec.getLsbD_append,
    BitVec.getLsbD_append]
  by_cases h8 : i < 8
  · rw [dif_pos h8, if_pos h8, BitVec.getLsbD_eq_getElem h8]
  · have hi8 : i - 8 < 8 := by omega
    rw [dif_neg h8, if_neg h8, if_pos hi8, BitVec.getLsbD_eq_getElem hi8]

theorem store8_same (m : Mem) (a : BitVec 32) (b : BitVec 8) : store8 m a b a = b := by
  simp [store8]

theorem store8_ne (m : Mem) {a x : BitVec 32} (b : BitVec 8) (h : x ≠ a) :
    store8 m a b x = m x := by
  simp [store8, h]

theorem store32_apply (m : Mem) (a w x : BitVec 32) :
    store32 m a w x =
      if x = a + 3 then w.extractLsb' 24 8
      else if x = a + 2 then w.extractLsb' 16 8
      else if x = a + 1 then w.extractLsb' 8 8
      else if x = a then w.extractLsb' 0 8
      else m x := by
  simp only [store32, store8, Function.update_apply]

theorem store32_store32 (m : Mem) (a w w' : BitVec 32) :
    store32 (store32 m a w) a w' = store32 m a w' := by
  funext x
  simp only [store32_apply]
  split_ifs <;> rfl

theorem store32_frame (m : Mem) {a x : BitVec 32} (w : BitVec 32)
    (hw : a.toNat + 4 ≤ 2 ^ 32) (h : x.toNat < a.toNat ∨ a.toNat + 4 ≤ x.toNat) :
    store32 m a w x = m x := by
  unfold store32
  rw [store8_ne _ _ (by bv_omega), store8_ne _ _ (by bv_omega), store8_ne _ _ (by bv_omega),
    store8_ne _ _ (by bv_omega)]

theorem aligned_bound {a : BitVec 32} (ha : Aligned a) : a.toNat + 4 ≤ 2 ^ 32 := by
  have := a.isLt
  unfold Aligned at ha
  omega

theorem load32_congr {m m' : Mem} {a : BitVec 32}
    (h : ∀ i < 4, m (a + BitVec.ofNat 32 i) = m' (a + BitVec.ofNat 32 i)) :
    load32 m a = load32 m' a := by
  have h0 := h 0 (by omega)
  have h1 := h 1 (by omega)
  have h2 := h 2 (by omega)
  have h3 := h 3 (by omega)
  simp only [BitVec.add_zero] at h0 h1 h2 h3
  simp only [load32, BitVec.ofNat_eq_ofNat, h0, h1, h2, h3]

theorem load32_congr_on {m m' : Mem} (lo hi : Nat) {a : BitVec 32}
    (h : ∀ x : BitVec 32, lo ≤ x.toNat → x.toNat < hi → m x = m' x)
    (hlo : lo ≤ a.toNat) (hhi : a.toNat + 4 ≤ hi) (hw : a.toNat + 4 ≤ 2 ^ 32) :
    load32 m a = load32 m' a := by
  apply load32_congr
  intro i hi'
  apply h <;> bv_omega

theorem load32_store32_same (m : Mem) (a w : BitVec 32) : load32 (store32 m a w) a = w := by
  have h0 : store32 m a w a = w.extractLsb' 0 8 := by
    unfold store32
    rw [store8_ne _ _ (by bv_omega), store8_ne _ _ (by bv_omega), store8_ne _ _ (by bv_omega),
      store8_same]
  have h1 : store32 m a w (a + 1) = w.extractLsb' 8 8 := by
    unfold store32
    rw [store8_ne _ _ (by bv_omega), store8_ne _ _ (by bv_omega), store8_same]
  have h2 : store32 m a w (a + 2) = w.extractLsb' 16 8 := by
    unfold store32
    rw [store8_ne _ _ (by bv_omega), store8_same]
  have h3 : store32 m a w (a + 3) = w.extractLsb' 24 8 := store8_same ..
  unfold load32
  rw [h0, h1, h2, h3]
  ext i hi
  simp only [BitVec.getElem_append, BitVec.getElem_extractLsb']
  split
  · simp [BitVec.getLsbD_eq_getElem hi]
  · split
    · rw [BitVec.getLsbD_eq_getElem (by omega)]
      congr 1
      omega
    · split
      · rw [BitVec.getLsbD_eq_getElem (by omega)]
        congr 1
        omega
      · rw [BitVec.getLsbD_eq_getElem (by omega)]
        congr 1
        omega

theorem load32_store32_disjoint (m : Mem) {a b : BitVec 32} (w : BitVec 32)
    (ha : a.toNat + 4 ≤ 2 ^ 32) (hb : b.toNat + 4 ≤ 2 ^ 32)
    (h : b.toNat + 4 ≤ a.toNat ∨ a.toNat + 4 ≤ b.toNat) :
    load32 (store32 m a w) b = load32 m b := by
  apply load32_congr
  intro i hi
  apply store32_frame m w ha
  bv_omega

theorem load32_store32_ne (m : Mem) {a b : BitVec 32} (w : BitVec 32)
    (ha : Aligned a) (hb : Aligned b) (h : b ≠ a) :
    load32 (store32 m a w) b = load32 m b := by
  apply load32_store32_disjoint m w (aligned_bound ha) (aligned_bound hb)
  unfold Aligned at ha hb
  bv_omega

section Apart

variable {m m' : Mem} {a b c x w : BitVec 32} {v : BitVec 16} {n k : Nat}

/-- The `n` bytes from `a` on and the `k` bytes from `b` on have no byte in common. -/
def Apart (a : BitVec 32) (n : Nat) (b : BitVec 32) (k : Nat) : Prop :=
  n ≤ (b - a).toNat ∧ k ≤ (a - b).toNat

instance : Decidable (Apart a n b k) := inferInstanceAs (Decidable (_ ∧ _))

theorem apart_add_left : Apart (c + a) n (c + b) k ↔ Apart a n b k := by
  have hba : c + b - (c + a) = b - a := by bv_omega
  have hab : c + a - (c + b) = a - b := by bv_omega
  rw [Apart, Apart, hba, hab]

theorem store16_of_le (h : 2 ≤ (x - a).toNat) : store16 m a v x = m x := by
  unfold store16
  rw [store8_ne _ _ (by bv_omega), store8_ne _ _ (by bv_omega)]

theorem store32_of_le (h : 4 ≤ (x - a).toNat) : store32 m a w x = m x := by
  rw [store32_apply, if_neg (by bv_omega), if_neg (by bv_omega), if_neg (by bv_omega),
    if_neg (by bv_omega)]

theorem storeBytes_of_le {bs : List (BitVec 8)} (h : bs.length ≤ (x - a).toNat) :
    storeBytes m a bs x = m x := by
  induction bs generalizing m a with
  | nil => rfl
  | cons b bs ih =>
    rw [List.length_cons] at h
    rw [storeBytes, ih (by bv_omega), store8_ne]
    bv_omega

theorem bytesAt_storeBytes {bs : List (BitVec 8)} (hlen : bs.length ≤ 2 ^ 32) :
    BytesAt (storeBytes m a bs) a bs := by
  induction bs generalizing m a with
  | nil => exact fun i hi => absurd hi (Nat.not_lt_zero i)
  | cons b bs ih =>
    rw [List.length_cons] at hlen
    refine bytesAt_cons.mpr ⟨?_, ih (by omega)⟩
    rw [storeBytes, storeBytes_of_le (by bv_omega), store8_same]

theorem load16_congr (h : ∀ i < 2, m (a + BitVec.ofNat 32 i) = m' (a + BitVec.ofNat 32 i)) :
    load16 m a = load16 m' a := by
  have h0 := h 0 (by omega)
  have h1 := h 1 (by omega)
  simp only [BitVec.add_zero] at h0 h1
  simp only [load16, BitVec.ofNat_eq_ofNat, h0, h1]

theorem load16_store16_same : load16 (store16 m a v) a = v := by
  have h0 : store16 m a v a = v.extractLsb' 0 8 := by
    unfold store16
    rw [store8_ne _ _ (by bv_omega), store8_same]
  have h1 : store16 m a v (a + 1) = v.extractLsb' 8 8 := store8_same ..
  rw [load16, h0, h1]
  exact BitVec.extractLsb'_append_extractLsb'

theorem load32_store32_apart (h : Apart a 4 b 4) : load32 (store32 m a w) b = load32 m b :=
  load32_congr fun i hi => store32_of_le (by have := h.1; have := h.2; bv_omega)

theorem load32_store16_apart (h : Apart a 2 b 4) : load32 (store16 m a v) b = load32 m b :=
  load32_congr fun i hi => store16_of_le (by have := h.1; have := h.2; bv_omega)

theorem load16_store32_apart (h : Apart a 4 b 2) : load16 (store32 m a w) b = load16 m b :=
  load16_congr fun i hi => store32_of_le (by have := h.1; have := h.2; bv_omega)

theorem load16_store16_apart (h : Apart a 2 b 2) : load16 (store16 m a v) b = load16 m b :=
  load16_congr fun i hi => store16_of_le (by have := h.1; have := h.2; bv_omega)

end Apart

/-- The loop that copies `n` bytes upwards, one at a time. -/
def copyBytes (m : Mem) (dst src : BitVec 32) : Nat → Mem
  | 0 => m
  | n + 1 =>
    let m' := copyBytes m dst src n
    store8 m' (dst + BitVec.ofNat 32 n) (m' (src + BitVec.ofNat 32 n))

/-- The memory `m` with the `n` bytes from `a` on replaced by `f 0`, ..., `f (n - 1)`. -/
def overlay (m : Mem) (a : BitVec 32) (n : Nat) (f : Nat → BitVec 8) : Mem := fun x =>
  if (x - a).toNat < n then f (x - a).toNat else m x

section Copy

variable {m : Mem} {a b dst src x : BitVec 32} {n k d i o j : Nat} {f : Nat → BitVec 8}

theorem copyBytes_of_le (h : n ≤ (x - dst).toNat) : copyBytes m dst src n x = m x := by
  induction n with
  | zero => rfl
  | succ n ih =>
    rw [copyBytes, store8_ne _ _ (by bv_omega)]
    exact ih (by omega)

@[simp] theorem overlay_zero : overlay m a 0 f = m := by
  funext x
  exact if_neg (Nat.not_lt_zero _)

theorem overlay_of_le (h : n ≤ (x - a).toNat) : overlay m a n f x = m x :=
  if_neg (Nat.not_lt.mpr h)

theorem overlay_apply (hi : i < n) (hn : n ≤ 2 ^ 32) :
    overlay m a n f (a + BitVec.ofNat 32 i) = f i := by
  have hoff : (a + BitVec.ofNat 32 i - a).toNat = i := by bv_omega
  rw [overlay, hoff, if_pos hi]

theorem overlay_succ (hn : n < 2 ^ 32) :
    store8 (overlay m a n f) (a + BitVec.ofNat 32 n) (f n) = overlay m a (n + 1) f := by
  funext x
  have hoff : x = a + BitVec.ofNat 32 n ↔ (x - a).toNat = n := by
    constructor <;> intro h <;> bv_omega
  by_cases hx : (x - a).toNat = n
  · rw [hoff.mpr hx, store8_same, overlay_apply (Nat.lt_succ_self n) hn]
  · rw [store8_ne _ _ (mt hoff.mp hx), overlay, overlay]
    by_cases hlt : (x - a).toNat < n
    · rw [if_pos hlt, if_pos (by omega)]
    · rw [if_neg hlt, if_neg (by omega)]

theorem Apart.le_offset (h : Apart a n b k) (hi : i < n) :
    k ≤ (a + BitVec.ofNat 32 i - b).toNat := by
  obtain ⟨hab, hba⟩ := h
  bv_omega

theorem Apart.part (h : Apart a n b k) (hn : 0 < j) (hj : o + j ≤ n) (hd : d ≤ k) :
    Apart (a + BitVec.ofNat 32 o) j b d := by
  obtain ⟨hab, hba⟩ := h
  constructor <;> bv_omega

theorem copyBytes_overlay (hsrc : ∀ i < n, f (d + i) = m (src + BitVec.ofNat 32 i))
    (hapart : Apart src n a (d + n)) (hd : d + n ≤ 2 ^ 32) :
    copyBytes (overlay m a d f) (a + BitVec.ofNat 32 d) src n = overlay m a (d + n) f := by
  suffices hpart : ∀ k ≤ n,
      copyBytes (overlay m a d f) (a + BitVec.ofNat 32 d) src k = overlay m a (d + k) f from
    hpart n (Nat.le_refl n)
  obtain ⟨hsa, has⟩ := hapart
  intro k hk
  induction k with
  | zero => rfl
  | succ k ih =>
    have hread : overlay m a (d + k) f (src + BitVec.ofNat 32 k) = f (d + k) := by
      rw [overlay_of_le (by bv_omega), hsrc k (by omega)]
    have hdst : a + BitVec.ofNat 32 d + BitVec.ofNat 32 k = a + BitVec.ofNat 32 (d + k) := by
      rw [BitVec.add_assoc, BitVec.ofNat_add]
    rw [copyBytes, ih (by omega), hread, hdst, overlay_succ (by omega)]
    rfl

theorem extractLsb'_load32 (m : Mem) (a : BitVec 32) :
    (load32 m a).extractLsb' 0 8 = m a ∧ (load32 m a).extractLsb' 8 8 = m (a + 1) ∧
      (load32 m a).extractLsb' 16 8 = m (a + 2) ∧ (load32 m a).extractLsb' 24 8 = m (a + 3) := by
  unfold load32
  refine ⟨?_, ?_, ?_, ?_⟩ <;>
    · ext i hi
      simp only [BitVec.getElem_extractLsb', BitVec.getLsbD_append]
      grind

theorem copyWord_overlay (hsrc : ∀ i < 4, f (d + i) = m (src + BitVec.ofNat 32 i))
    (hapart : Apart src 4 a (d + 4)) (hd : d + 4 ≤ 2 ^ 32) :
    store32 (overlay m a d f) (a + BitVec.ofNat 32 d) (load32 (overlay m a d f) src) =
      overlay m a (d + 4) f := by
  obtain ⟨hsa, has⟩ := hapart
  have hread : ∀ i < 4, overlay m a d f (src + BitVec.ofNat 32 i) = f (d + i) := by
    intro i hi
    rw [overlay_of_le (by bv_omega), hsrc i hi]
  obtain ⟨h0, h1, h2, h3⟩ := extractLsb'_load32 (overlay m a d f) src
  have hnext : ∀ i, a + BitVec.ofNat 32 d + BitVec.ofNat 32 i = a + BitVec.ofNat 32 (d + i) := by
    intro i
    rw [BitVec.add_assoc, BitVec.ofNat_add]
  have hr0 := hread 0 (by decide)
  rw [show src + BitVec.ofNat 32 0 = src from BitVec.add_zero src] at hr0
  rw [store32, h0, h1, h2, h3, hr0, Nat.add_zero, show src + 1 = src + BitVec.ofNat 32 1 from rfl,
    show src + 2 = src + BitVec.ofNat 32 2 from rfl, show src + 3 = src + BitVec.ofNat 32 3 from rfl,
    hread 1 (by decide), hread 2 (by decide), hread 3 (by decide),
    show a + BitVec.ofNat 32 d + 1 = _ from hnext 1, show a + BitVec.ofNat 32 d + 2 = _ from hnext 2,
    show a + BitVec.ofNat 32 d + 3 = _ from hnext 3, overlay_succ (by omega), overlay_succ (by omega),
    overlay_succ (by omega), overlay_succ (by omega)]

end Copy

end ByteMemory
