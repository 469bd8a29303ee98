import Mathlib.Data.List.TakeWhile
import Uroboros.Fat12Dir

/-!
# The names under which files are sought

`set_filename` of `fat12.c` and what it calls. `name` and `ext` are given apart
from the `FileName` that is filled; a store outside the array it is meant for
ends the run, and so does a search for the end of `display` that leaves it.
-/

set_option autoImplicit false

namespace Uroboros

open ByteMemory Stdlibc

/-- The loop of `copy_filename`, with `k` for `len - i`. -/
def copyLoop (dst : ArrayField) (src : CStr) : Nat → Nat → CStr → Option CStr
  | 0, _, s => some s
  | k + 1, i, s =>
    if src i = 0x20 ∨ src i = 0 then some s
    else (dst.put s i (src i)).bind fun s => copyLoop dst src k (i + 1) s

/-- The character that `upcase` makes of `c`. -/
def upper (c : U8) : U8 := if BitVec.sle 0x61 c ∧ BitVec.sle c 0x7a then c + (0x41 - 0x61) else c

def upcase (str : ArrayField) : Nat → CStr → Option CStr
  | 0, s => some s
  | n + 1, s => (upcase str n s).bind fun s =>
    if BitVec.sle 0x61 (str.chars s n) ∧ BitVec.sle (str.chars s n) 0x7a then
      str.put s n (str.chars s n + (0x41 - 0x61))
    else some s

def copyFilename (dst : ArrayField) (src : CStr) (len : Nat) (s : CStr) : Option CStr :=
  (dst.fill 0x20 len s).bind fun s => (copyLoop dst src len 0 s).bind fun s => upcase dst len s

/-- The loop of `strlen` on an array, with `k` for what is left of it. -/
def strlenLoop (str : ArrayField) (s : CStr) : Nat → Nat → Option Nat
  | 0, _ => none
  | k + 1, i => if str.chars s i = 0 then some i else strlenLoop str s k (i + 1)

/-- The loop of `strncat` and the store behind it, with `k` for `n - i`; `s2` may be an array of
the object that is written. -/
def strncatLoop (s1 : ArrayField) (s2 : CStr → CStr) (p : Nat) : Nat → Nat → CStr → Option CStr
  | 0, i, s => s1.put s (p + i) 0
  | k + 1, i, s => (s1.put s (p + i) (s2 s i)).bind fun s =>
    if s2 s i = 0 then some s else strncatLoop s1 s2 p k (i + 1) s

def strncat (s1 : ArrayField) (s2 : CStr → CStr) (n : Nat) (s : CStr) : Option CStr :=
  (strlenLoop s1 s s1.size 0).bind fun p => strncatLoop s1 s2 p n 0 s

def dot : CStr := fun i => [0x2e].getD i 0

def setFilename (filename name ext : CStr) : Option CStr :=
  (copyFilename FileName.name name 8 filename).bind fun s =>
  (copyFilename FileName.ext ext 3 s).bind fun s =>
  (FileName.display.fill 0 12 s).bind fun s =>
  (strncat FileName.display FileName.name.chars 8 s).bind fun s =>
  if FileName.ext.chars s 0 ≠ 0x20 then
    (strncat FileName.display (fun _ => dot) 2 s).bind fun s =>
    strncat FileName.display FileName.ext.chars 3 s
  else some s

/-- What ends a name. -/
abbrev NameEnd (c : U8) : Prop := c = 0x20 ∨ c = 0

/-- The characters of `s` from `i` on up to a space or NUL, `k` of them at most. -/
def cut (s : CStr) (i k : Nat) : List U8 :=
  ((List.range' i k).map s).takeWhile fun c => c ≠ 0x20 ∧ c ≠ 0

/-- The name field for `s`: cut, in capitals, padded. -/
def canonical (len : Nat) (s : CStr) : List U8 :=
  ((cut s 0 len).map upper).rightpad len 0x20

section
variable {dst s1 : ArrayField} {src s v w t : CStr} {i j k n p len : Nat} {c : U8}

theorem cut_succ (h : ¬ NameEnd (s i)) : cut s i (k + 1) = s i :: cut s (i + 1) k := by
  rw [cut, List.range'_succ, List.map_cons, List.takeWhile_cons_of_pos, cut]
  exact decide_eq_true (not_or.mp h)

theorem cut_end (h : NameEnd (s i)) : cut s i (k + 1) = [] := by
  rw [cut, List.range'_succ, List.map_cons]
  apply List.takeWhile_cons_of_neg
  rw [decide_eq_true_eq, not_and_or, not_not, not_not]
  exact h

theorem length_cut_le : (cut s i k).length ≤ k := by
  have h := (List.takeWhile_sublist (l := (List.range' i k).map s)
    fun c => decide (c ≠ 0x20 ∧ c ≠ 0)).length_le
  rwa [List.length_map, List.length_range'] at h

theorem copyLoop_overlay (hk : i + k ≤ dst.size) :
    copyLoop dst src k i (dst.overlay s v) = some (dst.overlay s fun j =>
      if i ≤ j ∧ j < i + (cut src i k).length then src j else v j) := by
  induction k generalizing i v with
  | zero =>
    have hempty : (cut src i 0).length = 0 := rfl
    rw [copyLoop, hempty]
    congr 2
    funext j
    rw [if_neg (by omega)]
  | succ k ih =>
    rw [copyLoop]
    by_cases hend : NameEnd (src i)
    · rw [if_pos hend, cut_end hend]
      congr 2
      funext j
      rw [List.length_nil, if_neg (by omega)]
    · rw [if_neg hend, ArrayField.put_overlay (by omega), Option.bind_some, ih (by omega),
        cut_succ hend, List.length_cons]
      congr 2
      funext j
      by_cases hj : j = i
      · rw [hj, if_neg (by omega), Function.update_self, if_pos (by omega)]
      · rw [Function.update_of_ne hj]
        split_ifs with h1 h2 h2
        · rfl
        · exact absurd (by omega) h2
        · exact absurd (by omega) h1
        · rfl

theorem upcase_overlay (hn : n ≤ dst.size) : upcase dst n (dst.overlay s v) =
    some (dst.overlay s fun j => if j < n then upper (v j) else v j) := by
  induction n with
  | zero => rfl
  | succ n ih =>
    rw [upcase, ih (by omega), Option.bind_some, ArrayField.chars_overlay (by omega),
      if_neg (Nat.lt_irrefl n), ← ArrayField.update_prefix (fun j => upper (v j)) v n]
    by_cases hlower : BitVec.sle 0x61 (v n) ∧ BitVec.sle (v n) 0x7a
    · rw [if_pos hlower, ArrayField.put_overlay (by omega), upper, if_pos hlower]
    · have hsame : (if n < n then upper (v n) else v n) = upper (v n) := by
        rw [if_neg (Nat.lt_irrefl n), upper, if_neg hlower]
      rw [if_neg hlower, ← hsame,
        Function.update_eq_self n fun j => if j < n then upper (v j) else v j]

def canonicalAt (len : Nat) (s : CStr) (j : Nat) : U8 :=
  if j < (cut s 0 len).length then upper (s j) else 0x20

theorem copyFilename_eq (hlen : dst.size = len) :
    copyFilename dst src len s = some (dst.overlay s (canonicalAt len src)) := by
  rw [copyFilename, ArrayField.fill_eq (by omega), Option.bind_some, copyLoop_overlay (by omega),
    Option.bind_some, upcase_overlay (by omega)]
  congr 1
  apply ArrayField.overlay_congr
  intro j hj
  have hblank : upper 0x20 = 0x20 := by decide
  rw [if_pos (by omega), if_pos (show j < len by omega), canonicalAt, apply_ite upper, hblank]
  exact if_congr (by omega) rfl rfl

theorem strlenLoop_eq (hi : i ≤ p) (hp : p < i + k) (hnonzero : ∀ j < p, s1.chars s j ≠ 0)
    (hzero : s1.chars s p = 0) : strlenLoop s1 s k i = some p := by
  induction k generalizing i with
  | zero => omega
  | succ k ih =>
    rw [strlenLoop]
    rcases Nat.eq_or_lt_of_le hi with rfl | hlt
    · rw [if_pos hzero]
    · rw [if_neg (hnonzero i hlt)]
      exact ih hlt (by omega)

def appended (p n : Nat) (t v : CStr) : CStr := fun j =>
  if j < p then v j else if j < p + n then t (j - p) else if j = p + n then 0 else v j

theorem appended_end : appended p n t v (p + n) = 0 := by
  rw [appended, if_neg (by omega), if_neg (by omega), if_pos rfl]

theorem appended_zero_ne_zero (ht : ∀ j < n, t j ≠ 0) : ∀ j < n, appended 0 n t v j ≠ 0 := by
  intro j hj
  rw [appended, if_neg (Nat.not_lt_zero j), if_pos (by omega)]
  exact ht (j - 0) hj

theorem appended_ne_zero (hv : ∀ j < p, v j ≠ 0) (ht : ∀ j < n, t j ≠ 0) :
    ∀ j < p + n, appended p n t v j ≠ 0 := by
  intro j hj
  unfold appended
  split_ifs with hlow
  · exact hv j hlow
  · exact ht (j - p) (by omega)

theorem update_appended (t v : CStr) (p i : Nat) : Function.update
    (fun j => if j < p then v j else if j < p + i then t (j - p) else v j) (p + i) (t i) =
      fun j => if j < p then v j else if j < p + (i + 1) then t (j - p) else v j := by
  funext j
  rcases Nat.lt_trichotomy j (p + i) with hlt | rfl | hgt
  · rw [Function.update_of_ne (by omega), if_pos hlt, if_pos (show j < p + (i + 1) by omega)]
  · rw [Function.update_self, if_neg (by omega), if_pos (by omega), Nat.add_sub_cancel_left]
  · rw [Function.update_of_ne (by omega), if_neg (by omega), if_neg (by omega), if_neg (by omega),
      if_neg (by omega)]

theorem update_end (t v : CStr) (p n : Nat) : Function.update
    (fun j => if j < p then v j else if j < p + n then t (j - p) else v j) (p + n) 0 =
      appended p n t v := by
  funext j
  unfold appended
  rcases Nat.lt_trichotomy j (p + n) with hlt | rfl | hgt
  · rw [Function.update_of_ne (by omega), if_pos hlt, if_pos hlt]
  · rw [Function.update_self, if_neg (by omega), if_neg (by omega), if_pos rfl]
  · rw [Function.update_of_ne (by omega), if_neg (by omega), if_neg (by omega), if_neg (by omega),
      if_neg (by omega), if_neg (by omega)]

theorem strncatLoop_overlay {s2 : CStr → CStr} (hsize : p + n < s1.size) (hi : i ≤ n)
    (hsrc : ∀ v, ∀ j < i + k, s2 (s1.overlay s v) j = t j) (hnonzero : ∀ j < n, t j ≠ 0)
    (hk : i + k = n ∨ t n = 0 ∧ n < i + k) :
    strncatLoop s1 s2 p k i (s1.overlay s fun j =>
      if j < p then v j else if j < p + i then t (j - p) else v j) =
    some (s1.overlay s (appended p n t v)) := by
  induction k generalizing i with
  | zero =>
    obtain rfl : i = n := by omega
    rw [strncatLoop, ArrayField.put_overlay hsize, update_end]
  | succ k ih =>
    rw [strncatLoop, hsrc _ i (by omega), ArrayField.put_overlay (by omega), Option.bind_some,
      hsrc _ i (by omega)]
    rcases Nat.eq_or_lt_of_le hi with rfl | hlt
    · have hzero : t i = 0 := by
        rcases hk with hk | hk
        · omega
        · exact hk.1
      rw [if_pos hzero, hzero, update_end]
    · rw [if_neg (hnonzero i hlt), update_appended]
      have hnext : i + 1 + k = i + (k + 1) := by omega
      exact ih hlt (by rwa [hnext]) (by rwa [hnext])

theorem strncat_overlay {s2 : CStr → CStr} (hsize : p + n < s1.size)
    (hchars : ∀ j < p, v j ≠ 0) (hend : v p = 0)
    (hsrc : ∀ v, ∀ j < k, s2 (s1.overlay s v) j = t j) (hnonzero : ∀ j < n, t j ≠ 0)
    (hk : k = n ∨ t n = 0 ∧ n < k) :
    strncat s1 s2 k (s1.overlay s v) = some (s1.overlay s (appended p n t v)) := by
  have hlen : strlenLoop s1 (s1.overlay s v) s1.size 0 = some p := by
    apply strlenLoop_eq (Nat.zero_le p) (by omega)
    · intro j hj
      rw [ArrayField.chars_overlay (by omega)]
      exact hchars j hj
    · rw [ArrayField.chars_overlay (by omega), hend]
  have hstart : (fun j => if j < p then v j else if j < p + 0 then t (j - p) else v j) = v := by
    funext j
    rw [Nat.add_zero, ite_eq_left_iff]
    intro hj
    rw [if_neg hj]
  rw [strncat, hlen, Option.bind_some]
  conv_lhs => rw [← hstart]
  apply strncatLoop_overlay hsize (Nat.zero_le n) _ hnonzero
  · rwa [Nat.zero_add]
  · rwa [Nat.zero_add]

theorem getElem_cut (hj : j < (cut s i k).length) : (cut s i k)[j] = s (i + j) := by
  have hk := Nat.lt_of_lt_of_le hj length_cut_le
  have hlen : j < ((List.range' i k).map s).length := by
    rw [List.length_map, List.length_range']
    exact hk
  have hcut : cut s i k <+: (List.range' i k).map s := List.takeWhile_prefix _
  rw [hcut.getElem hj, List.getElem_map, List.getElem_range', Nat.one_mul]

theorem upper_eq_zero : upper c = 0 → c = 0 := by
  revert c
  decide +kernel

theorem canonicalAt_ne_zero (len : Nat) (s : CStr) (j : Nat) : canonicalAt len s j ≠ 0 := by
  unfold canonicalAt
  split_ifs with hj
  · have hmem := List.mem_takeWhile_imp (List.getElem_mem hj)
    rw [getElem_cut hj, Nat.zero_add, decide_eq_true_eq] at hmem
    exact fun hzero => hmem.2 (upper_eq_zero hzero)
  · decide

/-- The struct with both names set, and what its display array then holds. -/
def named (filename name ext d : CStr) : CStr :=
  FileName.display.overlay (FileName.ext.overlay
    (FileName.name.overlay filename (canonicalAt 8 name)) (canonicalAt 3 ext)) d

variable {filename name ext d : CStr}

theorem named_name (hi : i < 8) :
    FileName.name.chars (named filename name ext d) i = canonicalAt 8 name i := by
  rw [named, ArrayField.chars_overlay_disjoint (by decide) hi,
    ArrayField.chars_overlay_disjoint (by decide) hi, ArrayField.chars_overlay hi]

theorem named_ext (hi : i < 3) :
    FileName.ext.chars (named filename name ext d) i = canonicalAt 3 ext i := by
  rw [named, ArrayField.chars_overlay_disjoint (by decide) hi, ArrayField.chars_overlay hi]

/-- No store and no read of `display` leaves its array. -/
theorem setFilename_eq (filename name ext : CStr) :
    ∃ d, setFilename filename name ext = some (named filename name ext d) := by
  have hname := canonicalAt_ne_zero 8 name
  have hext := canonicalAt_ne_zero 3 ext
  have hdot : ∀ j < 1, dot j ≠ 0 := by decide
  let d0 : CStr := fun i => if i < 12 then 0 else
    FileName.display.chars (FileName.ext.overlay
      (FileName.name.overlay filename (canonicalAt 8 name)) (canonicalAt 3 ext)) i
  let d1 := appended 0 8 (canonicalAt 8 name) d0
  let d2 := appended 8 1 dot d1
  have h1 : strncat FileName.display FileName.name.chars 8 (named filename name ext d0) =
      some (named filename name ext d1) :=
    strncat_overlay (by decide) (fun j hj => absurd hj (Nat.not_lt_zero j)) rfl
      (fun _ _ hj => named_name hj) (fun j _ => hname j) (.inl rfl)
  have hd1 : ∀ j < 8, d1 j ≠ 0 := appended_zero_ne_zero fun j _ => hname j
  have h2 : strncat FileName.display (fun _ => dot) 2 (named filename name ext d1) =
      some (named filename name ext d2) :=
    strncat_overlay (by decide) hd1 appended_end (fun _ _ _ => rfl) hdot (.inr ⟨rfl, by decide⟩)
  have h3 : strncat FileName.display FileName.ext.chars 3 (named filename name ext d2) =
      some (named filename name ext (appended 9 3 (canonicalAt 3 ext) d2)) :=
    strncat_overlay (by decide) (appended_ne_zero hd1 hdot) appended_end
      (fun _ _ hj => named_ext hj) (fun j _ => hext j) (.inl rfl)
  have hfill : FileName.display.fill 0 12 (FileName.ext.overlay
      (FileName.name.overlay filename (canonicalAt 8 name)) (canonicalAt 3 ext)) =
      some (named filename name ext d0) := ArrayField.fill_eq (by decide)
  have hsize8 : FileName.name.size = 8 := rfl
  have hsize3 : FileName.ext.size = 3 := rfl
  rw [setFilename, copyFilename_eq hsize8, Option.bind_some, copyFilename_eq hsize3,
    Option.bind_some, hfill, Option.bind_some, h1, Option.bind_some]
  split_ifs
  · rw [h2, Option.bind_some, h3]
    exact ⟨_, rfl⟩
  · exact ⟨d1, rfl⟩

theorem length_canonical (len : Nat) (s : CStr) : (canonical len s).length = len := by
  have hcut := length_cut_le (s := s) (i := 0) (k := len)
  rw [canonical, List.length_rightpad, List.length_map]
  omega

theorem canonical_eq (len : Nat) (s : CStr) :
    canonical len s = (List.range len).map (canonicalAt len s) := by
  apply List.ext_getElem
  · rw [length_canonical, List.length_map, List.length_range]
  · intro j _ _
    rw [List.getElem_map, List.getElem_range, canonicalAt]
    simp only [canonical, List.rightpad, List.getElem_append, List.length_map, List.getElem_map,
      List.getElem_replicate]
    split_ifs with hj
    · rw [getElem_cut hj, Nat.zero_add]
    · rfl

theorem canonical_eq_iff : (List.range len).map v = canonical len s ↔
    ∀ j < len, v j = canonicalAt len s j := by
  rw [canonical_eq, List.map_inj_left]
  simp only [List.mem_range]

theorem compare_named {m : Mem} {entry : U32} :
    compareShortFilename m entry (named filename name ext d) = true ↔
      (List.range 8).map (charsAt m (entryName entry)) = canonical 8 name ∧
        (List.range 3).map (charsAt m (entryExt entry)) = canonical 3 ext := by
  have hname : ∀ j < 8, FileName.name.chars (named filename name ext d) j ≠ 0 := by
    intro j hj
    rw [named_name hj]
    exact canonicalAt_ne_zero 8 name j
  have hext : ∀ j < 3, FileName.ext.chars (named filename name ext d) j ≠ 0 := by
    intro j hj
    rw [named_ext hj]
    exact canonicalAt_ne_zero 3 ext j
  rw [compareShortFilename_iff hname hext, canonical_eq_iff, canonical_eq_iff]
  apply and_congr
  · exact forall₂_congr fun j hj => by rw [named_name hj]
  · exact forall₂_congr fun j hj => by rw [named_ext hj]

/-- Up to the first space or NUL, and to `len` characters, the two differ in their case at most. -/
def SameName (len : Nat) (s t : CStr) : Prop :=
  ∀ i < len, (∀ j < i, ¬ NameEnd (s j)) →
    NameEnd (s i) ∧ NameEnd (t i) ∨ upper (s i) = upper (t i)

theorem upper_end_iff : NameEnd (upper c) ↔ NameEnd c := by
  revert c
  decide +kernel

theorem upper_upper : upper (upper c) = upper c := by
  revert c
  decide +kernel

theorem end_iff_of_same
    (h : NameEnd (s i) ∧ NameEnd (t i) ∨ upper (s i) = upper (t i)) :
    NameEnd (s i) ↔ NameEnd (t i) := by
  rcases h with ⟨hs, ht⟩ | heq
  · exact iff_of_true hs ht
  · rw [← upper_end_iff, heq, upper_end_iff]

theorem map_upper_cut (h : ∀ l, i ≤ l → l < i + k →
      (∀ j, i ≤ j → j < l → ¬ NameEnd (s j)) →
      NameEnd (s l) ∧ NameEnd (t l) ∨ upper (s l) = upper (t l)) :
    (cut s i k).map upper = (cut t i k).map upper := by
  induction k generalizing i with
  | zero => rfl
  | succ k ih =>
    have hi := h i (Nat.le_refl i) (by omega) fun j hlo hhi => absurd hhi (by omega)
    by_cases hend : NameEnd (s i)
    · rw [cut_end hend, cut_end ((end_iff_of_same hi).mp hend)]
    · have htail := ih (i := i + 1) fun l hlo hhi hbefore => h l (by omega) (by omega) (by
        intro j hij hjl
        rcases Nat.eq_or_lt_of_le hij with rfl | hlt
        · exact hend
        · exact hbefore j hlt hjl)
      have hupper : upper (s i) = upper (t i) := hi.resolve_left fun hboth => hend hboth.1
      rw [cut_succ hend, cut_succ (mt (end_iff_of_same hi).mpr hend), List.map_cons, List.map_cons,
        hupper, htail]

theorem canonical_congr (h : SameName len s t) : canonical len s = canonical len t := by
  rw [canonical, canonical, map_upper_cut]
  intro l _ hl hbefore
  exact h l (by omega) fun j hj => hbefore j (Nat.zero_le j) hj

theorem lt_length_cut (hl : j < k) (h : ∀ l ≤ j, ¬ NameEnd (s (i + l))) :
    j < (cut s i k).length := by
  induction k generalizing i j with
  | zero => omega
  | succ k ih =>
    have hfirst : ¬ NameEnd (s i) := h 0 (Nat.zero_le j)
    rw [cut_succ hfirst, List.length_cons]
    cases j with
    | zero => exact Nat.succ_pos _
    | succ j =>
      apply Nat.succ_lt_succ
      apply ih (by omega)
      intro l hl
      have hnext := h (l + 1) (by omega)
      rwa [Nat.add_left_comm, Nat.add_comm] at hnext

/-- A name that has been set differs from what it was set from in its case at most. -/
theorem sameName_canonicalAt (h : ∀ j < len, t j = canonicalAt len s j) : SameName len s t := by
  intro i hi hbefore
  rw [h i hi, canonicalAt]
  by_cases hend : NameEnd (s i)
  · left
    refine ⟨hend, ?_⟩
    rw [if_neg]
    · exact .inl rfl
    · intro hlt
      have hmem := List.mem_takeWhile_imp (List.getElem_mem hlt)
      rw [getElem_cut hlt, Nat.zero_add, decide_eq_true_eq] at hmem
      exact hend.elim hmem.1 hmem.2
  · right
    rw [if_pos, upper_upper]
    apply lt_length_cut hi
    intro l hl
    rw [Nat.zero_add]
    rcases Nat.eq_or_lt_of_le hl with rfl | hlt
    · exact hend
    · exact hbefore l hlt

theorem findEntry_congr {m : Mem} {f g : CStr}
    (h : ∀ entry, compareShortFilename m entry f = compareShortFilename m entry g) (n : Nat)
    (dir : U32) : findEntry m f n dir = findEntry m g n dir := by
  induction n generalizing dir with
  | zero => rfl
  | succ n ih => rw [findEntry, findEntry, examine, examine, h, ih]

end

/-- What `set_filename` makes of two names: the entries that carry them in capitals, cut and
padded; the same for names that differ in their case at most or behind their first space; and the
same again from the fields it has set. All stores stay inside the arrays. -/
theorem setFilename_canonical (filename name ext : CStr) :
    ∃ f, setFilename filename name ext = some f ∧
      (∀ m entry, compareShortFilename m entry f = true ↔
        (List.range 8).map (charsAt m (entryName entry)) = canonical 8 name ∧
          (List.range 3).map (charsAt m (entryExt entry)) = canonical 3 ext) ∧
      (∀ other name' ext', SameName 8 name name' → SameName 3 ext ext' →
        ∃ f', setFilename other name' ext' = some f' ∧
          (∀ m entry, compareShortFilename m entry f' = compareShortFilename m entry f) ∧
          ∀ m n dir, findEntry m f' n dir = findEntry m f n dir) ∧
      ∀ other name' ext', (∀ i < 8, name' i = FileName.name.chars f i) →
        (∀ i < 3, ext' i = FileName.ext.chars f i) →
        ∃ f', setFilename other name' ext' = some f' ∧
          (∀ i < 8, FileName.name.chars f' i = FileName.name.chars f i) ∧
          ∀ i < 3, FileName.ext.chars f' i = FileName.ext.chars f i := by
  obtain ⟨d, hd⟩ := setFilename_eq filename name ext
  refine ⟨_, hd, fun m entry => compare_named, ?_, ?_⟩
  · intro other name' ext' hname hext
    obtain ⟨d', hd'⟩ := setFilename_eq other name' ext'
    have hsame : ∀ m entry, compareShortFilename m entry (named other name' ext' d') =
        compareShortFilename m entry (named filename name ext d) := by
      intro m entry
      rw [Bool.eq_iff_iff, compare_named, compare_named, canonical_congr hname,
        canonical_congr hext]
    exact ⟨_, hd', hsame, fun m n dir => findEntry_congr (hsame m) n dir⟩
  · intro other name' ext' hname hext
    obtain ⟨d', hd'⟩ := setFilename_eq other name' ext'
    have hname' : SameName 8 name name' :=
      sameName_canonicalAt fun i hi => (hname i hi).trans (named_name hi)
    have hext' : SameName 3 ext ext' :=
      sameName_canonicalAt fun i hi => (hext i hi).trans (named_ext hi)
    refine ⟨_, hd', ?_, ?_⟩
    · intro i hi
      rw [named_name hi, named_name hi]
      have heq := canonical_congr hname'
      rw [canonical_eq, canonical_eq, List.map_inj_left] at heq
      exact (heq i (List.mem_range.mpr hi)).symm
    · intro i hi
      rw [named_ext hi, named_ext hi]
      have heq := canonical_congr hext'
      rw [canonical_eq, canonical_eq, List.map_inj_left] at heq
      exact (heq i (List.mem_range.mpr hi)).symm

end Uroboros
