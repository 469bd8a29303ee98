import Mathlib.Order.Bounds.Basic
import Uroboros.Fat12Free
import Uroboros.Lib.ArrayField
import Uroboros.Stdlibc

/-!
# The root directory of a volume

`get_rde` and `find_entry` of `fat12.c`. The search takes the entries one after
the other from where it starts, and nothing but their contents ends it.
-/

set_option autoImplicit false

namespace Uroboros

open ByteMemory Stdlibc

def getRde (m : Mem) (bpb : U32) : U32 :=
  bpb + (reservedSectors m bpb).setWidth 32 * (bytesPerSector m bpb).setWidth 32
    + (numberOfFats m bpb).setWidth 32 * (sectorsPerFat m bpb).setWidth 32
      * (bytesPerSector m bpb).setWidth 32

def FAT12_ATTR_LFN : U8 := 0x0F
def FILE_NAME_EOT : U8 := 0x00
def FILE_NAME_DELETED : U8 := 0xE5

-- Fields of `DE`, and of the `FileName` whose bytes are the function `filename`.
def entryName (entry : U32) : U32 := entry

def entryExt (entry : U32) : U32 := entry + 8

def entryAttribute (m : Mem) (entry : U32) : U8 := m (entry + 11)

namespace FileName

def name : ArrayField := { offset := 0, size := 8 }

def ext : ArrayField := { offset := 8, size := 3 }

def display : ArrayField := { offset := 11, size := 13 }

end FileName

def compareShortFilename (m : Mem) (entry : U32) (filename : CStr) : Bool :=
  strncmp (charsAt m (entryName entry)) (FileName.name.chars filename) 8 == 0
    && strncmp (charsAt m (entryExt entry)) (FileName.ext.chars filename) 3 == 0

/-- What one pass of the loop returns, if it does; `entry->filename` has signed characters. -/
def examine (m : Mem) (filename : CStr) (entry : U32) : Option (Option U32) :=
  if m (entryName entry) = FILE_NAME_EOT then some none
  else if charToInt (m (entryName entry)) = 0xE5 then none
  else if entryAttribute m entry = FAT12_ATTR_LFN then none
  else if compareShortFilename m entry filename then some (some entry)
  else none

/-- The search, as far as it ends within `fuel` entries; `none` inside is `NULL`. -/
def findEntry (m : Mem) (filename : CStr) : Nat → U32 → Option (Option U32)
  | 0, _ => none
  | fuel + 1, entry =>
    (examine m filename entry).elim (findEntry m filename fuel (entry + sizeofDE)) some

def entryAt (dir : U32) (i : Nat) : U32 := dir + BitVec.ofNat 32 (32 * i)

def HasName (m : Mem) (filename : CStr) (entry : U32) : Prop :=
  (∀ j < 8, charsAt m (entryName entry) j = FileName.name.chars filename j) ∧
    ∀ j < 3, charsAt m (entryExt entry) j = FileName.ext.chars filename j

/-- A short entry with the name, in use or not. -/
def ShortNamed (m : Mem) (filename : CStr) (entry : U32) : Prop :=
  entryAttribute m entry ≠ FAT12_ATTR_LFN ∧ HasName m filename entry

/-- The entry in use that is sought. -/
def Names (m : Mem) (filename : CStr) (entry : U32) : Prop :=
  m (entryName entry) ≠ FILE_NAME_DELETED ∧ ShortNamed m filename entry

/-- Entry `n` is the first that is marked as the end. -/
def Terminator (m : Mem) (dir : U32) (n : Nat) : Prop :=
  m (entryName (entryAt dir n)) = FILE_NAME_EOT ∧
    ∀ i < n, m (entryName (entryAt dir i)) ≠ FILE_NAME_EOT

/-- The first entry in front of number `n` with the name, `NULL` exactly when there is none. -/
def IsFirstNamed (m : Mem) (filename : CStr) (dir : U32) (n : Nat) (r : Option U32) : Prop :=
  (∀ i, IsLeast {i | i < n ∧ Names m filename (entryAt dir i)} i → r = some (entryAt dir i)) ∧
    (r = none ↔ ∀ i < n, ¬ Names m filename (entryAt dir i))

section
variable {m : Mem} {filename : CStr} {bpb entry dir : U32} {n i : Nat} {r : Option U32}

theorem compareShortFilename_iff (hname : ∀ j < 8, FileName.name.chars filename j ≠ 0)
    (hext : ∀ j < 3, FileName.ext.chars filename j ≠ 0) :
    compareShortFilename m entry filename = true ↔ HasName m filename entry := by
  rw [compareShortFilename, Bool.and_eq_true, beq_iff_eq, beq_iff_eq,
    strncmp_eq_zero_iff rfl hname, strncmp_eq_zero_iff rfl hext]
  rfl

/-- No signed character has the value of the mark. -/
theorem charToInt_ne_deleted (c : U8) : charToInt c ≠ 0xE5 := by
  intro h
  have hint := congrArg BitVec.toInt h
  have hlt := BitVec.toInt_lt (x := c)
  rw [charToInt, BitVec.toInt_signExtend_of_le (by decide)] at hint
  have hmark : (0xE5 : U32).toInt = 0xE5 := by decide
  rw [hmark] at hint
  omega

/-- Only the end and an entry that is taken stop the search. -/
theorem examine_eq (m : Mem) (filename : CStr) (entry : U32) : examine m filename entry =
    if m (entryName entry) = FILE_NAME_EOT then some none
    else if entryAttribute m entry ≠ FAT12_ATTR_LFN ∧ compareShortFilename m entry filename then
      some (some entry)
    else none := by
  rw [examine, if_neg (charToInt_ne_deleted _)]
  by_cases hend : m (entryName entry) = FILE_NAME_EOT
  · rw [if_pos hend, if_pos hend]
  rw [if_neg hend, if_neg hend]
  by_cases hlfn : entryAttribute m entry = FAT12_ATTR_LFN
  · rw [if_pos hlfn, if_neg fun h => h.1 hlfn]
  · rw [if_neg hlfn]
    by_cases hcmp : compareShortFilename m entry filename = true
    · rw [if_pos hcmp, if_pos ⟨hlfn, hcmp⟩]
    · rw [if_neg hcmp, if_neg fun h => hcmp h.2]

theorem entryAt_zero (dir : U32) : entryAt dir 0 = dir := by
  rw [entryAt, Nat.mul_zero]
  exact BitVec.add_zero dir

theorem entryAt_succ (dir : U32) (i : Nat) : entryAt (dir + sizeofDE) i = entryAt dir (i + 1) := by
  unfold entryAt sizeofDE
  bv_omega

/-- The search ends at the first entry that stops it, if that is among those examined. -/
theorem findEntry_eq_some_iff : findEntry m filename n dir = some r ↔
    ∃ i < n, examine m filename (entryAt dir i) = some r ∧
      ∀ j < i, examine m filename (entryAt dir j) = none := by
  induction n generalizing dir with
  | zero => exact iff_of_false (by simp [findEntry]) fun ⟨i, hi, _⟩ => Nat.not_lt_zero i hi
  | succ n ih =>
    rw [findEntry]
    cases hstop : examine m filename dir with
    | some r' =>
      rw [Option.elim_some]
      constructor
      · intro h
        refine ⟨0, Nat.succ_pos n, ?_, fun j hj => absurd hj (Nat.not_lt_zero j)⟩
        rw [entryAt_zero, hstop, h]
      · rintro ⟨i, _, hi, hbefore⟩
        cases i with
        | zero => rw [← hi, entryAt_zero, hstop]
        | succ i =>
          have hnone := hbefore 0 (Nat.succ_pos i)
          rw [entryAt_zero, hstop] at hnone
          exact absurd hnone (Option.some_ne_none r')
    | none =>
      rw [Option.elim_none, ih]
      constructor
      · rintro ⟨i, hi, hr, hbefore⟩
        refine ⟨i + 1, Nat.succ_lt_succ hi, by rw [← entryAt_succ, hr], ?_⟩
        intro j hj
        cases j with
        | zero => rw [entryAt_zero, hstop]
        | succ j =>
          rw [← entryAt_succ]
          exact hbefore j (Nat.lt_of_succ_lt_succ hj)
      · rintro ⟨i, hi, hr, hbefore⟩
        cases i with
        | zero =>
          rw [entryAt_zero, hstop] at hr
          exact absurd hr.symm (Option.some_ne_none r)
        | succ i =>
          refine ⟨i, Nat.lt_of_succ_lt_succ hi, by rw [entryAt_succ, hr], ?_⟩
          intro j hj
          rw [entryAt_succ]
          exact hbefore (j + 1) (Nat.succ_lt_succ hj)

theorem exists_findEntry_iff : (∃ r, findEntry m filename n dir = some r) ↔
    ∃ i < n, examine m filename (entryAt dir i) ≠ none := by
  constructor
  · rintro ⟨r, h⟩
    obtain ⟨i, hi, hr, _⟩ := findEntry_eq_some_iff.mp h
    exact ⟨i, hi, by rw [hr]; exact Option.some_ne_none r⟩
  · intro h
    have hfirst := Nat.find_spec h
    have hmin : ∀ j < Nat.find h, examine m filename (entryAt dir j) = none := by
      intro j hj
      have hno := Nat.find_min h hj
      by_contra hne
      exact hno ⟨Nat.lt_trans hj hfirst.1, hne⟩
    obtain ⟨r, hr⟩ := Option.ne_none_iff_exists'.mp hfirst.2
    exact ⟨r, findEntry_eq_some_iff.mpr ⟨Nat.find h, hfirst.1, hr, hmin⟩⟩

theorem examine_ne_none_iff : examine m filename entry ≠ none ↔
    m (entryName entry) = FILE_NAME_EOT ∨
      entryAttribute m entry ≠ FAT12_ATTR_LFN ∧ compareShortFilename m entry filename = true := by
  rw [examine_eq]
  split_ifs with hend htake
  · exact iff_of_true (Option.some_ne_none _) (.inl hend)
  · exact iff_of_true (Option.some_ne_none _) (.inr htake)
  · exact iff_of_false (fun h => h rfl) fun h => h.elim hend htake

theorem compare_of_examine_eq (h : examine m filename entry = some (some dir)) :
    dir = entry ∧ compareShortFilename m entry filename = true := by
  rw [examine_eq] at h
  split_ifs at h with hend htake
  · exact absurd (Option.some.inj h).symm (Option.some_ne_none dir)
  · exact ⟨(Option.some.inj (Option.some.inj h)).symm, htake.2⟩

/-- Within the root directory the search ends, with `NULL` if no entry has the name. -/
def StaysInDirectory (m : Mem) (bpb : U32) (filename : CStr) : Prop :=
  ∃ r, findEntry m filename (rootEntries m bpb).toNat (getRde m bpb) = some r ∧
    ((∀ i < (rootEntries m bpb).toNat,
      ¬ compareShortFilename m (entryAt (getRde m bpb) i) filename = true) → r = none)

/-- The search stays inside the directory exactly when an entry of it is marked as the end or
is one that the search takes. -/
theorem findEntry_stays_iff (m : Mem) (bpb : U32) (filename : CStr) :
    StaysInDirectory m bpb filename ↔ ∃ i < (rootEntries m bpb).toNat,
      m (entryName (entryAt (getRde m bpb) i)) = FILE_NAME_EOT ∨
        entryAttribute m (entryAt (getRde m bpb) i) ≠ FAT12_ATTR_LFN ∧
          compareShortFilename m (entryAt (getRde m bpb) i) filename = true := by
  simp only [← examine_ne_none_iff]
  rw [← exists_findEntry_iff]
  constructor
  · rintro ⟨r, hr, _⟩
    exact ⟨r, hr⟩
  · rintro ⟨r, hr⟩
    refine ⟨r, hr, ?_⟩
    intro habsent
    obtain ⟨i, hi, hstop, _⟩ := findEntry_eq_some_iff.mp hr
    cases r with
    | none => rfl
    | some e => exact absurd (compare_of_examine_eq hstop).2 (habsent i hi)

end

def nameB : CStr := fun i => if i = 0 then 0x42 else 0x20

def floppyBpb : List U8 :=
  [0xEB, 0x3C, 0x90, 0x55, 0x52, 0x4F, 0x42, 0x4F, 0x52, 0x4F, 0x53, 0x00, 0x02, 0x01, 0x01, 0x00,
    0x02, 0xE0, 0x00, 0x40, 0x0B, 0xF0, 0x09, 0x00, 0x12, 0x00, 0x02, 0x00]

def fullDisk : Mem := fun x =>
  if x.toNat < 28 then floppyBpb.getD x.toNat 0
  else if x.toNat % 32 < 11 then 0x41
  else if x.toNat % 32 = 11 then 0x20
  else 0x00

theorem fullDisk_name {x : U32} (hlow : 28 ≤ x.toNat) (hx : x.toNat % 32 = 0) :
    fullDisk x = 0x41 := by
  rw [fullDisk, if_neg (by omega), if_pos (by omega)]

/-- A name that is not in a full directory is sought behind it. -/
theorem findEntry_leaves_directory : ¬ ∀ (m : Mem) (bpb : U32) (filename : CStr),
    StaysInDirectory m bpb filename := by
  intro hall
  obtain ⟨r, hr, _⟩ := hall fullDisk 0 nameB
  obtain ⟨i, hi, hstop⟩ := exists_findEntry_iff.mp ⟨r, hr⟩
  have hroot : (rootEntries fullDisk 0).toNat = 224 := by decide
  have hrde : getRde fullDisk 0 = 9728 := by decide
  rw [hroot] at hi
  have hentry : fullDisk (entryName (entryAt (getRde fullDisk 0) i)) = 0x41 := by
    have haddr : (entryName (entryAt (getRde fullDisk 0) i)).toNat = 9728 + 32 * i := by
      rw [hrde, entryName, entryAt]
      bv_omega
    exact fullDisk_name (by omega) (by omega)
  rcases examine_ne_none_iff.mp hstop with hend | ⟨_, hcmp⟩
  · rw [hentry] at hend
    exact absurd hend (by decide)
  · have hsame := (compareShortFilename_iff (by decide) (by decide)).mp hcmp
    have hfirst := hsame.1 0 (by decide)
    rw [charsAt_zero, hentry] at hfirst
    exact absurd hfirst (by decide)

section
variable {m : Mem} {filename : CStr} {entry dir : U32} {n i : Nat}

/-- In a directory that ends with entry `n` the search returns what was sought. -/
def FindsFirst (m : Mem) (filename : CStr) (dir : U32) (n : Nat) : Prop :=
  ∃ r, findEntry m filename (n + 1) dir = some r ∧ IsFirstNamed m filename dir n r

/-- The name sought does not look like that of a deleted entry, or no short entry carries it. -/
def NotDeletedName (m : Mem) (filename : CStr) (dir : U32) (n : Nat) : Prop :=
  FileName.name.chars filename 0 ≠ FILE_NAME_DELETED ∨
    ∀ i < n, ¬ ShortNamed m filename (entryAt dir i)

theorem HasName.first (h : HasName m filename entry) :
    m (entryName entry) = FileName.name.chars filename 0 := by
  rw [← h.1 0 (by decide), charsAt_zero]

/-- Where no name in the way begins like that of a deleted entry, an entry is taken for what it
is. -/
theorem names_iff
    (h : FileName.name.chars filename 0 ≠ FILE_NAME_DELETED ∨ ¬ ShortNamed m filename entry) :
    Names m filename entry ↔ ShortNamed m filename entry := by
  constructor
  · exact fun hnames => hnames.2
  · intro htaken
    rcases h with hfirst | hnone
    · exact ⟨htaken.2.first ▸ hfirst, htaken⟩
    · exact absurd htaken hnone

theorem examine_of_ne_end (hname : ∀ j < 8, FileName.name.chars filename j ≠ 0)
    (hext : ∀ j < 3, FileName.ext.chars filename j ≠ 0)
    (hend : m (entryName entry) ≠ FILE_NAME_EOT) :
    (examine m filename entry = some (some entry) ∧ ShortNamed m filename entry) ∨
      (examine m filename entry = none ∧ ¬ ShortNamed m filename entry) := by
  have hcmp : compareShortFilename m entry filename = true ↔ HasName m filename entry :=
    compareShortFilename_iff hname hext
  rw [examine_eq, if_neg hend, ShortNamed, ← hcmp]
  split_ifs with htake
  · exact .inl ⟨rfl, htake⟩
  · exact .inr ⟨rfl, htake⟩

theorem examine_of_end (hend : m (entryName entry) = FILE_NAME_EOT) :
    examine m filename entry = some none := by
  rw [examine_eq, if_pos hend]

theorem findEntry_of_terminator (hname : ∀ j < 8, FileName.name.chars filename j ≠ 0)
    (hext : ∀ j < 3, FileName.ext.chars filename j ≠ 0) (hterm : Terminator m dir n) :
    (∃ i < n, findEntry m filename (n + 1) dir = some (some (entryAt dir i)) ∧
        ShortNamed m filename (entryAt dir i) ∧
        ∀ j < i, ¬ ShortNamed m filename (entryAt dir j)) ∨
      (findEntry m filename (n + 1) dir = some none ∧
        ∀ i < n, ¬ ShortNamed m filename (entryAt dir i)) := by
  have hbefore := fun i hi => examine_of_ne_end hname hext (hterm.2 i hi)
  have hstop : ∃ i < n + 1, examine m filename (entryAt dir i) ≠ none :=
    ⟨n, Nat.lt_succ_self n, by rw [examine_of_end hterm.1]; exact Option.some_ne_none _⟩
  obtain ⟨r, hr⟩ := exists_findEntry_iff.mpr hstop
  obtain ⟨i, hi, hri, hmin⟩ := findEntry_eq_some_iff.mp hr
  have hnot : ∀ j < i, j < n → ¬ ShortNamed m filename (entryAt dir j) := by
    intro j hj hjn
    rcases hbefore j hjn with ⟨hsome, _⟩ | ⟨_, hno⟩
    · rw [hmin j hj] at hsome
      exact absurd hsome.symm (Option.some_ne_none _)
    · exact hno
  rcases Nat.lt_or_ge i n with hlt | hge
  · rcases hbefore i hlt with ⟨hsome, htaken⟩ | ⟨hnone, _⟩
    · rw [hri] at hsome
      exact .inl ⟨i, hlt, hr.trans hsome, htaken, fun j hj => hnot j hj (Nat.lt_trans hj hlt)⟩
    · rw [hri] at hnone
      exact absurd hnone (Option.some_ne_none _)
  · have hin : i = n := by omega
    subst hin
    rw [examine_of_end hterm.1] at hri
    exact .inr ⟨hr.trans hri.symm, fun j hj => hnot j hj hj⟩

end

/-- The search finds the first entry in use exactly when it cannot take a deleted one for it. -/
theorem findEntry_finds_iff (m : Mem) (filename : CStr) (dir : U32) (n : Nat)
    (hname : ∀ j < 8, FileName.name.chars filename j ≠ 0)
    (hext : ∀ j < 3, FileName.ext.chars filename j ≠ 0)
    (hterm : Terminator m dir n) :
    FindsFirst m filename dir n ↔ NotDeletedName m filename dir n := by
  constructor
  · rintro ⟨r, hr, _, hnull⟩
    by_contra hbad
    obtain ⟨hfirst, htaken⟩ := not_or.mp hbad
    rw [not_not] at hfirst
    have habsent : ∀ i < n, ¬ Names m filename (entryAt dir i) := by
      rintro i _ ⟨hused, _, hsame⟩
      exact hused (hsame.first.trans hfirst)
    have hnone := hnull.mpr habsent
    rcases findEntry_of_terminator hname hext hterm with ⟨i, _, hfound, _⟩ | ⟨_, hno⟩
    · rw [hfound, hnone] at hr
      exact absurd (Option.some.inj hr) (Option.some_ne_none _)
    · exact htaken hno
  · intro hok
    have hnames : ∀ i < n,
        Names m filename (entryAt dir i) ↔ ShortNamed m filename (entryAt dir i) :=
      fun i hi => names_iff (hok.imp_right fun h => h i hi)
    rcases findEntry_of_terminator hname hext hterm with
      ⟨i, hi, hfound, htaken, hmin⟩ | ⟨hnull, hno⟩
    · refine ⟨_, hfound, ?_, ?_⟩
      · rintro k ⟨⟨hk, hkname⟩, hleast⟩
        have hki : k ≤ i := hleast ⟨hi, (hnames i hi).mpr htaken⟩
        have hik : ¬ k < i := fun hlt => hmin k hlt ((hnames k hk).mp hkname)
        rw [Nat.le_antisymm hki (Nat.not_lt.mp hik)]
      · exact iff_of_false (Option.some_ne_none _) fun h => h i hi ((hnames i hi).mpr htaken)
    · refine ⟨none, hnull, ?_, ?_⟩
      · rintro k ⟨⟨hk, hkname⟩, _⟩
        exact absurd ((hnames k hk).mp hkname) (hno k hk)
      · exact iff_of_true rfl fun i hi h => hno i hi ((hnames i hi).mp h)

def deletedFile : CStr := fun i =>
  [0xE5, 0x42, 0x43, 0x20, 0x20, 0x20, 0x20, 0x20, 0x54, 0x58, 0x54].getD i 0

def deletedDir : Mem := fun x => if x.toNat < 11 then deletedFile x.toNat else 0

theorem terminator_deletedDir : Terminator deletedDir 0 1 := ⟨by decide, by decide⟩

/-- A deleted file is found under the name it has left. -/
theorem findEntry_finds_deleted : ¬ ∀ (m : Mem) (filename : CStr) (dir : U32) (n : Nat),
    (∀ j < 8, FileName.name.chars filename j ≠ 0) → (∀ j < 3, FileName.ext.chars filename j ≠ 0) →
    Terminator m dir n → (∀ i < n, ∀ j < 11, m (entryAt dir i + BitVec.ofNat 32 j) ≠ 0) →
    FindsFirst m filename dir n := by
  intro hall
  obtain ⟨r, hr, _, hnull⟩ := hall deletedDir deletedFile 0 1 (by decide) (by decide)
    terminator_deletedDir (by decide)
  have hfound : findEntry deletedDir deletedFile 2 0 = some (some 0) := by decide
  have hno : ∀ i < 1, ¬ Names deletedDir deletedFile (entryAt 0 i) := by
    rintro i hi ⟨hused, _⟩
    obtain rfl : i = 0 := by omega
    exact hused (by decide)
  rw [hnull.mpr hno, hfound] at hr
  exact absurd (Option.some.inj hr) (Option.some_ne_none _)

def readme : CStr := fun i =>
  [0x52, 0x45, 0x41, 0x44, 0x4D, 0x45, 0x20, 0x20, 0x54, 0x58, 0x54].getD i 0

/-- The names and attributes of a deleted file, of a part of a long name with the bytes of
`README.TXT`, and of `README.BIN` and `README.TXT`. -/
def sharedEntries : List (List U8) :=
  [[0xE5, 0x45, 0x41, 0x44, 0x4D, 0x45, 0x20, 0x20, 0x54, 0x58, 0x54, 0x20],
    [0x52, 0x45, 0x41, 0x44, 0x4D, 0x45, 0x20, 0x20, 0x54, 0x58, 0x54, 0x0F],
    [0x52, 0x45, 0x41, 0x44, 0x4D, 0x45, 0x20, 0x20, 0x42, 0x49, 0x4E, 0x20],
    [0x52, 0x45, 0x41, 0x44, 0x4D, 0x45, 0x20, 0x20, 0x54, 0x58, 0x54, 0x20]]

def sharedDir : Mem := fun x => (sharedEntries.getD (x.toNat / 32) []).getD (x.toNat % 32) 0

theorem findEntry_finds_readme : FindsFirst sharedDir readme 0 4 ∧
    findEntry sharedDir readme 5 0 = some (some 96) ∧ ¬ FindsFirst deletedDir deletedFile 0 1 := by
  have hreadme := findEntry_finds_iff sharedDir readme 0 4 (by decide) (by decide)
    ⟨by decide, by decide⟩
  have hdeleted := findEntry_finds_iff deletedDir deletedFile 0 1 (by decide) (by decide)
    terminator_deletedDir
  refine ⟨hreadme.mpr (.inl (by decide)), by decide +kernel, fun h => ?_⟩
  rcases hdeleted.mp h with hname | hno
  · exact hname (by decide)
  · exact hno 0 (by decide) ⟨by decide, by decide, by decide⟩

section
variable {m : Mem} {bpb : U32}

def rdeOffset (m : Mem) (bpb : U32) : Nat :=
  (reservedSectors m bpb).toNat * (bytesPerSector m bpb).toNat
    + (numberOfFats m bpb).toNat * (sectorsPerFat m bpb).toNat * (bytesPerSector m bpb).toNat

def rdeSize (m : Mem) (bpb : U32) : Nat := (rootEntries m bpb).toNat * 32

/-- The volume up to the end of its root directory lies below 4 GiB. -/
def SumsFit (m : Mem) (bpb : U32) : Prop :=
  bpb.toNat + rdeOffset m bpb + rdeSize m bpb < 2 ^ 32

/-- Every entry of the root directory ends in front of the data, which begin at the first
sector boundary behind it. -/
def RegionsApart (m : Mem) (bpb : U32) : Prop :=
  ∃ d, getFirstDataSector m bpb = some d ∧
    (∀ i < (rootEntries m bpb).toNat, (getRde m bpb).toNat + 32 * i + 32 ≤ d.toNat) ∧
    IsLeast {a | (∃ k, a = bpb.toNat + k * (bytesPerSector m bpb).toNat) ∧
      (getRde m bpb).toNat + rdeSize m bpb ≤ a} d.toNat

theorem getRde_eq (m : Mem) (bpb : U32) :
    getRde m bpb = bpb + BitVec.ofNat 32 (rdeOffset m bpb) := by
  rw [getRde, rdeOffset, BitVec.ofNat_add, BitVec.ofNat_mul, BitVec.ofNat_mul, BitVec.ofNat_mul,
    BitVec.ofNat_toNat, BitVec.ofNat_toNat, BitVec.ofNat_toNat, BitVec.ofNat_toNat,
    BitVec.add_assoc]

theorem toNat_getRde (h : SumsFit m bpb) :
    (getRde m bpb).toNat = bpb.toNat + rdeOffset m bpb := by
  unfold SumsFit at h
  rw [getRde_eq, BitVec.toNat_add, BitVec.toNat_ofNat]
  omega

theorem dataSector_mul (m : Mem) (bpb : U32) :
    dataSector m bpb 2 * (bytesPerSector m bpb).toNat = rdeOffset m bpb +
      rdeSize m bpb / (bytesPerSector m bpb).toNat * (bytesPerSector m bpb).toNat := by
  rw [dataSector, rdeOffset, rdeSize, Nat.sub_self, Nat.add_zero, Nat.add_mul, Nat.add_mul]

theorem toNat_getFirstDataSector (h : SumsFit m bpb) (hpos : 0 < (bytesPerSector m bpb).toNat) :
    ∃ d, getFirstDataSector m bpb = some d ∧ d.toNat = bpb.toNat + rdeOffset m bpb +
      rdeSize m bpb / (bytesPerSector m bpb).toNat * (bytesPerSector m bpb).toNat := by
  refine ⟨_, getFirstDataSector_eq hpos, ?_⟩
  have hle := Nat.div_mul_le_self (rdeSize m bpb) (bytesPerSector m bpb).toNat
  unfold SumsFit at h
  rw [dataSector_mul, BitVec.toNat_add, BitVec.toNat_ofNat]
  omega

end

/-- The regions are apart exactly when the directory fills whole sectors. -/
theorem regions_apart_iff (m : Mem) (bpb : U32) (hpos : 0 < (bytesPerSector m bpb).toNat)
    (hfit : SumsFit m bpb) :
    RegionsApart m bpb ↔ (bytesPerSector m bpb).toNat ∣ (rootEntries m bpb).toNat * 32 := by
  obtain ⟨d, hd, hdnat⟩ := toNat_getFirstDataSector hfit hpos
  have hrde := toNat_getRde hfit
  have hle := Nat.div_mul_le_self (rdeSize m bpb) (bytesPerSector m bpb).toNat
  constructor
  · rintro ⟨d', hd', _, hleast, _⟩
    obtain rfl : d = d' := Option.some.inj (hd.symm.trans hd')
    have hbehind : (getRde m bpb).toNat + rdeSize m bpb ≤ d.toNat := hleast.2
    have hwhole : rdeSize m bpb =
        rdeSize m bpb / (bytesPerSector m bpb).toNat * (bytesPerSector m bpb).toNat := by
      omega
    exact ⟨_, hwhole.trans (Nat.mul_comm _ _)⟩
  · intro hdvd
    have hwhole : rdeSize m bpb / (bytesPerSector m bpb).toNat * (bytesPerSector m bpb).toNat =
        rdeSize m bpb := Nat.div_mul_cancel hdvd
    rw [hwhole] at hdnat
    refine ⟨d, hd, ?_, ⟨?_, ?_⟩, ?_⟩
    · intro i hi
      have hin : 32 * i + 32 ≤ rdeSize m bpb := by
        rw [rdeSize]
        omega
      omega
    · refine ⟨dataSector m bpb 2, ?_⟩
      rw [dataSector_mul, hwhole, hdnat, Nat.add_assoc]
    · omega
    · rintro a ⟨_, ha⟩
      omega

def oddDisk : Mem := fun x => if x = 17 then 0x64 else fullDisk x

theorem regions_overlap : ¬ ∀ (m : Mem) (bpb : U32), 0 < (bytesPerSector m bpb).toNat →
    SumsFit m bpb → RegionsApart m bpb := by
  intro hall
  obtain ⟨d, hd, _, hleast, _⟩ := hall oddDisk 0 (by decide) (by unfold SumsFit; decide)
  have hdata : getFirstDataSector oddDisk 0 = some 12800 := by decide
  rw [hdata] at hd
  obtain rfl := Option.some.inj hd
  exact absurd hleast.2 (by decide)

/-- A directory of 14 sectors, and one of six and a quarter. -/
theorem regions_apart_fullDisk : RegionsApart fullDisk 0 ∧ ¬ RegionsApart oddDisk 0 := by
  have hfull := regions_apart_iff fullDisk 0 (by decide) (by unfold SumsFit; decide)
  have hodd := regions_apart_iff oddDisk 0 (by decide) (by unfold SumsFit; decide)
  exact ⟨hfull.mpr (by decide), fun h => absurd (hodd.mp h) (by decide)⟩

end Uroboros
