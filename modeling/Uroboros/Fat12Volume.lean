import Uroboros.Fat12Name
import Uroboros.Fat12Read

/-!
# A volume as a list of files

What `set_filename`, `find_entry` and `read_file` amount to together: a list of
files, in which a name stands for the first file that carries it. Reads begin at
a sector and end in the file, as `read_file` needs.
-/

set_option autoImplicit false

namespace Uroboros

open ByteMemory Stdlibc

/-- A file as the user sees it, with the two parts of its name as the directory has them. -/
structure File where
  name : List U8
  ext : List U8
  content : List U8

def lookup (files : List File) (name ext : CStr) : Option File :=
  files.find? fun f => f.name = canonical 8 name ∧ f.ext = canonical 3 ext

inductive DirSlot where
  | deleted
  | long
  | file (f : File) (chain : List Nat)

def DirSlot.file? : DirSlot → Option File
  | .file f _ => some f
  | _ => none

/-- The entry of a file. No cluster belongs to an empty one. -/
structure FileAt (m : Mem) (bpb : U32) (e : List (BitVec 12)) (n : Nat) (entry : U32) (f : File)
    (cs : List Nat) : Prop where
  used : m (entryName entry) ≠ FILE_NAME_DELETED
  short : entryAttribute m entry ≠ FAT12_ATTR_LFN
  name : (List.range 8).map (charsAt m (entryName entry)) = f.name
  ext : (List.range 3).map (charsAt m (entryExt entry)) = f.ext
  stored : f.content = [] ∨ FileImage m bpb entry e cs n
  fits : f.content.length ≤ cs.length * (bytesPerSector m bpb).toNat
  bytes : ∀ i < f.content.length, f.content[i]? = some (fileByte m bpb cs i)

def DirSlotAt (m : Mem) (bpb : U32) (e : List (BitVec 12)) (n : Nat) (entry : U32) : DirSlot → Prop
  | .deleted => m (entryName entry) = FILE_NAME_DELETED
  | .long => entryAttribute m entry = FAT12_ATTR_LFN
  | .file f cs => FileAt m bpb e n entry f cs

/-- A volume of `n` bytes at `bpb` with these entries in its root directory. -/
structure Mounted (m : Mem) (bpb : U32) (e : List (BitVec 12)) (n : Nat) (slots : List DirSlot) :
    Prop where
  sector_pos : 0 < (bytesPerSector m bpb).toNat
  fields : 24 ≤ n
  room : rdeOffset m bpb + 32 * (slots.length + 1) ≤ n
  terminator : Terminator m (getRde m bpb) slots.length
  slot : ∀ i s, slots[i]? = some s → DirSlotAt m bpb e n (entryAt (getRde m bpb) i) s

/-- A request: a name with the `FileName` that takes it, and the bytes from `first` on, to be put
at `buf`. -/
structure Request where
  filename : CStr
  name : CStr
  ext : CStr
  buf : U32
  first : U32
  size : U32

/-- `set_filename`, `find_entry` from the root directory on and `read_file`, with the fuel of the
last two. What is returned is the result of `read_file`, if it comes to that, and memory. -/
def readNamed (entries sectors : Nat) (m : Mem) (bpb : U32) (q : Request) :
    Option (Option U32 × Mem) :=
  (setFilename q.filename q.name q.ext).bind fun f =>
  (findEntry m f entries (getRde m bpb)).bind fun found =>
  match found with
  | none => some (none, m)
  | some entry => (readFile m bpb entry q.buf q.first q.size sectors).map fun r =>
    (some r.1, r.2.mem)

section
variable {m m' : Mem} {bpb entry : U32} {e : List (BitVec 12)} {n i : Nat} {slots : List DirSlot}

section Lookup

variable {name ext filename d : CStr}

theorem upper_eq_deleted {c : U8} : upper c = FILE_NAME_DELETED → c = FILE_NAME_DELETED := by
  revert c
  decide +kernel

theorem canonicalAt_ne_deleted (h : name 0 ≠ FILE_NAME_DELETED) :
    canonicalAt 8 name 0 ≠ FILE_NAME_DELETED := by
  unfold canonicalAt
  split
  · exact fun hmark => h (upper_eq_deleted hmark)
  · decide

def DirSlot.Matches (name ext : CStr) : DirSlot → Prop
  | .file f _ => f.name = canonical 8 name ∧ f.ext = canonical 3 ext
  | _ => False

theorem hasName_named : HasName m (named filename name ext d) entry ↔
    (List.range 8).map (charsAt m (entryName entry)) = canonical 8 name ∧
      (List.range 3).map (charsAt m (entryExt entry)) = canonical 3 ext := by
  have hcompared : compareShortFilename m entry (named filename name ext d) = true ↔ _ :=
    compare_named
  rw [← hcompared, compareShortFilename_iff]
  · intro j hj
    rw [named_name hj]
    exact canonicalAt_ne_zero 8 name j
  · intro j hj
    rw [named_ext hj]
    exact canonicalAt_ne_zero 3 ext j

theorem shortNamed_iff (hfirst : name 0 ≠ FILE_NAME_DELETED) {s : DirSlot}
    (hs : DirSlotAt m bpb e n entry s) :
    ShortNamed m (named filename name ext d) entry ↔ s.Matches name ext := by
  rw [ShortNamed, hasName_named]
  cases s with
  | deleted =>
    have hmark : m (entryName entry) = FILE_NAME_DELETED := hs
    refine iff_of_false ?_ id
    rintro ⟨-, hname, -⟩
    have h0 := canonical_eq_iff.mp hname 0 (by decide)
    rw [charsAt_zero, hmark] at h0
    exact canonicalAt_ne_deleted hfirst h0.symm
  | long => exact iff_of_false (fun h => h.1 hs) id
  | file f cs =>
    have hat : FileAt m bpb e n entry f cs := hs
    rw [hat.name, hat.ext]
    exact and_iff_right hat.short

def files (slots : List DirSlot) : List File := slots.filterMap DirSlot.file?

def DirSlot.sought (name ext : CStr) (s : DirSlot) : Bool :=
  s.file?.any fun f => f.name = canonical 8 name ∧ f.ext = canonical 3 ext

theorem DirSlot.sought_iff {s : DirSlot} : s.sought name ext = true ↔ s.Matches name ext := by
  cases s <;> simp [DirSlot.sought, DirSlot.file?, DirSlot.Matches]

theorem lookup_files (slots : List DirSlot) (name ext : CStr) :
    lookup (files slots) name ext = (slots.find? (DirSlot.sought name ext)).bind DirSlot.file? :=
  List.find?_filterMap

theorem lookup_none (h : ∀ s ∈ slots, ¬ s.Matches name ext) :
    lookup (files slots) name ext = none := by
  have hfind := List.find?_eq_none.mpr fun s hs => mt DirSlot.sought_iff.mp (h s hs)
  rw [lookup_files, hfind]
  rfl

theorem lookup_some {f : File} {cs : List Nat} (hi : slots[i]? = some (.file f cs))
    (hmatch : (DirSlot.file f cs).Matches name ext)
    (hbefore : ∀ j < i, ∀ s, slots[j]? = some s → ¬ s.Matches name ext) :
    lookup (files slots) name ext = some f := by
  obtain ⟨hlt, hget⟩ := List.getElem?_eq_some_iff.mp hi
  have hfind : slots.find? (DirSlot.sought name ext) = some (.file f cs) := by
    refine List.find?_eq_some_iff_getElem.mpr ⟨DirSlot.sought_iff.mpr hmatch, i, hlt, hget, ?_⟩
    intro j hj
    have hno := hbefore j hj _ (List.getElem?_eq_getElem (Nat.lt_trans hj hlt))
    rw [Bool.not_eq_true', ← Bool.not_eq_true]
    exact mt DirSlot.sought_iff.mp hno
  rw [lookup_files, hfind]
  rfl

/-- `find_entry` behind `set_filename`, on the entries of a volume. -/
theorem Mounted.findEntry_named (h : Mounted m bpb e n slots) (hfirst : name 0 ≠ FILE_NAME_DELETED) :
    (lookup (files slots) name ext = none ∧
      findEntry m (named filename name ext d) (slots.length + 1) (getRde m bpb) = some none) ∨
    ∃ i f cs, slots[i]? = some (.file f cs) ∧ lookup (files slots) name ext = some f ∧
      findEntry m (named filename name ext d) (slots.length + 1) (getRde m bpb) =
        some (some (entryAt (getRde m bpb) i)) := by
  have hslot : ∀ j s, slots[j]? = some s →
      (ShortNamed m (named filename name ext d) (entryAt (getRde m bpb) j) ↔ s.Matches name ext) :=
    fun j s hs => shortNamed_iff hfirst (h.slot j s hs)
  have hname : ∀ j < 8, FileName.name.chars (named filename name ext d) j ≠ 0 := by
    intro j hj
    rw [named_name hj]
    exact canonicalAt_ne_zero 8 name j
  have hext : ∀ j < 3, FileName.ext.chars (named filename name ext d) j ≠ 0 := by
    intro j hj
    rw [named_ext hj]
    exact canonicalAt_ne_zero 3 ext j
  rcases findEntry_of_terminator hname hext h.terminator with
    ⟨i, hi, hfound, htaken, hmin⟩ | ⟨hnull, hno⟩
  · right
    obtain ⟨s, hget⟩ : ∃ s, slots[i]? = some s := ⟨_, List.getElem?_eq_getElem hi⟩
    have hmatch := (hslot i s hget).mp htaken
    have hbefore : ∀ j < i, ∀ s, slots[j]? = some s → ¬ s.Matches name ext :=
      fun j hj s hs => mt (hslot j s hs).mpr (hmin j hj)
    cases s with
    | deleted => exact absurd hmatch id
    | long => exact absurd hmatch id
    | file f cs => exact ⟨i, f, cs, hget, lookup_some hget hmatch hbefore, hfound⟩
  · refine .inl ⟨lookup_none fun s hs => ?_, hnull⟩
    obtain ⟨j, hj, rfl⟩ := List.getElem_of_mem hs
    exact mt (hslot j _ (List.getElem?_eq_getElem hj)).mpr (hno j hj)

end Lookup

section Congr

variable (h : SameImage m m' bpb n) (hn : 24 ≤ n)
include h hn

theorem SameImage.numberOfFats_eq : numberOfFats m' bpb = numberOfFats m bpb := h 16 (by omega)

theorem SameImage.sectorsPerFat_eq : sectorsPerFat m' bpb = sectorsPerFat m bpb :=
  h.load16_eq (o := 22) (by omega)

theorem SameImage.rootEntries_eq : rootEntries m' bpb = rootEntries m bpb :=
  h.load16_eq (o := 17) (by omega)

theorem SameImage.dataSector_eq (c : Nat) : dataSector m' bpb c = dataSector m bpb c := by
  simp only [dataSector, h.reservedSectors_eq hn, h.numberOfFats_eq hn, h.sectorsPerFat_eq hn,
    h.rootEntries_eq hn, h.bytesPerSector_eq hn]

theorem SameImage.rdeOffset_eq : rdeOffset m' bpb = rdeOffset m bpb := by
  simp only [rdeOffset, h.reservedSectors_eq hn, h.numberOfFats_eq hn, h.sectorsPerFat_eq hn,
    h.bytesPerSector_eq hn]

theorem SameImage.getRde_eq : getRde m' bpb = getRde m bpb := by
  rw [Uroboros.getRde_eq, Uroboros.getRde_eq, h.rdeOffset_eq hn]

end Congr

section Entry

variable {o : Nat} {cs : List Nat} {f : File}

theorem SameImage.entryByte (h : SameImage m m' bpb n) (ho : o + 32 ≤ n) {j : Nat} (hj : j < 32) :
    m' (bpb + BitVec.ofNat 32 o + BitVec.ofNat 32 j) =
      m (bpb + BitVec.ofNat 32 o + BitVec.ofNat 32 j) := by
  rw [BitVec.add_assoc, ← BitVec.ofNat_add]
  exact h (o + j) (by omega)

theorem SameImage.entryLoad16 (h : SameImage m m' bpb n) (ho : o + 32 ≤ n) {j : Nat}
    (hj : j + 2 ≤ 32) : load16 m' (bpb + BitVec.ofNat 32 o + BitVec.ofNat 32 j) =
      load16 m (bpb + BitVec.ofNat 32 o + BitVec.ofNat 32 j) := by
  rw [BitVec.add_assoc, ← BitVec.ofNat_add]
  exact h.load16_eq (by omega)

theorem FileImage.congr (himg : FileImage m bpb (bpb + BitVec.ofNat 32 o) e cs n)
    (h : SameImage m m' bpb n) (ho : o + 32 ≤ n) :
    FileImage m' bpb (bpb + BitVec.ofNat 32 o) e cs n where
  toFat12Image := h.fat12Image himg
  toClusterChain := himg.toClusterChain
  sector_pos := by
    rw [h.bytesPerSector_eq himg.fields]
    exact himg.sector_pos
  single := (h 13 (by have hn := himg.fields; omega)).trans himg.single
  high := (h.entryLoad16 (j := 20) ho (by decide)).trans himg.high
  low := by
    have hlow : firstClusterLow m' (bpb + BitVec.ofNat 32 o) =
        firstClusterLow m (bpb + BitVec.ofNat 32 o) := h.entryLoad16 (j := 26) ho (by decide)
    rw [himg.low, hlow]
  fields := himg.fields
  table := by
    rw [h.bytesPerSector_eq himg.fields, h.reservedSectors_eq himg.fields]
    exact himg.table
  data := by
    intro c hc
    rw [h.bytesPerSector_eq himg.fields, h.dataSector_eq himg.fields]
    exact himg.data c hc

theorem FileImage.fileByte_congr (himg : FileImage m bpb entry e cs n) (h : SameImage m m' bpb n)
    (hi : i < cs.length * (bytesPerSector m bpb).toNat) :
    fileByte m' bpb cs i = fileByte m bpb cs i := by
  have hindex : i / (bytesPerSector m bpb).toNat < cs.length :=
    Nat.div_lt_of_lt_mul (by rwa [Nat.mul_comm])
  have hrest := Nat.mod_lt i himg.sector_pos
  have hmem : cs.getD (i / (bytesPerSector m bpb).toNat) 0 ∈ cs := by
    rw [List.getD_eq_getElem?_getD, List.getElem?_eq_getElem hindex, Option.getD_some]
    exact List.getElem_mem hindex
  have hin := himg.data _ hmem
  rw [Nat.add_mul, Nat.one_mul] at hin
  simp only [fileByte, h.bytesPerSector_eq himg.fields, h.dataSector_eq himg.fields]
  exact h _ (by omega)

theorem FileAt.congr (hat : FileAt m bpb e n (bpb + BitVec.ofNat 32 o) f cs)
    (h : SameImage m m' bpb n) (hn : 24 ≤ n) (ho : o + 32 ≤ n) :
    FileAt m' bpb e n (bpb + BitVec.ofNat 32 o) f cs where
  used := by
    have hfirst : m' (entryName (bpb + BitVec.ofNat 32 o)) = m (bpb + BitVec.ofNat 32 o) :=
      h o (by omega)
    rw [hfirst]
    exact hat.used
  short := by
    have hattr : m' (bpb + BitVec.ofNat 32 o + 11) = m (bpb + BitVec.ofNat 32 o + 11) :=
      h.entryByte (j := 11) ho (by decide)
    rw [entryAttribute, hattr]
    exact hat.short
  name := by
    rw [← hat.name, List.map_inj_left]
    intro j hj
    have hj : j < 8 := List.mem_range.mp hj
    exact h.entryByte ho (by omega)
  ext := by
    rw [← hat.ext, List.map_inj_left]
    intro j hj
    have hj : j < 3 := List.mem_range.mp hj
    have hbyte := h.entryByte (j := 8 + j) ho (by omega)
    rwa [BitVec.ofNat_add, ← BitVec.add_assoc] at hbyte
  stored := hat.stored.imp_right fun himg => himg.congr h ho
  fits := by
    rw [h.bytesPerSector_eq hn]
    exact hat.fits
  bytes := by
    intro i hi
    rw [hat.bytes i hi]
    rcases hat.stored with hempty | himg
    · rw [hempty] at hi
      exact absurd hi (Nat.not_lt_zero i)
    · rw [himg.fileByte_congr h (Nat.lt_of_lt_of_le hi hat.fits)]

end Entry

theorem Mounted.congr (hm : Mounted m bpb e n slots) (h : SameImage m m' bpb n) :
    Mounted m' bpb e n slots := by
  have hroom := hm.room
  have hentry : ∀ i, entryAt (getRde m bpb) i = bpb + BitVec.ofNat 32 (rdeOffset m bpb + 32 * i) := by
    intro i
    rw [entryAt, getRde_eq, BitVec.add_assoc, ← BitVec.ofNat_add]
  have hbyte : ∀ i ≤ slots.length, ∀ j < 32,
      m' (entryAt (getRde m bpb) i + BitVec.ofNat 32 j) =
        m (entryAt (getRde m bpb) i + BitVec.ofNat 32 j) := by
    intro i hi j hj
    rw [hentry]
    exact h.entryByte (by omega) hj
  have hfirst : ∀ i ≤ slots.length, m' (entryName (entryAt (getRde m bpb) i)) =
      m (entryName (entryAt (getRde m bpb) i)) := by
    intro i hi
    have h0 := hbyte i hi 0 (by decide)
    rwa [BitVec.add_zero] at h0
  constructor
  · rw [h.bytesPerSector_eq hm.fields]
    exact hm.sector_pos
  · exact hm.fields
  · rw [h.rdeOffset_eq hm.fields]
    exact hroom
  · rw [h.getRde_eq hm.fields]
    refine ⟨(hfirst _ (Nat.le_refl _)).trans hm.terminator.1, fun i hi => ?_⟩
    rw [hfirst i (Nat.le_of_lt hi)]
    exact hm.terminator.2 i hi
  · rw [h.getRde_eq hm.fields]
    intro i s hs
    have hi : i < slots.length := (List.getElem?_eq_some_iff.mp hs).1
    have hat := hm.slot i s hs
    cases s with
    | deleted => exact (hfirst i (Nat.le_of_lt hi)).trans hat
    | long => exact (hbyte i (Nat.le_of_lt hi) 11 (by decide)).trans hat
    | file f cs =>
      have hfile : FileAt m bpb e n (entryAt (getRde m bpb) i) f cs := hat
      change FileAt m' bpb e n (entryAt (getRde m bpb) i) f cs
      rw [hentry] at hfile ⊢
      exact hfile.congr h hm.fields (by omega)

section Serve

variable {q : Request} {f : File} {cs : List Nat} {filename : CStr}

def answer (files : List File) (q : Request) : Option (List U8) :=
  (lookup files q.name q.ext).map fun f => (f.content.drop q.first.toNat).take q.size.toNat

/-- The request begins at a sector of the file it names and ends in the file, and its buffer lies
off the volume. -/
structure Request.Valid (q : Request) (m : Mem) (bpb : U32) (n : Nat) (files : List File) :
    Prop where
  first_char : q.name 0 ≠ FILE_NAME_DELETED
  apart : Apart bpb n q.buf q.size.toNat
  aligned : q.first.toNat % (bytesPerSector m bpb).toNat = 0
  inside : ∀ f, lookup files q.name q.ext = some f →
    q.first.toNat + q.size.toNat ≤ f.content.length
  start : q.size = 0 → q.first = 0

/-- The buffer holds the answer and nothing else has changed. -/
def Delivered (m m' : Mem) (q : Request) : Option (List U8) → Option U32 → Prop
  | none, r => r = none ∧ m' = m
  | some bytes, r => r = some q.size ∧ (∀ j < q.size.toNat,
      bytes[j]? = some (m' (q.buf + BitVec.ofNat 32 j))) ∧
      ∀ x, q.size.toNat ≤ (x - q.buf).toNat → m' x = m x

/-- The calls return, and deliver `a`. -/
def Served (bpb : U32) (m : Mem) (q : Request) (a : Option (List U8)) (m' : Mem) : Prop :=
  ∃ entries sectors r, readNamed entries sectors m bpb q = some (r, m') ∧ Delivered m m' q a r

theorem readFile_empty (hpos : 0 < (bytesPerSector m bpb).toNat) (buf : U32) :
    readFile m bpb entry buf 0#32 0#32 1 = some (0#32, ⟨m, getClusterNumber m entry, 0#32, []⟩) := by
  have hne : bytesPerSector m bpb ≠ 0 := fun h0 => by
    rw [h0] at hpos
    exact absurd hpos (by decide)
  have hdiv : sectorDiv m bpb 0#32 = some 0#32 := by
    rw [sectorDiv, if_neg hne, BitVec.zero_udiv]
  have hfragment : ∀ cluster b, readFragment ⟨m, cluster, 0#32, []⟩ bpb b 0#32 =
      some ⟨m, cluster, 0#32, []⟩ := by
    intro cluster b
    rw [readFragment, sectorMod, if_neg hne, BitVec.zero_umod, Option.bind_some]
    exact if_pos rfl
  simp [readFile, hdiv, seekCluster, hfragment, readSectors]

/-- A read of a stored file, from a sector on. -/
theorem FileAt.read (hat : FileAt m bpb e n entry f cs) (hpos : 0 < (bytesPerSector m bpb).toNat)
    (hapart : Apart bpb n q.buf q.size.toNat)
    (haligned : q.first.toNat % (bytesPerSector m bpb).toNat = 0)
    (hinside : q.first.toNat + q.size.toNat ≤ f.content.length)
    (hstart : q.size = 0 → q.first = 0) : ∃ sectors s,
      readFile m bpb entry q.buf q.first q.size sectors = some (q.size, s) ∧
        (∀ j < q.size.toNat, f.content[q.first.toNat + j]? =
          some (s.mem (q.buf + BitVec.ofNat 32 j))) ∧
        ∀ x, q.size.toNat ≤ (x - q.buf).toNat → s.mem x = m x := by
  by_cases hsize : q.size = 0
  · rw [hsize, hstart hsize]
    exact ⟨1, _, readFile_empty hpos q.buf, fun j hj => absurd hj (Nat.not_lt_zero j),
      fun x _ => rfl⟩
  · have hsome : 0 < q.size.toNat := Nat.pos_of_ne_zero fun h0 => hsize (BitVec.eq_of_toNat_eq h0)
    have himg : FileImage m bpb entry e cs n := by
      refine hat.stored.resolve_left fun hempty => ?_
      rw [hempty, List.length_nil] at hinside
      omega
    have hfits := hat.fits
    have hfirst := Nat.div_mul_cancel (Nat.dvd_of_mod_eq_zero haligned)
    have hk : q.first.toNat / (bytesPerSector m bpb).toNat < cs.length := by
      rw [Nat.div_lt_iff_lt_mul hpos]
      omega
    obtain ⟨s, hs, ⟨sectors, hrun⟩, -⟩ := himg.readFile_filled hapart q.first hk (by omega) (by
      rw [hfirst]
      omega)
    refine ⟨sectors, s, hrun, fun j hj => ?_, fun x hx => ?_⟩
    · rw [hat.bytes _ (by omega), hs.mem, overlay_apply hj q.size.isLt.le, bufferByte, haligned,
        if_neg (Nat.not_lt_zero j)]
      rfl
    · rw [hs.mem, overlay_of_le hx]

theorem Mounted.served (hm : Mounted m bpb e n slots) (hq : q.Valid m bpb n (files slots)) :
    ∃ m', Served bpb m q (answer (files slots) q) m' ∧ SameImage m m' bpb n := by
  obtain ⟨d, hset⟩ := setFilename_eq q.filename q.name q.ext
  have hsearch := @Mounted.findEntry_named m bpb e n slots q.name q.ext q.filename d hm hq.first_char
  rcases hsearch with ⟨hlookup, hfind⟩ | ⟨i, f, cs, hi, hlookup, hfind⟩
  · refine ⟨m, ⟨slots.length + 1, 0, none, ?_, ?_⟩, fun _ _ => rfl⟩
    · rw [readNamed, hset, Option.bind_some, hfind, Option.bind_some]
    · rw [answer, hlookup]
      exact ⟨rfl, rfl⟩
  · have hat : FileAt m bpb e n (entryAt (getRde m bpb) i) f cs := hm.slot i _ hi
    have hinside := hq.inside f hlookup
    obtain ⟨sectors, s, hread, hbytes, hframe⟩ :=
      hat.read hm.sector_pos hq.apart hq.aligned hinside hq.start
    refine ⟨s.mem, ⟨slots.length + 1, sectors, some q.size, ?_, ?_⟩, ?_⟩
    · rw [readNamed, hset, Option.bind_some, hfind, Option.bind_some]
      dsimp only
      rw [hread, Option.map_some]
    · rw [answer, hlookup, Option.map_some]
      refine ⟨rfl, fun j hj => ?_, hframe⟩
      rw [List.getElem?_take_of_lt hj, List.getElem?_drop, hbytes j hj]
    · intro j hj
      exact hframe _ (hq.apart.le_offset hj)

/-- Requests one after the other, with the answer to each. -/
def Serves (bpb : U32) (m : Mem) : List (Request × Option (List U8)) → Mem → Prop
  | [], m' => m' = m
  | (q, a) :: rest, m' => ∃ m₁, Served bpb m q a m₁ ∧ Serves bpb m₁ rest m'

/-- Any number of reads, in any order, is answered as the list of files answers it, and leaves the
volume as it was. -/
theorem volume_serves (hm : Mounted m bpb e n slots) (qs : List Request)
    (hqs : ∀ q ∈ qs, q.Valid m bpb n (files slots)) : ∃ m',
      Serves bpb m (qs.map fun q => (q, answer (files slots) q)) m' ∧ SameImage m m' bpb n ∧
        Mounted m' bpb e n slots := by
  induction qs generalizing m with
  | nil => exact ⟨m, rfl, fun _ _ => rfl, hm⟩
  | cons q qs ih =>
    obtain ⟨m₁, hserved, hsame⟩ := hm.served (hqs q List.mem_cons_self)
    have hvalid : ∀ r ∈ qs, r.Valid m₁ bpb n (files slots) := by
      intro r hr
      have hold := hqs r (List.mem_cons_of_mem q hr)
      refine ⟨hold.first_char, hold.apart, ?_, hold.inside, hold.start⟩
      rw [hsame.bytesPerSector_eq hm.fields]
      exact hold.aligned
    obtain ⟨m', hrest, hlast, hmounted⟩ := ih (hm.congr hsame) hvalid
    exact ⟨m', ⟨m₁, hserved, hrest⟩, fun i hi => (hlast i hi).trans (hsame i hi), hmounted⟩

end Serve

end

def oneFileTable : List (BitVec 12) := [0xff0, 0xfff, 0x003, 0xfff]

def oneFileVolume : Mem := fun a =>
  if a = 128 then 0x41 else if 129 ≤ a.toNat ∧ a.toNat < 139 then 0x20
  else volume 5 oneFileTable (fun a => a.setWidth 8) a

def fileA : File where
  name := [0x41, 0x20, 0x20, 0x20, 0x20, 0x20, 0x20, 0x20]
  ext := [0x20, 0x20, 0x20]
  content := (List.range 100).map fun i => BitVec.ofNat 8 (192 + i)

theorem oneFile_sector : (bytesPerSector oneFileVolume 0).toNat = 64 := by decide +kernel

theorem oneFile_image : FileImage oneFileVolume 0 128 oneFileTable [2, 3] 320 where
  packed := packed_encodeFat12 (by unfold BytesAt; decide +kernel)
  length_le := by decide
  toClusterChain := clusterChain_pair
  sector_pos := by
    rw [oneFile_sector]
    decide
  single := by decide +kernel
  high := by decide +kernel
  low := by decide +kernel
  fields := by decide
  table := by decide +kernel
  data := by decide +kernel

theorem oneFile_mounted : Mounted oneFileVolume 0 oneFileTable 320 [.file fileA [2, 3]] where
  sector_pos := by
    rw [oneFile_sector]
    decide
  fields := by decide
  room := by decide +kernel
  terminator := ⟨by decide +kernel, by decide +kernel⟩
  slot := by
    intro i s hs
    obtain ⟨hi, rfl⟩ := List.getElem?_eq_some_iff.mp hs
    obtain rfl : i = 0 := Nat.lt_one_iff.mp hi
    have hentry : entryAt (getRde oneFileVolume 0) 0 = 128 := by decide +kernel
    rw [hentry]
    exact
      { used := by decide +kernel
        short := by decide +kernel
        name := by decide +kernel
        ext := by decide +kernel
        stored := Or.inr oneFile_image
        fits := by decide +kernel
        bytes := by decide +kernel }

def oneFileRequests : List Request :=
  [⟨fun _ => 0, fun i => [0x61].getD i 0, fun _ => 0, 0x10000, 64, 36⟩,
    ⟨fun _ => 0, fun i => [0x62].getD i 0, fun _ => 0, 0x10000, 0, 64⟩,
    ⟨fun _ => 0, fun i => [0x41, 0x20, 0x7A].getD i 0, fun _ => 0, 0x20000, 0, 100⟩]

theorem volume_serves_oneFile : ∃ m', Serves 0 oneFileVolume
      (oneFileRequests.map fun q => (q, answer (files [.file fileA [2, 3]]) q)) m' ∧
    SameImage oneFileVolume m' 0 320 ∧ Mounted m' 0 oneFileTable 320 [.file fileA [2, 3]] := by
  refine volume_serves oneFile_mounted oneFileRequests fun q hq => ?_
  have hcases : q = oneFileRequests[0] ∨ q = oneFileRequests[1] ∨ q = oneFileRequests[2] := by
    simpa [oneFileRequests] using hq
  have hlen : ∀ g, lookup (files [.file fileA [2, 3]]) q.name q.ext = some g →
      g.content.length = 100 := by
    intro g hg
    have hmem : g ∈ [fileA] := List.mem_of_find?_eq_some hg
    rw [List.mem_singleton.mp hmem]
    rfl
  rcases hcases with rfl | rfl | rfl
  all_goals
    refine ⟨by decide, ⟨by decide, by decide⟩, ?_, fun g hg => ?_, fun h => absurd h (by decide)⟩
    · rw [oneFile_sector]
      rfl
    · rw [hlen g hg]
      decide

end Uroboros
