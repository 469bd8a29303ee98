import Mathlib.Data.Set.Card
import Uroboros.Fat12Chain

/-!
# The clusters of a volume that are free

`find_free_cluster` and `count_free_clusters` of `fat12.c` run over the numbers
from 2 up to the sector count of the volume. The clusters begin behind the
reserved sectors, the tables and the root directory, so that the numbers whose
sectors lie on the volume form another interval.
-/

set_option autoImplicit false

namespace Uroboros

open ByteMemory ForLoop

def sectorsPerCluster (m : Mem) (bpb : U32) : U8 := m (bpb + 13)

def numberOfFats (m : Mem) (bpb : U32) : U8 := m (bpb + 16)

def rootEntries (m : Mem) (bpb : U32) : U16 := load16 m (bpb + 17)

def totalSectors (m : Mem) (bpb : U32) : U16 := load16 m (bpb + 19)

def sectorsPerFat (m : Mem) (bpb : U32) : U16 := load16 m (bpb + 22)

def FAT12_AVAILABLE : U32 := 0x00000000

def sizeofDE : U32 := 32

/-- Nothing when the divisor is zero, which the processor reports. -/
def getTotalClusters (m : Mem) (bpb : U32) : Option U32 :=
  if sectorsPerCluster m bpb = 0 then none
  else some ((totalSectors m bpb).setWidth 32 / (sectorsPerCluster m bpb).setWidth 32)

def getFirstDataSector (m : Mem) (bpb : U32) : Option U32 :=
  if bytesPerSector m bpb = 0 then none
  else
    let offsetSectors := (reservedSectors m bpb).setWidth 32
      + (numberOfFats m bpb).setWidth 32 * (sectorsPerFat m bpb).setWidth 32
      + (rootEntries m bpb).setWidth 32 * sizeofDE / (bytesPerSector m bpb).setWidth 32
    some (bpb + offsetSectors * (bytesPerSector m bpb).setWidth 32)

def clusterAvailable (m : Mem) (bpb : U32) (i : Nat) : Bool :=
  decide ((getFat12Entry m bpb (BitVec.ofNat 16 i)).setWidth 32 = FAT12_AVAILABLE)

def findFreeCluster (m : Mem) (bpb : U32) : Option U32 :=
  (getTotalClusters m bpb).map fun total =>
    (scanFrom (n := total.toNat) (fun i => clusterAvailable m bpb i) total.toNat 2).elim 0
      fun i => BitVec.ofNat 32 i

def countFreeClusters (m : Mem) (bpb : U32) : Option U32 :=
  (getTotalClusters m bpb).map fun total =>
    forLoop (fun i count => if clusterAvailable m bpb (i + 2) then count + 1 else count)
      (total.toNat - 2) 0

def dataSector (m : Mem) (bpb : U32) (c : Nat) : Nat :=
  (reservedSectors m bpb).toNat + (numberOfFats m bpb).toNat * (sectorsPerFat m bpb).toNat
    + (rootEntries m bpb).toNat * 32 / (bytesPerSector m bpb).toNat + (c - 2)

/-- A volume whose clusters are single sectors, with an entry for each of them. -/
structure Fat12Volume (m : Mem) (bpb : U32) (e : List (BitVec 12)) : Prop
    extends Fat12Image m bpb e where
  sector_pos : 0 < (bytesPerSector m bpb).toNat
  single : sectorsPerCluster m bpb = 1
  root : (rootEntries m bpb).toNat * 32 % (bytesPerSector m bpb).toNat = 0
  covered : ∀ c, 2 ≤ c → dataSector m bpb c < (totalSectors m bpb).toNat → c < e.length

def freeClusters (m : Mem) (bpb : U32) (e : List (BitVec 12)) : Set Nat :=
  {c | 2 ≤ c ∧ dataSector m bpb c < (totalSectors m bpb).toNat ∧ e[c]? = some 0}

/-- What the callers of the two functions expect. -/
def FindsFree (m : Mem) (bpb : U32) (e : List (BitVec 12)) : Prop :=
  (∃ r, findFreeCluster m bpb = some r ∧
    (freeClusters m bpb e = ∅ → r = 0) ∧
    ∀ c, IsLeast (freeClusters m bpb e) c → r = BitVec.ofNat 32 c) ∧
  countFreeClusters m bpb = some (BitVec.ofNat 32 (freeClusters m bpb e).ncard)

section
variable {m : Mem} {bpb : U32} {e : List (BitVec 12)} {c : Nat}

/-- No product of the fields and no sum of them leaves the 32 bits. -/
theorem getFirstDataSector_eq (h : 0 < (bytesPerSector m bpb).toNat) :
    getFirstDataSector m bpb =
      some (bpb + BitVec.ofNat 32 (dataSector m bpb 2 * (bytesPerSector m bpb).toNat)) := by
  have hb : ¬ bytesPerSector m bpb = 0 := by
    intro hzero
    rw [hzero] at h
    exact absurd h (by decide)
  have hquot : (rootEntries m bpb).setWidth 32 * sizeofDE / (bytesPerSector m bpb).setWidth 32 =
      BitVec.ofNat 32 ((rootEntries m bpb).toNat * 32 / (bytesPerSector m bpb).toNat) := by
    apply BitVec.eq_of_toNat_eq
    have hroot := (rootEntries m bpb).isLt
    have hbytes := (bytesPerSector m bpb).isLt
    have hsize : sizeofDE.toNat = 32 := rfl
    have hle := Nat.div_le_self ((rootEntries m bpb).toNat * 32) (bytesPerSector m bpb).toNat
    rw [BitVec.toNat_udiv, BitVec.toNat_mul, BitVec.toNat_setWidth, BitVec.toNat_setWidth, hsize,
      BitVec.toNat_ofNat, Nat.mod_eq_of_lt (a := (rootEntries m bpb).toNat) (by omega),
      Nat.mod_eq_of_lt (a := (bytesPerSector m bpb).toNat) (by omega),
      Nat.mod_eq_of_lt (a := (rootEntries m bpb).toNat * 32) (by omega),
      Nat.mod_eq_of_lt (by omega)]
  rw [getFirstDataSector, if_neg hb]
  simp only [hquot, dataSector, Nat.sub_self, Nat.add_zero, BitVec.ofNat_add, BitVec.ofNat_mul,
    BitVec.ofNat_toNat]

/-- The numbers that the loops visit and take for free. -/
def visitedFree (m : Mem) (bpb : U32) : Finset Nat :=
  (Finset.range (totalSectors m bpb).toNat).filter fun c => 2 ≤ c ∧ clusterAvailable m bpb c = true

theorem clusterAvailable_iff :
    clusterAvailable m bpb c = true ↔ getFat12Entry m bpb (BitVec.ofNat 16 c) = 0 := by
  rw [clusterAvailable, decide_eq_true_iff, ← BitVec.toNat_inj, ← BitVec.toNat_inj,
    BitVec.toNat_setWidth, Nat.mod_eq_of_lt (by omega)]
  rfl

theorem mem_visitedFree : c ∈ visitedFree m bpb ↔
    2 ≤ c ∧ c < (totalSectors m bpb).toNat ∧ getFat12Entry m bpb (BitVec.ofNat 16 c) = 0 := by
  rw [visitedFree, Finset.mem_filter, Finset.mem_range, clusterAvailable_iff]
  exact and_left_comm

namespace Fat12Volume

theorem mem_freeClusters (h : Fat12Volume m bpb e) : c ∈ freeClusters m bpb e ↔
    2 ≤ c ∧ dataSector m bpb c < (totalSectors m bpb).toNat ∧
      getFat12Entry m bpb (BitVec.ofNat 16 c) = 0 := by
  apply and_congr_right
  intro hlow
  apply and_congr_right
  intro hin
  have hc := h.covered c hlow hin
  have hpacked := h.packed
  rw [← getFat12_eq] at hpacked
  have hlen := h.length_le
  rw [hpacked.entry hc (by omega), List.getElem?_eq_getElem hc, Option.some_inj,
    ← BitVec.toNat_inj, ← BitVec.toNat_inj, BitVec.toNat_setWidth, Nat.mod_eq_of_lt (by omega)]
  rfl

theorem getTotalClusters_eq (h : Fat12Volume m bpb e) :
    getTotalClusters m bpb = some ((totalSectors m bpb).setWidth 32) := by
  rw [getTotalClusters, h.single, if_neg (by decide)]
  exact congrArg some (BitVec.udiv_one)

theorem total_toNat (m : Mem) (bpb : U32) :
    ((totalSectors m bpb).setWidth 32).toNat = (totalSectors m bpb).toNat := by
  rw [BitVec.toNat_setWidth]
  omega

theorem countFreeClusters_eq (h : Fat12Volume m bpb e) :
    countFreeClusters m bpb = some (BitVec.ofNat 32 (visitedFree m bpb).card) := by
  rw [countFreeClusters, h.getTotalClusters_eq, Option.map_some, total_toNat, forLoop_count]
  -- The loop counts from 2 on, the set from 0 on.
  have hshift : (visitedFree m bpb).card = ((Finset.range ((totalSectors m bpb).toNat - 2)).filter
      fun i => clusterAvailable m bpb (i + 2) = true).card := by
    symm
    apply Finset.card_bij fun i _ => i + 2
    · intro i hi
      rw [Finset.mem_filter, Finset.mem_range] at hi
      rw [visitedFree, Finset.mem_filter, Finset.mem_range]
      exact ⟨by omega, by omega, hi.2⟩
    · intro i _ j _ hij
      omega
    · intro c hc
      rw [visitedFree, Finset.mem_filter, Finset.mem_range] at hc
      obtain ⟨hlt, hlow, havail⟩ := hc
      refine ⟨c - 2, ?_, by omega⟩
      rw [Finset.mem_filter, Finset.mem_range, Nat.sub_add_cancel hlow]
      exact ⟨by omega, havail⟩
  rw [hshift]

theorem findFreeCluster_eq (h : Fat12Volume m bpb e) :
    ∃ r, findFreeCluster m bpb = some r ∧ (visitedFree m bpb = ∅ → r = 0) ∧
      ∀ c, IsLeast (visitedFree m bpb : Set Nat) c → r = BitVec.ofNat 32 c := by
  rw [findFreeCluster, h.getTotalClusters_eq, Option.map_some]
  refine ⟨_, rfl, ?_⟩
  have htotal := total_toNat m bpb
  rcases scanFrom_cases (clusterAvailable m bpb) ((totalSectors m bpb).setWidth 32).toNat 2 with
    ⟨hscan, hnone⟩ | ⟨i, hscan, hlow, havail, hmin⟩ <;> rw [hscan]
  · refine ⟨fun _ => rfl, ?_⟩
    rintro c ⟨hc, _⟩
    obtain ⟨hc2, hlt, hzero⟩ := mem_visitedFree.mp hc
    have hfalse := hnone c hc2 (htotal ▸ hlt)
    rw [clusterAvailable_iff.mpr hzero] at hfalse
    exact Bool.noConfusion hfalse
  · have hi : i.val ∈ visitedFree m bpb :=
      mem_visitedFree.mpr ⟨hlow, Nat.lt_of_lt_of_eq i.isLt htotal, clusterAvailable_iff.mp havail⟩
    refine ⟨fun hempty => absurd (hempty ▸ hi) (Finset.notMem_empty _), ?_⟩
    rintro c ⟨hc, hleast⟩
    obtain ⟨hc2, hlt, hzero⟩ := mem_visitedFree.mp hc
    have hci : c ≤ i.val := hleast hi
    rcases Nat.lt_or_ge c i.val with hbefore | hge
    · have hfalse := hmin c hc2 hbefore
      rw [clusterAvailable_iff.mpr hzero] at hfalse
      exact Bool.noConfusion hfalse
    · exact congrArg (BitVec.ofNat 32) (Nat.le_antisymm hge hci)

/-- The two intervals have their lower end in common: one holds the other. -/
theorem freeClusters_nested (h : Fat12Volume m bpb e) :
    freeClusters m bpb e ⊆ visitedFree m bpb ∨
      (visitedFree m bpb : Set Nat) ⊆ freeClusters m bpb e := by
  rcases Nat.le_total 2 (dataSector m bpb 2) with hd | hd
  · left
    intro c hc
    obtain ⟨hlow, hin, hzero⟩ := h.mem_freeClusters.mp hc
    refine mem_visitedFree.mpr ⟨hlow, ?_, hzero⟩
    unfold dataSector at hd hin
    omega
  · right
    intro c hc
    obtain ⟨hlow, hlt, hzero⟩ := mem_visitedFree.mp hc
    refine h.mem_freeClusters.mpr ⟨hlow, ?_, hzero⟩
    unfold dataSector at hd ⊢
    omega

theorem freeClusters_finite (h : Fat12Volume m bpb e) : (freeClusters m bpb e).Finite :=
  (Set.finite_lt_nat e.length).subset fun c hc => h.covered c hc.1 hc.2.1

theorem ncard_eq_iff (h : Fat12Volume m bpb e) :
    (visitedFree m bpb).card = (freeClusters m bpb e).ncard ↔
      (visitedFree m bpb : Set Nat) = freeClusters m bpb e := by
  rw [← Set.ncard_coe_finset]
  constructor
  · intro hcard
    rcases h.freeClusters_nested with hsub | hsub
    · exact (Set.eq_of_subset_of_ncard_le hsub hcard.le (Finset.finite_toSet _)).symm
    · exact Set.eq_of_subset_of_ncard_le hsub hcard.ge h.freeClusters_finite
  · exact fun heq => congrArg Set.ncard heq

theorem visitedFree_eq_iff (h : Fat12Volume m bpb e) :
    (visitedFree m bpb : Set Nat) = freeClusters m bpb e ↔
      ∀ c, 2 ≤ c → getFat12Entry m bpb (BitVec.ofNat 16 c) = 0 →
        (c < (totalSectors m bpb).toNat ↔ dataSector m bpb c < (totalSectors m bpb).toNat) := by
  rw [Set.ext_iff]
  apply forall_congr'
  intro c
  rw [Finset.mem_coe, mem_visitedFree, h.mem_freeClusters]
  tauto

end Fat12Volume

/-- The functions are right when every free entry is on the same side of both bounds. -/
theorem findsFree_iff (h : Fat12Volume m bpb e) : FindsFree m bpb e ↔
    ∀ c, 2 ≤ c → getFat12Entry m bpb (BitVec.ofNat 16 c) = 0 →
      (c < (totalSectors m bpb).toNat ↔ dataSector m bpb c < (totalSectors m bpb).toNat) := by
  rw [← h.visitedFree_eq_iff]
  constructor
  · rintro ⟨_, hcount⟩
    rw [h.countFreeClusters_eq, Option.some_inj] at hcount
    apply h.ncard_eq_iff.mp
    have hvisited : (visitedFree m bpb).card < 2 ^ 32 := by
      have hcard := Finset.card_filter_le (Finset.range (totalSectors m bpb).toNat)
        fun c => 2 ≤ c ∧ clusterAvailable m bpb c = true
      rw [Finset.card_range] at hcard
      rw [visitedFree]
      omega
    have hfree : (freeClusters m bpb e).ncard < 2 ^ 32 := by
      have hsub : freeClusters m bpb e ⊆ (Finset.range e.length : Set Nat) :=
        fun c hc => Finset.mem_coe.mpr (Finset.mem_range.mpr (h.covered c hc.1 hc.2.1))
      have hle := Set.ncard_le_ncard hsub (Finset.finite_toSet _)
      rw [Set.ncard_coe_finset, Finset.card_range] at hle
      have := h.length_le
      omega
    have hnat := congrArg BitVec.toNat hcount
    rwa [BitVec.toNat_ofNat, BitVec.toNat_ofNat, Nat.mod_eq_of_lt hvisited,
      Nat.mod_eq_of_lt hfree] at hnat
  · intro heq
    obtain ⟨r, hr, hnone, hleast⟩ := h.findFreeCluster_eq
    rw [heq] at hleast
    refine ⟨⟨r, hr, ?_, hleast⟩, ?_⟩
    · intro hempty
      rw [← heq] at hempty
      exact hnone (Finset.coe_eq_empty.mp hempty)
    · rw [h.countFreeClusters_eq, h.ncard_eq_iff.mpr heq]

end

def volume (total : U8) (e : List (BitVec 12)) (data : U32 → U8) : Mem := fun a =>
  if a.toNat < 11 then 0
  else if a.toNat < 64 then
    [64, 0, 1, 1, 0, 1, 2, 0, total, 0, 0, 1, 0][a.toNat - 11]?.getD 0
  else if a.toNat < 128 then (encodeFat12 e)[a.toNat - 64]?.getD 0
  else if a.toNat < 192 then if a.toNat = 154 then 2 else 0
  else data a

section
variable {total : U8} {e : List (BitVec 12)} {data : U32 → U8}

theorem volume_bytesPerSector : bytesPerSector (volume total e data) 0 = 64 := by
  simp [bytesPerSector, load16, volume]

theorem volume_reservedSectors : reservedSectors (volume total e data) 0 = 1 := by
  simp [reservedSectors, load16, volume]

theorem volume_rootEntries : rootEntries (volume total e data) 0 = 2 := by
  simp [rootEntries, load16, volume]

theorem volume_totalSectors : (totalSectors (volume total e data) 0).toNat = total.toNat := by
  have hlow : volume total e data (0 + 19) = total := rfl
  have hhigh : volume total e data (0 + 19 + 1) = 0 := rfl
  rw [totalSectors, load16, hlow, hhigh, BitVec.toNat_append]
  simp

theorem volume_dataSector (c : Nat) : dataSector (volume total e data) 0 c = 3 + (c - 2) := by
  have hfats : numberOfFats (volume total e data) 0 = 1 := rfl
  have hfat : sectorsPerFat (volume total e data) 0 = 1 := by
    simp [sectorsPerFat, load16, volume]
  rw [dataSector, volume_reservedSectors, hfats, hfat, volume_rootEntries, volume_bytesPerSector]
  rfl

theorem fat12Image_volume (hfit : (encodeFat12 e).length ≤ 64) (hlen : e.length ≤ 4096) :
    Fat12Image (volume total e data) 0 e := by
  refine ⟨?_, hlen⟩
  rw [volume_reservedSectors, volume_bytesPerSector]
  apply packed_encodeFat12
  intro i hi
  have hval : (0 + BitVec.ofNat 32 ((1 : U16).toNat * (64 : U16).toNat) + BitVec.ofNat 32 i).toNat =
      64 + i := by
    have htable : (0 + BitVec.ofNat 32 ((1 : U16).toNat * (64 : U16).toNat)).toNat = 64 := rfl
    rw [BitVec.toNat_add, htable, BitVec.toNat_ofNat]
    omega
  rw [volume, hval, if_neg (by omega), if_neg (by omega), if_pos (by omega),
    Nat.add_sub_cancel_left, List.getElem?_eq_getElem hi, Option.getD_some]

theorem fat12Volume_volume (hfit : (encodeFat12 e).length ≤ 64) (hlen : e.length ≤ 4096)
    (htotal : total.toNat ≤ e.length + 1) : Fat12Volume (volume total e data) 0 e where
  toFat12Image := fat12Image_volume hfit hlen
  sector_pos := by
    rw [volume_bytesPerSector]
    decide
  single := rfl
  root := by
    rw [volume_rootEntries, volume_bytesPerSector]
    rfl
  covered := by
    intro c hlow hin
    rw [volume_dataSector, volume_totalSectors] at hin
    omega

end

/-- Three clusters on six sectors, of which the second is free. -/
theorem findsFree_iff_used : FindsFree
    (volume 6 [0xff0, 0xfff, 0x004, 0x000, 0xfff, 0xff7] fun _ => 0) 0
    [0xff0, 0xfff, 0x004, 0x000, 0xfff, 0xff7] := by
  refine (findsFree_iff (fat12Volume_volume (by decide) (by decide) (by decide))).mpr ?_
  intro c hlow hzero
  rw [volume_dataSector, volume_totalSectors]
  by_cases hc : c = 5
  · subst c
    exact absurd hzero (by decide)
  · have htotal : (6 : U8).toNat = 6 := rfl
    omega

/-- The only cluster on the volume is in use; the answer is a cluster behind its end. -/
theorem findFreeCluster_outside :
    let e := [0xff0, 0xfff, 0xfff, 0x000]
    let m := volume 4 e fun _ => 0
    Fat12Volume m 0 e ∧ freeClusters m 0 e = ∅ ∧ findFreeCluster m 0 = some 3 ∧
      ¬ FindsFree m 0 e := by
  intro e m
  have hvolume : Fat12Volume m 0 e :=
    fat12Volume_volume (by decide) (by decide) (by decide)
  have hempty : freeClusters m 0 e = ∅ := by
    rw [Set.eq_empty_iff_forall_notMem]
    rintro c ⟨hlow, hin, hzero⟩
    rw [volume_dataSector, volume_totalSectors] at hin
    have htotal : (4 : U8).toNat = 4 := rfl
    obtain rfl : c = 2 := by omega
    exact absurd hzero (by decide)
  have hfind : findFreeCluster m 0 = some 3 := by decide +kernel
  refine ⟨hvolume, hempty, hfind, ?_⟩
  rintro ⟨⟨r, hr, hnone, _⟩, _⟩
  have hzero := hnone hempty
  rw [hfind, Option.some_inj] at hr
  rw [← hr] at hzero
  exact absurd hzero (by decide)

end Uroboros
