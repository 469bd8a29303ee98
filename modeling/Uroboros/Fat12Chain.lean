import Mathlib.Data.List.Basic
import Uroboros.Fat12
import Uroboros.Lib.ForLoop

/-!
# Clusters linked by the allocation table

The image of a disk with the table `e`, the chains of clusters that `e` links,
and `count_cluster_link` of `fat12.c`. Both end tests of the loop compare an
entry of twelve bits with the end mark of FAT32, so that only an entry 0 or 1
ends it.
-/

set_option autoImplicit false

namespace Uroboros

open ByteMemory ForLoop

def FAT12_RESERVED : U32 := 0x00000001

def FAT12_EOC : U32 := 0x0ffffff8

/-- The image at `bpb` holds the table `e` behind its reserved sectors. -/
structure Fat12Image (m : Mem) (bpb : U32) (e : List (BitVec 12)) : Prop where
  packed : Packed m (bpb + BitVec.ofNat 32
    ((reservedSectors m bpb).toNat * (bytesPerSector m bpb).toNat)) e
  length_le : e.length ≤ 4096

/-- The clusters `cs`, each with the number of the next one as its entry. -/
structure ClusterChain (e : List (BitVec 12)) (cs : List Nat) : Prop where
  valid : ∀ c ∈ cs, 2 ≤ c ∧ c < 0xff7
  linked : ∀ i c d, cs[i]? = some c → cs[i + 1]? = some d → e[c]? = some (BitVec.ofNat 12 d)

/-- The entry of the last cluster is one of the end marks `0xff8` to `0xfff`. -/
def EndMarked (e : List (BitVec 12)) (cs : List Nat) : Prop :=
  ∃ c x, cs.getLast? = some c ∧ e[c]? = some x ∧ 0xff8 ≤ x.toNat

/-- The entry as the callers take it: widened to 32 bits, with its number cut to 16. -/
def nextCluster (m : Mem) (bpb cluster : U32) : U32 :=
  (getFat12Entry m bpb (cluster.setWidth 16)).setWidth 32

/-- The variables of `count_cluster_link`, and the entries it has read. -/
structure ClusterLink where
  count : U32
  nextCluster : U32
  reads : List U16

def followLink (m : Mem) (bpb : U32) (l : ClusterLink) : ClusterLink :=
  { count := l.count + 1
    nextCluster := nextCluster m bpb l.nextCluster
    reads := l.reads ++ [l.nextCluster.setWidth 16] }

def moreLinks (l : ClusterLink) : Bool :=
  decide (l.nextCluster < FAT12_EOC) && decide (l.nextCluster > FAT12_RESERVED)

def countClusterLink (m : Mem) (bpb : U32) (fuel : Nat) (clusterNumber : U32) :
    Option (U32 × List U16) :=
  (doWhile (followLink m bpb) moreLinks fuel
    { count := 0, nextCluster := clusterNumber, reads := [] }).map fun l => (l.count - 1, l.reads)

/-- What a caller expects: an answer on any table, and on a chain up to an end mark the
number of its links, read from the entries of the chain alone. -/
def CountsLinks (m : Mem) (bpb : U32) (e : List (BitVec 12)) (clusterNumber : U32) : Prop :=
  ∃ fuel count reads, countClusterLink m bpb fuel clusterNumber = some (count, reads) ∧
    ∀ cs, cs.head? = some clusterNumber.toNat → cs.Nodup → ClusterChain e cs → EndMarked e cs →
      count = BitVec.ofNat 32 (cs.length - 1) ∧ ∀ c ∈ reads, c.toNat ∈ cs

section
variable {m : Mem} {bpb start : U32} {e : List (BitVec 12)} {cs : List Nat} {c d i k fuel : Nat}
variable {x : BitVec 12}

theorem Fat12Image.entry (himg : Fat12Image m bpb e) (hx : e[c]? = some x) :
    nextCluster m bpb (BitVec.ofNat 32 c) = x.setWidth 32 := by
  obtain ⟨hc, rfl⟩ := List.getElem?_eq_some_iff.mp hx
  have hbound : c < 4096 := by
    have := himg.length_le
    omega
  have hcut : (BitVec.ofNat 32 c).setWidth 16 = BitVec.ofNat 16 c := by
    rw [BitVec.setWidth_ofNat_of_le (by omega)]
  have hpacked := himg.packed
  rw [← getFat12_eq] at hpacked
  rw [nextCluster, hcut, hpacked.entry hc hbound]
  apply BitVec.eq_of_toNat_eq
  simp only [BitVec.toNat_setWidth]
  omega

theorem ClusterChain.bound (h : ClusterChain e cs) (hc : cs[i]? = some c) :
    2 ≤ c ∧ c < 0xff7 :=
  h.valid c (List.mem_of_getElem? hc)

theorem ClusterChain.nextCluster (h : ClusterChain e cs) (himg : Fat12Image m bpb e)
    (hc : cs[i]? = some c) (hd : cs[i + 1]? = some d) :
    nextCluster m bpb (BitVec.ofNat 32 c) = BitVec.ofNat 32 d := by
  have hbound := h.bound hd
  rw [himg.entry (h.linked i c d hc hd)]
  apply BitVec.eq_of_toNat_eq
  rw [BitVec.toNat_setWidth, BitVec.toNat_ofNat, BitVec.toNat_ofNat]
  omega

theorem ClusterChain.iterate (h : ClusterChain e cs) (himg : Fat12Image m bpb e)
    (hstart : cs.head? = some start.toNat) (hc : cs[i]? = some c) :
    (Uroboros.nextCluster m bpb)^[i] start = BitVec.ofNat 32 c := by
  induction i generalizing c with
  | zero =>
    rw [← List.head?_eq_getElem?, hstart] at hc
    obtain rfl := Option.some.inj hc
    rw [BitVec.ofNat_toNat, BitVec.setWidth_eq]
    rfl
  | succ i ih =>
    obtain ⟨b, hb⟩ : ∃ b, cs[i]? = some b := by
      have hlt := (List.getElem?_eq_some_iff.mp hc).1
      exact ⟨_, List.getElem?_eq_getElem (by omega)⟩
    rw [Function.iterate_succ_apply', ih hb]
    exact h.nextCluster himg hb hc

/-- No value of `get_fat12_entry` reaches the end mark. -/
theorem nextCluster_lt (m : Mem) (bpb c : U32) : nextCluster m bpb c < FAT12_EOC := by
  have hlt := (getFat12Entry m bpb (c.setWidth 16)).isLt
  rw [BitVec.lt_def, nextCluster, BitVec.toNat_setWidth]
  exact Nat.lt_of_le_of_lt (Nat.mod_le _ _) (Nat.lt_trans hlt (by decide))

theorem followLink_iterate (m : Mem) (bpb : U32) (l : ClusterLink) (k : Nat) :
    ((followLink m bpb)^[k] l).count = l.count + BitVec.ofNat 32 k ∧
    ((followLink m bpb)^[k] l).nextCluster = (nextCluster m bpb)^[k] l.nextCluster ∧
    ((followLink m bpb)^[k] l).reads =
      l.reads ++ (List.range k).map fun i =>
        ((nextCluster m bpb)^[i] l.nextCluster).setWidth 16 := by
  induction k with
  | zero => exact ⟨by simp, rfl, by simp⟩
  | succ k ih =>
    obtain ⟨hcount, hnext, hreads⟩ := ih
    rw [Function.iterate_succ_apply', Function.iterate_succ_apply']
    refine ⟨?_, congrArg (nextCluster m bpb) hnext, ?_⟩
    · rw [followLink, hcount, BitVec.add_assoc, BitVec.ofNat_add]
      rfl
    rw [followLink, hreads, hnext, List.range_succ, List.map_append, List.append_assoc]
    rfl

theorem moreLinks_iterate (l : ClusterLink) (k : Nat) :
    moreLinks ((followLink m bpb)^[k + 1] l) = true ↔
      FAT12_RESERVED < (nextCluster m bpb)^[k + 1] l.nextCluster := by
  rw [moreLinks, (followLink_iterate m bpb l (k + 1)).2.1, Bool.and_eq_true, decide_eq_true_iff,
    decide_eq_true_iff, Function.iterate_succ_apply']
  exact and_iff_right (nextCluster_lt m bpb _)

/-- The answer counts the entries above 1 that the walk meets first. -/
theorem countClusterLink_eq_some {count : U32} {reads : List U16}
    (h : countClusterLink m bpb fuel start = some (count, reads)) :
    ∃ k, (nextCluster m bpb)^[k + 1] start ≤ FAT12_RESERVED ∧
      (∀ j < k, FAT12_RESERVED < (nextCluster m bpb)^[j + 1] start) ∧
      count = BitVec.ofNat 32 k ∧
      reads = (List.range (k + 1)).map fun i => ((nextCluster m bpb)^[i] start).setWidth 16 := by
  obtain ⟨l, hl, hr⟩ := Option.map_eq_some_iff.mp h
  obtain ⟨hcount, hreads⟩ := Prod.mk.inj hr
  obtain ⟨k, hk, hend, hbefore⟩ := doWhile_eq_some hl
  obtain ⟨hcountk, _, hreadsk⟩ := followLink_iterate m bpb ⟨0, start, []⟩ (k + 1)
  rw [hk] at hend
  refine ⟨k, ?_, fun j hj => (moreLinks_iterate ⟨0, start, []⟩ j).mp (hbefore j hj), ?_, ?_⟩
  · rw [← BitVec.not_lt]
    intro hlt
    rw [(moreLinks_iterate ⟨0, start, []⟩ k).mpr hlt] at hend
    exact Bool.noConfusion hend
  · rw [← hcount, hk, hcountk, BitVec.ofNat_add, ← BitVec.add_assoc]
    exact (BitVec.add_sub_cancel _ _).trans (BitVec.zero_add _)
  · rw [← hreads, hk, hreadsk, List.nil_append]

theorem exists_countClusterLink (h : (nextCluster m bpb)^[k + 1] start ≤ FAT12_RESERVED) :
    ∃ fuel r, countClusterLink m bpb fuel start = some r := by
  have hend : moreLinks ((followLink m bpb)^[k + 1] ⟨0, start, []⟩) = false := by
    rw [Bool.eq_false_iff]
    intro hmore
    exact BitVec.not_lt.mpr h ((moreLinks_iterate ⟨0, start, []⟩ k).mp hmore)
  obtain ⟨fuel, l, hl⟩ : ∃ fuel l, doWhile (followLink m bpb) moreLinks fuel ⟨0, start, []⟩ =
    some l := exists_doWhile hend
  exact ⟨fuel, _, Option.map_eq_some_iff.mpr ⟨l, hl, rfl⟩⟩

/-- An end mark is followed like a cluster: the loop reads its entry. -/
theorem ClusterChain.not_countsLinks (himg : Fat12Image m bpb e)
    (hstart : cs.head? = some start.toNat) (hnodup : cs.Nodup) (h : ClusterChain e cs)
    (hend : EndMarked e cs) : ¬ CountsLinks m bpb e start := by
  rintro ⟨fuel, count, reads, hrun, hcounts⟩
  obtain ⟨k, hle, _, _, rfl⟩ := countClusterLink_eq_some hrun
  obtain ⟨c, x, hlast, hx, hmark⟩ := id hend
  rw [List.getLast?_eq_getElem?] at hlast
  have hlen : 0 < cs.length := by
    have := (List.getElem?_eq_some_iff.mp hlast).1
    omega
  -- The mark itself is what the loop holds after as many passes as there are clusters.
  have hpast : (Uroboros.nextCluster m bpb)^[cs.length] start = x.setWidth 32 := by
    rw [show cs.length = cs.length - 1 + 1 by omega, Function.iterate_succ_apply',
      h.iterate himg hstart hlast]
    exact himg.entry hx
  have hx32 : (x.setWidth 32).toNat = x.toNat := by
    rw [BitVec.toNat_setWidth]
    omega
  have hlong : cs.length ≤ k := by
    by_contra hshort
    have hreach : ∃ b, (Uroboros.nextCluster m bpb)^[k + 1] start = BitVec.ofNat 32 b ∧
        2 ≤ b ∧ b < 2 ^ 32 := by
      rcases Nat.lt_or_ge (k + 1) cs.length with hin | hout
      · have hb := List.getElem?_eq_getElem hin
        have hbound := h.bound hb
        exact ⟨_, h.iterate himg hstart hb, hbound.1, by omega⟩
      · have hk : k + 1 = cs.length := by omega
        refine ⟨x.toNat, ?_, by omega, by omega⟩
        rw [hk, hpast, BitVec.ofNat_toNat]
    obtain ⟨b, hb, hlow, hhigh⟩ := hreach
    rw [hb, BitVec.le_def, BitVec.toNat_ofNat, Nat.mod_eq_of_lt hhigh] at hle
    have h1 : FAT12_RESERVED.toNat = 1 := rfl
    omega
  have hread : x.setWidth 16 ∈ (List.range (k + 1)).map
      fun i => ((Uroboros.nextCluster m bpb)^[i] start).setWidth 16 := by
    refine List.mem_map.mpr ⟨cs.length, List.mem_range.mpr (by omega), ?_⟩
    rw [hpast, BitVec.setWidth_setWidth_of_le _ (by omega)]
  have hin := (hcounts cs hstart hnodup h hend).2 _ hread
  have hx16 : (x.setWidth 16).toNat = x.toNat := by
    rw [BitVec.toNat_setWidth]
    omega
  have hbound := h.valid _ hin
  omega

/-- `count_cluster_link` is right when its walk reaches an entry 0 or 1 and no chain up to an
end mark starts at its cluster. -/
theorem countsLinks_iff (himg : Fat12Image m bpb e) :
    CountsLinks m bpb e start ↔
      (∃ k, (nextCluster m bpb)^[k + 1] start ≤ FAT12_RESERVED) ∧
      ¬ ∃ cs, cs.head? = some start.toNat ∧ cs.Nodup ∧ ClusterChain e cs ∧ EndMarked e cs := by
  constructor
  · intro hright
    refine ⟨?_, ?_⟩
    · obtain ⟨fuel, count, reads, hrun, _⟩ := hright
      obtain ⟨k, hle, _⟩ := countClusterLink_eq_some hrun
      exact ⟨k, hle⟩
    · rintro ⟨cs, hstart, hnodup, hchain, hend⟩
      exact hchain.not_countsLinks himg hstart hnodup hend hright
  · rintro ⟨⟨k, hle⟩, hnone⟩
    obtain ⟨fuel, ⟨count, reads⟩, hrun⟩ := exists_countClusterLink hle
    refine ⟨fuel, count, reads, hrun, ?_⟩
    intro cs hstart hnodup hchain hend
    exact absurd ⟨cs, hstart, hnodup, hchain, hend⟩ hnone

end

/-- A file of the one cluster 2, whose entry 1 sends the walk to an end. -/
theorem countsLinks_iff_reserved : CountsLinks (disk [0xff0, 0xfff, 0x001]) 0
    [0xff0, 0xfff, 0x001] 2 := by
  have himg : Fat12Image (disk [0xff0, 0xfff, 0x001]) 0 [0xff0, 0xfff, 0x001] :=
    ⟨packed_encodeFat12 (by unfold BytesAt; decide), by decide⟩
  refine (countsLinks_iff himg).mpr ⟨⟨0, by decide⟩, ?_⟩
  rintro ⟨cs, hstart, _, hchain, c, x, hlast, hx, hmark⟩
  obtain ⟨hc, rfl⟩ := List.getElem?_eq_some_iff.mp hx
  have hbound := hchain.valid c (List.mem_of_getLast? hlast)
  obtain rfl : c = 2 := by
    simp only [List.length_cons, List.length_nil] at hc
    omega
  exact absurd hmark (show ¬ 0xff8 ≤ 1 by decide)

/-- On the chain 2 the walk goes past the end mark and counts a link that is none. -/
theorem countClusterLink_end_mark :
    let e := [0xff0, 0xfff, 0xfff]
    (Fat12Image (disk e) 0 e ∧ ClusterChain e [2] ∧ EndMarked e [2]) ∧
    countClusterLink (disk e) 0 2 2 = some (1, [2, 0xfff]) ∧ ¬ CountsLinks (disk e) 0 e 2 := by
  have himg : Fat12Image (disk [0xff0, 0xfff, 0xfff]) 0 [0xff0, 0xfff, 0xfff] :=
    ⟨packed_encodeFat12 (by unfold BytesAt; decide), by decide⟩
  have hchain : ClusterChain [0xff0, 0xfff, 0xfff] [2] := by
    refine ⟨by decide, ?_⟩
    intro i c d hc hd
    exact absurd (List.getElem?_eq_some_iff.mp hd).1 (by simp)
  have hend : EndMarked [0xff0, 0xfff, 0xfff] [2] := ⟨2, 0xfff, rfl, rfl, by decide⟩
  exact ⟨⟨himg, hchain, hend⟩, by decide,
    hchain.not_countsLinks himg rfl (by decide) hend⟩

end Uroboros
