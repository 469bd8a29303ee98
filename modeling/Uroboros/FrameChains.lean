import Uroboros.Boot
import Uroboros.PageChain
import Uroboros.VMallocRuns

/-!
# The frames behind an allocated block

`p_mem` of an allocated block leads through the pages that the page tables put
under the block, in order. A block that is cut off gets a new chain. A block that
is given out whole keeps the chain its record had, and no other step of the
allocator can break the description while the links of the list are right.
-/

set_option autoImplicit false

namespace Uroboros

open ByteMemory VMemMan PMemMan

variable {m : Mem} {man : PMemMan} {a v w p : U32} {pages : List PPtr}

theorem pageNumber_eq_iff (hv : v.toNat % 4096 = 0) (hw : w.toNat % 4096 = 0) :
    pageNumber w = pageNumber v ↔ w = v := by
  rw [← BitVec.toNat_inj, ← BitVec.toNat_inj, toNat_pageNumber, toNat_pageNumber]
  omega

theorem walk_mapMemory4k_page (ht : Tables m) (hv : v.toNat % 4096 = 0) (hp : p.toNat % 4096 = 0)
    (hw : w.toNat % 4096 = 0) : walk (mapMemory4k m kernelPdt v p) kernelPdt w =
      if w = v then some p else walk m kernelPdt w := by
  rw [walk_mapMemory4k ht, remap]
  by_cases heq : w = v
  · rw [if_pos ((pageNumber_eq_iff hv hw).mpr heq), if_pos heq, Option.some_inj]
    rw [← BitVec.toNat_inj, frameAddr_or_offset]
    omega
  · rw [if_neg fun h => heq ((pageNumber_eq_iff hv hw).mp h), if_neg heq]

section Calls
variable (ht : Tables m) (ha : a.toNat % 4096 = 0)
  (haddr : ∀ i, (man.tbl i).addr.toNat % 4096 = 0)
  (hfit : a.toNat + 4096 * pages.length < 2 ^ 32)
include ht ha haddr hfit

/-- The last call for an address decides, and no two of these calls are for the same one. -/
theorem walk_backCalls {i : Nat} (hi : i < pages.length) :
    walk (mapAll m (backCalls a man pages)) kernelPdt (a + memPageSize * BitVec.ofNat 32 i) =
      some (man.tbl pages[i]).addr := by
  induction pages using List.reverseRecOn with
  | nil => cases hi
  | append_singleton init page ih =>
    rw [List.length_append, List.length_singleton] at hi hfit
    have hstep : ∀ j ≤ init.length,
        (a + memPageSize * BitVec.ofNat 32 j).toNat = a.toNat + 4096 * j :=
      fun j hj => toNat_pageStep (by omega)
    have hnew := hstep init.length (Nat.le_refl _)
    have hcell := hstep i (by omega)
    rw [mapAll_backCalls_snoc, walk_mapMemory4k_page (mapAll_tables ht _) (by omega) (haddr page)
      (by omega)]
    by_cases heq : i = init.length
    · subst i
      rw [if_pos rfl]
      simp
    · have hne : a + memPageSize * BitVec.ofNat 32 i ≠
          a + memPageSize * BitVec.ofNat 32 init.length := by
        intro h
        rw [h] at hcell
        omega
      have hlt : i < init.length := by omega
      rw [if_neg hne, ih (by omega) hlt, List.getElem_append_left hlt]

theorem walk_backCalls_other (hv : v.toNat % 4096 = 0)
    (hout : ∀ i < pages.length, v ≠ a + memPageSize * BitVec.ofNat 32 i) :
    walk (mapAll m (backCalls a man pages)) kernelPdt v = walk m kernelPdt v := by
  induction pages using List.reverseRecOn with
  | nil => rfl
  | append_singleton init page ih =>
    rw [List.length_append, List.length_singleton] at hout hfit
    have hnew : (a + memPageSize * BitVec.ofNat 32 init.length).toNat =
        a.toNat + 4096 * init.length := toNat_pageStep (by omega)
    rw [mapAll_backCalls_snoc,
      walk_mapMemory4k_page (mapAll_tables ht _) (by omega) (haddr page) hv,
      if_neg (hout init.length (by omega)), ih (by omega) fun i hi => hout i (by omega)]

end Calls

/-- Frames are whole pages and different ones, and no address is mapped to an unused one. -/
structure FramesReady (k : Kernel) : Prop where
  tables : Tables k.mem
  clear : k.pmemman.UnusedClear
  aligned : ∀ i, (k.pmemman.tbl i).addr.toNat % 4096 = 0
  distinct : ∀ i j, (k.pmemman.tbl i).addr = (k.pmemman.tbl j).addr → i = j
  mapped : ∀ v i, v.toNat % 4096 = 0 →
    walk k.mem kernelPdt v = some (k.pmemman.tbl i).addr → (k.pmemman.tbl i).flags ≠ 0

theorem framesReady_firstUsed {k : Kernel} {n : Nat} (hpages : k.pmemman = firstUsed pmallocStart n)
    (htables : Tables k.mem) (hmapped : ∀ v w, ∀ i : PPtr, walk k.mem kernelPdt v = some w →
      w.toNat = 0x1000000 + 4096 * i.val → i.val < n) : FramesReady k := by
  have haddr : ∀ i, (k.pmemman.tbl i).addr.toNat = 0x1000000 + 4096 * i.val := by
    intro i
    have hi : i.val < 524288 := i.isLt
    rw [hpages]
    simp only [firstUsed, pmallocStart, memPageSize]
    bv_omega
  constructor
  · exact htables
  · intro i _
    rw [hpages]
    rfl
  · intro i
    rw [haddr]
    omega
  · intro i j hij
    have hnat := congrArg BitVec.toNat hij
    rw [haddr, haddr] at hnat
    exact Fin.ext (by omega)
  · intro v i _ hwalk
    have hi := hmapped v _ i hwalk (haddr i)
    rw [hpages]
    simp [firstUsed, hi]

namespace FramesReady
variable {k k' : Kernel}

theorem frame (h : FramesReady k) (vmemman : VMemMan) : FramesReady { k with vmemman } :=
  ⟨h.tables, h.clear, h.aligned, h.distinct, h.mapped⟩

theorem taken (h : FramesReady k) (hchain : Chained k.pmemman k'.pmemman pages)
    (ha : a.toNat % 4096 = 0) (hfit : a.toNat + 4096 * pages.length < 2 ^ 32)
    (hmem : k'.mem = mapAll k.mem (backCalls a k.pmemman pages)) : FramesReady k' := by
  constructor
  · rw [hmem]
    exact mapAll_tables h.tables _
  · exact hchain.unusedClear h.clear
  · intro i
    rw [hchain.addr]
    exact h.aligned i
  · intro i j hij
    rw [hchain.addr, hchain.addr] at hij
    exact h.distinct i j hij
  · intro v i hv hwalk
    rw [hmem, hchain.addr] at hwalk
    by_cases hin : ∃ j < pages.length, v = a + memPageSize * BitVec.ofNat 32 j
    · obtain ⟨j, hj, rfl⟩ := hin
      rw [walk_backCalls h.tables ha h.aligned hfit hj] at hwalk
      have heq := h.distinct _ _ (Option.some.inj hwalk)
      exact heq ▸ hchain.used _ (List.getElem_mem hj)
    · have hout : ∀ j < pages.length, v ≠ a + memPageSize * BitVec.ofNat 32 j :=
        fun j hj heq => hin ⟨j, hj, heq⟩
      rw [walk_backCalls_other h.tables ha h.aligned hfit hv hout] at hwalk
      have hused := h.mapped v i hv hwalk
      by_cases hi : i ∈ pages
      · exact hchain.used i hi
      · rw [hchain.elsewhere i hi]
        exact hused

theorem initVmalloc {start stop pdt : U32} (h : FramesReady k)
    (hinit : k.initVmalloc start stop pdt = .ok k') : FramesReady k' := by
  refine Kernel.initVmalloc_invariant (P := FramesReady) h ?_
    (fun _ vmemman hk => hk.frame vmemman) hinit
  intro i k k' hi hk hpass
  obtain ⟨page, hchain, hmem⟩ := Kernel.initVmallocPage_chained hk.clear hpass
  have ha : (vmallocManAddr + BitVec.ofNat 32 i * memPageSize).toNat = 0xa01000 + 4096 * i := by
    unfold vmallocManAddr memPageSize
    bv_omega
  exact hk.taken hchain (by omega) (by rw [List.length_singleton]; omega) hmem

end FramesReady

/-- From `p_mem` on there are as many pages as the block has, and they are mapped under it. -/
def Described (k : Kernel) (p : BPtr) : Prop :=
  ∃ pages, Seg (fun i => (k.pmemman.tbl i).next) (k.vmemman.blocks p).pMem pages none ∧
    pages.length = (k.vmemman.blocks p).size.toNat / 4096 ∧
    ∀ i (hi : i < pages.length), walk k.mem kernelPdt
      ((k.vmemman.blocks p).addr + memPageSize * BitVec.ofNat 32 i) =
        some (k.pmemman.tbl pages[i]).addr

instance (k : Kernel) (p : BPtr) : Decidable (Described k p) :=
  decidable_of_iff
    (∃ pages ∈ Seg.walk (fun i => (k.pmemman.tbl i).next)
        ((k.vmemman.blocks p).size.toNat / 4096) (k.vmemman.blocks p).pMem,
      ∀ i (hi : i < pages.length), walk k.mem kernelPdt
        ((k.vmemman.blocks p).addr + memPageSize * BitVec.ofNat 32 i) =
          some (k.pmemman.tbl pages[i]).addr)
    (exists_congr fun _ => (and_congr_left' Seg.walk_eq_some_iff).trans and_assoc)

def FramesDescribed (k : Kernel) : Prop :=
  ∀ p, (k.vmemman.blocks p).Allocated → Described k p

/-- A block that `vmalloc` gives out whole is described by the chain its record has. -/
def ReusesDescribed (k : Kernel) : HeapOp → Prop
  | .kvmalloc size _ => ∀ p ∈ k.vmemman.findFit size vmemMaxUnits k.vmemman.entry,
      (k.vmemman.blocks p).next ≠ none → (k.vmemman.blocks p).size = size → Described k p
  | .kvfree _ => True

instance (k : Kernel) : (op : HeapOp) → Decidable (ReusesDescribed k op)
  | .kvmalloc _ _ => inferInstanceAs (Decidable (∀ _ ∈ _, _))
  | .kvfree _ => isTrue trivial

section Block
variable {k k' : Kernel} {l l₁ l₂ : List BPtr} {p q n : BPtr} {size addr : U32} {fuel : Nat}

theorem Described.congr (h : Described k p) (hpages : k'.pmemman = k.pmemman)
    (hmem : k'.mem = k.mem) (haddr : (k'.vmemman.blocks p).addr = (k.vmemman.blocks p).addr)
    (hsize : (k'.vmemman.blocks p).size = (k.vmemman.blocks p).size)
    (hchain : (k'.vmemman.blocks p).pMem = (k.vmemman.blocks p).pMem) : Described k' p := by
  unfold Described
  rw [hpages, hmem, haddr, hsize, hchain]
  exact h

/-- The heap and the frames under its allocated blocks. -/
structure Backing (k : Kernel) (l : List BPtr) : Prop where
  sound : Sound k.vmemman l
  ready : FramesReady k
  aligned : ∀ p ∈ l, (k.vmemman.blocks p).addr.toNat % 4096 = 0
  described : FramesDescribed k

namespace Backing

theorem cell (h : Backing k l) (hp : p ∈ l) {i : Nat}
    (hi : i < (k.vmemman.blocks p).size.toNat / 4096) :
    ((k.vmemman.blocks p).addr + memPageSize * BitVec.ofNat 32 i).toNat =
        (k.vmemman.blocks p).addr.toNat + 4096 * i ∧
      (k.vmemman.blocks p).addr.toNat + 4096 * i <
        (k.vmemman.blocks p).addr.toNat + (k.vmemman.blocks p).size.toNat := by
  have hbound := h.sound.layout.size_le hp
  exact ⟨toNat_pageStep (by omega), by omega⟩

theorem mem_of_allocated (h : Backing k l) (hp : (k.vmemman.blocks p).Allocated) : p ∈ l := by
  by_contra hnot
  rw [VMemBlockInfo.Allocated, (h.sound.unlisted p hnot).1] at hp
  exact hp BitVec.zero_and

/-- What an allocated block shows of its frames is not changed by backing another block. -/
theorem kept (h : Backing k l) (hp : p ∈ l) (hq : (k.vmemman.blocks q).Allocated) (hqp : q ≠ p)
    (hle : size ≤ (k.vmemman.blocks p).size) (hchain : Chained k.pmemman k'.pmemman pages)
    (hlen : pages.length = size.toNat / 4096)
    (hmem : k'.mem = mapAll k.mem (backCalls (k.vmemman.blocks p).addr k.pmemman pages))
    (haddr : (k'.vmemman.blocks q).addr = (k.vmemman.blocks q).addr)
    (hsize : (k'.vmemman.blocks q).size = (k.vmemman.blocks q).size)
    (hpMem : (k'.vmemman.blocks q).pMem = (k.vmemman.blocks q).pMem) : Described k' q := by
  have hql := h.mem_of_allocated hq
  have hle' : size.toNat ≤ (k.vmemman.blocks p).size.toNat := hle
  have hbound := h.sound.layout.size_le hp
  have hdisj := h.sound.tiles.disjoint hql hp hqp
  obtain ⟨old, hseg, hcount, hwalk⟩ := h.described q hq
  have hcell : ∀ i < old.length, ((k.vmemman.blocks q).addr +
      memPageSize * BitVec.ofNat 32 i).toNat % 4096 = 0 := by
    intro i hi
    have hcell := (h.cell hql (hcount ▸ hi)).1
    have hstart := h.aligned q hql
    omega
  have hused : ∀ i ∈ old, (k.pmemman.tbl i).flags ≠ 0 := by
    intro i hi
    obtain ⟨j, hj, rfl⟩ := List.getElem_of_mem hi
    exact h.ready.mapped _ _ (hcell j hj) (hwalk j hj)
  refine ⟨old, ?_, ?_, ?_⟩
  · rw [hpMem]
    exact (hchain.kept hseg hused).1
  · rw [hsize]
    exact hcount
  · intro i hi
    have hout : ∀ j < pages.length, (k.vmemman.blocks q).addr + memPageSize * BitVec.ofNat 32 i ≠
        (k.vmemman.blocks p).addr + memPageSize * BitVec.ofNat 32 j := by
      intro j hj heq
      obtain ⟨hqi, hqlt⟩ := h.cell hql (hcount ▸ hi)
      have hpj := (h.cell hp (i := j) (by omega)).1
      rw [heq] at hqi
      omega
    rw [hmem, haddr, hchain.addr, walk_backCalls_other h.ready.tables (h.aligned p hp)
      h.ready.aligned (by omega) (hcell i hi) hout]
    exact hwalk i hi

theorem cut {new : List PPtr} (h : Backing k (l₁ ++ p :: l₂)) (hfree : (k.vmemman.blocks p).IsFree)
    (hle : size ≤ (k.vmemman.blocks p).size) (hmod : size.toNat % 4096 = 0)
    (hpos : 4096 ≤ size.toNat)
    (hfit : (k.vmemman.blocks p).next = none ∨ size < (k.vmemman.blocks p).size)
    (hcarved : Kernel.Carved k k' p n size new) : Backing k' (l₁ ++ p :: n :: l₂) := by
  have hcut := hcarved.cut
  have hchain := hcarved.toChained
  have hp : p ∈ l₁ ++ p :: l₂ := mem_self_middle
  have hnp := h.sound.layout.new_ne hcut
  have hle' : size.toNat ≤ (k.vmemman.blocks p).size.toNat := hle
  have hbound := h.sound.layout.size_le hp
  have hstart := h.aligned p hp
  have hlen : new.length = size.toNat / 4096 := by
    rw [hcarved.length, memNpage_of_dvd hmod]
    omega
  have haddr : ∀ q, q ≠ n → (k'.vmemman.blocks q).addr = (k.vmemman.blocks q).addr := by
    intro q hq
    rw [hcut.addr, if_neg hq]
  constructor
  · exact h.sound.cut hcut hfree hle (by omega) hfit
  · exact h.ready.taken hchain hstart (by omega) hcarved.mem
  · intro q hq
    by_cases hqn : q = n
    · rw [hcut.addr, if_pos hqn, BitVec.toNat_add]
      omega
    · rw [haddr q hqn]
      apply h.aligned q
      rcases mem_middle hq with heq | hq
      · exact heq ▸ hp
      · exact mem_of_mem_middle ((mem_middle hq).resolve_left hqn)
  · intro q hq
    by_cases hqp : q = p
    · subst q
      refine ⟨new, ?_, ?_, ?_⟩
      · rw [hcarved.pMem, if_pos rfl]
        exact hcarved.chain
      · rw [hcut.size, if_neg hnp.symm, if_pos rfl]
        exact hlen
      · intro i hi
        rw [hcarved.mem, haddr p hnp.symm, hchain.addr]
        exact walk_backCalls h.ready.tables hstart h.ready.aligned (by omega) hi
    · have hqn : q ≠ n := by
        rintro rfl
        exact (h.sound.cut_new_free hcut).not_allocated hq
      have hsame := hcut.elsewhere hqn hqp
      rw [VMemBlockInfo.Allocated, hsame.1] at hq
      exact h.kept hp hq hqp hle hchain hlen hcarved.mem hsame.2.1 hsame.2.2.1
        (by rw [hcarved.pMem, if_neg hqp])

theorem reuse (h : Backing k l) (hp : p ∈ l) (hfree : (k.vmemman.blocks p).IsFree)
    (hmid : (k.vmemman.blocks p).next ≠ none) (hdesc : Described k p) :
    Backing (k.markAllocated p) l := by
  have hfields := modify_flags_fields (m := k.vmemman) (p := p) (· ||| vmemBlocksAlloc)
  have hpMem : ∀ q, ((k.markAllocated p).vmemman.blocks q).pMem = (k.vmemman.blocks q).pMem := by
    intro q
    rw [Kernel.markAllocated_blocks]
    split
    · subst q
      rfl
    · rfl
  constructor
  · exact (h.sound.markAllocated hp hfree hmid).1
  · exact h.ready.frame _
  · intro q hq
    rw [Kernel.markAllocated, (hfields q).1]
    exact h.aligned q hq
  · intro q hq
    have hold : Described k q := by
      by_cases hqp : q = p
      · exact hqp ▸ hdesc
      · rw [Kernel.markAllocated_blocks, if_neg hqp] at hq
        exact h.described q hq
    exact hold.congr rfl rfl (hfields q).1 (hfields q).2.1 (hpMem q)

theorem release (h : Backing k l) (hp : p ∈ l) (htaken : (k.vmemman.blocks p).IsTaken)
    (hlinks : k.vmemman.PrevLinks p) :
    ∃ l', Backing { k with vmemman := k.vmemman.release p } l' := by
  obtain ⟨l', hsound, _⟩ := h.sound.release hp htaken hlinks
  obtain ⟨hthin, _⟩ := release_thinned k.vmemman p
  refine ⟨l', hsound, ?_, ?_, ?_⟩
  · exact h.ready.frame _
  · intro q hq
    have hql := h.sound.inUse_iff.mp (hthin.inUse q (hsound.inUse_iff.mpr hq))
    dsimp only
    rw [hthin.addr]
    exact h.aligned q hql
  · intro q hq
    obtain ⟨hold, hsize, hpMem⟩ := hthin.allocated q hq
    exact (h.described q hold).congr rfl rfl (hthin.addr q) hsize hpMem

end Backing

end Block

def BackingInv (k : Kernel) : Prop := ∃ l, Backing k l

theorem backingInv_init {k₀ k₁ : Kernel} {start stop pdt : U32} (hle : start.toNat ≤ stop.toNat)
    (hstart : start.toNat % 4096 = 0) (hready : FramesReady k₀)
    (hinit : k₀.initVmalloc start stop pdt = .ok k₁) : BackingInv k₁ := by
  have hsound := Kernel.sound_initVmalloc hle hinit
  obtain ⟨_, _, _, hflags, haddr, _⟩ := Kernel.initVmalloc_cases hinit
  have hfree : (k₁.vmemman.blocks firstBlock).IsFree := hflags
  refine ⟨[firstBlock], hsound, hready.initVmalloc hinit, ?_, ?_⟩
  · intro p hp
    rw [List.mem_singleton.mp hp, haddr]
    exact hstart
  · intro p hp
    by_cases heq : p = firstBlock
    · exact absurd (heq ▸ hp) hfree.not_allocated
    · have hunused := hsound.unlisted p fun hmem => heq (List.mem_singleton.mp hmem)
      rw [VMemBlockInfo.Allocated, hunused.1] at hp
      exact absurd BitVec.zero_and hp

/-- The steps of a run whose releases join only to records that link back. -/
def LinkedCall (k : Kernel) (op : HeapOp) (k' : Kernel) : Prop :=
  HeapCall k op k' ∧ FreesLinked (k, []) op

theorem backingInv_call (k : Kernel) (op : HeapOp) (k' : Kernel) (h : BackingInv k)
    (hguard : ReusesDescribed k op) (hcall : LinkedCall k op k') : BackingInv k' := by
  obtain ⟨l, h⟩ := h
  obtain ⟨hcall, hlinked⟩ := hcall
  cases hcall with
  | kvmalloc fuel hmod hpos hret =>
    obtain ⟨p, hp, _, hfree, hle, hfit, hcase⟩ := Kernel.vmalloc_found h.sound hmod hret
    rcases hcase with ⟨hmid, hexact, rfl⟩ | ⟨hcut, hsplit⟩
    · exact ⟨l, h.reuse hp hfree hmid (hguard p hfit hmid hexact)⟩
    · obtain ⟨n, new, hcarved⟩ := Kernel.splitBlock_carved h.ready.clear hfree.inUse hsplit
      obtain ⟨l₁, l₂, rfl⟩ := List.append_of_mem hp
      exact ⟨l₁ ++ p :: n :: l₂, h.cut hfree hle hmod hpos hcut hcarved⟩
  | kvfree fuel hret =>
    rcases Kernel.kvfree_cases hret with ⟨_, rfl⟩ | ⟨p, hfind, rfl⟩
    · exact ⟨l, h⟩
    · obtain ⟨hp, haddr, halloc⟩ := findAllocated_some h.sound.list hfind
      exact h.release hp ((h.sound.isTaken_iff hp).mpr halloc)
        (hlinked.prevLinks h.sound hp halloc haddr)

theorem reuse_breaks (k : Kernel) (op : HeapOp) (k' : Kernel) (h : BackingInv k)
    (hguard : ¬ ReusesDescribed k op) (hcall : LinkedCall k op k') : ¬ FramesDescribed k' := by
  obtain ⟨l, h⟩ := h
  cases hcall.1 with
  | kvfree fuel hret => exact absurd trivial hguard
  | kvmalloc fuel hmod hpos hret =>
    intro hdesc
    apply hguard
    intro p hp hmid hexact
    obtain ⟨p', _, _, hfree, _, hfit, hcase⟩ := Kernel.vmalloc_found h.sound hmod hret
    cases hfit.symm.trans hp
    rcases hcase with ⟨_, _, rfl⟩ | ⟨hcut, _⟩
    · have hblock := Kernel.markAllocated_blocks (k := k) (p := p) p
      rw [if_pos rfl] at hblock
      have htaken : ((k.markAllocated p).vmemman.blocks p).IsTaken := by
        rw [hblock, VMemBlockInfo.IsTaken, hfree.flags_eq]
      exact (hdesc p htaken.allocated).congr rfl rfl (by rw [hblock]) (by rw [hblock])
        (by rw [hblock])
    · rcases hcut with hlast | hlt
      · exact absurd hlast hmid
      · rw [hexact] at hlt
        exact absurd hlt (BitVec.lt_irrefl _)

/-- In a run whose releases join only to records that link back, the chains describe the allocated
blocks all along exactly when each block given out whole is described by the chain it has. -/
theorem framesDescribed_iff {k₀ k₁ : Kernel} {start stop pdt : U32}
    (hle : start.toNat ≤ stop.toNat) (hstart : start.toNat % 4096 = 0) (hready : FramesReady k₀)
    (hinit : k₀.initVmalloc start stop pdt = .ok k₁)
    {tr : List (Kernel × HeapOp × Kernel)} {k : Kernel} (hrun : Run HeapCall k₁ tr k)
    (hlinked : Run.Guarded (fun k op => FreesLinked (k, []) op) tr) :
    (FramesDescribed k₁ ∧ ∀ x ∈ tr, FramesDescribed x.2.2) ↔ Run.Guarded ReusesDescribed tr :=
  (hrun.guard hlinked).forall_iff_guarded (backingInv_init hle hstart hready hinit)
    backingInv_call (fun _ ⟨_, h⟩ => h.described) reuse_breaks

/-- The start-up code leaves the frames ready for `init_kvmalloc`. -/
theorem framesReady_boot (vmemman : VMemMan) (cr0 newStackP : U32) (m : Mem) :
    FramesReady ⟨vmemman, firstUsed pmallocStart 9216,
      (mapStack cr0 newStackP (initKernelMem cr0 m)).2⟩ := by
  have hboot := mapStack_state cr0 newStackP m
  apply framesReady_firstUsed rfl hboot.tables
  intro v w i hwalk hw
  rw [hboot.walk, overlay] at hwalk
  split at hwalk
  · rename_i hstack
    cases hwalk
    unfold InRange at hstack
    simp only [kernelStackTopV, pmallocStart, memPageSize] at hstack hw
    bv_omega
  · rw [kernelMap] at hwalk
    simp only [vramAddr, pmallocStart, kernelAddr] at hwalk
    split_ifs at hwalk
    all_goals
      cases hwalk
      bv_omega

theorem framesReady_bareKernel : FramesReady bareKernel := by
  have hload : ∀ a, load32 (fun _ => 0) a = 0 := by
    intro a
    simp [load32]
  have htables : Tables (fun _ => 0) := ⟨fun _ => .inl (hload _), fun _ _ => hload _⟩
  apply framesReady_firstUsed (n := 0) rfl htables
  intro v w i hwalk
  have hnone : walk (fun _ => 0) kernelPdt v = none := by
    rw [walk_eq htables, hload, entryTarget_zero]
  cases hnone.symm.trans hwalk

/-- Two blocks, one freed and given out whole again. -/
theorem framesDescribed_reused : ∃ k₁ tr k,
    bareKernel.initVmalloc vmallocStart vmallocInitEnd kernelPdt = .ok k₁ ∧
      Run HeapCall k₁ tr k ∧ tr.length = 4 ∧ FramesDescribed k₁ ∧
      ∀ x ∈ tr, FramesDescribed x.2.2 := by
  have hserved : (served [.kvmalloc 0x2000, .kvmalloc 0x1000, .kvfree 0x3000000,
      .kvmalloc 0x2000]).map (fun r =>
        (decide (Run.Guarded (fun k op => FreesLinked (k, []) op) (kernelTrace r.2.1)),
          decide (Run.Guarded ReusesDescribed (kernelTrace r.2.1)),
          (kernelTrace r.2.1).length)) = some (true, true, 4) := by
    decide +kernel
  obtain ⟨k₁, tr, s, hinit, hrun, heq⟩ := served_run hserved
  simp only [Prod.mk.injEq, decide_eq_true_eq] at heq
  obtain ⟨hlinked, hguard, hlen⟩ := heq
  have hcalls := hrun.map Prod.fst SessionStep.heapCall
  have hdesc := (framesDescribed_iff (by decide) (by decide) framesReady_bareKernel hinit hcalls
    hlinked).mpr hguard
  exact ⟨k₁, kernelTrace tr, s.1, hinit, hcalls, hlen, hdesc⟩

/-- Three blocks of one page; the first two are freed and given out as one of two pages, whose
chain is still the single page of the first. -/
theorem frames_not_described : ∃ k₁ tr k,
    bareKernel.initVmalloc vmallocStart vmallocInitEnd kernelPdt = .ok k₁ ∧
      Run HeapCall k₁ tr k ∧ ¬ FramesDescribed k := by
  have hserved : (served [.kvmalloc 0x1000, .kvmalloc 0x1000, .kvmalloc 0x1000,
      .kvfree 0x3000000, .kvfree 0x3001000, .kvmalloc 0x2000]).map (fun r =>
        (decide (r.2.2.1.vmemman.blocks 0).Allocated, decide (Described r.2.2.1 0))) =
      some (true, false) := by
    decide +kernel
  obtain ⟨k₁, tr, s, hinit, hrun, heq⟩ := served_run hserved
  simp only [Prod.mk.injEq, decide_eq_true_eq, decide_eq_false_iff_not] at heq
  obtain ⟨halloc, hnot⟩ := heq
  exact ⟨k₁, kernelTrace tr, s.1, hinit, hrun.map Prod.fst SessionStep.heapCall,
    fun hdesc => hnot (hdesc 0 halloc)⟩

end Uroboros
