import Uroboros.KernelMem
import Uroboros.VMallocFit

/-!
# First fit over mapped pages

A block that is given out whole gets no new pages: it must have been mapped
before. `Heap` says that every block but the last is mapped, each page of the
extent to a frame of its own and every mapped frame in use. `vmalloc` keeps it,
whether it cuts a block in the middle, cuts the last one or finds an exact fit.
-/

set_option autoImplicit false

namespace Uroboros

open ByteMemory VMemMan PMemMan

variable {m : Mem} {man : PMemMan} {a v w : U32} {pages : List PPtr}

def Mapped (m : Mem) (v : U32) : Prop := load32 m (pteAddr v) &&& pteP ≠ 0

def mappedFrame (m : Mem) (v : U32) : U32 := load32 m (pteAddr v) &&& pteFrameAddr

def PMemMan.frame (man : PMemMan) (i : PPtr) : U32 := (man.tbl i).addr &&& pteFrameAddr

/-- The processor translates exactly the addresses with a present entry. -/
theorem mapped_iff_walk (h : Tables m) : Mapped m v ↔ walk m kernelPdt v ≠ none := by
  rw [walk_eq h, entryTarget, Mapped]
  split
  · rename_i hzero
    exact iff_of_false (fun hne => hne hzero) fun hne => hne rfl
  · rename_i hne
    exact iff_of_true hne (Option.some_ne_none _)

section Calls
variable (hfit : a.toNat + 4096 * pages.length ≤ 2 ^ 32)
include hfit

theorem pte_backCalls (m : Mem) (man : PMemMan) (v : U32) :
    (∃ i, ∃ hi : i < pages.length, pageNumber v = pageNumber (a + memPageSize * BitVec.ofNat 32 i) ∧
      load32 (mapAll m (backCalls a man pages)) (pteAddr v) =
        presentEntry (man.tbl pages[i]).addr) ∨
    (∀ i < pages.length, pageNumber v ≠ pageNumber (a + memPageSize * BitVec.ofNat 32 i)) ∧
      load32 (mapAll m (backCalls a man pages)) (pteAddr v) = load32 m (pteAddr v) := by
  induction pages using List.reverseRecOn with
  | nil => exact .inr ⟨fun i hi => absurd hi (Nat.not_lt_zero i), rfl⟩
  | append_singleton init page ih =>
    rw [List.length_append, List.length_singleton] at hfit
    rw [mapAll_backCalls_snoc, load_pte_mapMemory4k]
    by_cases hlast : pageNumber v = pageNumber (a + memPageSize * BitVec.ofNat 32 init.length)
    · refine .inl ⟨init.length, by simp, hlast, ?_⟩
      rw [if_pos hlast]
      simp
    · rw [if_neg hlast]
      rcases ih (by omega) with ⟨i, hi, hv, heq⟩ | ⟨hout, heq⟩
      · refine .inl ⟨i, by simp; omega, hv, ?_⟩
        rw [heq, List.getElem_append_left hi]
      · refine .inr ⟨?_, heq⟩
        intro i hi
        rw [List.length_append, List.length_singleton] at hi
        by_cases hi' : i < init.length
        · exact hout i hi'
        · have hlen : i = init.length := by omega
          exact hlen ▸ hlast

theorem mapped_backCalls (h : Mapped m v) : Mapped (mapAll m (backCalls a man pages)) v := by
  rw [Mapped]
  rcases pte_backCalls hfit m man v with ⟨i, hi, _, heq⟩ | ⟨_, heq⟩
  · rw [heq, presentEntry_present]
    decide
  · rw [heq]
    exact h

theorem mapped_backCalls_new {i : Nat} (hi : i < pages.length) :
    Mapped (mapAll m (backCalls a man pages)) (a + memPageSize * BitVec.ofNat 32 i) := by
  rcases pte_backCalls hfit m man (a + memPageSize * BitVec.ofNat 32 i) with
    ⟨j, hj, _, heq⟩ | ⟨hout, _⟩
  · rw [Mapped, heq, presentEntry_present]
    decide
  · exact absurd rfl (hout i hi)

/-- A mapped page is mapped to one of the new frames, or as it was. -/
theorem mappedFrame_backCalls (h : Mapped (mapAll m (backCalls a man pages)) v) :
    (∃ i, ∃ hi : i < pages.length, pageNumber v = pageNumber (a + memPageSize * BitVec.ofNat 32 i) ∧
      mappedFrame (mapAll m (backCalls a man pages)) v = man.frame pages[i]) ∨
    Mapped m v ∧ mappedFrame (mapAll m (backCalls a man pages)) v = mappedFrame m v := by
  rcases pte_backCalls hfit m man v with ⟨i, hi, hv, heq⟩ | ⟨_, heq⟩
  · refine .inl ⟨i, hi, hv, ?_⟩
    rw [mappedFrame, heq, presentEntry_frame]
    rfl
  · rw [Mapped, heq] at h
    exact .inr ⟨h, congrArg (· &&& pteFrameAddr) heq⟩

end Calls

def VMemMan.cell (m : VMemMan) (i : Nat) : U32 := m.extentStart + memPageSize * BitVec.ofNat 32 i

def VMemMan.cells (m : VMemMan) : Nat := (m.extentEnd.toNat - m.extentStart.toNat) / 4096

structure Heap (k : Kernel) (l : List BPtr) : Prop extends Layout k.vmemman l where
  whole : ∀ p ∈ l, (k.vmemman.blocks p).size.toNat % 4096 = 0
  nonempty : ∀ p ∈ l, (k.vmemman.blocks p).next ≠ none → 0 < (k.vmemman.blocks p).size.toNat
  lastFree : ∀ p ∈ l, (k.vmemman.blocks p).next = none → ¬ (k.vmemman.blocks p).Allocated
  mapped : ∀ p ∈ l, (k.vmemman.blocks p).next ≠ none →
    ∀ i < (k.vmemman.blocks p).size.toNat / 4096,
      Mapped k.mem ((k.vmemman.blocks p).addr + memPageSize * BitVec.ofNat 32 i)
  apart : ∀ i < k.vmemman.cells, ∀ j < k.vmemman.cells,
    Mapped k.mem (k.vmemman.cell i) → Mapped k.mem (k.vmemman.cell j) →
    mappedFrame k.mem (k.vmemman.cell i) = mappedFrame k.mem (k.vmemman.cell j) → i = j
  held : ∀ v i, Mapped k.mem v → mappedFrame k.mem v = k.pmemman.frame i →
    (k.pmemman.tbl i).flags ≠ 0
  frames : ∀ i j, k.pmemman.frame i = k.pmemman.frame j → i = j

theorem frame_inj_of_addr {start : U32}
    (haddr : ∀ i, (man.tbl i).addr = start + BitVec.ofNat 32 i.val * memPageSize) (i j : PPtr)
    (h : man.frame i = man.frame j) : i = j := by
  have hi : i.val < 524288 := i.isLt
  have hj : j.val < 524288 := j.isLt
  have hnat := congrArg BitVec.toNat h
  rw [PMemMan.frame, PMemMan.frame, toNat_frameAddr, toNat_frameAddr, haddr, haddr] at hnat
  have hstep : ∀ n < 524288, (start + BitVec.ofNat 32 n * memPageSize).toNat =
      (start.toNat + 4096 * n) % 2 ^ 32 := by
    intro n hn
    unfold memPageSize
    bv_omega
  rw [hstep _ hi, hstep _ hj] at hnat
  exact Fin.ext (by omega)

theorem VMemMan.cell_inj {m : VMemMan} {i j : Nat} (hi : i < m.cells) (hj : j < m.cells)
    (h : pageNumber (m.cell i) = pageNumber (m.cell j)) : i = j := by
  have hend := m.extentEnd.isLt
  unfold cells at hi hj
  have hnat := congrArg BitVec.toNat h
  rw [toNat_pageNumber, toNat_pageNumber, cell, cell, toNat_pageStep (by omega),
    toNat_pageStep (by omega)] at hnat
  omega

namespace Heap
variable {k k' : Kernel} {l l₁ l₂ : List BPtr} {p q n : BPtr} {size : U32}

theorem setFlags (h : Heap k l) {f : U8 → U8}
    (huse : f (k.vmemman.blocks p).flags &&& vmemBlocksUse =
      (k.vmemman.blocks p).flags &&& vmemBlocksUse)
    (hlast : (k.vmemman.blocks p).next = none →
      f (k.vmemman.blocks p).flags &&& vmemBlocksAlloc = 0) :
    Heap { k with vmemman := k.vmemman.modify p fun b => { b with flags := f b.flags } } l := by
  have hfields := modify_flags_fields (m := k.vmemman) (p := p) f
  refine ⟨h.toLayout.setFlags huse, ?_, ?_, ?_, ?_, h.apart, h.held, h.frames⟩
  · intro q hq
    rw [(hfields q).2.1]
    exact h.whole q hq
  · intro q hq hq'
    rw [(hfields q).2.2.1] at hq'
    rw [(hfields q).2.1]
    exact h.nonempty q hq hq'
  · intro q hq hend
    rw [(hfields q).2.2.1] at hend
    rw [VMemBlockInfo.Allocated, modify_blocks]
    split
    · rename_i heq
      subst heq
      exact fun halloc => halloc (hlast hend)
    · exact h.lastFree q hq hend
  · intro q hq hq'
    rw [(hfields q).2.2.1] at hq'
    rw [(hfields q).2.1, (hfields q).1]
    exact h.mapped q hq hq'

theorem mark (h : Heap k l) (hmid : (k.vmemman.blocks p).next ≠ none) :
    Heap (k.markAllocated p) l :=
  h.setFlags (f := (· ||| vmemBlocksAlloc)) (mark_use _) fun hend => absurd hend hmid

section Taken
variable (h : Heap k l) (htaken : Taken k.pmemman k'.pmemman pages)
  (hmem : k'.mem = mapAll k.mem (backCalls a k.pmemman pages))
  (hfit : a.toNat + 4096 * pages.length ≤ 2 ^ 32)
include h htaken hmem hfit

theorem taken_held (v : U32) (i : PPtr) (hv : Mapped k'.mem v)
    (heq : mappedFrame k'.mem v = k'.pmemman.frame i) : (k'.pmemman.tbl i).flags ≠ 0 := by
  rw [PMemMan.frame, htaken.addr] at heq
  rw [hmem] at hv heq
  rcases mappedFrame_backCalls hfit hv with ⟨j, hj, _, hframe⟩ | ⟨hold, hframe⟩
  · cases h.frames _ _ (hframe.symm.trans heq)
    exact htaken.used _ (List.getElem_mem hj)
  · have hused := h.held v i hold (hframe.symm.trans heq)
    by_cases hi : i ∈ pages
    · exact htaken.used i hi
    · rw [htaken.elsewhere i hi]
      exact hused

theorem taken_apart : ∀ i < k.vmemman.cells, ∀ j < k.vmemman.cells,
    Mapped k'.mem (k.vmemman.cell i) → Mapped k'.mem (k.vmemman.cell j) →
    mappedFrame k'.mem (k.vmemman.cell i) = mappedFrame k'.mem (k.vmemman.cell j) → i = j := by
  intro i hi j hj hmi hmj heq
  rw [hmem] at hmi hmj heq
  -- a frame that was not in use was not mapped
  have hfresh : ∀ v c, ∀ hc : c < pages.length, Mapped k.mem v →
      mappedFrame k.mem v ≠ k.pmemman.frame pages[c] := fun v c hc hv hframe =>
    h.held v _ hv hframe (htaken.unused _ (List.getElem_mem hc))
  rcases mappedFrame_backCalls hfit hmi with ⟨c, hc, hci, hframe⟩ | ⟨hold, hframe⟩
  · rcases mappedFrame_backCalls hfit hmj with ⟨d, hd, hdj, hframe'⟩ | ⟨hold', hframe'⟩
    · have hpage := h.frames _ _ (hframe.symm.trans (heq.trans hframe'))
      have hcd := (List.Nodup.getElem_inj_iff htaken.nodup).mp hpage
      subst d
      exact VMemMan.cell_inj hi hj (hci.trans hdj.symm)
    · exact absurd (hframe'.symm.trans (heq.symm.trans hframe)) (hfresh _ c hc hold')
  · rcases mappedFrame_backCalls hfit hmj with ⟨d, hd, _, hframe'⟩ | ⟨hold', hframe'⟩
    · exact absurd (hframe.symm.trans (heq.trans hframe')) (hfresh _ d hd hold)
    · exact h.apart i hi j hj hold hold' (hframe.symm.trans (heq.trans hframe'))

end Taken

section Cut
variable (h : Heap k (l₁ ++ p :: l₂)) (hcut : Kernel.CutOff k k' p n size pages)
variable (hle : size ≤ (k.vmemman.blocks p).size)
include h hcut hle

theorem cut_whole (hmod : size.toNat % 4096 = 0) :
    ∀ q ∈ l₁ ++ p :: n :: l₂, (k'.vmemman.blocks q).size.toNat % 4096 = 0 := by
  have hnp := h.new_ne hcut.cut
  have hwhole := h.whole p mem_self_middle
  intro q hq
  rcases mem_middle hq with rfl | hq
  · rw [hcut.cut.size, if_neg hnp.symm, if_pos rfl]
    exact hmod
  · rcases mem_middle hq with rfl | hq
    · rw [hcut.cut.size, if_pos rfl, BitVec.toNat_sub_of_le hle]
      omega
    · obtain ⟨hqn, hqp⟩ := h.cut_old hcut.cut hq
      rw [(hcut.cut.elsewhere hqn hqp).2.2.1]
      exact h.whole q (mem_of_mem_middle hq)

omit hle in
theorem cut_lastFree (hclean : ¬ (k.vmemman.blocks n).Allocated) :
    ∀ q ∈ l₁ ++ p :: n :: l₂, (k'.vmemman.blocks q).next = none →
      ¬ (k'.vmemman.blocks q).Allocated := by
  have hnp := h.new_ne hcut.cut
  intro q hq hend
  rw [h.cut_allocated_iff hcut.cut]
  rintro (rfl | ⟨hqp, halloc⟩)
  · rw [hcut.cut.next, if_neg hnp.symm, if_pos rfl] at hend
    cases hend
  · by_cases hqn : q = n
    · exact hclean (hqn ▸ halloc)
    · have hmem := (mem_middle ((mem_middle hq).resolve_left hqp)).resolve_left hqn
      rw [(hcut.cut.elsewhere hqn hqp).2.2.2.1] at hend
      exact h.lastFree q (mem_of_mem_middle hmem) hend halloc

theorem cut_room (hmod : size.toNat % 4096 = 0) (hpos : 0 < size.toNat) :
    pages.length = size.toNat / 4096 ∧
      (k.vmemman.blocks p).addr.toNat + 4096 * pages.length ≤ 2 ^ 32 := by
  have hbound := h.size_le (mem_self_middle : p ∈ l₁ ++ p :: l₂)
  have hle' : size.toNat ≤ (k.vmemman.blocks p).size.toNat := hle
  have hlen : pages.length = size.toNat / 4096 := by
    rw [hcut.length, memNpage_of_dvd hmod]
    omega
  exact ⟨hlen, by omega⟩

theorem cut_mapped (hmod : size.toNat % 4096 = 0) (hpos : 0 < size.toNat) :
    ∀ q ∈ l₁ ++ p :: n :: l₂, (k'.vmemman.blocks q).next ≠ none →
      ∀ i < (k'.vmemman.blocks q).size.toNat / 4096,
        Mapped k'.mem ((k'.vmemman.blocks q).addr + memPageSize * BitVec.ofNat 32 i) := by
  obtain ⟨hlen, hroom⟩ := h.cut_room hcut hle hmod hpos
  have hnp := h.new_ne hcut.cut
  have hp : p ∈ l₁ ++ p :: l₂ := mem_self_middle
  have hbound := h.size_le hp
  have hle' : size.toNat ≤ (k.vmemman.blocks p).size.toNat := hle
  have hkept : ∀ v, Mapped k.mem v → Mapped k'.mem v := by
    intro v hv
    rw [hcut.mem]
    exact mapped_backCalls hroom hv
  intro q hq hmid i hi
  rcases mem_middle hq with rfl | hq
  · rw [hcut.cut.size, if_neg hnp.symm, if_pos rfl] at hi
    rw [hcut.mem, hcut.cut.addr, if_neg hnp.symm]
    exact mapped_backCalls_new hroom (by omega)
  · apply hkept
    rcases mem_middle hq with rfl | hq
    · rw [hcut.cut.next, if_pos rfl] at hmid
      rw [hcut.cut.size, if_pos rfl, BitVec.toNat_sub_of_le hle] at hi
      have hcell : (k'.vmemman.blocks q).addr + memPageSize * BitVec.ofNat 32 i =
          (k.vmemman.blocks p).addr + memPageSize * BitVec.ofNat 32 (size.toNat / 4096 + i) := by
        have hstart : ((k.vmemman.blocks p).addr + size).toNat =
            (k.vmemman.blocks p).addr.toNat + size.toNat := by
          rw [BitVec.toNat_add]
          omega
        apply BitVec.eq_of_toNat_eq
        rw [hcut.cut.addr, if_pos rfl, toNat_pageStep (by omega), toNat_pageStep (by omega),
          hstart]
        omega
      rw [hcell]
      exact h.mapped p hp hmid _ (by omega)
    · obtain ⟨hqn, hqp⟩ := h.cut_old hcut.cut hq
      obtain ⟨_, haddr, hsame, hnext, _⟩ := hcut.cut.elsewhere hqn hqp
      rw [hsame] at hi
      rw [hnext] at hmid
      rw [haddr]
      exact h.mapped q (mem_of_mem_middle hq) hmid i hi

theorem cut (hmod : size.toNat % 4096 = 0) (hpos : 0 < size.toNat)
    (hfit : (k.vmemman.blocks p).next = none ∨ size < (k.vmemman.blocks p).size)
    (hclean : ¬ (k.vmemman.blocks n).Allocated) : Heap k' (l₁ ++ p :: n :: l₂) := by
  have hroom := (h.cut_room hcut hle hmod hpos).2
  have hcells : k'.vmemman.cells = k.vmemman.cells := by
    rw [VMemMan.cells, VMemMan.cells, hcut.cut.frame.1, hcut.cut.frame.2.1]
  have hcell : k'.vmemman.cell = k.vmemman.cell := by
    funext i
    rw [VMemMan.cell, VMemMan.cell, hcut.cut.frame.1]
  constructor
  · exact h.toLayout.cut hcut.cut hle
  · exact h.cut_whole hcut hle hmod
  · exact h.cut_nonempty hcut.cut h.nonempty hpos hfit
  · exact h.cut_lastFree hcut hclean
  · exact h.cut_mapped hcut hle hmod hpos
  · rw [hcells, hcell]
    exact h.taken_apart hcut.toTaken hcut.mem hroom
  · exact h.taken_held hcut.toTaken hcut.mem hroom
  · intro i j hij
    rw [PMemMan.frame, PMemMan.frame, hcut.addr, hcut.addr] at hij
    exact h.frames i j hij

end Cut

end Heap

namespace Kernel
variable {k k' : Kernel} {l : List BPtr} {p : BPtr} {size : U32}

/-- Cutting a block goes through when a record is unused and the pages are there. -/
theorem splitBlock_returns (hrecord : ∃ q, ¬ (k.vmemman.blocks q).InUse)
    (hpages : pagesNeeded size ≤ k.pmemman.unused.card) :
    ∃ k', (k.markAllocated p).splitBlock p size = .ok k' := by
  obtain ⟨q, hq⟩ := hrecord
  unfold splitBlock
  rcases insertBlock_supply (k.markAllocated p).vmemman p size with
    ⟨hall, _⟩ | ⟨_, m, _, hok, _⟩
  · exact absurd (markAllocated_inUse.mp (hall q)) hq
  · rw [hok]
    rcases backBlock_supply { k.markAllocated p with vmemman := m } p size with
      ⟨hshort, _⟩ | ⟨_, hback⟩
    · exact absurd hpages (Nat.not_le.mpr hshort)
    · exact hback

/-- The records and pages that a request of `size` bytes takes are there. -/
def Suffices (k : Kernel) (l : List BPtr) (size : U32) : Prop :=
  ∀ p, k.vmemman.FirstFit l size p →
    (k.vmemman.blocks p).next = none ∨ size < (k.vmemman.blocks p).size →
    (∃ q, ¬ (k.vmemman.blocks q).InUse) ∧ pagesNeeded size ≤ k.pmemman.unused.card

/-- What is left of block `p` is one new free block right behind it. -/
def RestFree (m m' : VMemMan) (l l' : List BPtr) (p : BPtr) (size : U32) : Prop :=
  l' = l ∧ (m.blocks p).size = size ∨
    ∃ l₁ l₂ n, l = l₁ ++ p :: l₂ ∧ l' = l₁ ++ p :: n :: l₂ ∧ n ∉ l ∧
      ¬ (m'.blocks n).Allocated ∧ (m'.blocks n).addr = (m.blocks p).addr + size ∧
      (m'.blocks n).size = (m.blocks p).size - size

/-- `vmalloc` gives out the lowest free block of at least `size` bytes, over mapped pages, and `I`
holds afterwards. -/
def GivesFirstFit (I : Kernel → List BPtr → Prop) (k : Kernel) (l : List BPtr)
    (request size : U32) : Prop :=
  ∃ p ∈ l, k.vmemman.Fits size p ∧
    (∀ q ∈ l, k.vmemman.Fits size q →
      (k.vmemman.blocks p).addr.toNat ≤ (k.vmemman.blocks q).addr.toNat) ∧
    ∃ k' l', (∀ fuel, l.length < fuel →
        k.vmalloc fuel request = .ok ((k.vmemman.blocks p).addr, k')) ∧
      Placed k.vmemman k'.vmemman l l' p size ∧ RestFree k.vmemman k'.vmemman l l' p size ∧
      I k' l' ∧ ∀ i < size.toNat / 4096,
        Mapped k'.mem ((k.vmemman.blocks p).addr + memPageSize * BitVec.ofNat 32 i)

theorem findFit_first (h : Heap k l) (hfit : ∃ p ∈ l, k.vmemman.Fits size p) :
    ∃ p, k.vmemman.FirstFit l size p ∧
      ∀ fuel, l.length ≤ fuel → k.vmemman.findFit size fuel k.vmemman.entry = some p := by
  obtain ⟨p, hp, hp'⟩ := hfit
  obtain ⟨l₁, hl₁⟩ := h.listed_iff.mpr hp
  obtain ⟨q, hfind, hq⟩ := findFit_stops hl₁ hp' (Nat.lt_succ_self l₁.length)
  refine ⟨q, h.firstFit hfind hq, ?_⟩
  intro fuel hfuel
  cases hend : k.vmemman.findFit size fuel k.vmemman.entry with
  | none => exact absurd hend (findFit_ends h.list hfuel)
  | some r => exact congrArg some (findFit_unique hend hfind)

/-- A heap in which no record outside the list is marked allocated. -/
structure CleanHeap (k : Kernel) (l : List BPtr) : Prop extends Heap k l where
  clean : ∀ q, q ∉ l → ¬ (k.vmemman.blocks q).Allocated

theorem CleanHeap.clearAllocated (h : CleanHeap k l) (p : BPtr) :
    CleanHeap { k with vmemman := k.vmemman.clearAllocated p } l := by
  refine ⟨h.toHeap.setFlags (f := (· &&& ~~~vmemBlocksAlloc)) (clear_use _)
    fun _ => clear_alloc _, ?_⟩
  intro q hq halloc
  exact h.clean q hq ((clearAllocated_thinned k.vmemman p).1.allocated q halloc).1

section Found
variable (h : CleanHeap k l) (hfirst : k.vmemman.FirstFit l (roundup size memPageSize) p)
variable (hfind : ∀ fuel, l.length ≤ fuel →
  k.vmemman.findFit (roundup size memPageSize) fuel k.vmemman.entry = some p)
include h hfirst hfind

theorem givesFirstFit_whole (hmid : (k.vmemman.blocks p).next ≠ none)
    (hexact : (k.vmemman.blocks p).size = roundup size memPageSize) :
    GivesFirstFit CleanHeap k l size (roundup size memPageSize) := by
  refine ⟨p, hfirst.mem, hfirst.fits, fun q => hfirst.lowest h.toLayout, k.markAllocated p, l,
    ?_, placed_mark h.toLayout hexact, .inl ⟨rfl, hexact⟩, ⟨h.mark hmid, ?_⟩, ?_⟩
  · intro fuel hfuel
    obtain ⟨fuel, rfl⟩ := Nat.exists_eq_succ_of_ne_zero (Nat.ne_zero_of_lt hfuel)
    rw [vmalloc_found_eq (hfind fuel (Nat.le_of_lt_succ hfuel)) hfirst.fits.1,
      if_pos ⟨hmid, hexact⟩]
  · intro q hq
    have hqp : q ≠ p := fun heq => hq (heq ▸ hfirst.mem)
    rw [VMemBlockInfo.Allocated, markAllocated_flags, if_neg hqp]
    exact h.clean q hq
  · -- nothing is mapped here: the pages are there from an earlier call
    rw [← hexact]
    exact h.mapped p hfirst.mem hmid

theorem givesFirstFit_cut (hpos : 0 < (roundup size memPageSize).toNat)
    (hcutting : (k.vmemman.blocks p).next = none ∨
      roundup size memPageSize < (k.vmemman.blocks p).size)
    (hsupply : Suffices k l (roundup size memPageSize)) :
    GivesFirstFit CleanHeap k l size (roundup size memPageSize) := by
  have hp := hfirst.mem
  have hle : roundup size memPageSize ≤ (k.vmemman.blocks p).size := hfirst.fits.1
  have hwhole : ¬ ((k.vmemman.blocks p).next ≠ none ∧
      (k.vmemman.blocks p).size = roundup size memPageSize) := by
    rintro ⟨hmid, hexact⟩
    have hlt := hcutting.resolve_left hmid
    rw [hexact] at hlt
    exact absurd hlt (BitVec.lt_irrefl _)
  obtain ⟨hrecord, hpages⟩ := hsupply p hfirst hcutting
  obtain ⟨k', hsplit⟩ := splitBlock_returns (p := p) hrecord hpages
  obtain ⟨n, pages, hcut, _⟩ := splitBlock_cutOff ((h.inUse p).mpr hp) hsplit
  refine ⟨p, hp, hfirst.fits, fun q => hfirst.lowest h.toLayout, ?_⟩
  obtain ⟨l₁, l₂, rfl⟩ := List.append_of_mem hp
  have hn := h.new_notMem hcut.cut
  have hnp := h.new_ne hcut.cut
  have hclean := h.clean n hn
  have hheap := h.toHeap.cut hcut hle (roundup_mod size) hpos hcutting hclean
  have hmid : (k'.vmemman.blocks p).next ≠ none := by
    rw [hcut.cut.next, if_neg hnp.symm, if_pos rfl]
    exact Option.some_ne_none n
  have hplaced := placed_cut h.toLayout hcut.cut hle
  have hstart := hplaced.addr p hp
  refine ⟨k', l₁ ++ p :: n :: l₂, ?_, hplaced, .inr ⟨l₁, l₂, n, rfl, rfl, hn, ?_, ?_, ?_⟩,
    ⟨hheap, ?_⟩, ?_⟩
  · intro fuel hfuel
    obtain ⟨fuel, rfl⟩ := Nat.exists_eq_succ_of_ne_zero (Nat.ne_zero_of_lt hfuel)
    rw [vmalloc_found_eq (hfind fuel (Nat.le_of_lt_succ hfuel)) hle, if_neg hwhole, hsplit]
    change Except.ok ((k'.vmemman.blocks p).addr, k') = _
    rw [hstart]
  · rw [hplaced.allocated]
    rintro (heq | halloc)
    · exact hnp heq
    · exact hclean halloc
  · rw [hcut.cut.addr, if_pos rfl]
  · rw [hcut.cut.size, if_pos rfl]
  · intro q hq
    rw [hplaced.allocated]
    rintro (heq | halloc)
    · exact hq (heq ▸ mem_self_middle)
    · exact h.clean q (fun hmem => hq (hplaced.kept q hmem)) halloc
  · rw [← hstart, ← hplaced.size_self]
    exact hheap.mapped p mem_self_middle hmid

end Found

/-- First fit: every size that some free block can hold is served. -/
theorem vmalloc_first_fit (h : CleanHeap k l) (hpos : 0 < size.toNat)
    (hsize : size ≤ 0xFFFFF000#32) (hfit : ∃ p ∈ l, k.vmemman.Fits (roundup size memPageSize) p)
    (hsupply : Suffices k l (roundup size memPageSize)) :
    GivesFirstFit CleanHeap k l size (roundup size memPageSize) := by
  have hrounded : 0 < (roundup size memPageSize).toNat :=
    Nat.lt_of_lt_of_le hpos ((le_roundup_iff size).mpr hsize)
  obtain ⟨p, hfirst, hfind⟩ := findFit_first h.toHeap hfit
  by_cases hwhole : (k.vmemman.blocks p).next ≠ none ∧
      (k.vmemman.blocks p).size = roundup size memPageSize
  · exact givesFirstFit_whole h hfirst hfind hwhole.1 hwhole.2
  · apply givesFirstFit_cut h hfirst hfind hrounded ?_ hsupply
    by_cases hend : (k.vmemman.blocks p).next = none
    · exact .inl hend
    · refine .inr (BitVec.not_le.mp fun hge => hwhole ⟨hend, ?_⟩)
      exact BitVec.le_antisymm hge hfirst.fits.1

/-- `V_MEMMAN` after `init_kvmalloc`, but for the flags of record 1. -/
def freshKernel (flags : U8) : Kernel where
  vmemman :=
    { extentStart := vmallocStart
      extentEnd := vmallocInitEnd
      pdt := kernelPdt
      entry := firstBlock
      blocks := fun q =>
        if q = 0 then
          ⟨vmemBlocksUse, vmallocStart, 0x1000000, none, none, none⟩
        else ⟨if q = 1 then flags else 0, 0, 0, none, none, none⟩ }
  pmemman := PMemMan.firstUsed pmallocStart 2
  mem := fun _ => 0

theorem freshKernel_flags (flags : U8) (q : BPtr) : ((freshKernel flags).vmemman.blocks q).flags =
    if q = 0 then vmemBlocksUse else if q = 1 then flags else 0 := by
  unfold freshKernel
  dsimp only
  split <;> rfl

theorem freshKernel_heap {flags : U8} (hflags : flags &&& vmemBlocksUse = 0) :
    Heap (freshKernel flags) [0] := by
  have hunmapped : ∀ v, ¬ Mapped (freshKernel flags).mem v := by
    intro v hv
    have hzero : load32 (fun _ => 0) (pteAddr v) = 0 := by
      change (0#8 ++ 0#8 ++ 0#8 ++ 0#8 : U32) = 0
      decide
    exact hv ((congrArg (· &&& pteP) hzero).trans BitVec.zero_and)
  have hlast : ∀ p ∈ [(0 : BPtr)], ((freshKernel flags).vmemman.blocks p).next = none := by
    intro p hp
    cases List.mem_singleton.mp hp
    rfl
  have hsum : vmallocStart.toNat + (0x1000000#32).toNat = vmallocInitEnd.toNat := by decide
  refine ⟨⟨⟨rfl, rfl⟩, ⟨rfl, hsum⟩, ?_⟩, ?_, ?_, ?_, ?_, ?_, ?_, ?_⟩
  · intro p
    rw [List.mem_singleton, VMemBlockInfo.InUse, freshKernel_flags]
    by_cases hp : p = 0
    · rw [if_pos hp]
      exact iff_of_true (by decide) hp
    · rw [if_neg hp]
      refine iff_of_false (fun hne => hne ?_) hp
      split
      · exact hflags
      · exact BitVec.zero_and
  · intro p hp
    cases List.mem_singleton.mp hp
    change (0x1000000#32).toNat % 4096 = 0
    decide
  · exact fun p hp hmid => absurd (hlast p hp) hmid
  · intro p hp _
    cases List.mem_singleton.mp hp
    rw [VMemBlockInfo.Allocated, freshKernel_flags, if_pos rfl]
    decide
  · exact fun p hp hmid => absurd (hlast p hp) hmid
  · exact fun i _ j _ hmapped => absurd hmapped (hunmapped _)
  · exact fun v i hmapped => absurd hmapped (hunmapped v)
  · exact frame_inj_of_addr fun i => rfl

theorem suffices_of_unused {q : BPtr} {i j : PPtr} (hq : ¬ (k.vmemman.blocks q).InUse)
    (hij : i ≠ j) (hi : (k.pmemman.tbl i).flags = 0) (hj : (k.pmemman.tbl j).flags = 0)
    (hsize : pagesNeeded size ≤ 2) : Suffices k l size := by
  intro p _ _
  have hsub : {i, j} ⊆ k.pmemman.unused := by
    intro x hx
    rcases Finset.mem_insert.mp hx with rfl | hx
    · exact mem_unused.mpr hi
    · rw [Finset.mem_singleton.mp hx]
      exact mem_unused.mpr hj
  have hpair : ({i, j} : Finset PPtr).card = 2 := Finset.card_pair hij
  refine ⟨⟨q, hq⟩, Nat.le_trans hsize ?_⟩
  rw [← hpair]
  exact Finset.card_le_card hsub

theorem freshKernel_clean : CleanHeap (freshKernel 0) [0] := by
  refine ⟨freshKernel_heap (by decide), ?_⟩
  intro q hq
  have hq0 : q ≠ 0 := fun heq => hq (List.mem_singleton.mpr heq)
  rw [VMemBlockInfo.Allocated, freshKernel_flags, if_neg hq0, ite_self]
  exact fun hne => hne BitVec.zero_and

def served (k : Kernel) (size : U32) : Kernel :=
  (k.vmalloc 6 size).toOption.elim k Prod.snd

theorem GivesFirstFit.served {rounded : U32} (h : GivesFirstFit CleanHeap k l size rounded)
    (hl : l.length < 6) : ∃ l', CleanHeap (k.served size) l' ∧ l'.length ≤ l.length + 1 := by
  obtain ⟨p, _, _, _, k', l', hret, _, hrest, hclean, _⟩ := h
  have hstate : k.served size = k' := by
    rw [Kernel.served, hret 6 hl]
    rfl
  refine ⟨l', hstate ▸ hclean, ?_⟩
  rcases hrest with ⟨rfl, _⟩ | ⟨l₁, l₂, n, rfl, rfl, _⟩
  · exact Nat.le_succ l'.length
  · simp [Nat.add_assoc]

/-- Three blocks cut off the extent; the one in the middle is free again. -/
def middleFree : Kernel :=
  let k := (((freshKernel 0).served 0x1000#32).served 0x2000#32).served 0x1000#32
  { k with vmemman := k.vmemman.clearAllocated 1 }

/-- The block in the middle is of the size that the request is rounded up to. -/
theorem vmalloc_first_fit_exact : ∃ l,
    ((middleFree.vmemman.blocks 1).size, (middleFree.vmemman.blocks 1).next) =
      (0x2000#32, some 2) ∧
    GivesFirstFit CleanHeap middleFree l 0x1234#32 (roundup 0x1234#32 memPageSize) := by
  have hone : roundup 0x1000#32 memPageSize = 0x1000#32 := by decide
  have htwo : roundup 0x2000#32 memPageSize = 0x2000#32 := by decide
  have hexact : roundup 0x1234#32 memPageSize = 0x2000#32 := by decide
  -- three blocks, each cut off what is left of the extent
  have hserve : ∀ (k : Kernel) (l : List BPtr) (s : U32), CleanHeap k l → l.length < 6 →
      0 < s.toNat → s ≤ 0x2000#32 → roundup s memPageSize = s → pagesNeeded s ≤ 2 →
      (∃ p, (k.vmemman.blocks p).InUse ∧ k.vmemman.Fits s p) →
      ¬ (k.vmemman.blocks 9).InUse → (k.pmemman.tbl ⟨10, by decide⟩).flags = 0 →
      (k.pmemman.tbl ⟨11, by decide⟩).flags = 0 →
      ∃ l', CleanHeap (k.served s) l' ∧ l'.length ≤ l.length + 1 := by
    rintro k l s hk hl hpos hsize hround hneeded ⟨p, hp, hfits⟩ hrecord h10 h11
    have hgives := vmalloc_first_fit hk hpos (Nat.le_trans hsize (by decide))
      (by rw [hround]; exact ⟨p, (hk.inUse p).mp hp, hfits⟩)
      (by rw [hround]; exact suffices_of_unused hrecord (by decide) h10 h11 hneeded)
    exact hgives.served hl
  obtain ⟨l₁, h₁, hl₁⟩ := hserve (freshKernel 0) [0] 0x1000#32 freshKernel_clean (by decide)
    (by decide) (by decide) hone (by decide) ⟨0, by decide, by decide⟩ (by decide +kernel) rfl rfl
  obtain ⟨l₂, h₂, hl₂⟩ := hserve _ l₁ 0x2000#32 h₁ (Nat.lt_of_le_of_lt hl₁ (by decide))
    (by decide) (by decide) htwo (by decide) ⟨1, by decide +kernel, by decide +kernel⟩
    (by decide +kernel) (by decide +kernel) (by decide +kernel)
  obtain ⟨l₃, h₃, hl₃⟩ := hserve _ l₂ 0x1000#32 h₂ (by simp at hl₁; omega)
    (by decide) (by decide) hone (by decide) ⟨2, by decide +kernel, by decide +kernel⟩
    (by decide +kernel) (by decide +kernel) (by decide +kernel)
  have hfree : CleanHeap middleFree l₃ := h₃.clearAllocated 1
  refine ⟨l₃, by decide +kernel, vmalloc_first_fit hfree (by decide) (by decide) ?_ ?_⟩
  · rw [hexact]
    exact ⟨1, (hfree.inUse 1).mp (by decide +kernel), by decide +kernel⟩
  · rw [hexact]
    exact suffices_of_unused (q := 9) (i := ⟨10, by decide⟩) (j := ⟨11, by decide⟩)
      (by decide +kernel) (by decide) (by decide +kernel) (by decide +kernel) (by decide)

/-- Record 1 not in use but marked `VMEM_BLOCKS_ALLOC`: `get_new_block` returns it, and what is
left of the block is marked allocated. -/
theorem vmalloc_first_fit_marked : ¬ ∀ (k : Kernel) (l : List BPtr) (size : U32), Heap k l →
    0 < size.toNat → size ≤ 0xFFFFF000#32 →
    (∃ p ∈ l, k.vmemman.Fits (roundup size memPageSize) p) →
    Suffices k l (roundup size memPageSize) →
    GivesFirstFit Heap k l size (roundup size memPageSize) := by
  intro h
  have hround : roundup 0x1000#32 memPageSize = 0x1000#32 := by decide
  obtain ⟨p, hp, _, _, k', l', hret, _, hrest, hheap, _⟩ :=
    h (freshKernel vmemBlocksAlloc) [0] 0x1000#32 (freshKernel_heap (by decide)) (by decide)
      (by decide) (hround ▸ ⟨0, List.mem_singleton_self 0, by decide⟩)
      (suffices_of_unused (q := 2) (i := ⟨2, by decide⟩) (j := ⟨3, by decide⟩) (by decide)
        (by decide) rfl rfl (by decide))
  cases List.mem_singleton.mp hp
  have hrun : ((freshKernel vmemBlocksAlloc).vmalloc 2 0x1000#32).toOption.map (fun r =>
      ((r.2.vmemman.blocks 0).next, decide ((r.2.vmemman.blocks 1).Allocated))) =
      some (some 1, true) := by
    decide +kernel
  rw [hret 2 (by decide)] at hrun
  obtain ⟨hnext, halloc⟩ := Prod.mk.inj (Option.some.inj hrun)
  rcases hrest with ⟨_, hsize⟩ | ⟨l₁, l₂, n, _, rfl, _, hfree, _⟩
  · rw [hround] at hsize
    exact absurd hsize (by decide)
  · have hbehind := hheap.list.next_of_cons_cons
    cases hnext.symm.trans hbehind
    exact hfree (of_decide_eq_true halloc)

end Kernel

end Uroboros
