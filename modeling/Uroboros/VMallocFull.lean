import Uroboros.PageSupply
import Uroboros.VMallocRuns

/-!
# When nothing is left

What `vmalloc` does in any state at all, list sound or not: when no listed free
block is large enough, when `get_new_block` finds no record, and when the page
manager runs out of pages. A call that returns has changed the flags of a record,
so that none of these cases is reported.
-/

set_option autoImplicit false

namespace Uroboros

open ByteMemory ForLoop

namespace VMemMan
variable {m m' : VMemMan} {p q a : BPtr} {size : U32} {fuel : Nat} {l : List BPtr}

def Listed (m : VMemMan) (p : BPtr) : Prop :=
  ∃ l, Seg (fun q => (m.blocks q).next) (some m.entry) l (some p)

def Fits (m : VMemMan) (size : U32) (p : BPtr) : Prop :=
  size ≤ (m.blocks p).size ∧ ¬ (m.blocks p).Allocated

instance (m : VMemMan) (size : U32) (p : BPtr) : Decidable (m.Fits size p) :=
  inferInstanceAs (Decidable (_ ∧ _))

theorem findFit_succ (m : VMemMan) (size : U32) (fuel : Nat) (a : BPtr) :
    m.findFit size (fuel + 1) a = match (m.blocks a).next with
      | none => some a
      | some next => if m.Fits size a then some a else m.findFit size fuel next := rfl

/-- The search passes blocks that do not fit and stops at one that does or is the last. -/
theorem findFit_path (h : m.findFit size fuel a = some p) :
    ∃ l, Seg (fun q => (m.blocks q).next) (some a) l (some p) ∧ (∀ q ∈ l, ¬ m.Fits size q) ∧
      ((m.blocks p).next = none ∨ m.Fits size p) := by
  induction fuel generalizing a with
  | zero => cases h
  | succ fuel ih =>
    rw [findFit_succ] at h
    cases hnext : (m.blocks a).next with
    | none =>
      simp only [hnext, Option.some.injEq] at h
      subst h
      exact ⟨[], rfl, fun q hq => absurd hq List.not_mem_nil, .inl hnext⟩
    | some next =>
      simp only [hnext] at h
      split at h
      · rename_i hfit
        cases h
        exact ⟨[], rfl, fun q hq => absurd hq List.not_mem_nil, .inr hfit⟩
      · rename_i hfit
        obtain ⟨l, hl, hpass, hstop⟩ := ih h
        refine ⟨a :: l, ⟨rfl, ?_⟩, ?_, hstop⟩
        · change Seg _ (m.blocks a).next l _
          rw [hnext]
          exact hl
        · exact List.forall_mem_cons.mpr ⟨hfit, hpass⟩

theorem findFit_listed (h : m.findFit size fuel m.entry = some p) : m.Listed p := by
  obtain ⟨l, hl, _⟩ := findFit_path h
  exact ⟨l, hl⟩

theorem findFit_stops (hl : Seg (fun q => (m.blocks q).next) (some a) l (some p))
    (hp : m.Fits size p) (hfuel : l.length < fuel) :
    ∃ q, m.findFit size fuel a = some q ∧ m.Fits size q := by
  obtain ⟨fuel, rfl⟩ := Nat.exists_eq_succ_of_ne_zero (Nat.ne_zero_of_lt hfuel)
  induction l generalizing a fuel with
  | nil =>
    cases hl.eq_of_nil
    refine ⟨p, ?_, hp⟩
    rw [findFit_succ]
    cases (m.blocks p).next with
    | none => rfl
    | some next => exact if_pos hp
  | cons x l ih =>
    obtain ⟨hx, hl⟩ := hl
    cases hx
    rw [findFit_succ]
    cases hnext : (m.blocks x).next with
    | none =>
      simp only [hnext] at hl
      exact absurd hl Seg.not_from_none
    | some next =>
      simp only [hnext] at hl ⊢
      by_cases hfit : m.Fits size x
      · exact ⟨x, if_pos hfit, hfit⟩
      · rw [if_neg hfit]
        have hrest := Nat.lt_of_succ_lt_succ hfuel
        obtain ⟨fuel, rfl⟩ := Nat.exists_eq_succ_of_ne_zero (Nat.ne_zero_of_lt hrest)
        exact ih hl fuel hrest

theorem getNewBlock_eq_none_iff : m.getNewBlock = none ↔ ∀ q, (m.blocks q).InUse := by
  rw [getNewBlock, Option.map_eq_none_iff, scan_eq_none_iff]
  apply forall_congr'
  intro q
  rw [beq_eq_false_iff_ne]
  rfl

theorem insertBlock_supply (m : VMemMan) (p : BPtr) (size : U32) :
    ((∀ q, (m.blocks q).InUse) ∧ m.insertBlock p size = .error .nullBlock) ∨
      ∃ n m', ¬ (m.blocks n).InUse ∧ m.insertBlock p size = .ok m' ∧
        ∀ q, (m'.blocks q).flags =
          if q = n then (m.blocks n).flags ||| vmemBlocksUse else (m.blocks q).flags := by
  unfold insertBlock
  cases hnew : m.getNewBlock with
  | none => exact .inl ⟨getNewBlock_eq_none_iff.mp hnew, rfl⟩
  | some new =>
    obtain ⟨n, m₁⟩ := new
    obtain ⟨hfresh, rfl⟩ := getNewBlock_cases hnew
    refine .inr ⟨n, _, hfresh, rfl, ?_⟩
    intro q
    simp only [modify_blocks]
    grind

end VMemMan

namespace Kernel
open VMemMan
variable {k k' : Kernel} {p q : BPtr} {size addr : U32} {fuel : Nat}

theorem vmalloc_found_eq
    (hfind : k.vmemman.findFit (roundup size memPageSize) fuel k.vmemman.entry = some p)
    (hle : roundup size memPageSize ≤ (k.vmemman.blocks p).size) :
    k.vmalloc (fuel + 1) size =
      if (k.vmemman.blocks p).next ≠ none ∧
          (k.vmemman.blocks p).size = roundup size memPageSize then
        .ok ((k.vmemman.blocks p).addr, k.markAllocated p)
      else ((k.markAllocated p).splitBlock p (roundup size memPageSize)).map fun k' =>
        ((k'.vmemman.blocks p).addr, k') := by
  have hmark : ((k.markAllocated p).vmemman.blocks p).size = (k.vmemman.blocks p).size ∧
      ((k.markAllocated p).vmemman.blocks p).addr = (k.vmemman.blocks p).addr := by
    rw [markAllocated_blocks, if_pos rfl]
    exact ⟨rfl, rfl⟩
  have hbind : ∀ x : Except Fault Kernel,
      (x >>= fun k' => .ok ((k'.vmemman.blocks p).addr, k')) =
        x.map fun k' => ((k'.vmemman.blocks p).addr, k') := by
    intro x
    cases x <;> rfl
  rw [vmalloc]
  simp only [hfind, hmark.1, pure, Except.pure]
  by_cases hnext : (k.vmemman.blocks p).next = none
  · rw [if_neg (not_not.mpr hnext), if_pos hle, if_neg fun h => h.1 hnext]
    exact hbind _
  · rw [if_pos hnext, if_pos hle]
    by_cases hlt : roundup size memPageSize < (k.vmemman.blocks p).size
    · have hne : (k.vmemman.blocks p).size ≠ roundup size memPageSize :=
        fun heq => BitVec.lt_irrefl _ (heq ▸ hlt)
      rw [if_pos hlt, if_neg fun h => hne h.2]
      exact hbind _
    · have heq : (k.vmemman.blocks p).size = roundup size memPageSize :=
        BitVec.le_antisymm (BitVec.not_lt.mp hlt) hle
      rw [if_neg hlt, if_pos ⟨hnext, heq⟩, ← hmark.2]
      rfl

theorem splitBlock_changes (h : (k.markAllocated p).splitBlock p size = .ok k') :
    ∃ q, (k'.vmemman.blocks q).flags ≠ (k.vmemman.blocks q).flags := by
  obtain ⟨m, hins, hback⟩ := bind_ok h
  obtain ⟨pMem, hmem⟩ := backBlock_vmemman hback
  have hkeep : ∀ q, (k'.vmemman.blocks q).flags = (m.blocks q).flags := by
    intro q
    rw [hmem, modify_blocks]
    split
    · rename_i hq
      rw [hq]
    · rfl
  rcases insertBlock_supply (k.markAllocated p).vmemman p size with
    ⟨_, herr⟩ | ⟨n, m', hfresh, hok, hflags⟩
  · rw [herr] at hins
    cases hins
  · rw [hok] at hins
    cases hins
    refine ⟨n, fun heq => hfresh ?_⟩
    rw [hkeep, hflags, if_pos rfl] at heq
    rw [markAllocated_inUse, VMemBlockInfo.InUse, ← heq, BitVec.and_comm,
      BitVec.and_or_distrib_left, BitVec.and_self, BitVec.and_comm vmemBlocksUse]
    intro hzero
    have huse : vmemBlocksUse = 0#8 := (BitVec.or_eq_zero_iff.mp hzero).2
    exact absurd huse (by decide)

/-- Whatever the state, a call that returns has changed the flags of a record. -/
theorem vmalloc_changes (hsize : size.toNat % 4096 = 0)
    (h : k.vmalloc fuel size = .ok (addr, k')) :
    ∃ q, (k'.vmemman.blocks q).flags ≠ (k.vmemman.blocks q).flags := by
  obtain ⟨fuel', p, hfind, _, _, hcase⟩ := vmalloc_cases hsize h
  rcases hcase with ⟨hnext, _, rfl⟩ | ⟨_, hsplit⟩
  · obtain ⟨_, _, _, hstop⟩ := findFit_path hfind
    have hfree := (hstop.resolve_left hnext).2
    refine ⟨p, fun heq => hfree ?_⟩
    rw [markAllocated_flags, if_pos rfl] at heq
    rw [VMemBlockInfo.Allocated, ← heq, BitVec.and_comm, BitVec.and_or_distrib_left,
      BitVec.and_self]
    intro hzero
    have halloc : vmemBlocksAlloc = 0#8 := (BitVec.or_eq_zero_iff.mp hzero).2
    exact absurd halloc (by decide)
  · exact splitBlock_changes hsplit

/-- What a failing call must leave: the list and the status of each record, the page tables and
the pages in use. -/
structure Untouched (k k' : Kernel) : Prop where
  list : ∀ q, (k'.vmemman.blocks q).flags = (k.vmemman.blocks q).flags ∧
    (k'.vmemman.blocks q).size = (k.vmemman.blocks q).size ∧
    (k'.vmemman.blocks q).next = (k.vmemman.blocks q).next ∧
    (k'.vmemman.blocks q).prev = (k.vmemman.blocks q).prev
  tables : ∀ x, InTables x → k'.mem x = k.mem x
  pages : ∀ i, (k'.pmemman.tbl i).flags = (k.pmemman.tbl i).flags

/-- `vmalloc` returns `NULL` and leaves the allocator as it was. -/
def FailsCleanly (k : Kernel) (size : U32) : Prop :=
  ∃ fuel k', k.vmalloc fuel size = .ok (0, k') ∧ Untouched k k'

theorem not_failsCleanly (k : Kernel) (size : U32) : ¬ FailsCleanly k size := by
  rintro ⟨fuel, k', hret, hsame⟩
  rw [vmalloc_roundup] at hret
  obtain ⟨q, hq⟩ := vmalloc_changes (roundup_mod size) hret
  exact hq (hsame.list q).1

section Full
variable (hsize : size.toNat % 4096 = 0)
  (hfull : ∀ p, k.vmemman.Listed p → ¬ (k.vmemman.blocks p).Allocated →
    (k.vmemman.blocks p).size < size)
  (hlast : ∀ p, k.vmemman.Listed p → (k.vmemman.blocks p).next = none →
    ¬ (k.vmemman.blocks p).Allocated)
include hsize hfull hlast

/-- The search arrives at the last block, which is too small, and the call starts again. -/
theorem vmalloc_diverges (fuel : Nat) : k.vmalloc fuel size = .error .diverges := by
  induction fuel with
  | zero => rfl
  | succ fuel ih =>
    rw [vmalloc, roundup_of_dvd hsize]
    cases hfind : k.vmemman.findFit size fuel k.vmemman.entry with
    | none => rfl
    | some p =>
      have hlisted := findFit_listed hfind
      obtain ⟨_, _, _, hstop⟩ := findFit_path hfind
      have hfree : ¬ (k.vmemman.blocks p).Allocated := by
        rcases hstop with hend | hfit
        · exact hlast p hlisted hend
        · exact hfit.2
      have hsmall : ¬ size ≤ (k.vmemman.blocks p).size :=
        BitVec.not_le.mpr (hfull p hlisted hfree)
      simp only [if_neg hsmall, ih, ite_self]

end Full

/-- When no free block is large enough `vmalloc` never reports it: it calls itself for ever if the
last block is free, as it is in every list that the allocator builds. -/
theorem outOfSpace_never (size : U32) (hsize : size.toNat % 4096 = 0)
    (hfull : ∀ p, k.vmemman.Listed p → ¬ (k.vmemman.blocks p).Allocated →
      (k.vmemman.blocks p).size < size) :
    ¬ FailsCleanly k size ∧
      ((∀ p, k.vmemman.Listed p → (k.vmemman.blocks p).next = none →
        ¬ (k.vmemman.blocks p).Allocated) → ∀ fuel, k.vmalloc fuel size = .error .diverges) :=
  ⟨not_failsCleanly k size, vmalloc_diverges hsize hfull⟩

theorem listed_initVmalloc {start stop pdt : U32} (h : k.initVmalloc start stop pdt = .ok k')
    (hp : k'.vmemman.Listed p) : p = firstBlock := by
  obtain ⟨_, _, hentry, _, _, _, hlinks, _⟩ := initVmalloc_cases h
  obtain ⟨l, hl⟩ := hp
  rw [hentry] at hl
  cases l with
  | nil => exact (Option.some.inj hl.eq_of_nil).symm
  | cons x l =>
    obtain ⟨hx, hl⟩ := hl
    cases hx
    simp only [(hlinks firstBlock).1] at hl
    exact absurd hl Seg.not_from_none

/-- The extent of `Main` has no room for one page more than it has. -/
theorem full_initVmalloc {k₁ : Kernel}
    (hinit : bareKernel.initVmalloc vmallocStart vmallocInitEnd kernelPdt = .ok k₁) :
    (∀ p, k₁.vmemman.Listed p → ¬ (k₁.vmemman.blocks p).Allocated →
      (k₁.vmemman.blocks p).size < 0x1001000#32) ∧
    ∀ p, k₁.vmemman.Listed p → (k₁.vmemman.blocks p).next = none →
      ¬ (k₁.vmemman.blocks p).Allocated := by
  obtain ⟨_, _, _, hflags, _, hsize, _, _⟩ := initVmalloc_cases hinit
  constructor
  · intro p hp _
    rw [listed_initVmalloc hinit hp, hsize]
    decide
  · intro p hp _
    rw [listed_initVmalloc hinit hp, VMemBlockInfo.Allocated, hflags]
    decide

theorem outOfSpace_never_start : ∃ k₁,
    bareKernel.initVmalloc vmallocStart vmallocInitEnd kernelPdt = .ok k₁ ∧
      ¬ FailsCleanly k₁ 0x1001000#32 ∧ ∀ fuel, k₁.vmalloc fuel 0x1001000#32 = .error .diverges := by
  have hserved : (served []).map (fun _ => true) = some true := by decide +kernel
  obtain ⟨k₁, _, _, hinit, _⟩ := served_run hserved
  obtain ⟨hfull, hlast⟩ := full_initVmalloc hinit
  obtain ⟨hnever, hhangs⟩ := outOfSpace_never 0x1001000#32 (by decide) hfull
  exact ⟨k₁, hinit, hnever, hhangs hlast⟩

/-- Right after `init_kvmalloc`, a request for one page more than the extent has. -/
theorem outOfSpace_hangs : ¬ ∀ (k₁ : Kernel) (tr : List (Kernel × HeapOp × Kernel)) (k : Kernel)
    (size : U32), bareKernel.initVmalloc vmallocStart vmallocInitEnd kernelPdt = .ok k₁ →
    Run HeapCall k₁ tr k → size.toNat % 4096 = 0 → 0 < size.toNat →
    (∀ p, k.vmemman.Listed p → ¬ (k.vmemman.blocks p).Allocated →
      (k.vmemman.blocks p).size < size) → FailsCleanly k size := by
  intro h
  have hserved : (served []).map (fun _ => true) = some true := by decide +kernel
  obtain ⟨k₁, _, _, hinit, _⟩ := served_run hserved
  obtain ⟨fuel, k', hret, _⟩ := h k₁ [] k₁ 0x1001000#32 hinit (.nil k₁) (by decide) (by decide)
    (full_initVmalloc hinit).1
  rw [vmalloc_diverges (by decide) (full_initVmalloc hinit).1 (full_initVmalloc hinit).2] at hret
  cases hret

theorem splitBlock_exhausted (p : BPtr)
    (hex : (∀ q, (k.vmemman.blocks q).InUse) ∨ k.pmemman.unused.card < pagesNeeded size) :
    (k.markAllocated p).splitBlock p size =
      .error (if ∀ q, (k.vmemman.blocks q).InUse then .nullBlock else .nullPage) := by
  unfold splitBlock
  rcases insertBlock_supply (k.markAllocated p).vmemman p size with
    ⟨hall, herr⟩ | ⟨n, m, hfresh, hok, _⟩
  · rw [herr, if_pos fun q => markAllocated_inUse.mp (hall q)]
    rfl
  · have hsome : ¬ ∀ q, (k.vmemman.blocks q).InUse :=
      fun hall => hfresh (markAllocated_inUse.mpr (hall n))
    rw [hok, if_neg hsome]
    rcases backBlock_supply { k.markAllocated p with vmemman := m } p size with
      ⟨_, herr⟩ | ⟨henough, _⟩
    · exact herr
    · exact absurd henough (Nat.not_le.mpr (hex.resolve_left hsome))

/-- When a free block fits and the records, or the pages it needs, have run out, `vmalloc` never
fails cleanly: a block that it has to cut makes it go through a `NULL` pointer, and one that it
gives out whole is allocated. -/
theorem exhausted_never (size : U32) (hp : k.vmemman.Listed p)
    (hfit : k.vmemman.Fits (roundup size memPageSize) p)
    (hex : (∀ q, (k.vmemman.blocks q).InUse) ∨
      k.pmemman.unused.card < pagesNeeded (roundup size memPageSize)) :
    ¬ FailsCleanly k size ∧ ∃ fuel q,
      k.vmemman.findFit (roundup size memPageSize) fuel k.vmemman.entry = some q ∧
      k.vmemman.Fits (roundup size memPageSize) q ∧
      k.vmalloc (fuel + 1) size =
        if (k.vmemman.blocks q).next ≠ none ∧
            (k.vmemman.blocks q).size = roundup size memPageSize then
          .ok ((k.vmemman.blocks q).addr, k.markAllocated q)
        else .error (if ∀ q, (k.vmemman.blocks q).InUse then .nullBlock else .nullPage) := by
  refine ⟨not_failsCleanly k size, ?_⟩
  obtain ⟨l, hl⟩ := hp
  obtain ⟨q, hfind, hq⟩ := findFit_stops hl hfit (Nat.lt_succ_self l.length)
  refine ⟨_, q, hfind, hq, ?_⟩
  rw [vmalloc_found_eq hfind hq.1, splitBlock_exhausted q hex]
  rfl

theorem splitBlock_supplied (p : BPtr) (hrecord : ¬ ∀ q, (k.vmemman.blocks q).InUse)
    (hpages : pagesNeeded size ≤ k.pmemman.unused.card) :
    ∃ k', (k.markAllocated p).splitBlock p size = .ok k' := by
  unfold splitBlock
  rcases insertBlock_supply (k.markAllocated p).vmemman p size with
    ⟨hall, _⟩ | ⟨n, m, _, hok, _⟩
  · exact absurd (fun q => markAllocated_inUse.mp (hall q)) hrecord
  · rw [hok]
    rcases backBlock_supply { k.markAllocated p with vmemman := m } p size with
      ⟨hfew, _⟩ | ⟨_, hback⟩
    · exact absurd hpages (Nat.not_le.mpr hfew)
    · exact hback

/-- A block that the search finds is given out whole, or a record and its pages are left. -/
def Supplied (k : Kernel) (size : U32) : Prop :=
  ∀ fuel p, k.vmemman.findFit (roundup size memPageSize) fuel k.vmemman.entry = some p →
    roundup size memPageSize ≤ (k.vmemman.blocks p).size →
    (k.vmemman.blocks p).next ≠ none ∧
        (k.vmemman.blocks p).size = roundup size memPageSize ∨
      (¬ ∀ q, (k.vmemman.blocks q).InUse) ∧
        pagesNeeded (roundup size memPageSize) ≤ k.pmemman.unused.card

/-- Record `q` and the pages of a list, enough for the call, are left. -/
def HasLeft (q : BPtr) (pages : List PPtr) (k : Kernel) (size : U32) : Prop :=
  ¬ (k.vmemman.blocks q).InUse ∧ (pages.all fun i => (k.pmemman.tbl i).flags == 0) = true ∧
    pagesNeeded (roundup size memPageSize) ≤ pages.length

instance (q : BPtr) (pages : List PPtr) (k : Kernel) (size : U32) :
    Decidable (HasLeft q pages k size) :=
  inferInstanceAs (Decidable (_ ∧ _ ∧ _))

theorem HasLeft.supplied {q : BPtr} {pages : List PPtr} (hnodup : pages.Nodup)
    (h : HasLeft q pages k size) : k.Supplied size := by
  obtain ⟨hq, hpages, hlength⟩ := h
  intro fuel p _ _
  refine .inr ⟨fun hall => hq (hall q), Nat.le_trans hlength ?_⟩
  rw [← List.toFinset_card_of_nodup hnodup]
  apply Finset.card_le_card
  intro i hi
  have hflags := List.all_eq_true.mp hpages i (List.mem_toFinset.mp hi)
  exact PMemMan.mem_unused.mpr (beq_iff_eq.mp hflags)

theorem kvmalloc_supplied {e : Fault} (h : k.Supplied size)
    (herr : k.kvmalloc fuel size = .error e) : e = .diverges := by
  rw [kvmalloc, vmalloc_roundup] at herr
  have hmod : roundup (roundup size memPageSize) memPageSize = roundup size memPageSize :=
    roundup_of_dvd (roundup_mod size)
  induction fuel with
  | zero =>
    rw [vmalloc] at herr
    exact (Except.error.inj herr).symm
  | succ fuel ih =>
    cases hfind : k.vmemman.findFit (roundup size memPageSize) fuel k.vmemman.entry with
    | none =>
      rw [vmalloc, hmod, hfind] at herr
      exact (Except.error.inj herr).symm
    | some p =>
      by_cases hle : roundup size memPageSize ≤ (k.vmemman.blocks p).size
      · rw [← hmod] at hfind hle
        rw [vmalloc_found_eq hfind hle, hmod] at herr
        rw [hmod] at hfind hle
        split at herr
        · cases herr
        · rename_i hcut
          obtain ⟨hrecord, hpages⟩ := (h fuel p hfind hle).resolve_left hcut
          obtain ⟨k', hsplit⟩ := splitBlock_supplied p hrecord hpages
          rw [hsplit] at herr
          cases herr
      · rw [vmalloc, hmod] at herr
        simp only [hfind, if_neg hle, ite_self] at herr
        exact ih herr

/-- A `kvmalloc` finds what it needs. -/
def Supplies (k : Kernel) (op : HeapOp) : Prop :=
  ∀ size addr, op = .kvmalloc size addr → k.Supplied size

/-- `V_MEMMAN` after 255 calls of `kvmalloc(4096)`: every record is in use, the last one free. -/
def fullKernel : Kernel where
  vmemman :=
    { extentStart := vmallocStart
      extentEnd := vmallocInitEnd
      pdt := kernelPdt
      entry := firstBlock
      blocks := fun q => {
        flags := if q.val = 255 then vmemBlocksUse else vmemBlocksUse ||| vmemBlocksAlloc
        addr := vmallocStart + memPageSize * BitVec.ofNat 32 q.val
        size := if q.val = 255 then vmallocInitEnd - vmallocStart - memPageSize * 255 else memPageSize
        pMem := if h : q.val < 255 then some ⟨q.val + 2, by unfold pmallocMaxPage; omega⟩ else none
        next := if h : q.val < 255 then some ⟨q.val + 1, by unfold vmemMaxUnits; omega⟩ else none
        prev := if 0 < q.val then some ⟨q.val - 1, by omega⟩ else none } }
  pmemman := PMemMan.firstUsed pmallocStart 257
  mem := fun _ => 0

theorem fullKernel_found :
    fullKernel.vmemman.findFit 0x1000#32 256 fullKernel.vmemman.entry = some 255 := by
  decide +kernel

theorem fullKernel_inUse (q : BPtr) : (fullKernel.vmemman.blocks q).InUse := by
  simp only [fullKernel, VMemBlockInfo.InUse]
  split <;> decide

theorem exhausted_never_records : ¬ FailsCleanly fullKernel 0x1000#32 ∧
    ∃ fuel, fullKernel.vmalloc fuel 0x1000#32 = .error .nullBlock := by
  have hround : roundup 0x1000#32 memPageSize = 0x1000#32 := by decide
  obtain ⟨hnever, fuel, q, hfind, _, hret⟩ := exhausted_never 0x1000#32
    (findFit_listed fullKernel_found) (hround ▸ (by decide : fullKernel.vmemman.Fits 0x1000#32 255))
    (.inl fullKernel_inUse)
  rw [hround] at hfind hret
  cases findFit_unique hfind fullKernel_found
  rw [if_neg (by decide), if_pos fullKernel_inUse] at hret
  exact ⟨hnever, fuel + 1, hret⟩

/-- The next call finds the last block, and `get_new_block` finds no record. -/
theorem exhausted_faults : ¬ ∀ (k : Kernel) (size : U32),
    (∃ p, k.vmemman.Listed p ∧ k.vmemman.Fits (roundup size memPageSize) p) →
    (k.vmemman.getNewBlock = none ∨
      k.pmemman.unused.card < pagesNeeded (roundup size memPageSize)) → FailsCleanly k size := by
  intro h
  have hround : roundup 0x1000#32 memPageSize = 0x1000#32 := by decide
  refine not_failsCleanly _ _ (h fullKernel 0x1000#32 ⟨255, findFit_listed fullKernel_found, ?_⟩
    (.inl (getNewBlock_eq_none_iff.mpr fullKernel_inUse)))
  rw [hround]
  decide

end Kernel

end Uroboros
