import Uroboros.VMallocCoalesce

/-!
# Freeing what was just allocated

Between a `vmalloc` that cuts a block and the `vfree` of the same address the list
need not be well-formed: the block behind the new one still links back to the block
that was cut. Joining the two again stores just that link, so that every listed
record is as it was before the call.
-/

set_option autoImplicit false

namespace Uroboros

namespace VMemMan
variable {m m' : VMemMan} {l l₁ l₂ : List BPtr} {p q n : BPtr} {size : U32}

theorem mergeNext_stays (h : ∀ q, (m.blocks p).next = some q → (m.blocks q).Allocated) :
    m.mergeNext p = m := by
  unfold mergeNext
  cases hnext : (m.blocks p).next with
  | none => rfl
  | some q => exact if_pos (h q hnext)

theorem mergePrev_stays (h : ∀ q, (m.blocks p).prev = some q → (m.blocks q).Allocated) :
    m.mergePrev p = m := by
  unfold mergePrev
  cases hprev : (m.blocks p).prev with
  | none => rfl
  | some q => exact if_pos (h q hprev)

theorem clearAllocated_flags (m : VMemMan) (p q : BPtr) : ((m.clearAllocated p).blocks q).flags =
    if q = p then (m.blocks p).flags &&& ~~~vmemBlocksAlloc else (m.blocks q).flags := by
  rw [clearAllocated, modify_blocks]
  split <;> rfl

/-- The records of `l` are in `m'` what they were in `m`, and so is which records are in use. -/
structure Restored (m m' : VMemMan) (l : List BPtr) : Prop where
  flags : ∀ q ∈ l, (m'.blocks q).flags = (m.blocks q).flags
  addr : ∀ q ∈ l, (m'.blocks q).addr = (m.blocks q).addr
  size : ∀ q ∈ l, (m'.blocks q).size = (m.blocks q).size
  next : ∀ q ∈ l, (m'.blocks q).next = (m.blocks q).next
  prev : ∀ q ∈ l, (m'.blocks q).prev = (m.blocks q).prev
  inUse : ∀ q, (m'.blocks q).InUse ↔ (m.blocks q).InUse

/-- Neither neighbour of a free block is free. -/
theorem WellFormed.neighbours (h : WellFormed m (l₁ ++ p :: l₂))
    (hapart : Apart m (l₁ ++ p :: l₂)) (hfree : ¬ (m.blocks p).Allocated) :
    (∀ q, (m.blocks p).next = some q → (m.blocks q).Allocated) ∧
      ∀ q, (m.blocks p).prev = some q → q ∈ l₁ ++ l₂ ∧ (m.blocks q).Allocated := by
  constructor
  · intro q hq
    exact (hapart.apply mem_self_middle hq).resolve_left hfree
  · intro q hq
    rcases h.prev_cases with ⟨_, hnone⟩ | ⟨l₀, r, rfl, hnext, hprev⟩
    · rw [hnone] at hq
      cases hq
    · rw [hprev] at hq
      cases hq
      have hr : q ∈ l₀ ++ [q] := List.mem_append_right _ List.mem_cons_self
      exact ⟨List.mem_append_left _ hr,
        (hapart.apply (List.mem_append_left _ hr) hnext).resolve_right hfree⟩

theorem restored_mark {k : Kernel} (h : WellFormed k.vmemman (l₁ ++ p :: l₂))
    (hapart : Apart k.vmemman (l₁ ++ p :: l₂)) (hfree : ¬ (k.vmemman.blocks p).Allocated) :
    Restored k.vmemman ((k.markAllocated p).vmemman.release p) (l₁ ++ p :: l₂) := by
  obtain ⟨hnext, hprev⟩ := h.neighbours hapart hfree
  have hblocks : ((k.markAllocated p).vmemman.clearAllocated p).blocks = k.vmemman.blocks := by
    funext q
    rw [clearAllocated, modify_blocks, Kernel.markAllocated_blocks, Kernel.markAllocated_blocks]
    split
    · rename_i heq
      rw [if_pos rfl, heq, clear_mark (Classical.not_not.mp hfree)]
    · rfl
  have hrelease : ((k.markAllocated p).vmemman.release p).blocks = k.vmemman.blocks := by
    rw [release, mergeNext_stays, mergePrev_stays, hblocks]
    · rw [hblocks]
      exact fun q hq => (hprev q hq).2
    · rw [hblocks]
      exact hnext
  constructor
  all_goals
    intros
    rw [hrelease]

section Cut
variable (h : WellFormed m (l₁ ++ p :: l₂)) (hapart : Apart m (l₁ ++ p :: l₂))
  (hcut : Kernel.Cut m m' p n size) (hfree : ¬ (m.blocks p).Allocated)
  (hn : ¬ (m.blocks n).Allocated)
include h hapart hcut hfree hn

/-- The new block is free, so it is joined again, and nothing else is. -/
theorem release_cut : m'.release p = (m'.clearAllocated p).joinBlocks p n := by
  obtain ⟨hnext, hprev⟩ := h.neighbours hapart hfree
  have hnp := h.new_ne hcut
  have hfields := modify_flags_fields (m := m') (p := p) (· &&& ~~~vmemBlocksAlloc)
  have hkeep : ∀ q, q ≠ p → (((m'.clearAllocated p).blocks q).Allocated ↔
      (m.blocks q).Allocated) := by
    intro q hq
    rw [allocated_clear_iff, h.cut_allocated_iff hcut]
    simp only [hq, ne_eq, not_false_eq_true, false_or, true_and]
  have hjoin : (m'.clearAllocated p).mergeNext p = (m'.clearAllocated p).joinBlocks p n := by
    have hlink : ((m'.clearAllocated p).blocks p).next = some n := by
      rw [clearAllocated, (hfields p).2.2.1, hcut.next, if_neg hnp.symm, if_pos rfl]
    unfold mergeNext
    simp only [hlink]
    rw [if_neg fun halloc => hn ((hkeep n hnp).mp halloc)]
  rw [release, hjoin]
  apply mergePrev_stays
  intro q hq
  have hself : (m.blocks p).next ≠ some p := by
    intro heq
    obtain ⟨l₃, rfl⟩ := h.list.eq_cons_of_next heq
    exact h.ne_of_mem (List.mem_append_right _ List.mem_cons_self) rfl
  rw [joinBlocks_prev hnp.symm, if_neg hnp.symm, clearAllocated, (hfields n).2.2.1,
    (hfields p).2.2.2, hcut.next, if_pos rfl, if_neg hself, hcut.prev, if_neg hnp.symm] at hq
  obtain ⟨hmem, halloc⟩ := hprev q hq
  obtain ⟨hqn, hqp⟩ := h.cut_old hcut hmem
  rw [allocated_join hnp.symm hqn, hkeep q hqp]
  exact halloc

theorem restored_cut : Restored m (m'.release p) (l₁ ++ p :: l₂) := by
  have hnp := h.new_ne hcut
  have hfields := modify_flags_fields (m := m') (p := p) (· &&& ~~~vmemBlocksAlloc)
  have hold : ∀ q ∈ l₁ ++ p :: l₂, q ≠ n := fun q hq heq => h.new_notMem hcut (heq ▸ hq)
  have hflags : ∀ q, q ≠ n → ((m'.clearAllocated p).blocks q).flags = (m.blocks q).flags := by
    intro q hqn
    rw [clearAllocated_flags, hcut.flags, hcut.flags, if_neg hnp.symm, if_pos rfl, if_neg hqn]
    split
    · rename_i heq
      rw [heq, clear_mark (Classical.not_not.mp hfree)]
    · rfl
  rw [release_cut h hapart hcut hfree hn]
  constructor
  · intro q hq
    rw [joinBlocks_flags hnp.symm, if_neg (hold q hq), hflags q (hold q hq)]
  · intro q hq
    rw [joinBlocks_addr hnp.symm, clearAllocated, (hfields q).1, hcut.addr, if_neg (hold q hq)]
  · intro q hq
    rw [joinBlocks_size hnp.symm, if_neg (hold q hq), clearAllocated, (hfields p).2.1,
      (hfields n).2.1, (hfields q).2.1, hcut.size, hcut.size, hcut.size, if_neg hnp.symm,
      if_pos rfl, if_pos rfl, if_neg (hold q hq)]
    split
    · rename_i heq
      rw [heq, BitVec.add_comm, BitVec.sub_add_cancel]
    · rfl
  · intro q hq
    rw [joinBlocks_next hnp.symm, if_neg (hold q hq), clearAllocated, (hfields n).2.2.1,
      (hfields q).2.2.1, hcut.next, hcut.next, if_pos rfl, if_neg (hold q hq)]
    split
    · rename_i heq
      rw [heq]
    · rfl
  · intro q hq
    rw [joinBlocks_prev hnp.symm, if_neg (hold q hq), clearAllocated, (hfields n).2.2.1,
      (hfields q).2.2.2, hcut.next, if_pos rfl, hcut.prev, if_neg (hold q hq)]
    -- the one link that the cut left wrong
    split
    · rename_i hnext
      exact (h.linked p mem_self_middle q hnext).symm
    · rfl
  · intro q
    by_cases hqn : q = n
    · subst q
      rw [VMemBlockInfo.InUse, joinBlocks_flags hnp.symm, if_pos rfl]
      exact iff_of_false (fun hne => hne BitVec.zero_and) hcut.fresh
    · apply inUse_congr
      rw [joinBlocks_flags hnp.symm, if_neg hqn, hflags q hqn]

end Cut

end VMemMan

namespace Kernel
open VMemMan
variable {k k' : Kernel} {l : List BPtr} {size addr : U32} {fuel : Nat}

/-- `vfree` of the address that `vmalloc` has just returned undoes the call: every listed record is
as it was, and so is the set of records in use. -/
theorem vmalloc_vfree (h : WellFormed k.vmemman l) (hapart : Apart k.vmemman l)
    (hlast : ∀ p ∈ l, (k.vmemman.blocks p).next = none → ¬ (k.vmemman.blocks p).Allocated)
    (hout : ∀ p, p ∉ l → ¬ (k.vmemman.blocks p).Allocated) (hpos : 0 < size.toNat)
    (hsize : size ≤ 0xFFFFF000#32) (hret : k.vmalloc fuel size = .ok (addr, k')) :
    ∃ m, (∀ fuel, vmemMaxUnits ≤ fuel → k'.vmemman.vfree fuel addr = .ok m) ∧
      Restored k.vmemman m l := by
  rw [vmalloc_roundup] at hret
  obtain ⟨p, hp, haddr, hstop, _, _, hcase⟩ := h.vmalloc_found (roundup_mod size) hret
  have hfree : ¬ (k.vmemman.blocks p).Allocated := by
    rcases hstop with hend | hfree
    · exact hlast p hp hend
    · exact hfree
  have hrounded : 0 < (roundup size memPageSize).toNat :=
    Nat.lt_of_lt_of_le hpos ((le_roundup_iff size).mpr hsize)
  subst addr
  rcases hcase with ⟨_, _, rfl⟩ | ⟨hfit, hsplit⟩
  · have hmarked : WellFormed (k.markAllocated p).vmemman l :=
      h.setFlags (f := (· ||| vmemBlocksAlloc)) (mark_use _)
    have hsame : ((k.markAllocated p).vmemman.blocks p).addr = (k.vmemman.blocks p).addr :=
      (modify_flags_fields (m := k.vmemman) (p := p) (· ||| vmemBlocksAlloc) p).1
    have halloc : ((k.markAllocated p).vmemman.blocks p).Allocated := by
      rw [VMemBlockInfo.Allocated, markAllocated_flags, if_pos rfl, mark_alloc]
      decide
    refine ⟨(k.markAllocated p).vmemman.release p, ?_, ?_⟩
    · intro fuel hfuel
      rw [← hsame]
      exact hmarked.vfree_eq hp halloc
        (fun q hq _ heq => hmarked.addr_inj hmarked.nonempty hq hp heq)
        (Nat.le_trans h.length_le hfuel)
    · obtain ⟨l₁, l₂, rfl⟩ := List.append_of_mem hp
      exact restored_mark h hapart hfree
  · obtain ⟨n, hcut⟩ := splitBlock_cut ((h.inUse p).mpr hp) hsplit
    obtain ⟨l₁, l₂, rfl⟩ := List.append_of_mem hp
    have hnp := h.new_ne hcut
    have hlayout := h.toLayout.cut hcut ‹_›
    have hmem : p ∈ l₁ ++ p :: n :: l₂ := mem_self_middle
    have hsame : (k'.vmemman.blocks p).addr = (k.vmemman.blocks p).addr := by
      rw [hcut.addr, if_neg hnp.symm]
    have halloc : (k'.vmemman.blocks p).Allocated := (h.cut_allocated_iff hcut).mpr (.inl rfl)
    have hnonempty := h.toLayout.cut_nonempty hcut h.nonempty hrounded hfit
    refine ⟨k'.vmemman.release p, ?_, ?_⟩
    · intro fuel hfuel
      rw [← hsame]
      exact hlayout.vfree_eq hmem halloc
        (fun q hq _ heq => hlayout.addr_inj hnonempty hq hmem heq)
        (Nat.le_trans hlayout.length_le hfuel)
    · exact restored_cut h hapart hcut hfree (hout n (h.new_notMem hcut))

def gapKernel : Kernel where
  vmemman :=
    { extentStart := vmallocStart
      extentEnd := vmallocInitEnd
      pdt := kernelPdt
      entry := firstBlock
      blocks := fun q =>
        if q = 0 then ⟨vmemBlocksUse, vmallocStart, 0x3000, none, some 1, none⟩
        else if q = 1 then
          ⟨vmemBlocksUse ||| vmemBlocksAlloc, 0x3003000, 0x1000, none, some 2, some 0⟩
        else if q = 2 then ⟨vmemBlocksUse, 0x3004000, 0xffc000, none, none, some 1⟩
        else ⟨0, 0, 0, none, none, none⟩ }
  pmemman := PMemMan.firstUsed pmallocStart 6
  mem := fun _ => 0

theorem gapKernel_wellFormed : WellFormed gapKernel.vmemman [0, 1, 2] := by
  refine ⟨⟨⟨rfl, rfl, rfl, rfl⟩, ⟨rfl, rfl, rfl, rfl⟩, ?_⟩, ?_, rfl, ?_⟩
  · decide +kernel
  · decide +kernel
  · decide +kernel

theorem vmalloc_vfree_middle : ∃ k' m, gapKernel.vmalloc 3 0x1000#32 = .ok (vmallocStart, k') ∧
    (k'.vmemman.blocks 1).prev = some 0 ∧ (k'.vmemman.blocks 3).next = some 1 ∧
    k'.vmemman.vfree vmemMaxUnits vmallocStart = .ok m ∧
    Restored gapKernel.vmemman m [0, 1, 2] := by
  have hserved : (gapKernel.vmalloc 3 0x1000#32).toOption.map (fun r =>
      (r.1, (r.2.vmemman.blocks 1).prev, (r.2.vmemman.blocks 3).next)) =
      some (vmallocStart, some 0, some 1) := by
    decide +kernel
  cases hret : gapKernel.vmalloc 3 0x1000#32 with
  | error e =>
    rw [hret] at hserved
    cases hserved
  | ok r =>
    obtain ⟨addr, k'⟩ := r
    rw [hret] at hserved
    obtain ⟨haddr, hstale⟩ := Prod.mk.inj (Option.some.inj hserved)
    obtain ⟨hprev, hnext⟩ := Prod.mk.inj hstale
    cases haddr
    have hapart : Apart gapKernel.vmemman [0, 1, 2] := by
      unfold Apart ApartBut
      decide +kernel
    obtain ⟨m, hfree, hrestored⟩ := vmalloc_vfree gapKernel_wellFormed hapart (by decide +kernel)
      (by decide +kernel) (by decide) (by decide) hret
    exact ⟨k', m, rfl, hprev, hnext, hfree _ (Nat.le_refl _), hrestored⟩

end Kernel

end Uroboros
