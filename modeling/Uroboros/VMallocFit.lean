import Uroboros.FrameLeak
import Uroboros.VMallocFull

/-!
# Which block a request gets

`vmalloc` gives out the first listed free block of at least the rounded size, cut
to exactly that size. Rounding is modulo `2 ^ 32` and a block may be empty, so the
block is not always large enough, nor the only one at its address.
-/

set_option autoImplicit false

namespace Uroboros

namespace VMemMan
variable {m m' : VMemMan} {l l' l₁ l₂ : List BPtr} {p q n : BPtr} {size addr : U32} {fuel : Nat}

/-- The first block of `l` that is free and has at least `size` bytes. -/
def FirstFit (m : VMemMan) (l : List BPtr) (size : U32) (p : BPtr) : Prop :=
  ∃ l₁ l₂, l = l₁ ++ p :: l₂ ∧ (∀ q ∈ l₁, ¬ m.Fits size q) ∧ m.Fits size p

theorem FirstFit.mem (h : m.FirstFit l size p) : p ∈ l := by
  obtain ⟨_, _, rfl, _, _⟩ := h
  exact mem_self_middle

theorem FirstFit.fits (h : m.FirstFit l size p) : m.Fits size p := by
  obtain ⟨_, _, _, _, hfit⟩ := h
  exact hfit

theorem FirstFit.unique (h : m.FirstFit l size p) (h' : m.FirstFit l size q) : p = q := by
  obtain ⟨l₁, l₂, rfl, hpass, hp⟩ := h
  obtain ⟨l₃, l₄, heq, hpass', hq⟩ := h'
  induction l₁ generalizing l₃ with
  | nil =>
    cases l₃ with
    | nil => exact (List.cons.inj heq).1
    | cons x l₃ => exact absurd ((List.cons.inj heq).1 ▸ hp) (hpass' x List.mem_cons_self)
  | cons x l₁ ih =>
    cases l₃ with
    | nil => exact absurd ((List.cons.inj heq).1 ▸ hq) (hpass x List.mem_cons_self)
    | cons y l₃ =>
      exact ih (fun z hz => hpass z (List.mem_cons_of_mem _ hz)) l₃ (List.cons.inj heq).2
        fun z hz => hpass' z (List.mem_cons_of_mem _ hz)

theorem FirstFit.lowest (h : m.FirstFit l size p) (hl : Layout m l) (hq : q ∈ l)
    (hfit : m.Fits size q) : (m.blocks p).addr.toNat ≤ (m.blocks q).addr.toNat := by
  obtain ⟨l₁, l₂, rfl, hpass, _⟩ := h
  rcases List.mem_append.mp hq with hq | hq
  · exact absurd hfit (hpass q hq)
  · rcases List.mem_cons.mp hq with rfl | hq
    · exact Nat.le_refl _
    · have hbehind := ((Tiles.append_cons_iff.mp hl.tiles).2.mem_bounds hq).1
      omega

theorem Layout.firstFit (h : Layout m l) (hfind : m.findFit size fuel m.entry = some p)
    (hfit : m.Fits size p) : m.FirstFit l size p := by
  obtain ⟨l₁, hl₁, hpass, _⟩ := findFit_path hfind
  obtain ⟨l₂, rfl⟩ := h.list.eq_append_of_seg hl₁
  exact ⟨l₁, l₂, rfl, hpass, hfit⟩

theorem Layout.listed_iff (h : Layout m l) : m.Listed p ↔ p ∈ l := by
  constructor
  · rintro ⟨l₁, hl₁⟩
    exact h.list.mem_of_seg hl₁
  · intro hp
    obtain ⟨l₁, l₂, rfl⟩ := List.append_of_mem hp
    exact ⟨l₁, (Seg.append_cons_iff.mp h.list).1⟩

/-- `m'` is `m` with `size` bytes of block `p` given out. -/
structure Placed (m m' : VMemMan) (l l' : List BPtr) (p : BPtr) (size : U32) : Prop where
  layout : Layout m' l'
  kept : ∀ q ∈ l, q ∈ l'
  addr : ∀ q ∈ l, (m'.blocks q).addr = (m.blocks q).addr
  size_self : (m'.blocks p).size = size
  size_other : ∀ q ∈ l, q ≠ p → (m'.blocks q).size = (m.blocks q).size
  allocated : ∀ q, (m'.blocks q).Allocated ↔ q = p ∨ (m.blocks q).Allocated

theorem placed_mark {k : Kernel} (h : Layout k.vmemman l)
    (hsize : (k.vmemman.blocks p).size = size) :
    Placed k.vmemman (k.markAllocated p).vmemman l l p size := by
  have hfields := modify_flags_fields (m := k.vmemman) (p := p) (· ||| vmemBlocksAlloc)
  constructor
  · exact h.setFlags (f := (· ||| vmemBlocksAlloc)) (mark_use _)
  · exact fun q hq => hq
  · exact fun q _ => (hfields q).1
  · exact (hfields p).2.1.trans hsize
  · exact fun q _ _ => (hfields q).2.1
  · intro q
    rw [VMemBlockInfo.Allocated, VMemBlockInfo.Allocated, Kernel.markAllocated_flags]
    by_cases hq : q = p
    · subst q
      rw [if_pos rfl, mark_alloc]
      exact iff_of_true (by decide) (.inl rfl)
    · simp only [hq, if_false, false_or]

theorem placed_cut (h : Layout m (l₁ ++ p :: l₂)) (hcut : Kernel.Cut m m' p n size)
    (hle : size ≤ (m.blocks p).size) :
    Placed m m' (l₁ ++ p :: l₂) (l₁ ++ p :: n :: l₂) p size := by
  have hnp := h.new_ne hcut
  have hold : ∀ q ∈ l₁ ++ p :: l₂, q ≠ n := fun q hq heq => h.new_notMem hcut (heq ▸ hq)
  constructor
  · exact h.cut hcut hle
  · intro q hq
    rcases mem_middle hq with rfl | hq
    · exact mem_self_middle
    · exact mem_of_mem_middle (mem_of_mem_middle hq)
  · intro q hq
    rw [hcut.addr, if_neg (hold q hq)]
  · rw [hcut.size, if_neg hnp.symm, if_pos rfl]
  · intro q hq hqp
    rw [hcut.size, if_neg (hold q hq), if_neg hqp]
  · intro q
    rw [h.cut_allocated_iff hcut]
    by_cases hq : q = p
    · exact iff_of_true (.inl hq) (.inl hq)
    · simp only [hq, ne_eq, not_false_eq_true, true_and]

/-- A call that returns has given out the first block that fits. -/
theorem Layout.vmalloc_placed {k k' : Kernel} (h : Layout k.vmemman l)
    (hlast : ∀ p ∈ l, (k.vmemman.blocks p).next = none → ¬ (k.vmemman.blocks p).Allocated)
    (hsize : size.toNat % 4096 = 0) (hret : k.vmalloc fuel size = .ok (addr, k')) :
    ∃ p l', k.vmemman.FirstFit l size p ∧ addr = (k.vmemman.blocks p).addr ∧
      Placed k.vmemman k'.vmemman l l' p size := by
  obtain ⟨p, hp, haddr, hstop, hle, hfind, hcase⟩ := h.vmalloc_found hsize hret
  have hfree : ¬ (k.vmemman.blocks p).Allocated := by
    rcases hstop with hend | hfree
    · exact hlast p hp hend
    · exact hfree
  have hfirst := h.firstFit hfind ⟨hle, hfree⟩
  rcases hcase with ⟨_, hexact, rfl⟩ | ⟨_, hsplit⟩
  · exact ⟨p, l, hfirst, haddr, placed_mark h hexact⟩
  · obtain ⟨n, hcut⟩ := Kernel.splitBlock_cut ((h.inUse p).mpr hp) hsplit
    obtain ⟨l₁, l₂, rfl⟩ := List.append_of_mem hp
    exact ⟨p, l₁ ++ p :: n :: l₂, hfirst, haddr, placed_cut h hcut hle⟩

theorem joinBlocks_allocated_iff (m : VMemMan) (a b q : BPtr) :
    ((m.joinBlocks a b).blocks q).Allocated ↔ q ≠ b ∧ (m.blocks q).Allocated := by
  have hflags : ((m.joinBlocks a b).blocks q).flags = if q = b then 0 else (m.blocks q).flags := by
    unfold joinBlocks
    dsimp only
    split <;> simp only [modify_blocks] <;> grind [VMemBlockInfo.initVmemBlock]
  rw [VMemBlockInfo.Allocated, VMemBlockInfo.Allocated, hflags]
  split
  · rename_i heq
    exact iff_of_false (fun hne => hne BitVec.zero_and) fun h => h.1 heq
  · rename_i hne
    exact ⟨fun halloc => ⟨hne, halloc⟩, fun h => h.2⟩

theorem release_allocated_iff (m : VMemMan) (p q : BPtr) :
    ((m.release p).blocks q).Allocated ↔ q ≠ p ∧ (m.blocks q).Allocated := by
  have hnext : (((m.clearAllocated p).mergeNext p).blocks q).Allocated ↔
      ((m.clearAllocated p).blocks q).Allocated := by
    unfold mergeNext
    split
    · rfl
    · split
      · rfl
      · rename_i b _ hb
        rw [joinBlocks_allocated_iff]
        exact ⟨And.right, fun halloc => ⟨fun heq => hb (heq ▸ halloc), halloc⟩⟩
  rw [← allocated_clear_iff, ← hnext, release]
  unfold mergePrev
  split
  · rfl
  · split
    · rfl
    · rw [joinBlocks_allocated_iff]
      refine ⟨And.right, fun halloc => ⟨?_, halloc⟩⟩
      intro heq
      rw [hnext, allocated_clear_iff] at halloc
      exact halloc.1 heq

/-- Block `p` is what a caller of `vmalloc` that got `addr` relies on: it has `size` bytes, no
other allocated block starts there, and `vfree` frees it and no other one. -/
structure Serves (m : VMemMan) (size addr : U32) (p : BPtr) : Prop where
  listed : m.Listed p
  allocated : (m.blocks p).Allocated
  start : (m.blocks p).addr = addr
  large : size ≤ (m.blocks p).size
  alone : ∀ q, m.Listed q → (m.blocks q).Allocated → (m.blocks q).addr = addr → q = p
  freed : ∃ m', (∀ fuel, vmemMaxUnits ≤ fuel → m.vfree fuel addr = .ok m') ∧
    ∀ q, (m'.blocks q).Allocated ↔ q ≠ p ∧ (m.blocks q).Allocated

end VMemMan

namespace Kernel
open VMemMan
variable {k k' : Kernel} {l : List BPtr} {size addr : U32} {fuel : Nat}

section Serves
variable (h : Layout k.vmemman l)
  (hlast : ∀ p ∈ l, (k.vmemman.blocks p).next = none → ¬ (k.vmemman.blocks p).Allocated)
  (hret : k.vmalloc fuel size = .ok (addr, k'))
include h hlast hret

theorem vmalloc_serves_only {r : BPtr} (hserves : k'.vmemman.Serves size addr r) :
    size ≤ 0xFFFFF000#32 ∧ ∀ p, k.vmemman.FirstFit l (roundup size memPageSize) p →
      ∀ q ∈ l, (k.vmemman.blocks q).Allocated →
        (k.vmemman.blocks q).addr ≠ (k.vmemman.blocks p).addr := by
  rw [vmalloc_roundup] at hret
  obtain ⟨p, l', hfirst, haddr, hplaced⟩ := h.vmalloc_placed hlast (roundup_mod size) hret
  have hlisted : ∀ q ∈ l, k'.vmemman.Listed q :=
    fun q hq => hplaced.layout.listed_iff.mpr (hplaced.kept q hq)
  have hpr := hserves.alone p (hlisted p hfirst.mem) ((hplaced.allocated p).mpr (.inl rfl))
    ((hplaced.addr p hfirst.mem).trans haddr.symm)
  subst r
  constructor
  · rw [← le_roundup_iff, ← hplaced.size_self]
    exact hserves.large
  · intro r hr q hq hqalloc heq
    cases hfirst.unique hr
    have hqp := hserves.alone q (hlisted q hq) ((hplaced.allocated q).mpr (.inr hqalloc))
      ((hplaced.addr q hq).trans (heq.trans haddr.symm))
    exact hfirst.fits.2 (hqp ▸ hqalloc)

theorem vmalloc_serves_of (hout : ∀ p, p ∉ l → ¬ (k.vmemman.blocks p).Allocated)
    (hsize : size ≤ 0xFFFFF000#32)
    (hnone : ∀ p, k.vmemman.FirstFit l (roundup size memPageSize) p →
      ∀ q ∈ l, (k.vmemman.blocks q).Allocated →
        (k.vmemman.blocks q).addr ≠ (k.vmemman.blocks p).addr) :
    ∃ p, k'.vmemman.Serves size addr p := by
  rw [vmalloc_roundup] at hret
  obtain ⟨p, l', hfirst, haddr, hplaced⟩ := h.vmalloc_placed hlast (roundup_mod size) hret
  have hp := hplaced.kept p hfirst.mem
  have halloc : (k'.vmemman.blocks p).Allocated := (hplaced.allocated p).mpr (.inl rfl)
  have hstart : (k'.vmemman.blocks p).addr = addr :=
    (hplaced.addr p hfirst.mem).trans haddr.symm
  have honly : ∀ q ∈ l', (k'.vmemman.blocks q).Allocated →
      (k'.vmemman.blocks q).addr = (k'.vmemman.blocks p).addr → q = p := by
    intro q _ hqalloc heq
    by_contra hqp
    have hold := ((hplaced.allocated q).mp hqalloc).resolve_left hqp
    have hq : q ∈ l := by
      by_contra hunlisted
      exact hout q hunlisted hold
    rw [hplaced.addr q hq, hplaced.addr p hfirst.mem] at heq
    exact hnone p hfirst q hq hold heq
  refine ⟨p, hplaced.layout.listed_iff.mpr hp, halloc, hstart, ?_, ?_, ?_⟩
  · rw [hplaced.size_self]
    exact (le_roundup_iff size).mpr hsize
  · intro q hq hqalloc heq
    exact honly q (hplaced.layout.listed_iff.mp hq) hqalloc (heq.trans hstart.symm)
  · refine ⟨k'.vmemman.release p, ?_, release_allocated_iff k'.vmemman p⟩
    intro fuel hfuel
    rw [← hstart]
    exact hplaced.layout.vfree_eq hp halloc honly (Nat.le_trans hplaced.layout.length_le hfuel)

/-- While only the last block may be empty, the size alone decides. -/
theorem vmalloc_serves_nonempty (hout : ∀ p, p ∉ l → ¬ (k.vmemman.blocks p).Allocated)
    (hnonempty : ∀ p ∈ l, (k.vmemman.blocks p).next ≠ none →
      0 < (k.vmemman.blocks p).size.toNat) :
    (∃ p, k'.vmemman.Serves size addr p) ↔ size ≤ 0xFFFFF000#32 := by
  constructor
  · rintro ⟨p, hserves⟩
    exact (vmalloc_serves_only h hlast hret hserves).1
  · intro hsize
    apply vmalloc_serves_of h hlast hret hout hsize
    intro p hfirst q hq hqalloc heq
    have hqp := h.addr_inj hnonempty hq hfirst.mem heq
    exact hfirst.fits.2 (hqp ▸ hqalloc)

end Serves

/-- `vmalloc` keeps its promise exactly when the size does not round to zero past the end, and no
allocated block starts where the free block does that the call is going to find. -/
theorem vmalloc_serves_iff (h : Layout k.vmemman l)
    (hlast : ∀ p ∈ l, (k.vmemman.blocks p).next = none → ¬ (k.vmemman.blocks p).Allocated)
    (hout : ∀ p, p ∉ l → ¬ (k.vmemman.blocks p).Allocated)
    (hret : k.vmalloc fuel size = .ok (addr, k')) :
    (∃ p, k'.vmemman.Serves size addr p) ↔ size ≤ 0xFFFFF000#32 ∧
      ∀ p, k.vmemman.FirstFit l (roundup size memPageSize) p →
        ∀ q ∈ l, (k.vmemman.blocks q).Allocated →
          (k.vmemman.blocks q).addr ≠ (k.vmemman.blocks p).addr := by
  constructor
  · rintro ⟨r, hserves⟩
    exact vmalloc_serves_only h hlast hret hserves
  · rintro ⟨hsize, hnone⟩
    exact vmalloc_serves_of h hlast hret hout hsize hnone

theorem vmalloc_serves_first : ∃ k k' p,
    bareKernel.initVmalloc vmallocStart vmallocInitEnd kernelPdt = .ok k ∧
      k.vmalloc 2 0x1001#32 = .ok (vmallocStart, k') ∧
      k'.vmemman.Serves 0x1001#32 vmallocStart p := by
  have hrun : (do
      let k ← bareKernel.initVmalloc vmallocStart vmallocInitEnd kernelPdt
      let r ← k.vmalloc 2 0x1001#32
      return r.1).toOption = some vmallocStart := by
    decide +kernel
  obtain ⟨k, hinit, hrun⟩ := bind_ok (ok_of_toOption hrun)
  obtain ⟨⟨addr, k'⟩, hret, haddr⟩ := bind_ok hrun
  cases haddr
  have hsound := sound_initVmalloc (by decide) hinit
  have hlast : ∀ p ∈ [firstBlock], (k.vmemman.blocks p).next = none →
      ¬ (k.vmemman.blocks p).Allocated :=
    fun p hp hend => (hsound.lastFree p hp hend).not_allocated
  obtain ⟨p, hp⟩ := (vmalloc_serves_iff hsound.layout hlast (fun p hp => hsound.unlisted_free hp)
    hret).mpr ⟨by decide, fun p _ q hq hqalloc => by
      cases List.mem_singleton.mp hq
      exact absurd hqalloc (hsound.lastFree _ hq hsound.list.2).not_allocated⟩
  exact ⟨k, k', p, hinit, hret, hp⟩

/-- The block for 0 bytes lies at the address that the next call returns. -/
theorem vmalloc_serves_fails : ¬ ∀ (k₁ : Kernel) (tr : List (Kernel × HeapOp × Kernel))
    (k k' : Kernel) (size addr : U32) (fuel : Nat),
    bareKernel.initVmalloc vmallocStart vmallocInitEnd kernelPdt = .ok k₁ → Run AnyCall k₁ tr k →
    k.vmalloc fuel size = .ok (addr, k') → ∃ p, k'.vmemman.Serves size addr p := by
  intro h
  have hrun : (do
      let k₁ ← bareKernel.initVmalloc vmallocStart vmallocInitEnd kernelPdt
      let r ← k₁.vmalloc 2 0
      let r' ← r.2.vmalloc 3 0x1000#32
      return (r'.1, r'.2.vmemman.entry, (r'.2.vmemman.blocks 0).next,
        decide ((r'.2.vmemman.blocks 0).Allocated ∧ (r'.2.vmemman.blocks 1).Allocated),
        (r'.2.vmemman.blocks 0).addr, (r'.2.vmemman.blocks 1).addr)).toOption =
      some (vmallocStart, 0, some 1, true, vmallocStart, vmallocStart) := by
    decide +kernel
  obtain ⟨k₁, hinit, hrun⟩ := bind_ok (ok_of_toOption hrun)
  obtain ⟨⟨a, k⟩, hzero, hrun⟩ := bind_ok hrun
  obtain ⟨⟨addr, k'⟩, hret, heq⟩ := bind_ok hrun
  simp only [pure, Except.pure, Except.ok.injEq, Prod.mk.injEq, decide_eq_true_eq] at heq
  obtain ⟨rfl, hentry, hnext, ⟨halloc₀, halloc₁⟩, haddr₀, haddr₁⟩ := heq
  obtain ⟨p, hp⟩ := h k₁ [(k₁, .kvmalloc 0 a, k)] k k' 0x1000#32 _ 3 hinit
    (.cons (.kvmalloc 2 hzero) (.nil k)) hret
  have h₀ := hp.alone 0 ⟨[], congrArg some hentry⟩ halloc₀ haddr₀
  have h₁ := hp.alone 1 ⟨[0], congrArg some hentry, hnext⟩ halloc₁ haddr₁
  exact absurd (h₀.trans h₁.symm) (by decide)

end Kernel

end Uroboros
