import Mathlib.Data.Fintype.Card
import Uroboros.VMallocSteps

/-!
# How the list of blocks lays out the extent

`Layout m l` says what every operation keeps as long as the links of the list are
right: the chain from `entry` is `l`, it tiles the extent, and its records are
those in use. The flags of a record may hold anything else.
-/

set_option autoImplicit false

namespace Uroboros

namespace VMemMan
variable {m m' : VMemMan} {l l₁ l₂ : List BPtr} {p q a b n : BPtr} {size : U32}

theorem inUse_congr (h : (m'.blocks q).flags = (m.blocks q).flags) :
    (m'.blocks q).InUse ↔ (m.blocks q).InUse := by
  rw [VMemBlockInfo.InUse, VMemBlockInfo.InUse, h]

theorem allocated_congr (h : (m'.blocks q).flags = (m.blocks q).flags) :
    (m'.blocks q).Allocated ↔ (m.blocks q).Allocated := by
  rw [VMemBlockInfo.Allocated, VMemBlockInfo.Allocated, h]

theorem mem_middle {x : BPtr} (hx : x ∈ l₁ ++ p :: l₂) : x = p ∨ x ∈ l₁ ++ l₂ := by
  simpa only [List.mem_append, List.mem_cons, or_left_comm] using hx

theorem mem_of_mem_middle {x : BPtr} (hx : x ∈ l₁ ++ l₂) : x ∈ l₁ ++ p :: l₂ := by
  rcases List.mem_append.mp hx with hx | hx
  · exact List.mem_append_left _ hx
  · exact List.mem_append_right _ (List.mem_cons_of_mem _ hx)

theorem mem_self_middle : p ∈ l₁ ++ p :: l₂ := List.mem_append_right _ List.mem_cons_self

theorem notMem_pair (hq : q ∉ l₁ ++ a :: l₂) (hqb : q ≠ b) : q ∉ l₁ ++ a :: b :: l₂ := by
  intro hmem
  rcases mem_middle hmem with heq | hmem
  · exact hq (heq ▸ mem_self_middle)
  · rcases mem_middle hmem with heq | hmem
    · exact hqb heq
    · exact hq (mem_of_mem_middle hmem)

structure Layout (m : VMemMan) (l : List BPtr) : Prop where
  list : Seg (fun p => (m.blocks p).next) (some m.entry) l none
  tiles : Tiles (fun p => (m.blocks p).addr.toNat) (fun p => (m.blocks p).size.toNat)
    m.extentStart.toNat l m.extentEnd.toNat
  inUse : ∀ p, (m.blocks p).InUse ↔ p ∈ l

namespace Layout

theorem nodup (h : Layout m l) : l.Nodup := h.list.nodup

theorem length_le (h : Layout m l) : l.length ≤ vmemMaxUnits := by
  have hcard := h.nodup.length_le_card
  rwa [Fintype.card_fin] at hcard

theorem entry_mem (h : Layout m l) : m.entry ∈ l := by
  have hlist := h.list
  cases l with
  | nil => cases hlist
  | cons x l =>
    cases hlist.1
    exact List.mem_cons_self

theorem ne_of_mem (h : Layout m (l₁ ++ p :: l₂)) (hq : q ∈ l₁ ++ l₂) : q ≠ p := by
  rintro rfl
  exact (List.nodup_cons.mp (List.nodup_middle.mp h.nodup)).1 hq

theorem size_le (h : Layout m l) (hp : p ∈ l) :
    (m.blocks p).addr.toNat + (m.blocks p).size.toNat < 2 ^ 32 := by
  have hbound := (h.tiles.mem_bounds hp).2
  have hend := m.extentEnd.isLt
  omega

/-- Two blocks at one address lie end to end: the one in front is empty. -/
theorem eq_of_addr_eq (h : Layout m l) (hp : p ∈ l) (hq : q ∈ l)
    (hpos : 0 < (m.blocks p).size.toNat) (hpos' : 0 < (m.blocks q).size.toNat)
    (heq : (m.blocks p).addr = (m.blocks q).addr) : p = q := by
  by_contra hne
  have hdisj := h.tiles.disjoint hp hq hne
  rw [heq] at hdisj
  omega

theorem congr (h : Layout m l) (hframe : SameFrame m m')
    (hnext : ∀ q, (m'.blocks q).next = (m.blocks q).next)
    (haddr : ∀ q, (m'.blocks q).addr = (m.blocks q).addr)
    (hsize : ∀ q, (m'.blocks q).size = (m.blocks q).size)
    (huse : ∀ q, (m'.blocks q).InUse ↔ (m.blocks q).InUse) : Layout m' l := by
  constructor
  · rw [hframe.2.2]
    exact h.list.congr fun q _ => hnext q
  · rw [hframe.1, hframe.2.1]
    apply h.tiles.congr
    · intro q _
      rw [haddr]
    · intro q _
      rw [hsize]
  · intro q
    rw [huse]
    exact h.inUse q

theorem setFlags (h : Layout m l) {f : U8 → U8}
    (hf : f (m.blocks p).flags &&& vmemBlocksUse = (m.blocks p).flags &&& vmemBlocksUse) :
    Layout (m.modify p fun b => { b with flags := f b.flags }) l := by
  have hfields := modify_flags_fields (m := m) (p := p) f
  refine h.congr ⟨rfl, rfl, rfl⟩
    (fun q => (hfields q).2.2.1) (fun q => (hfields q).1) (fun q => (hfields q).2.1) ?_
  intro q
  rw [VMemBlockInfo.InUse, VMemBlockInfo.InUse, modify_blocks]
  split
  · subst q
    rw [hf]
  · rfl

section Cut
variable (h : Layout m (l₁ ++ p :: l₂)) (hcut : Kernel.Cut m m' p n size)
include h hcut

theorem new_notMem : n ∉ l₁ ++ p :: l₂ := fun hn => hcut.fresh ((h.inUse n).mpr hn)

theorem new_ne : n ≠ p := by
  rintro rfl
  exact h.new_notMem hcut mem_self_middle

theorem cut_old (hq : q ∈ l₁ ++ l₂) : q ≠ n ∧ q ≠ p := by
  refine ⟨?_, h.ne_of_mem hq⟩
  rintro rfl
  exact h.new_notMem hcut (mem_of_mem_middle hq)

theorem cut_allocated_iff : (m'.blocks q).Allocated ↔
    q = p ∨ q ≠ p ∧ (m.blocks q).Allocated := by
  have hnp := h.new_ne hcut
  rw [VMemBlockInfo.Allocated, VMemBlockInfo.Allocated, hcut.flags]
  by_cases hqn : q = n
  · subst q
    simp only [if_true, use_alloc, hnp, false_or, ne_eq, not_false_eq_true, true_and]
  · by_cases hqp : q = p
    · subst q
      simp only [if_neg hqn, if_true, mark_alloc, true_or, iff_true]
      decide
    · simp only [hqn, hqp, if_false, false_or, ne_eq, not_false_eq_true, true_and]

theorem cut (hle : size ≤ (m.blocks p).size) : Layout m' (l₁ ++ p :: n :: l₂) := by
  have hnp := h.new_ne hcut
  have hold := fun q => h.cut_old hcut (q := q)
  have hsum := h.size_le mem_self_middle
  have hle' : size.toNat ≤ (m.blocks p).size.toNat := hle
  have hrest : ((m.blocks p).size - size).toNat = (m.blocks p).size.toNat - size.toNat :=
    BitVec.toNat_sub_of_le hle
  constructor
  · rw [hcut.frame.2.2]
    apply h.list.insert
    · simp [hcut.next, hnp.symm]
    · simp [hcut.next]
    · intro q hq
      simp [hcut.next, hold q hq]
  · rw [hcut.frame.1, hcut.frame.2.1]
    apply h.tiles.insert
    · simp [hcut.addr, hnp.symm]
    · simp only [hcut.addr, hcut.size, hnp.symm, if_true, if_false, BitVec.toNat_add]
      omega
    · simp only [hcut.size, hnp.symm, if_true, if_false, hrest]
      omega
    · intro q hq
      simp [hcut.addr, hold q hq]
    · intro q hq
      simp [hcut.size, hold q hq]
  · intro q
    rw [VMemBlockInfo.InUse, hcut.flags]
    by_cases hqn : q = n
    · subst q
      rw [if_pos rfl, use_use]
      exact iff_of_true (by decide) (mem_of_mem_middle mem_self_middle)
    · have hmem : q ∈ l₁ ++ p :: n :: l₂ ↔ q ∈ l₁ ++ p :: l₂ := by
        simp [hqn]
      rw [if_neg hqn, hmem, ← h.inUse, VMemBlockInfo.InUse]
      split
      · subst q
        rw [mark_use]
      · rfl

theorem cut_nonempty (hnonempty : ∀ q ∈ l₁ ++ p :: l₂, (m.blocks q).next ≠ none →
      0 < (m.blocks q).size.toNat) (hpos : 0 < size.toNat)
    (hfit : (m.blocks p).next = none ∨ size < (m.blocks p).size) :
    ∀ q ∈ l₁ ++ p :: n :: l₂, (m'.blocks q).next ≠ none → 0 < (m'.blocks q).size.toNat := by
  have hnp := h.new_ne hcut
  intro q hq hmid
  rcases mem_middle hq with rfl | hq
  · rw [hcut.size, if_neg hnp.symm, if_pos rfl]
    exact hpos
  · rcases mem_middle hq with rfl | hq
    · rw [hcut.next, if_pos rfl] at hmid
      have hlt : size.toNat < (m.blocks p).size.toNat := hfit.resolve_left hmid
      rw [hcut.size, if_pos rfl, BitVec.toNat_sub_of_le (Nat.le_of_lt hlt)]
      omega
    · obtain ⟨hqn, hqp⟩ := h.cut_old hcut hq
      obtain ⟨_, _, hsize, hnext, _⟩ := hcut.elsewhere hqn hqp
      rw [hnext] at hmid
      rw [hsize]
      exact hnonempty q (mem_of_mem_middle hq) hmid

end Cut

section Join
variable (h : Layout m (l₁ ++ a :: b :: l₂))
include h

theorem join_old : a ≠ b ∧ ∀ q ∈ l₁ ++ l₂, q ≠ a ∧ q ≠ b := by
  obtain ⟨ha, hrest⟩ := List.nodup_cons.mp (List.nodup_middle.mp h.nodup)
  have hb := (List.nodup_cons.mp (List.nodup_middle.mp hrest)).1
  refine ⟨fun heq => ha (heq ▸ mem_self_middle), ?_⟩
  intro q hq
  exact ⟨fun heq => ha (heq ▸ mem_of_mem_middle hq), fun heq => hb (heq ▸ hq)⟩

theorem join_next_mem (hq : (m.blocks b).next = some q) : q ∈ l₂ := by
  have hlist : l₁ ++ a :: b :: l₂ = (l₁ ++ [a]) ++ b :: l₂ := by simp
  rw [hlist] at h
  obtain ⟨l₃, rfl⟩ := h.list.eq_cons_of_next hq
  exact List.mem_cons_self

theorem join_mem (hq : q ∈ l₁ ++ a :: l₂) : q ∈ l₁ ++ a :: b :: l₂ ∧ q ≠ b := by
  obtain ⟨hab, hold⟩ := h.join_old
  rcases mem_middle hq with heq | hq
  · subst q
    exact ⟨mem_self_middle, hab⟩
  · exact ⟨mem_of_mem_middle (mem_of_mem_middle hq), (hold q hq).2⟩

theorem join_size : ((m.joinBlocks a b).blocks a).size.toNat =
    (m.blocks a).size.toNat + (m.blocks b).size.toNat := by
  have hab := h.join_old.1
  have hadj : (m.blocks a).addr.toNat + (m.blocks a).size.toNat = (m.blocks b).addr.toNat :=
    (Tiles.append_cons_iff.mp h.tiles).2.1.symm
  have hsum := h.size_le (mem_of_mem_middle mem_self_middle : b ∈ l₁ ++ a :: b :: l₂)
  rw [joinBlocks_size hab, if_neg hab, if_pos rfl, BitVec.toNat_add]
  omega

theorem join : Layout (m.joinBlocks a b) (l₁ ++ a :: l₂) := by
  obtain ⟨hab, hold⟩ := h.join_old
  have hframe := joinBlocks_frame m a b
  constructor
  · rw [hframe.2.2]
    apply h.list.remove
    · simp [joinBlocks_next hab, hab]
    · intro q hq
      simp [joinBlocks_next hab, hold q hq]
  · rw [hframe.1, hframe.2.1]
    apply h.tiles.remove
    · simp [joinBlocks_addr hab]
    · exact h.join_size
    · intro q hq
      simp [joinBlocks_addr hab]
    · intro q hq
      simp [joinBlocks_size hab, hold q hq]
  · intro q
    rw [VMemBlockInfo.InUse, joinBlocks_flags hab]
    by_cases hqb : q = b
    · rw [if_pos hqb]
      refine iff_of_false (fun hne => hne BitVec.zero_and) ?_
      exact fun hq => (h.join_mem hq).2 hqb
    · rw [if_neg hqb, ← VMemBlockInfo.InUse, h.inUse]
      exact ⟨fun hq => Classical.byContradiction fun hnot => notMem_pair hnot hqb hq,
        fun hq => (h.join_mem hq).1⟩

theorem join_nonempty (hnonempty : ∀ q ∈ l₁ ++ a :: b :: l₂, (m.blocks q).next ≠ none →
      0 < (m.blocks q).size.toNat) :
    ∀ q ∈ l₁ ++ a :: l₂, ((m.joinBlocks a b).blocks q).next ≠ none →
      0 < ((m.joinBlocks a b).blocks q).size.toNat := by
  have hab := h.join_old.1
  intro q hq hmid
  obtain ⟨hmem, hqb⟩ := h.join_mem hq
  by_cases hqa : q = a
  · subst q
    have hnext : (m.blocks a).next = some b := h.list.next_of_cons_cons
    have hpos := hnonempty a hmem (by simp [hnext])
    rw [h.join_size]
    omega
  · rw [joinBlocks_next hab, if_neg hqb, if_neg hqa] at hmid
    rw [joinBlocks_size hab, if_neg hqb, if_neg hqa]
    exact hnonempty q hmem hmid

theorem join_elsewhere (hq : q ∉ l₁ ++ a :: b :: l₂) :
    (m.joinBlocks a b).blocks q = m.blocks q := by
  have hqa : q ≠ a := fun heq => hq (heq ▸ mem_self_middle)
  have hqb : q ≠ b := fun heq => hq (heq ▸ mem_of_mem_middle mem_self_middle)
  have hqn : (m.blocks b).next ≠ some q := fun hnext => hq (mem_of_mem_middle
    (mem_of_mem_middle (List.mem_append_right _ (h.join_next_mem hnext))))
  rw [joinBlocks_blocks h.join_old.1, if_neg hqb, if_neg hqa, if_neg hqa, if_neg hqn]

end Join

theorem mergeNext_cases (h : Layout m (l₁ ++ p :: l₂)) :
    m.mergeNext p = m ∧ (∀ q, (m.blocks p).next = some q → (m.blocks q).Allocated) ∨
      ∃ b l₃, l₂ = b :: l₃ ∧ ¬ (m.blocks b).Allocated ∧ m.mergeNext p = m.joinBlocks p b := by
  unfold mergeNext
  cases hnext : (m.blocks p).next with
  | none => exact .inl ⟨rfl, fun q hq => by cases hq⟩
  | some b =>
    dsimp only
    split
    · rename_i hb
      refine .inl ⟨rfl, ?_⟩
      intro q hq
      cases hq
      exact hb
    · rename_i hb
      obtain ⟨l₃, rfl⟩ := h.list.eq_cons_of_next hnext
      exact .inr ⟨b, l₃, rfl, hb, rfl⟩

theorem findFit_max {fuel : Nat} (h : Layout m l) (hfit : m.findFit size fuel m.entry = some p) :
    m.findFit size vmemMaxUnits m.entry = some p := by
  cases hmax : m.findFit size vmemMaxUnits m.entry with
  | none => exact absurd hmax (findFit_ends h.list h.length_le)
  | some q => exact congrArg some (findFit_unique hmax hfit)

theorem vmalloc_found {k k' : Kernel} {addr : U32} {fuel : Nat} (h : Layout k.vmemman l)
    (hsize : size.toNat % 4096 = 0) (hret : k.vmalloc fuel size = .ok (addr, k')) :
    ∃ p ∈ l, addr = (k.vmemman.blocks p).addr ∧
      ((k.vmemman.blocks p).next = none ∨ ¬ (k.vmemman.blocks p).Allocated) ∧
      size ≤ (k.vmemman.blocks p).size ∧
      k.vmemman.findFit size vmemMaxUnits k.vmemman.entry = some p ∧
      ((k.vmemman.blocks p).next ≠ none ∧ (k.vmemman.blocks p).size = size ∧
          k' = k.markAllocated p ∨
        ((k.vmemman.blocks p).next = none ∨ size < (k.vmemman.blocks p).size) ∧
          (k.markAllocated p).splitBlock p size = .ok k') := by
  obtain ⟨fuel', p, hfit, hle, haddr, hcase⟩ := Kernel.vmalloc_cases hsize hret
  obtain ⟨hp, hstop⟩ := findFit_cases h.list hfit
  have hinUse := (h.inUse p).mpr hp
  subst addr
  refine ⟨p, hp, ?_, hstop.imp_right And.right, hle, h.findFit_max hfit, ?_⟩
  · rcases hcase with ⟨_, _, rfl⟩ | ⟨_, hsplit⟩
    · rw [Kernel.markAllocated_blocks, if_pos rfl]
    · obtain ⟨n, hcut⟩ := Kernel.splitBlock_cut hinUse hsplit
      have hpn : p ≠ n := fun heq => hcut.fresh (heq ▸ hinUse)
      rw [hcut.addr, if_neg hpn]
  · rcases hcase with ⟨hmid, hge, hk'⟩ | ⟨hcut, hsplit⟩
    · exact .inl ⟨hmid, BitVec.le_antisymm (BitVec.not_lt.mp hge) hle, hk'⟩
    · exact .inr ⟨hcut, hsplit⟩

theorem findAllocated_eq {fuel : Nat} (h : Layout m l) (hp : p ∈ l)
    (halloc : (m.blocks p).Allocated)
    (honly : ∀ q ∈ l, (m.blocks q).Allocated → (m.blocks q).addr = (m.blocks p).addr → q = p)
    (hfuel : l.length ≤ fuel) :
    m.findAllocated (m.blocks p).addr fuel (some m.entry) = some (some p) := by
  cases hfind : m.findAllocated (m.blocks p).addr fuel (some m.entry) with
  | none => exact absurd hfind (findAllocated_ends h.list hfuel)
  | some found =>
    cases found with
    | none => exact absurd halloc (findAllocated_none h.list hfind hp rfl)
    | some q =>
      obtain ⟨hq, haddr, hqalloc⟩ := findAllocated_some h.list hfind
      exact congrArg (some ∘ some) (honly q hq hqalloc haddr)

theorem vfree_eq {fuel : Nat} (h : Layout m l) (hp : p ∈ l) (halloc : (m.blocks p).Allocated)
    (honly : ∀ q ∈ l, (m.blocks q).Allocated → (m.blocks q).addr = (m.blocks p).addr → q = p)
    (hfuel : l.length ≤ fuel) : m.vfree fuel (m.blocks p).addr = .ok (m.release p) := by
  rw [vfree, h.findAllocated_eq hp halloc honly hfuel]
  rfl

end Layout

end VMemMan

end Uroboros
