import Mathlib.Data.Set.Basic
import Uroboros.VMallocInvariant

/-!
# Freeing a block joins it to its neighbours

`WellFormed m l` adds to the layout that `prev` undoes `next` and that only the
last block may be empty. `vfree` keeps it, joins the block to a free neighbour on
either side, and of the allocated blocks takes only that one away.
-/

set_option autoImplicit false

namespace Uroboros.VMemMan

variable {m m' m'' : VMemMan} {l l' l'' l₁ l₂ : List BPtr} {p q a b : BPtr} {addr : U32}

structure WellFormed (m : VMemMan) (l : List BPtr) : Prop extends Layout m l where
  linked : ∀ p ∈ l, ∀ q, (m.blocks p).next = some q → (m.blocks q).prev = some p
  entryPrev : (m.blocks m.entry).prev = none
  nonempty : ∀ p ∈ l, (m.blocks p).next ≠ none → 0 < (m.blocks p).size.toNat

/-- Two neighbours, neither of which is `x`, are not both free. -/
def ApartBut (m : VMemMan) (l : List BPtr) (x : Option BPtr) : Prop :=
  ∀ p ∈ l, ∀ q, (m.blocks p).next = some q → some p ≠ x → some q ≠ x →
    (m.blocks p).Allocated ∨ (m.blocks q).Allocated

abbrev Apart (m : VMemMan) (l : List BPtr) : Prop := ApartBut m l none

theorem Apart.apply (h : Apart m l) (hp : p ∈ l) (hq : (m.blocks p).next = some q) :
    (m.blocks p).Allocated ∨ (m.blocks q).Allocated :=
  h p hp q hq (Option.some_ne_none p) (Option.some_ne_none q)

def allocations (m : VMemMan) (l : List BPtr) : Set (U32 × U32) :=
  {r | ∃ p ∈ l, (m.blocks p).Allocated ∧ m.range p = r}

def Dropped (m : VMemMan) (q : BPtr) : Prop :=
  ¬ (m.blocks q).InUse ∧ (m.blocks q).next = none ∧ (m.blocks q).prev = none

theorem Layout.next_ne_none (h : Layout m (l₁ ++ p :: l₂)) (hq : q ∈ l₂) :
    (m.blocks p).next ≠ none := by
  intro hnone
  have hrest := (Seg.append_cons_iff.mp h.list).2
  simp only [hnone] at hrest
  cases hrest.eq_nil_of_none
  cases hq

theorem Layout.addr_lt (h : Layout m (l₁ ++ p :: l₂))
    (hpos : (m.blocks p).next ≠ none → 0 < (m.blocks p).size.toNat) (hq : q ∈ l₂) :
    (m.blocks p).addr.toNat < (m.blocks q).addr.toNat := by
  have hbehind := ((Tiles.append_cons_iff.mp h.tiles).2.mem_bounds hq).1
  have hsize := hpos (h.next_ne_none hq)
  omega

theorem Layout.addr_inj (h : Layout m l)
    (hpos : ∀ p ∈ l, (m.blocks p).next ≠ none → 0 < (m.blocks p).size.toNat) (hp : p ∈ l)
    (hq : q ∈ l) (heq : (m.blocks p).addr = (m.blocks q).addr) : p = q := by
  obtain ⟨l₁, l₂, rfl⟩ := List.append_of_mem hp
  rcases List.mem_append.mp hq with hq' | hq'
  · obtain ⟨l₃, l₄, rfl⟩ := List.append_of_mem hq'
    have hsplit : l₃ ++ q :: l₄ ++ p :: l₂ = l₃ ++ q :: (l₄ ++ p :: l₂) := by simp
    rw [hsplit] at h
    have hlt := h.addr_lt (hpos q hq) mem_self_middle
    rw [heq] at hlt
    exact absurd hlt (Nat.lt_irrefl _)
  · rcases List.mem_cons.mp hq' with heq' | hq'
    · exact heq'.symm
    · have hlt := h.addr_lt (hpos p hp) hq'
      rw [heq] at hlt
      exact absurd hlt (Nat.lt_irrefl _)

/-- The record that `prev` names is the one in front. -/
theorem WellFormed.prev_cases (h : WellFormed m (l₁ ++ p :: l₂)) :
    l₁ = [] ∧ (m.blocks p).prev = none ∨
      ∃ l₀ r, l₁ = l₀ ++ [r] ∧ (m.blocks r).next = some p ∧ (m.blocks p).prev = some r := by
  rcases List.eq_nil_or_concat l₁ with rfl | ⟨l₀, r, rfl⟩
  · have hentry : some m.entry = some p := h.list.1
    cases hentry
    exact .inl ⟨rfl, h.entryPrev⟩
  · rw [List.concat_eq_append] at h ⊢
    have hsplit : l₀ ++ [r] ++ p :: l₂ = l₀ ++ r :: p :: l₂ := by simp
    rw [hsplit] at h
    have hnext : (m.blocks r).next = some p := h.list.next_of_cons_cons
    exact .inr ⟨l₀, r, rfl, hnext, h.linked r mem_self_middle p hnext⟩

theorem allocated_join (hab : a ≠ b) (hq : q ≠ b) :
    ((m.joinBlocks a b).blocks q).Allocated ↔ (m.blocks q).Allocated := by
  rw [VMemBlockInfo.Allocated, VMemBlockInfo.Allocated, joinBlocks_flags hab, if_neg hq]

section Join
variable (h : WellFormed m (l₁ ++ a :: b :: l₂))
include h

theorem WellFormed.prev_of_join : (m.blocks b).prev = some a :=
  h.linked a mem_self_middle b h.list.next_of_cons_cons

theorem WellFormed.join : WellFormed (m.joinBlocks a b) (l₁ ++ a :: l₂) := by
  obtain ⟨hab, hold⟩ := h.join_old
  have hprev := h.prev_of_join
  have hmem_b : b ∈ l₁ ++ a :: b :: l₂ := mem_of_mem_middle mem_self_middle
  refine ⟨h.toLayout.join, ?_, ?_, h.join_nonempty h.nonempty⟩
  · intro x hx q hq
    rw [joinBlocks_prev hab]
    rcases mem_middle hx with heq | hx
    · subst x
      rw [joinBlocks_next hab, if_neg hab, if_pos rfl] at hq
      have hqb := (hold q (List.mem_append_right _ (h.join_next_mem hq))).2
      rw [if_neg hqb, if_pos hq]
    · obtain ⟨hxa, hxb⟩ := hold x hx
      rw [joinBlocks_next hab, if_neg hxb, if_neg hxa] at hq
      have hxq := h.linked x (mem_of_mem_middle (mem_of_mem_middle hx)) q hq
      have hqb : q ≠ b := by
        rintro rfl
        rw [hprev] at hxq
        exact hxa (Option.some.inj hxq).symm
      have hqn : (m.blocks b).next ≠ some q := by
        intro hbq
        rw [h.linked b hmem_b q hbq] at hxq
        exact hxb (Option.some.inj hxq).symm
      rw [if_neg hqb, if_neg hqn]
      exact hxq
  · rw [(joinBlocks_frame m a b).2.2, joinBlocks_prev hab]
    split
    · rfl
    · split
      · rename_i hbq
        have hentry := h.linked b hmem_b _ hbq
        rw [h.entryPrev] at hentry
        cases hentry
      · exact h.entryPrev

theorem WellFormed.join_next {x : BPtr} (hx : x ∈ l₁ ++ a :: l₂)
    (hq : ((m.joinBlocks a b).blocks x).next = some q) :
    q ≠ b ∧ x ≠ b ∧ (x ≠ a → (m.blocks x).next = some q) := by
  have hab := h.join_old.1
  have hxb := (h.join_mem hx).2
  refine ⟨?_, hxb, ?_⟩
  · have hback := h.join.linked x hx q hq
    rintro rfl
    rw [joinBlocks_prev hab, if_pos rfl] at hback
    cases hback
  · intro hxa
    rwa [joinBlocks_next hab, if_neg hxb, if_neg hxa] at hq

end Join

/-- `m'` is `m` after free blocks of `l` have been joined; those that are left are `l'`. -/
structure Merged (m m' : VMemMan) (l l' : List BPtr) : Prop where
  frame : SameFrame m m'
  sub : ∀ q ∈ l', q ∈ l
  dropped : ∀ q ∈ l, q ∉ l' → Dropped m' q
  elsewhere : ∀ q, q ∉ l → m'.blocks q = m.blocks q
  allocations : m'.allocations l' = m.allocations l

namespace Merged

theorem refl (m : VMemMan) (l : List BPtr) : Merged m m l l :=
  ⟨⟨rfl, rfl, rfl⟩, fun _ hq => hq, fun _ hq hn => absurd hq hn, fun _ _ => rfl, rfl⟩

theorem trans (h : Merged m m' l l') (h' : Merged m' m'' l' l'') : Merged m m'' l l'' := by
  constructor
  · exact h.frame.trans h'.frame
  · exact fun q hq => h.sub q (h'.sub q hq)
  · intro q hq hout
    by_cases hmid : q ∈ l'
    · exact h'.dropped q hmid hout
    · have hkeep := h.dropped q hq hmid
      rw [Dropped, ← h'.elsewhere q hmid] at hkeep
      exact hkeep
  · intro q hq
    rw [h'.elsewhere q fun hmem => hq (h.sub q hmem), h.elsewhere q hq]
  · exact h'.allocations.trans h.allocations

end Merged

theorem WellFormed.merged_join (h : WellFormed m (l₁ ++ a :: b :: l₂))
    (ha : ¬ (m.blocks a).Allocated) (hb : ¬ (m.blocks b).Allocated) :
    Merged m (m.joinBlocks a b) (l₁ ++ a :: b :: l₂) (l₁ ++ a :: l₂) := by
  have hab := h.join_old.1
  have hrange : ∀ q, q ≠ a → q ≠ b → (m.joinBlocks a b).range q = m.range q := by
    intro q hqa hqb
    rw [range, range, joinBlocks_addr hab, joinBlocks_size hab, if_neg hqb, if_neg hqa]
  constructor
  · exact joinBlocks_frame m a b
  · exact fun q hq => (h.join_mem hq).1
  · intro q hq hout
    have hqb : q = b := by
      by_contra hne
      exact notMem_pair hout hne hq
    refine ⟨?_, ?_, ?_⟩
    · rw [VMemBlockInfo.InUse, joinBlocks_flags hab, if_pos hqb]
      exact fun hne => hne BitVec.zero_and
    · rw [joinBlocks_next hab, if_pos hqb]
    · rw [joinBlocks_prev hab, if_pos hqb]
  · exact fun q hq => h.join_elsewhere hq
  · ext r
    constructor
    · rintro ⟨q, hq, halloc, hr⟩
      obtain ⟨hmem, hqb⟩ := h.join_mem hq
      rw [allocated_join hab hqb] at halloc
      have hqa : q ≠ a := fun heq => ha (heq ▸ halloc)
      exact ⟨q, hmem, halloc, (hrange q hqa hqb).symm.trans hr⟩
    · rintro ⟨q, hq, halloc, hr⟩
      have hqa : q ≠ a := fun heq => ha (heq ▸ halloc)
      have hqb : q ≠ b := fun heq => hb (heq ▸ halloc)
      refine ⟨q, ?_, (allocated_join hab hqb).mpr halloc, (hrange q hqa hqb).trans hr⟩
      by_contra hout
      exact notMem_pair hout hqb hq

/-- Joining `p` to the free block behind it leaves an allocated block, or none, behind `p`. -/
theorem WellFormed.mergeNext (h : WellFormed m (l₁ ++ p :: l₂)) (hfree : ¬ (m.blocks p).Allocated)
    (hapart : ApartBut m (l₁ ++ p :: l₂) (some p)) :
    ∃ l₃, WellFormed (m.mergeNext p) (l₁ ++ p :: l₃) ∧
      Merged m (m.mergeNext p) (l₁ ++ p :: l₂) (l₁ ++ p :: l₃) ∧
      ¬ ((m.mergeNext p).blocks p).Allocated ∧
      ApartBut (m.mergeNext p) (l₁ ++ p :: l₃) (some p) ∧
      ∀ q, ((m.mergeNext p).blocks p).next = some q → ((m.mergeNext p).blocks q).Allocated := by
  rcases h.mergeNext_cases with ⟨heq, hnext⟩ | ⟨b, l₃, rfl, hb, heq⟩
  · rw [heq]
    exact ⟨l₂, h, Merged.refl .., hfree, hapart, hnext⟩
  · rw [heq]
    obtain ⟨hpb, hold⟩ := h.join_old
    refine ⟨l₃, h.join, h.merged_join hfree hb, ?_, ?_, ?_⟩
    · rwa [allocated_join hpb hpb]
    · intro x hx q hq hxp hqp
      obtain ⟨hqb, hxb, hkeep⟩ := h.join_next hx hq
      rw [allocated_join hpb hxb, allocated_join hpb hqb]
      exact hapart x (h.join_mem hx).1 q (hkeep fun heq => hxp (congrArg some heq)) hxp hqp
    · intro q hq
      rw [joinBlocks_next hpb, if_neg hpb, if_pos rfl] at hq
      obtain ⟨hqp, hqb⟩ := hold q (List.mem_append_right _ (h.join_next_mem hq))
      have hside := hapart b (mem_of_mem_middle mem_self_middle) q hq
        (fun heq => hpb (Option.some.inj heq).symm) (fun heq => hqp (Option.some.inj heq))
      exact (allocated_join hpb hqb).mpr (hside.resolve_left hb)

/-- Joining `p` to a free block before it leaves no two free neighbours. -/
theorem WellFormed.mergePrev (h : WellFormed m (l₁ ++ p :: l₂)) (hfree : ¬ (m.blocks p).Allocated)
    (hapart : ApartBut m (l₁ ++ p :: l₂) (some p))
    (hnext : ∀ q, (m.blocks p).next = some q → (m.blocks q).Allocated) :
    ∃ l', WellFormed (m.mergePrev p) l' ∧ Merged m (m.mergePrev p) (l₁ ++ p :: l₂) l' ∧
      Apart (m.mergePrev p) l' := by
  have hstay : (∀ r, (m.blocks p).prev = some r → (m.blocks r).Allocated) →
      Apart m (l₁ ++ p :: l₂) := by
    intro hprev x hx q hq _ _
    by_cases hxp : x = p
    · subst x
      exact .inr (hnext q hq)
    · by_cases hqp : q = p
      · subst q
        exact .inl (hprev x (h.linked x hx p hq))
      · exact hapart x hx q hq (fun heq => hxp (Option.some.inj heq))
          (fun heq => hqp (Option.some.inj heq))
  unfold VMemMan.mergePrev
  rcases h.prev_cases with ⟨_, hprev⟩ | ⟨l₀, r, rfl, _, hprev⟩
  · simp only [hprev]
    refine ⟨_, h, Merged.refl .., hstay ?_⟩
    intro r hr
    rw [hprev] at hr
    cases hr
  · simp only [hprev]
    split
    · rename_i hr
      refine ⟨_, h, Merged.refl .., hstay ?_⟩
      intro r' hr'
      rw [hprev] at hr'
      cases hr'
      exact hr
    · rename_i hr
      have hsplit : l₀ ++ [r] ++ p :: l₂ = l₀ ++ r :: p :: l₂ := by simp
      rw [hsplit] at h hapart ⊢
      have hrp := h.join_old.1
      refine ⟨l₀ ++ r :: l₂, h.join, h.merged_join hr hfree, ?_⟩
      intro x hx q hq _ _
      obtain ⟨hqp, hxp, hkeep⟩ := h.join_next hx hq
      rw [allocated_join hrp hxp, allocated_join hrp hqp]
      by_cases hxr : x = r
      · subst x
        rw [joinBlocks_next hrp, if_neg hrp, if_pos rfl] at hq
        exact .inr (hnext q hq)
      · exact hapart x (h.join_mem hx).1 q (hkeep hxr) (fun heq => hxp (Option.some.inj heq))
          (fun heq => hqp (Option.some.inj heq))

theorem WellFormed.setFlags (h : WellFormed m l) {f : U8 → U8}
    (hf : f (m.blocks p).flags &&& vmemBlocksUse = (m.blocks p).flags &&& vmemBlocksUse) :
    WellFormed (m.modify p fun b => { b with flags := f b.flags }) l := by
  have hfields := modify_flags_fields (m := m) (p := p) f
  refine ⟨h.toLayout.setFlags hf, ?_, ?_, ?_⟩
  · intro x hx q hq
    rw [(hfields x).2.2.1] at hq
    rw [(hfields q).2.2.2]
    exact h.linked x hx q hq
  · rw [modify_entry, (hfields m.entry).2.2.2]
    exact h.entryPrev
  · intro x hx hmid
    rw [(hfields x).2.2.1] at hmid
    rw [(hfields x).2.1]
    exact h.nonempty x hx hmid

theorem allocated_clear_iff :
    ((m.clearAllocated p).blocks q).Allocated ↔ q ≠ p ∧ (m.blocks q).Allocated := by
  rw [VMemBlockInfo.Allocated, VMemBlockInfo.Allocated, clearAllocated, modify_blocks]
  split
  · rename_i heq
    simp only [clear_alloc, heq, ne_eq, not_true_eq_false, false_and]
  · rename_i hne
    simp only [hne, ne_eq, not_false_eq_true, true_and]

theorem WellFormed.allocations_clear (h : WellFormed m l) (hp : p ∈ l) :
    (m.clearAllocated p).allocations l = m.allocations l \ {m.range p} := by
  have hfields := modify_flags_fields (m := m) (p := p) (· &&& ~~~vmemBlocksAlloc)
  have hrange : ∀ q, (m.clearAllocated p).range q = m.range q := by
    intro q
    rw [range, range, clearAllocated, (hfields q).1, (hfields q).2.1]
  ext r
  constructor
  · rintro ⟨q, hq, halloc, hr⟩
    obtain ⟨hqp, halloc⟩ := allocated_clear_iff.mp halloc
    rw [hrange] at hr
    refine ⟨⟨q, hq, halloc, hr⟩, ?_⟩
    rintro rfl
    exact hqp (h.addr_inj h.nonempty hq hp (congrArg Prod.fst hr))
  · rintro ⟨⟨q, hq, halloc, hr⟩, hne⟩
    have hqp : q ≠ p := by
      rintro rfl
      exact hne hr.symm
    exact ⟨q, hq, allocated_clear_iff.mpr ⟨hqp, halloc⟩, (hrange q).trans hr⟩

/-- What `vfree` makes of the list when it frees block `p`. -/
theorem WellFormed.release (h : WellFormed m l) (hapart : Apart m l) (hp : p ∈ l) :
    ∃ l', WellFormed (m.release p) l' ∧ Apart (m.release p) l' ∧ SameFrame m (m.release p) ∧
      (m.release p).allocations l' = m.allocations l \ {m.range p} ∧
      ∀ q ∈ l, q ∉ l' → Dropped (m.release p) q := by
  have hcleared : WellFormed (m.clearAllocated p) l :=
    h.setFlags (f := (· &&& ~~~vmemBlocksAlloc)) (clear_use _)
  have hfree : ¬ ((m.clearAllocated p).blocks p).Allocated :=
    fun halloc => (allocated_clear_iff.mp halloc).1 rfl
  have hbut : ApartBut (m.clearAllocated p) l (some p) := by
    have hfields := modify_flags_fields (m := m) (p := p) (· &&& ~~~vmemBlocksAlloc)
    intro x hx q hq hxp hqp
    rw [clearAllocated, (hfields x).2.2.1] at hq
    have hxp' : x ≠ p := fun heq => hxp (congrArg some heq)
    have hqp' : q ≠ p := fun heq => hqp (congrArg some heq)
    rw [allocated_clear_iff, allocated_clear_iff]
    exact (Apart.apply hapart hx hq).imp (⟨hxp', ·⟩) (⟨hqp', ·⟩)
  have hallocs := h.allocations_clear hp
  obtain ⟨l₁, l₂, rfl⟩ := List.append_of_mem hp
  obtain ⟨l₃, hwf, hmerged, hfree', hbut', hnext⟩ := hcleared.mergeNext hfree hbut
  obtain ⟨l', hwf', hmerged', hapart'⟩ := hwf.mergePrev hfree' hbut' hnext
  have hall := hmerged.trans hmerged'
  refine ⟨l', hwf', hapart', release_frame m p, ?_, hall.dropped⟩
  exact hall.allocations.trans hallocs

/-- `vfree` of an allocated block's address frees that block, joins it to its free neighbours and
leaves the list well-formed; of any other address it changes nothing. -/
theorem vfree_coalesces (h : WellFormed m l) (hapart : Apart m l) (addr : U32) :
    (∀ p ∈ l, (m.blocks p).Allocated → (m.blocks p).addr = addr → ∃ m' l',
      (∀ fuel, l.length ≤ fuel → m.vfree fuel addr = .ok m') ∧
      WellFormed m' l' ∧ Apart m' l' ∧ SameFrame m m' ∧
      m'.allocations l' = m.allocations l \ {m.range p} ∧ ∀ q ∈ l, q ∉ l' → Dropped m' q) ∧
    ((∀ p ∈ l, (m.blocks p).Allocated → (m.blocks p).addr ≠ addr) →
      ∀ fuel, l.length ≤ fuel → m.vfree fuel addr = .ok m) := by
  constructor
  · intro p hp halloc haddr
    obtain ⟨l', hl'⟩ := h.release hapart hp
    refine ⟨m.release p, l', ?_, hl'⟩
    intro fuel hfuel
    subst addr
    exact h.vfree_eq hp halloc (fun q hq _ heq => h.addr_inj h.nonempty hq hp heq) hfuel
  · intro hnone fuel hfuel
    unfold vfree
    cases hfind : m.findAllocated addr fuel (some m.entry) with
    | none => exact absurd hfind (findAllocated_ends h.list hfuel)
    | some found =>
      cases found with
      | none => rfl
      | some q =>
        obtain ⟨hq, hqaddr, hqalloc⟩ := findAllocated_some h.list hfind
        exact absurd hqaddr (hnone q hq hqalloc)

def oneTaken : VMemMan where
  extentStart := vmallocStart
  extentEnd := vmallocInitEnd
  pdt := kernelPdt
  entry := firstBlock
  blocks := fun q =>
    if q = 0 then ⟨vmemBlocksUse ||| vmemBlocksAlloc, vmallocStart, 0x1000, none, some 1, none⟩
    else if q = 1 then ⟨vmemBlocksUse, 0x3001000, 0xfff000, none, none, some 0⟩
    else ⟨0, 0, 0, none, none, none⟩

theorem oneTaken_wellFormed : WellFormed oneTaken [0, 1] := by
  refine ⟨⟨⟨rfl, rfl, rfl⟩, ⟨rfl, rfl, rfl⟩, ?_⟩, ?_, rfl, ?_⟩
  · decide +kernel
  · decide +kernel
  · decide +kernel

theorem vfree_coalesces_oneTaken : ∃ m' l', oneTaken.vfree vmemMaxUnits vmallocStart = .ok m' ∧
    WellFormed m' l' ∧ m'.allocations l' = oneTaken.allocations [0, 1] \ {oneTaken.range 0} := by
  have hapart : Apart oneTaken [0, 1] := by
    unfold Apart ApartBut
    decide +kernel
  obtain ⟨m', l', hret, hwf, _, _, hallocs, _⟩ := (vfree_coalesces oneTaken_wellFormed hapart
    vmallocStart).1 0 (by decide) (by decide) rfl
  exact ⟨m', l', hret vmemMaxUnits (by decide), hwf, hallocs⟩

end Uroboros.VMemMan
