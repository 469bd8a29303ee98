import Uroboros.VMallocLayout

/-!
# The block list and what the calls keep of it

`Sound m l` describes the chain of blocks whatever the `prev` fields hold: the
chain from `entry` is `l`, it tiles the extent, and the other records are reset.
`Linked m l` adds that `prev` undoes `next`. `taken m l` lists the ranges of the
allocated blocks, in the order of the chain.
-/

set_option autoImplicit false

namespace Uroboros

namespace VMemBlockInfo
variable {b b' : VMemBlockInfo}

def IsFree (b : VMemBlockInfo) : Prop := b.flags = vmemBlocksUse

def IsTaken (b : VMemBlockInfo) : Prop := b.flags = vmemBlocksUse ||| vmemBlocksAlloc

def IsUnused (b : VMemBlockInfo) : Prop :=
  b.flags = 0 ∧ b.size = 0 ∧ b.next = none ∧ b.prev = none

theorem IsFree.flags_eq (h : b.IsFree) : b.flags = vmemBlocksUse := h

theorem IsTaken.flags_eq (h : b.IsTaken) : b.flags = vmemBlocksUse ||| vmemBlocksAlloc := h

theorem IsFree.inUse (h : b.IsFree) : b.InUse := by
  rw [InUse, h.flags_eq]
  decide

theorem IsFree.not_allocated (h : b.IsFree) : ¬ b.Allocated := by
  rw [Allocated, h.flags_eq]
  decide

theorem IsTaken.inUse (h : b.IsTaken) : b.InUse := by
  rw [InUse, h.flags_eq]
  decide

theorem IsTaken.allocated (h : b.IsTaken) : b.Allocated := by
  rw [Allocated, h.flags_eq]
  decide

theorem IsUnused.not_inUse (h : b.IsUnused) : ¬ b.InUse := by
  rw [InUse, h.1]
  decide

end VMemBlockInfo

namespace VMemMan
variable {m m' : VMemMan} {l l₁ l₂ : List BPtr} {p q a b n : BPtr} {size : U32}

structure Sound (m : VMemMan) (l : List BPtr) : Prop where
  list : Seg (fun p => (m.blocks p).next) (some m.entry) l none
  tiles : Tiles (fun p => (m.blocks p).addr.toNat) (fun p => (m.blocks p).size.toNat)
    m.extentStart.toNat l m.extentEnd.toNat
  listed : ∀ p ∈ l, (m.blocks p).IsFree ∨ (m.blocks p).IsTaken
  unlisted : ∀ p, p ∉ l → (m.blocks p).IsUnused
  lastFree : ∀ p ∈ l, (m.blocks p).next = none → (m.blocks p).IsFree
  nonempty : ∀ p ∈ l, (m.blocks p).next ≠ none → 0 < (m.blocks p).size.toNat
  noSelf : ∀ p, (m.blocks p).prev ≠ some p

namespace Sound

theorem nodup (h : Sound m l) : l.Nodup := h.list.nodup

theorem inUse_iff (h : Sound m l) : (m.blocks p).InUse ↔ p ∈ l := by
  constructor
  · intro hp
    apply Classical.byContradiction
    intro hl
    exact (h.unlisted p hl).not_inUse hp
  · intro hl
    rcases h.listed p hl with hp | hp
    · exact hp.inUse
    · exact hp.inUse

theorem layout (h : Sound m l) : Layout m l := ⟨h.list, h.tiles, fun _ => h.inUse_iff⟩

theorem unlisted_free (h : Sound m l) (hp : p ∉ l) : ¬ (m.blocks p).Allocated := by
  rw [VMemBlockInfo.Allocated, (h.unlisted p hp).1]
  decide

theorem isFree_iff (h : Sound m l) (hp : p ∈ l) :
    (m.blocks p).IsFree ↔ ¬ (m.blocks p).Allocated := by
  constructor
  · exact VMemBlockInfo.IsFree.not_allocated
  · intro hp'
    rcases h.listed p hp with hfree | htaken
    · exact hfree
    · exact absurd htaken.allocated hp'

theorem isTaken_iff (h : Sound m l) (hp : p ∈ l) :
    (m.blocks p).IsTaken ↔ (m.blocks p).Allocated := by
  constructor
  · exact VMemBlockInfo.IsTaken.allocated
  · intro hp'
    rcases h.listed p hp with hfree | htaken
    · exact absurd hp' hfree.not_allocated
    · exact htaken

/-- Allocated blocks are not empty, so their addresses tell them apart. -/
theorem eq_of_addr_eq (h : Sound m l) (hp : p ∈ l) (hq : q ∈ l) (hap : (m.blocks p).Allocated)
    (haq : (m.blocks q).Allocated) (heq : (m.blocks p).addr = (m.blocks q).addr) : p = q := by
  have hpos : ∀ r ∈ l, (m.blocks r).Allocated → 0 < (m.blocks r).size.toNat := by
    intro r hr har
    exact h.nonempty r hr fun hlast => (h.lastFree r hr hlast).not_allocated har
  have hp0 := hpos p hp hap
  have hq0 := hpos q hq haq
  exact h.layout.eq_of_addr_eq hp hq hp0 hq0 heq

theorem findAllocated_max (h : Sound m l) (hp : p ∈ l) (halloc : (m.blocks p).Allocated) :
    m.findAllocated (m.blocks p).addr vmemMaxUnits (some m.entry) = some (some p) :=
  h.layout.findAllocated_eq hp halloc
    (fun _ hq hqalloc heq => h.eq_of_addr_eq hq hp hqalloc halloc heq) h.layout.length_le

end Sound

def range (m : VMemMan) (p : BPtr) : U32 × U32 := ((m.blocks p).addr, (m.blocks p).size)

def taken (m : VMemMan) (l : List BPtr) : List (U32 × U32) :=
  (l.filter fun p => decide (m.blocks p).Allocated).map m.range

theorem taken_append : m.taken (l₁ ++ l₂) = m.taken l₁ ++ m.taken l₂ := by
  simp [taken]

theorem taken_cons_free (h : (m.blocks p).IsFree) : m.taken (p :: l) = m.taken l := by
  simp [taken, h.not_allocated]

theorem taken_cons_taken (h : (m.blocks p).IsTaken) :
    m.taken (p :: l) = m.range p :: m.taken l := by
  simp [taken, h.allocated]

theorem taken_congr (h : ∀ p ∈ l, (m'.blocks p).flags = (m.blocks p).flags ∧
    m'.range p = m.range p) : m'.taken l = m.taken l := by
  induction l with
  | nil => rfl
  | cons p l ih =>
    obtain ⟨hflags, hrange⟩ := h p List.mem_cons_self
    have htail := ih fun q hq => h q (List.mem_cons_of_mem _ hq)
    have halloc := allocated_congr hflags
    simp only [taken, List.filter_cons, halloc] at htail ⊢
    split
    · rw [List.map_cons, List.map_cons, hrange, htail]
    · exact htail

theorem mem_taken {r : U32 × U32} (h : r ∈ m.taken l) :
    ∃ p ∈ l, (m.blocks p).Allocated ∧ m.range p = r := by
  obtain ⟨p, hp, hr⟩ := List.mem_map.mp h
  obtain ⟨hl, halloc⟩ := List.mem_filter.mp hp
  exact ⟨p, hl, of_decide_eq_true halloc, hr⟩

section Cut
variable (h : Sound m (l₁ ++ p :: l₂)) (hcut : Kernel.Cut m m' p n size)
include h hcut

theorem Sound.cut_new_free : (m'.blocks n).IsFree := by
  have hunused := h.unlisted n (h.layout.new_notMem hcut)
  rw [VMemBlockInfo.IsFree, hcut.flags, if_pos rfl, hunused.1]
  decide

theorem Sound.cut_taken (hfree : (m.blocks p).IsFree) : (m'.blocks p).IsTaken := by
  rw [VMemBlockInfo.IsTaken, hcut.flags, if_neg (h.layout.new_ne hcut).symm, if_pos rfl, hfree]

theorem Sound.cut (hfree : (m.blocks p).IsFree) (hle : size ≤ (m.blocks p).size)
    (hpos : 0 < size.toNat) (hfit : (m.blocks p).next = none ∨ size < (m.blocks p).size) :
    Sound m' (l₁ ++ p :: n :: l₂) := by
  have hnp := h.layout.new_ne hcut
  have hold := fun q => h.layout.cut_old hcut (q := q)
  have hlayout := h.layout.cut hcut hle
  have hcases : ∀ q ∈ l₁ ++ p :: n :: l₂, q = p ∨ q = n ∨ q ∈ l₁ ++ l₂ := by
    intro q hq
    rcases mem_middle hq with hq | hq
    · exact .inl hq
    · exact .inr (mem_middle hq)
  refine ⟨hlayout.list, hlayout.tiles, ?_, ?_, ?_,
    h.layout.cut_nonempty hcut h.nonempty hpos hfit, ?_⟩
  · intro q hq
    rcases hcases q hq with heq | heq | hq
    · exact .inr (heq ▸ h.cut_taken hcut hfree)
    · exact .inl (heq ▸ h.cut_new_free hcut)
    · have hflags := (hcut.elsewhere (hold q hq).1 (hold q hq).2).1
      simpa only [VMemBlockInfo.IsFree, VMemBlockInfo.IsTaken, hflags] using
        h.listed q (mem_of_mem_middle hq)
  · intro q hq
    have hqp : q ≠ p := fun heq => hq (heq ▸ mem_self_middle)
    have hqn : q ≠ n := fun heq => hq (heq ▸ mem_of_mem_middle mem_self_middle)
    have hql : q ∉ l₁ ++ p :: l₂ := by
      intro hmem
      rcases mem_middle hmem with heq | hmem
      · exact hqp heq
      · exact hq (mem_of_mem_middle (mem_of_mem_middle hmem))
    obtain ⟨hflags, _, hsize, hnext, hprev⟩ := hcut.elsewhere hqn hqp
    simpa only [VMemBlockInfo.IsUnused, hflags, hsize, hnext, hprev] using h.unlisted q hql
  · intro q hq hlast
    rcases hcases q hq with heq | heq | hq
    · subst q
      simp [hcut.next, hnp.symm] at hlast
    · exact heq ▸ h.cut_new_free hcut
    · obtain ⟨hflags, _, _, hnext, _⟩ := hcut.elsewhere (hold q hq).1 (hold q hq).2
      rw [hnext] at hlast
      simpa only [VMemBlockInfo.IsFree, hflags] using h.lastFree q (mem_of_mem_middle hq) hlast
  · intro q hq
    rw [hcut.prev] at hq
    split at hq
    · rename_i heq
      cases hq
      exact hnp heq.symm
    · exact h.noSelf q hq

theorem Sound.taken_cut (hfree : (m.blocks p).IsFree) :
    (m'.taken (l₁ ++ p :: n :: l₂)).Perm
      (((m.blocks p).addr, size) :: m.taken (l₁ ++ p :: l₂)) := by
  have hnp := h.layout.new_ne hcut
  have hsame : ∀ q ∈ l₁ ++ l₂, (m'.blocks q).flags = (m.blocks q).flags ∧
      m'.range q = m.range q := by
    intro q hq
    obtain ⟨hqn, hqp⟩ := h.layout.cut_old hcut hq
    obtain ⟨hflags, haddr, hsize, _, _⟩ := hcut.elsewhere hqn hqp
    exact ⟨hflags, by rw [range, range, haddr, hsize]⟩
  have hrange : m'.range p = ((m.blocks p).addr, size) := by
    simp [range, hcut.addr, hcut.size, hnp.symm]
  have h1 := taken_congr fun q hq => hsame q (List.mem_append_left l₂ hq)
  have h2 := taken_congr fun q hq => hsame q (List.mem_append_right l₁ hq)
  rw [taken_append, taken_cons_taken (h.cut_taken hcut hfree),
    taken_cons_free (h.cut_new_free hcut), taken_append, taken_cons_free hfree, h1, h2, hrange]
  exact List.perm_middle

end Cut

section Flags
variable {f : U8 → U8}

theorem Sound.setFlags (h : Sound m l) (hp : p ∈ l)
    (hflags : f (m.blocks p).flags = vmemBlocksUse ∨
      f (m.blocks p).flags = vmemBlocksUse ||| vmemBlocksAlloc ∧ (m.blocks p).next ≠ none) :
    Sound (m.modify p fun b => { b with flags := f b.flags }) l := by
  have hfields := modify_flags_fields (m := m) (p := p) f
  have hself : ((m.modify p fun b => { b with flags := f b.flags }).blocks p).flags =
      f (m.blocks p).flags := by
    rw [modify_same]
  have hne := fun q hq => modify_ne (m := m) (q := q) (p := p)
    (fun b => { b with flags := f b.flags }) hq
  dsimp only at hfields
  constructor
  · exact h.list.congr fun q _ => (hfields q).2.2.1
  · apply h.tiles.congr
    · intro q _
      rw [(hfields q).1]
    · intro q _
      rw [(hfields q).2.1]
  · intro q hq
    by_cases heq : q = p
    · subst q
      rw [VMemBlockInfo.IsFree, VMemBlockInfo.IsTaken, hself]
      exact hflags.imp_right And.left
    · rw [hne q heq]
      exact h.listed q hq
  · intro q hq
    rw [hne q fun heq => hq (heq ▸ hp)]
    exact h.unlisted q hq
  · intro q hq hlast
    rw [(hfields q).2.2.1] at hlast
    by_cases heq : q = p
    · subst q
      rw [VMemBlockInfo.IsFree, hself]
      exact hflags.resolve_right fun hmid => hmid.2 hlast
    · rw [hne q heq]
      exact h.lastFree q hq hlast
  · intro q hq hmid
    rw [(hfields q).2.2.1] at hmid
    rw [(hfields q).2.1]
    exact h.nonempty q hq hmid
  · intro q hq
    rw [(hfields q).2.2.2] at hq
    exact h.noSelf q hq

theorem Sound.taken_setFlags (h : Sound m (l₁ ++ p :: l₂)) :
    (m.modify p fun b => { b with flags := f b.flags }).taken l₁ = m.taken l₁ ∧
      (m.modify p fun b => { b with flags := f b.flags }).taken l₂ = m.taken l₂ := by
  have hsame : ∀ q ∈ l₁ ++ l₂,
      (m.modify p fun b => { b with flags := f b.flags }).blocks q = m.blocks q :=
    fun q hq => modify_ne _ (h.layout.ne_of_mem hq)
  constructor <;> refine taken_congr fun q hq => ?_
  · have hq' := hsame q (List.mem_append_left _ hq)
    exact ⟨by rw [hq'], by rw [range, range, hq']⟩
  · have hq' := hsame q (List.mem_append_right _ hq)
    exact ⟨by rw [hq'], by rw [range, range, hq']⟩

end Flags

theorem joinBlocks_isFree (hab : a ≠ b) (ha : (m.blocks a).IsFree) :
    ((m.joinBlocks a b).blocks a).IsFree := by
  rw [VMemBlockInfo.IsFree, joinBlocks_flags hab, if_neg hab]
  exact ha

section Join
variable (h : Sound m (l₁ ++ a :: b :: l₂))
include h

theorem Sound.join (ha : (m.blocks a).IsFree) : Sound (m.joinBlocks a b) (l₁ ++ a :: l₂) := by
  obtain ⟨hab, hold⟩ := h.layout.join_old
  have hlayout := h.layout.join
  refine ⟨hlayout.list, hlayout.tiles, ?_, ?_, ?_, h.layout.join_nonempty h.nonempty, ?_⟩
  · intro q hq
    obtain ⟨hq, hqb⟩ := h.layout.join_mem hq
    rw [VMemBlockInfo.IsFree, VMemBlockInfo.IsTaken, joinBlocks_flags hab, if_neg hqb]
    exact h.listed q hq
  · intro q hq
    by_cases hqb : q = b
    · simp [VMemBlockInfo.IsUnused, joinBlocks_flags hab, joinBlocks_size hab,
        joinBlocks_next hab, joinBlocks_prev hab, hqb]
    · have hq' := notMem_pair hq hqb
      rw [h.layout.join_elsewhere hq']
      exact h.unlisted q hq'
  · intro q hq hlast
    obtain ⟨hq, hqb⟩ := h.layout.join_mem hq
    rw [VMemBlockInfo.IsFree, joinBlocks_flags hab, if_neg hqb]
    by_cases hqa : q = a
    · exact hqa ▸ ha
    · rw [joinBlocks_next hab, if_neg hqb, if_neg hqa] at hlast
      exact h.lastFree q hq hlast
  · intro q hq
    rw [joinBlocks_prev hab] at hq
    split at hq
    · cases hq
    · split at hq
      · rename_i hnext
        cases hq
        exact (hold a (List.mem_append_right _ (h.layout.join_next_mem hnext))).1 rfl
      · exact h.noSelf q hq

theorem Sound.taken_join (ha : (m.blocks a).IsFree) (hb : (m.blocks b).IsFree) :
    (m.joinBlocks a b).taken (l₁ ++ a :: l₂) = m.taken (l₁ ++ a :: b :: l₂) := by
  obtain ⟨hab, hold⟩ := h.layout.join_old
  have hsame : ∀ q ∈ l₁ ++ l₂, ((m.joinBlocks a b).blocks q).flags = (m.blocks q).flags ∧
      (m.joinBlocks a b).range q = m.range q := by
    intro q hq
    simp [range, joinBlocks_flags hab, joinBlocks_addr hab, joinBlocks_size hab, hold q hq]
  have h1 := taken_congr fun q hq => hsame q (List.mem_append_left l₂ hq)
  have h2 := taken_congr fun q hq => hsame q (List.mem_append_right l₁ hq)
  rw [taken_append, taken_append, taken_cons_free (joinBlocks_isFree hab ha), taken_cons_free ha,
    taken_cons_free hb, h1, h2]

end Join

/-- If `vfree` would join `p` to the record that `prev` names, that record links to `p`. -/
def PrevLinks (m : VMemMan) (p : BPtr) : Prop :=
  ∀ r ∈ (m.blocks p).prev, ¬ (m.blocks r).Allocated → (m.blocks r).next = some p

instance (m : VMemMan) (p : BPtr) : Decidable (m.PrevLinks p) :=
  inferInstanceAs (Decidable (∀ r ∈ _, _))

theorem Sound.mergeNext_cases (h : Sound m (l₁ ++ p :: l₂)) :
    m.mergeNext p = m ∨
      ∃ b l₃, l₂ = b :: l₃ ∧ (m.blocks b).IsFree ∧ m.mergeNext p = m.joinBlocks p b := by
  rcases h.layout.mergeNext_cases with ⟨heq, _⟩ | ⟨b, l₃, rfl, hb, heq⟩
  · exact .inl heq
  · exact .inr ⟨b, l₃, rfl, (h.isFree_iff (mem_of_mem_middle mem_self_middle)).mpr hb, heq⟩

theorem Sound.mergePrev_cases (h : Sound m l) (hp : p ∈ l) (hprev : m.PrevLinks p) :
    m.mergePrev p = m ∧ (∀ r, (m.blocks p).prev = some r → (m.blocks r).Allocated) ∨
      ∃ l₀ r l₂, l = l₀ ++ r :: p :: l₂ ∧ (m.blocks r).IsFree ∧
        m.mergePrev p = m.joinBlocks r p := by
  unfold VMemMan.mergePrev
  cases hr : (m.blocks p).prev with
  | none => exact .inl ⟨rfl, fun r hr' => by cases hr'⟩
  | some r =>
    dsimp only
    split
    · rename_i halloc
      refine .inl ⟨rfl, ?_⟩
      intro r' hr'
      cases hr'
      exact halloc
    · rename_i halloc
      have hnext := hprev r hr halloc
      have hrl : r ∈ l := by
        apply Classical.byContradiction
        intro hnot
        rw [(h.unlisted r hnot).2.2.1] at hnext
        cases hnext
      obtain ⟨l₁, l₂, rfl⟩ := List.append_of_mem hp
      obtain ⟨l₀, rfl⟩ := h.list.eq_append_of_next hrl hnext
      have hfree := (h.isFree_iff hrl).mpr halloc
      exact .inr ⟨l₀, r, l₂, List.append_assoc l₀ [r] (p :: l₂), hfree, rfl⟩

theorem Sound.prevLinks_join (h : Sound m (l₁ ++ p :: b :: l₂)) (hb : (m.blocks b).IsFree)
    (hprev : m.PrevLinks p) : (m.joinBlocks p b).PrevLinks p := by
  obtain ⟨hpb, hold⟩ := h.layout.join_old
  have hbp : (m.blocks b).next ≠ some p := fun hbnext =>
    (hold p (List.mem_append_right _ (h.layout.join_next_mem hbnext))).1 rfl
  intro r hr halloc
  rw [joinBlocks_prev hpb, if_neg hpb, if_neg hbp] at hr
  by_cases hrb : r = b
  · exact absurd (hprev b (hrb ▸ hr) hb.not_allocated) hbp
  · have hrp : r ≠ p := fun heq => h.noSelf p (heq ▸ hr)
    rw [VMemBlockInfo.Allocated, joinBlocks_flags hpb, if_neg hrb] at halloc
    rw [joinBlocks_next hpb, if_neg hrb, if_neg hrp]
    exact hprev r hr halloc

theorem Sound.mergeNext (h : Sound m (l₁ ++ p :: l₂)) (hfree : (m.blocks p).IsFree)
    (hprev : m.PrevLinks p) :
    ∃ l₃, Sound (m.mergeNext p) (l₁ ++ p :: l₃) ∧ ((m.mergeNext p).blocks p).IsFree ∧
      (m.mergeNext p).PrevLinks p ∧
      (m.mergeNext p).taken (l₁ ++ p :: l₃) = m.taken (l₁ ++ p :: l₂) := by
  rcases h.mergeNext_cases with heq | ⟨b, l₃, rfl, hb, heq⟩
  · rw [heq]
    exact ⟨l₂, h, hfree, hprev, rfl⟩
  · rw [heq]
    exact ⟨l₃, h.join hfree, joinBlocks_isFree h.layout.join_old.1 hfree, h.prevLinks_join hb hprev,
      h.taken_join hfree hb⟩

theorem Sound.mergePrev (h : Sound m l) (hp : p ∈ l) (hfree : (m.blocks p).IsFree)
    (hprev : m.PrevLinks p) :
    ∃ l', Sound (m.mergePrev p) l' ∧ (m.mergePrev p).taken l' = m.taken l := by
  rcases h.mergePrev_cases hp hprev with ⟨heq, _⟩ | ⟨l₀, r, l₂, rfl, hr, heq⟩
  · rw [heq]
    exact ⟨l, h, rfl⟩
  · rw [heq]
    exact ⟨l₀ ++ r :: l₂, h.join hr, h.taken_join hr hfree⟩

theorem clear_flags :
    (vmemBlocksUse ||| vmemBlocksAlloc) &&& ~~~vmemBlocksAlloc = vmemBlocksUse := by
  decide

theorem clearAllocated_isFree (htaken : (m.blocks p).IsTaken) :
    ((m.clearAllocated p).blocks p).IsFree := by
  rw [VMemBlockInfo.IsFree, clearAllocated, modify_same]
  exact (congrArg (· &&& ~~~vmemBlocksAlloc) htaken).trans clear_flags

theorem Sound.clearAllocated (h : Sound m l) (hp : p ∈ l) (htaken : (m.blocks p).IsTaken) :
    Sound (m.clearAllocated p) l :=
  h.setFlags (f := (· &&& ~~~vmemBlocksAlloc)) hp
    (.inl ((congrArg (· &&& ~~~vmemBlocksAlloc) htaken).trans clear_flags))

theorem Sound.prevLinks_clearAllocated (h : Sound m l) (hprev : m.PrevLinks p) :
    (m.clearAllocated p).PrevLinks p := by
  have hfields := modify_flags_fields (m := m) (p := p) (· &&& ~~~vmemBlocksAlloc)
  intro r hr halloc
  rw [VMemMan.clearAllocated, (hfields p).2.2.2] at hr
  have hrp : r ≠ p := fun heq => h.noSelf p (heq ▸ hr)
  rw [VMemMan.clearAllocated, modify_ne _ hrp] at halloc ⊢
  exact hprev r hr halloc

theorem Sound.release (h : Sound m l) (hp : p ∈ l) (htaken : (m.blocks p).IsTaken)
    (hprev : m.PrevLinks p) :
    ∃ l', Sound (m.release p) l' ∧ (m.taken l).Perm (m.range p :: (m.release p).taken l') := by
  obtain ⟨l₁, l₂, rfl⟩ := List.append_of_mem hp
  have hfree := clearAllocated_isFree htaken
  obtain ⟨l₃, hsound, hfree', hprev', htaken'⟩ :=
    (h.clearAllocated hp htaken).mergeNext hfree (h.prevLinks_clearAllocated hprev)
  obtain ⟨l', hsound', htaken''⟩ := hsound.mergePrev mem_self_middle hfree' hprev'
  have hrest : (m.clearAllocated p).taken (l₁ ++ p :: l₂) = m.taken l₁ ++ m.taken l₂ := by
    obtain ⟨h1, h2⟩ := h.taken_setFlags (f := (· &&& ~~~vmemBlocksAlloc))
    rw [taken_append, taken_cons_free hfree]
    exact congrArg₂ (· ++ ·) h1 h2
  refine ⟨l', hsound', ?_⟩
  have heq : (m.release p).taken l' = m.taken l₁ ++ m.taken l₂ :=
    (htaken''.trans htaken').trans hrest
  rw [heq, taken_append, taken_cons_taken htaken]
  exact List.perm_middle

theorem Sound.markAllocated {k : Kernel} (h : Sound k.vmemman l) (hp : p ∈ l)
    (hfree : (k.vmemman.blocks p).IsFree) (hmid : (k.vmemman.blocks p).next ≠ none) :
    Sound (k.markAllocated p).vmemman l ∧
      ((k.markAllocated p).vmemman.taken l).Perm (k.vmemman.range p :: k.vmemman.taken l) := by
  have hflags : (k.vmemman.blocks p).flags ||| vmemBlocksAlloc =
      vmemBlocksUse ||| vmemBlocksAlloc := by
    rw [hfree.flags_eq]
  obtain ⟨l₁, l₂, rfl⟩ := List.append_of_mem hp
  refine ⟨h.setFlags (f := (· ||| vmemBlocksAlloc)) hp (.inr ⟨hflags, hmid⟩), ?_⟩
  have htaken : ((k.markAllocated p).vmemman.blocks p).IsTaken := by
    rw [VMemBlockInfo.IsTaken, Kernel.markAllocated_blocks, if_pos rfl]
    exact hflags
  have hrange : (k.markAllocated p).vmemman.range p = k.vmemman.range p := by
    rw [range, Kernel.markAllocated_blocks, if_pos rfl]
    rfl
  obtain ⟨h1, h2⟩ := h.taken_setFlags (f := (· ||| vmemBlocksAlloc))
  rw [taken_append, taken_cons_taken htaken, hrange, taken_append, taken_cons_free hfree]
  exact (congrArg₂ (· ++ _ :: ·) h1 h2) ▸ List.perm_middle

end VMemMan

namespace Kernel
open VMemMan
variable {k k' : Kernel} {l : List BPtr} {size addr : U32} {fuel : Nat}

theorem sound_initVmalloc {extentStart initExtentEnd pdt : U32}
    (hle : extentStart.toNat ≤ initExtentEnd.toNat)
    (h : k.initVmalloc extentStart initExtentEnd pdt = .ok k') :
    Sound k'.vmemman [firstBlock] := by
  obtain ⟨hstart, hend, hentry, hflags, haddr, hsize, hlinks, hrest⟩ := initVmalloc_cases h
  have hlen : (initExtentEnd - extentStart).toNat = initExtentEnd.toNat - extentStart.toNat :=
    BitVec.toNat_sub_of_le hle
  constructor
  · exact ⟨congrArg some hentry, (hlinks firstBlock).1⟩
  · have hend' : extentStart.toNat + (initExtentEnd - extentStart).toNat = initExtentEnd.toNat := by
      rw [hlen]
      omega
    simp only [Tiles, haddr, hsize, hstart, hend, hend', and_self]
  · intro q hq
    cases List.mem_singleton.mp hq
    exact .inl hflags
  · intro q hq
    obtain ⟨hqflags, hqsize⟩ := hrest q fun heq => hq (List.mem_singleton.mpr heq)
    exact ⟨hqflags, hqsize, (hlinks q).1, (hlinks q).2⟩
  · intro q hq _
    cases List.mem_singleton.mp hq
    exact hflags
  · intro q _ hmid
    exact absurd (hlinks q).1 hmid
  · intro q hq
    rw [(hlinks q).2] at hq
    cases hq

theorem vmalloc_found (hsound : Sound k.vmemman l) (hsize : size.toNat % 4096 = 0)
    (h : k.vmalloc fuel size = .ok (addr, k')) :
    ∃ p ∈ l, addr = (k.vmemman.blocks p).addr ∧ (k.vmemman.blocks p).IsFree ∧
      size ≤ (k.vmemman.blocks p).size ∧
      k.vmemman.findFit size vmemMaxUnits k.vmemman.entry = some p ∧
      ((k.vmemman.blocks p).next ≠ none ∧ (k.vmemman.blocks p).size = size ∧
          k' = k.markAllocated p ∨
        ((k.vmemman.blocks p).next = none ∨ size < (k.vmemman.blocks p).size) ∧
          (k.markAllocated p).splitBlock p size = .ok k') := by
  obtain ⟨p, hp, haddr, hstop, hle, hfit, hcase⟩ := hsound.layout.vmalloc_found hsize h
  have hfree : (k.vmemman.blocks p).IsFree := by
    rcases hstop with hlast | hfree
    · exact hsound.lastFree p hp hlast
    · exact (hsound.isFree_iff hp).mpr hfree
  exact ⟨p, hp, haddr, hfree, hle, hfit, hcase⟩

/-- What a call of `vmalloc` does to the chain. -/
theorem vmalloc_chain (hsound : Sound k.vmemman l) (hsize : size.toNat % 4096 = 0)
    (h : k.vmalloc fuel size = .ok (addr, k')) :
    ∃ p ∈ l, addr = (k.vmemman.blocks p).addr ∧ (k.vmemman.blocks p).IsFree ∧
      size ≤ (k.vmemman.blocks p).size ∧
      k.vmemman.findFit size vmemMaxUnits k.vmemman.entry = some p ∧
      ((k.vmemman.blocks p).next ≠ none ∧ (k.vmemman.blocks p).size = size ∧
          k' = k.markAllocated p ∨
        ((k.vmemman.blocks p).next = none ∨ size < (k.vmemman.blocks p).size) ∧
          ∃ n, Cut k.vmemman k'.vmemman p n size) := by
  obtain ⟨p, hp, haddr, hfree, hle, hfit, hcase⟩ := vmalloc_found hsound hsize h
  refine ⟨p, hp, haddr, hfree, hle, hfit, hcase.imp_right ?_⟩
  rintro ⟨hcut, hsplit⟩
  exact ⟨hcut, splitBlock_cut hfree.inUse hsplit⟩

theorem vmalloc_frame (hsound : Sound k.vmemman l) (hsize : size.toNat % 4096 = 0)
    (h : k.vmalloc fuel size = .ok (addr, k')) : SameFrame k.vmemman k'.vmemman := by
  obtain ⟨p, _, _, _, _, _, hcase⟩ := vmalloc_chain hsound hsize h
  rcases hcase with ⟨_, _, rfl⟩ | ⟨_, n, hcut⟩
  · exact ⟨rfl, rfl, rfl⟩
  · exact hcut.frame

theorem sound_vmalloc (hsound : Sound k.vmemman l) (hsize : size.toNat % 4096 = 0)
    (hpos : 0 < size.toNat) (h : k.vmalloc fuel size = .ok (addr, k')) :
    ∃ l', Sound k'.vmemman l' ∧
      (k'.vmemman.taken l').Perm ((addr, size) :: k.vmemman.taken l) := by
  obtain ⟨p, hp, haddr, hfree, hle, _, hcase⟩ := vmalloc_chain hsound hsize h
  subst addr
  rcases hcase with ⟨hmid, heq, rfl⟩ | ⟨hfit, n, hcut⟩
  · obtain ⟨hsound', htaken⟩ := hsound.markAllocated hp hfree hmid
    exact ⟨l, hsound', heq ▸ htaken⟩
  · obtain ⟨l₁, l₂, rfl⟩ := List.append_of_mem hp
    exact ⟨l₁ ++ p :: n :: l₂, hsound.cut hcut hfree hle hpos hfit, hsound.taken_cut hcut hfree⟩

theorem kvfree_chain (hsound : Sound k.vmemman l) (h : k.kvfree fuel addr = .ok k') :
    k'.vmemman = k.vmemman ∧ (∀ p ∈ l, (k.vmemman.blocks p).addr = addr →
        ¬ (k.vmemman.blocks p).Allocated) ∨
      ∃ p ∈ l, (k.vmemman.blocks p).addr = addr ∧ (k.vmemman.blocks p).IsTaken ∧
        k'.vmemman = k.vmemman.release p := by
  rcases kvfree_cases h with ⟨hfind, rfl⟩ | ⟨p, hfind, rfl⟩
  · exact .inl ⟨rfl, fun p hp haddr => findAllocated_none hsound.list hfind hp haddr⟩
  · obtain ⟨hp, haddr, halloc⟩ := findAllocated_some hsound.list hfind
    exact .inr ⟨p, hp, haddr, (hsound.isTaken_iff hp).mpr halloc, rfl⟩

end Kernel

end Uroboros
