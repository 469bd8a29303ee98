import Uroboros.VMallocCoalesce

/-!
# The two-way links

`Linked m l` adds to a sound chain that `prev` undoes `next`. Joining blocks and
cutting the last block keep it; cutting any other block never does. `Apart` says
that no two neighbours are free.
-/

set_option autoImplicit false

namespace Uroboros.VMemMan

variable {m m' : VMemMan} {l l₁ l₂ : List BPtr} {p q a b n : BPtr} {size : U32}

structure Linked (m : VMemMan) (l : List BPtr) : Prop extends Sound m l where
  linked : ∀ p ∈ l, ∀ q, (m.blocks p).next = some q → (m.blocks q).prev = some p
  entryPrev : (m.blocks m.entry).prev = none

theorem Linked.wellFormed (h : Linked m l) : WellFormed m l :=
  ⟨h.layout, h.linked, h.entryPrev, h.nonempty⟩

/-- Both descriptions are of the one chain from `entry`. -/
theorem WellFormed.toLinked (h : WellFormed m l) (hsound : Sound m l₁) : Linked m l := by
  have heq : l₁ = l := hsound.list.unique h.list
  subst heq
  exact ⟨hsound, h.linked, h.entryPrev⟩

theorem Linked.prevLinks (h : Linked m l) (hp : p ∈ l) : m.PrevLinks p := by
  intro r hr _
  obtain ⟨l₁, l₂, rfl⟩ := List.append_of_mem hp
  rcases List.eq_nil_or_concat l₁ with rfl | ⟨l₀, x, rfl⟩
  · have hentry : m.entry = p := by
      have hlist := h.list.1
      exact Option.some.inj hlist
    rw [← hentry, h.entryPrev] at hr
    cases hr
  · have hlist : l₀.concat x ++ p :: l₂ = l₀ ++ x :: p :: l₂ := by simp
    rw [hlist] at h
    have hnext : (m.blocks x).next = some p := h.list.next_of_cons_cons
    have hprev := h.linked x mem_self_middle p hnext
    rw [hr] at hprev
    cases hprev
    exact hnext

theorem Linked.release (h : Linked m l) (hapart : Apart m l) (hp : p ∈ l)
    (htaken : (m.blocks p).IsTaken) : ∃ l', Linked (m.release p) l' ∧ Apart (m.release p) l' := by
  obtain ⟨l', hwf, hapart', _⟩ := h.wellFormed.release hapart hp
  obtain ⟨_, hsound, _⟩ := h.toSound.release hp htaken (h.prevLinks hp)
  exact ⟨l', hwf.toLinked hsound, hapart'⟩

theorem Linked.markAllocated {k : Kernel} (h : Linked k.vmemman l) (hapart : Apart k.vmemman l)
    (hsound : Sound (k.markAllocated p).vmemman l) :
    Linked (k.markAllocated p).vmemman l ∧ Apart (k.markAllocated p).vmemman l := by
  have hfields := modify_flags_fields (m := k.vmemman) (p := p) (· ||| vmemBlocksAlloc)
  have hkeep : ∀ q, (k.vmemman.blocks q).Allocated →
      ((k.markAllocated p).vmemman.blocks q).Allocated := by
    intro q hq
    rw [VMemBlockInfo.Allocated, Kernel.markAllocated_flags]
    split
    · rw [mark_alloc]
      decide
    · exact hq
  have hwf : WellFormed (k.markAllocated p).vmemman l :=
    h.wellFormed.setFlags (f := (· ||| vmemBlocksAlloc)) (mark_use _)
  refine ⟨hwf.toLinked hsound, ?_⟩
  intro x hx q hq _ _
  rw [Kernel.markAllocated, (hfields x).2.2.1] at hq
  exact (Apart.apply hapart hx hq).imp (hkeep x) (hkeep q)

section Cut
variable (h : Linked m (l₁ ++ p :: l₂)) (hcut : Kernel.Cut m m' p n size)
include h hcut

theorem Linked.cut_last (hapart : Apart m (l₁ ++ p :: l₂)) (hsound : Sound m' (l₁ ++ p :: n :: l₂))
    (hfree : (m.blocks p).IsFree) (hlast : (m.blocks p).next = none) :
    Linked m' (l₁ ++ p :: n :: l₂) ∧ Apart m' (l₁ ++ p :: n :: l₂) := by
  have hnp := h.layout.new_ne hcut
  have hunused := h.unlisted n (h.layout.new_notMem hcut)
  have hcases : ∀ x ∈ l₁ ++ p :: n :: l₂, ∀ q, (m'.blocks x).next = some q →
      x = p ∧ q = n ∨ x ≠ n ∧ x ≠ p ∧ q ≠ n ∧ x ∈ l₁ ++ p :: l₂ ∧ (m.blocks x).next = some q := by
    intro x hx q hq
    rw [hcut.next] at hq
    split at hq
    · rw [hlast] at hq
      cases hq
    · rename_i hxn
      split at hq
      · rename_i hxp
        exact .inl ⟨hxp, (Option.some.inj hq).symm⟩
      · rename_i hxp
        have hx' : x ∈ l₁ ++ p :: l₂ := by
          rcases mem_middle hx with heq | hx
          · exact absurd heq hxp
          · exact mem_of_mem_middle ((mem_middle hx).resolve_left hxn)
        have hqn : q ≠ n := by
          intro heq
          have hback := h.linked x hx' q hq
          rw [heq, hunused.2.2.2] at hback
          cases hback
        exact .inr ⟨hxn, hxp, hqn, hx', hq⟩
  refine ⟨⟨hsound, ?_, ?_⟩, ?_⟩
  · intro x hx q hq
    rw [hcut.prev]
    rcases hcases x hx q hq with ⟨rfl, rfl⟩ | ⟨_, _, hqn, hx', hq'⟩
    · rw [if_pos rfl]
    · rw [if_neg hqn]
      exact h.linked x hx' q hq'
  · have hentry : m.entry ≠ n := fun heq => h.layout.new_notMem hcut (heq ▸ h.layout.entry_mem)
    rw [hcut.frame.2.2, hcut.prev, if_neg hentry]
    exact h.entryPrev
  · intro x hx q hq _ _
    rcases hcases x hx q hq with ⟨rfl, rfl⟩ | ⟨hxn, hxp, hqn, hx', hq'⟩
    · exact .inl (h.cut_taken hcut hfree).allocated
    · by_cases hqp : q = p
      · exact .inr (hqp ▸ (h.cut_taken hcut hfree).allocated)
      · rw [allocated_congr (hcut.elsewhere hxn hxp).1, allocated_congr (hcut.elsewhere hqn hqp).1]
        exact Apart.apply hapart hx' hq'

theorem Linked.cut_middle (hmid : (m.blocks p).next = some q) :
    (m'.blocks n).next = some q ∧ (m'.blocks q).prev ≠ some n := by
  have hback := h.linked p mem_self_middle q hmid
  have hqn : q ≠ n := by
    intro heq
    rw [heq, (h.unlisted n (h.layout.new_notMem hcut)).2.2.2] at hback
    cases hback
  refine ⟨by rw [hcut.next, if_pos rfl, hmid], ?_⟩
  rw [hcut.prev, if_neg hqn, hback]
  exact fun heq => h.layout.new_ne hcut (Option.some.inj heq).symm

end Cut

end Uroboros.VMemMan
