import Mathlib.Data.Finset.Card
import Mathlib.Data.Fintype.Card
import Uroboros.PageChain

/-!
# How many pages are left

`pmalloc_4k_page` returns `NULL` exactly when no page is unused. Backing a block
needs its pages one by one, and goes through a `NULL` page record when they run
out, however many were there.
-/

set_option autoImplicit false

namespace Uroboros

open ForLoop

namespace PMemMan
variable {man man' : PMemMan} {page : PPtr}

def unused (man : PMemMan) : Finset PPtr := Finset.univ.filter fun i => (man.tbl i).flags = 0

theorem mem_unused {i : PPtr} : i ∈ man.unused ↔ (man.tbl i).flags = 0 := by
  simp [unused]

theorem pmalloc4kPage_eq_none_iff : man.pmalloc4kPage = none ↔ man.unused.card = 0 := by
  rw [pmalloc4kPage, Option.map_eq_none_iff, scan_eq_none_iff, Finset.card_eq_zero,
    Finset.eq_empty_iff_forall_notMem]
  apply forall_congr'
  intro i
  rw [mem_unused, beq_eq_false_iff_ne]

theorem unused_pmalloc (h : man.pmalloc4kPage = some (page, man')) :
    man'.unused.card + 1 = man.unused.card := by
  obtain ⟨hunused, rfl⟩ := pmalloc4kPage_cases h
  have herase : unused { man with
      tbl := Function.update man.tbl page { man.tbl page with flags := 1 } } =
      man.unused.erase page := by
    ext i
    rw [Finset.mem_erase, mem_unused, mem_unused]
    by_cases hi : i = page
    · subst i
      simp
    · simp [hi]
  rw [herase, Finset.card_erase_add_one (mem_unused.mpr hunused)]

theorem unused_setNext (man : PMemMan) (i : PPtr) (next : Option PPtr) :
    unused { man with tbl := Function.update man.tbl i { man.tbl i with next } } = man.unused := by
  ext j
  rw [mem_unused, mem_unused]
  by_cases hj : j = i
  · subst j
    simp
  · simp [Function.update_of_ne hj]

end PMemMan

namespace Kernel
open PMemMan
variable {k : Kernel} {p : BPtr} {size : U32} {i n : Nat} {s : PPtr × Kernel}

/-- The pages that `size` bytes need; a block of no bytes gets one too. -/
def pagesNeeded (size : U32) : Nat := (memNpage size).toNat - 1 + 1

theorem pmalloc4kPage_supply (k : Kernel) :
    (k.pmemman.unused.card = 0 ∧ k.pmalloc4kPage = .error .nullPage) ∨
      ∃ page man, k.pmalloc4kPage = .ok (page, { k with pmemman := man }) ∧
        man.unused.card + 1 = k.pmemman.unused.card := by
  unfold pmalloc4kPage
  cases hpage : k.pmemman.pmalloc4kPage with
  | none => exact .inl ⟨pmalloc4kPage_eq_none_iff.mp hpage, rfl⟩
  | some found => exact .inr ⟨found.1, found.2, rfl, unused_pmalloc hpage⟩

theorem backNextPage_supply (p : BPtr) (i : Nat) (s : PPtr × Kernel) :
    (s.2.pmemman.unused.card = 0 ∧ backNextPage p i s = .error .nullPage) ∨
      ∃ s', backNextPage p i s = .ok s' ∧
        s'.2.pmemman.unused.card + 1 = s.2.pmemman.unused.card := by
  rcases pmalloc4kPage_supply s.2 with ⟨hcard, herr⟩ | ⟨page, man, hok, hcard⟩
  · refine .inl ⟨hcard, ?_⟩
    rw [backNextPage, herr]
    rfl
  · let linked : PMemMan := { man with
      tbl := Function.update man.tbl s.1 { man.tbl s.1 with next := some page } }
    have hlinked : linked.unused = man.unused := unused_setNext man s.1 (some page)
    refine .inr ⟨(page, Kernel.mapMemory4k { s.2 with pmemman := linked }
      ((s.2.vmemman.blocks p).addr + memPageSize * BitVec.ofNat 32 (i + 1))
      (linked.tbl page).addr), ?_, ?_⟩
    · rw [backNextPage, hok]
      rfl
    · change linked.unused.card + 1 = _
      rw [hlinked, hcard]

theorem backLoop_supply (p : BPtr) (n : Nat) (s : PPtr × Kernel) :
    (s.2.pmemman.unused.card < n ∧ forLoopM (backNextPage p) n s = .error .nullPage) ∨
      ∃ s', forLoopM (backNextPage p) n s = .ok s' ∧
        s'.2.pmemman.unused.card + n = s.2.pmemman.unused.card := by
  induction n with
  | zero => exact .inr ⟨s, rfl, Nat.add_zero _⟩
  | succ n ih =>
    rw [forLoopM]
    rcases ih with ⟨hlt, herr⟩ | ⟨t, hok, hcard⟩
    · refine .inl ⟨by omega, ?_⟩
      rw [herr]
      rfl
    · rw [hok]
      rcases backNextPage_supply p n t with ⟨hzero, herr⟩ | ⟨s', hok', hcard'⟩
      · exact .inl ⟨by omega, herr⟩
      · exact .inr ⟨s', hok', by omega⟩

/-- `backBlock` goes through exactly when the pages are there. -/
theorem backBlock_supply (k : Kernel) (p : BPtr) (size : U32) :
    (k.pmemman.unused.card < pagesNeeded size ∧ k.backBlock p size = .error .nullPage) ∨
      (pagesNeeded size ≤ k.pmemman.unused.card ∧ ∃ k', k.backBlock p size = .ok k') := by
  unfold pagesNeeded backBlock
  rcases pmalloc4kPage_supply k with ⟨hzero, herr⟩ | ⟨page, man, hok, hcard⟩
  · refine .inl ⟨by omega, ?_⟩
    rw [herr]
    rfl
  · rw [hok]
    dsimp only [bind, Except.bind]
    generalize hfirst : (page, Kernel.mapMemory4k _ _ _) = first
    have hsupply : first.2.pmemman = man := by
      rw [← hfirst]
      rfl
    rcases backLoop_supply p ((memNpage size).toNat - 1) first with
      ⟨hlt, herr⟩ | ⟨s', hok', hcard'⟩
    · rw [hsupply] at hlt
      refine .inl ⟨by omega, ?_⟩
      rw [herr]
    · rw [hsupply] at hcard'
      refine .inr ⟨by omega, s'.2, ?_⟩
      rw [hok']
      rfl

end Kernel

end Uroboros
