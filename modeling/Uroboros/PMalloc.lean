import Uroboros.Config
import Uroboros.Lib.ForLoop
import Mathlib.Logic.Function.Basic

/-!
# The physical page manager

`P_MEMMAN` as a typed record. A `P_MEM_PAGE *` is an index into `tbl`, and
`NULL` is `none`.
-/

set_option autoImplicit false

namespace Uroboros

open ForLoop

abbrev PPtr := Fin pmallocMaxPage

structure PMemPage where
  flags : U8
  addr : U32
  next : Option PPtr

structure PMemMan where
  tbl : PPtr → PMemPage
  baseAddr : U32

namespace PMemMan

def initPmalloc (startAddr : U32) : PMemMan where
  tbl i := { flags := 0, addr := startAddr + BitVec.ofNat 32 i.val * memPageSize, next := none }
  baseAddr := startAddr

/-- The first page whose `flags` is zero, now marked used. -/
def pmalloc4kPage (man : PMemMan) : Option (PPtr × PMemMan) :=
  (scan fun i => (man.tbl i).flags == 0).map fun i =>
    (i, { man with tbl := Function.update man.tbl i { man.tbl i with flags := 1 } })

/-- The manager after `k` allocations from a fresh one. -/
def firstUsed (startAddr : U32) (k : Nat) : PMemMan where
  tbl i :=
    { flags := if i.val < k then 1 else 0
      addr := startAddr + BitVec.ofNat 32 i.val * memPageSize
      next := none }
  baseAddr := startAddr

theorem firstUsed_zero (startAddr : U32) : firstUsed startAddr 0 = initPmalloc startAddr := by
  simp [firstUsed, initPmalloc]

theorem scan_firstUsed (startAddr : U32) {k : Nat} (hk : k < pmallocMaxPage) :
    (scan fun i => ((firstUsed startAddr k).tbl i).flags == 0) = some ⟨k, hk⟩ := by
  apply scan_eq_some_iff.mpr
  refine ⟨?_, ?_⟩
  · simp [firstUsed]
  · intro l hl
    have hlk : l.val < k := hl
    simp [firstUsed, hlk]

theorem pmalloc4kPage_firstUsed (startAddr : U32) {k : Nat} (hk : k < pmallocMaxPage) :
    (firstUsed startAddr k).pmalloc4kPage = some (⟨k, hk⟩, firstUsed startAddr (k + 1)) := by
  rw [pmalloc4kPage, scan_firstUsed startAddr hk, Option.map_some]
  congr 2
  simp only [firstUsed, mk.injEq, and_true]
  funext i
  by_cases heq : i = ⟨k, hk⟩
  · subst heq
    simp
  · have hne : i.val ≠ k := fun h => heq (Fin.ext h)
    have hiff : i.val < k ↔ i.val < k + 1 := by omega
    simp [Function.update_of_ne heq, hiff]

end PMemMan

end Uroboros
