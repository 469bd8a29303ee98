import Uroboros.VMalloc

/-!
# The prototype of the allocator

`experiment/malloc/memman.c`, the program in which the allocator was tried out and
tested. Its records have no `p_mem`, its sizes are not rounded, and there are no frames
behind its addresses; the constants have the values of `mem.h`.
-/

set_option autoImplicit false

namespace Uroboros.Prototype

open ForLoop

structure VMemBlockInfo where
  flags : U8
  addr : U32
  size : U32
  next : Option BPtr
  prev : Option BPtr

namespace VMemBlockInfo

def InUse (b : VMemBlockInfo) : Prop := b.flags &&& vmemBlocksUse ≠ 0

def Allocated (b : VMemBlockInfo) : Prop := b.flags &&& vmemBlocksAlloc ≠ 0

instance (b : VMemBlockInfo) : Decidable b.InUse := inferInstanceAs (Decidable (¬ _ = _))

instance (b : VMemBlockInfo) : Decidable b.Allocated := inferInstanceAs (Decidable (¬ _ = _))

/-- `init_mem_block`: `addr` keeps its value. -/
def initMemBlock (block : VMemBlockInfo) : VMemBlockInfo :=
  { block with size := 0, flags := 0, next := none, prev := none }

end VMemBlockInfo

structure VMemMan where
  startAddr : U32
  blocks : BPtr → VMemBlockInfo
  entry : BPtr

namespace VMemMan

def modify (memman : VMemMan) (p : BPtr) (f : VMemBlockInfo → VMemBlockInfo) : VMemMan :=
  { memman with blocks := Function.update memman.blocks p (f (memman.blocks p)) }

def initVmalloc (memman : VMemMan) (startAddr endAddr : U32) : VMemMan :=
  let blocks := fun i => (memman.blocks i).initMemBlock
  let m : VMemMan := { startAddr, blocks, entry := firstBlock }
  let m := m.modify firstBlock fun b => { b with flags := b.flags ||| vmemBlocksUse }
  let m := m.modify firstBlock fun b => { b with addr := startAddr }
  m.modify firstBlock fun b => { b with size := endAddr - startAddr }

def getNewBlock (memman : VMemMan) : Option (BPtr × VMemMan) :=
  (scan fun i => (memman.blocks i).flags &&& vmemBlocksUse == 0).map fun i =>
    (i, memman.modify i fun b => { b with flags := b.flags ||| vmemBlocksUse })

/-- The search loop of `vmalloc`; `none` when `fuel` passes do not end it. -/
def findFit (memman : VMemMan) (size : U32) : Nat → BPtr → Option BPtr
  | 0, _ => none
  | fuel + 1, p =>
    (memman.blocks p).next.elim (some p) fun next =>
      if size ≤ (memman.blocks p).size ∧ ¬ (memman.blocks p).Allocated then some p
      else findFit memman size fuel next

/-- The statements that both branches of `vmalloc` repeat. -/
def insertBlock (memman : VMemMan) (p : BPtr) (size : U32) : Except Fault VMemMan :=
  memman.getNewBlock.elim (.error .nullBlock) fun new =>
    let m := new.2.modify new.1 fun b => { b with next := (new.2.blocks p).next }
    let m := m.modify p fun b => { b with next := some new.1 }
    let m := m.modify new.1 fun b => { b with prev := some p }
    let m := m.modify new.1 fun b => { b with size := (m.blocks p).size - size }
    let m := m.modify p fun b => { b with size := size }
    .ok (m.modify new.1 fun b => { b with addr := (m.blocks p).addr + (m.blocks p).size })

def markAllocated (memman : VMemMan) (p : BPtr) : VMemMan :=
  memman.modify p fun b => { b with flags := b.flags ||| vmemBlocksAlloc }

/-- `vmalloc`, where `NULL` is the address 0. -/
def vmalloc (fuel : Nat) (memman : VMemMan) (size : U32) : Except Fault (U32 × VMemMan) :=
  (memman.findFit size fuel memman.entry).elim (.error .diverges) fun p =>
    let marked := memman.markAllocated p
    if (memman.blocks p).next ≠ none then
      if size ≤ (memman.blocks p).size then
        (if size < (marked.blocks p).size then marked.insertBlock p size else .ok marked).map
          fun m => ((m.blocks p).addr, m)
      else .ok (0, memman)
    else if size ≤ (memman.blocks p).size then
      (marked.insertBlock p size).map fun m => ((m.blocks p).addr, m)
    else .ok (0, memman)

/-- The search loop of `vfree`: `some none` when it runs off the list. -/
def findAllocated (memman : VMemMan) (addr : U32) : Nat → Option BPtr → Option (Option BPtr)
  | _, none => some none
  | 0, some _ => none
  | fuel + 1, some p =>
    if (memman.blocks p).addr = addr ∧ (memman.blocks p).Allocated then some (some p)
    else findAllocated memman addr fuel (memman.blocks p).next

/-- The statements with which both halves of `vfree` join block `b` to block `a`. -/
def joinBlocks (memman : VMemMan) (a b : BPtr) : VMemMan :=
  let m := memman.modify a fun r => { r with next := (memman.blocks b).next }
  let m := m.modify a fun r => { r with size := r.size + (m.blocks b).size }
  let m := (m.blocks b).next.elim m fun q => m.modify q fun r => { r with prev := some a }
  m.modify b VMemBlockInfo.initMemBlock

def mergeNext (memman : VMemMan) (p : BPtr) : VMemMan :=
  (memman.blocks p).next.elim memman fun nextBlock =>
    if (memman.blocks nextBlock).Allocated then memman else memman.joinBlocks p nextBlock

def mergePrev (memman : VMemMan) (p : BPtr) : VMemMan :=
  (memman.blocks p).prev.elim memman fun prevBlock =>
    if (memman.blocks prevBlock).Allocated then memman else memman.joinBlocks prevBlock p

def clearAllocated (memman : VMemMan) (p : BPtr) : VMemMan :=
  memman.modify p fun b => { b with flags := b.flags &&& ~~~vmemBlocksAlloc }

def vfree (memman : VMemMan) (fuel : Nat) (addr : U32) : Except Fault VMemMan :=
  (memman.findAllocated addr fuel (some memman.entry)).elim (.error .diverges) fun found =>
    .ok (found.elim memman fun p => ((memman.clearAllocated p).mergeNext p).mergePrev p)

end VMemMan

inductive Request where
  | vmalloc (size : U32)
  | vfree (addr : U32)

/-- What a call returns, if it returns anything, and the state after it. -/
def step (fuel : Nat) (memman : VMemMan) : Request → Except Fault (Option U32 × VMemMan)
  | .vmalloc size => (memman.vmalloc fuel size).map fun r => (some r.1, r.2)
  | .vfree addr => (memman.vfree fuel addr).map fun m => (none, m)

def kernelStep (fuel : Nat) (k : Kernel) : Request → Except Fault (Option U32 × Kernel)
  | .vmalloc size => (k.vmalloc fuel size).map fun r => (some r.1, r.2)
  | .vfree addr => (k.kvfree fuel addr).map fun k => (none, k)

end Uroboros.Prototype
