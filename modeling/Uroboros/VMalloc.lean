import Uroboros.Paging
import Uroboros.PMalloc

/-!
# The virtual memory allocator

`V_MEMMAN` of `mem.c`. A `V_MEM_BLOCKINFO *` is an index into `blocks`, and
`NULL` is `none`. The block records and the page manager are typed; the page
tables are the bytes of physical memory. Each statement of the source that
stores a field is one `modify`, so that aliased pointers behave as in C.
-/

set_option autoImplicit false

namespace Uroboros

open ByteMemory ForLoop

abbrev BPtr := Fin vmemMaxUnits

instance : NeZero vmemMaxUnits := ⟨Nat.succ_ne_zero 255⟩

/-- `&memman->blocks[0]`. -/
def firstBlock : BPtr := 0

def vmemBlocksUse : U8 := 0x01
def vmemBlocksAlloc : U8 := 0x02

@[ext]
structure VMemBlockInfo where
  flags : U8
  addr : U32
  size : U32
  pMem : Option PPtr
  next : Option BPtr
  prev : Option BPtr

namespace VMemBlockInfo

def InUse (b : VMemBlockInfo) : Prop := b.flags &&& vmemBlocksUse ≠ 0

def Allocated (b : VMemBlockInfo) : Prop := b.flags &&& vmemBlocksAlloc ≠ 0

instance (b : VMemBlockInfo) : Decidable b.InUse := inferInstanceAs (Decidable (¬ _ = _))

instance (b : VMemBlockInfo) : Decidable b.Allocated := inferInstanceAs (Decidable (¬ _ = _))

/-- `init_vmem_block`: `addr` and `p_mem` keep their values. -/
def initVmemBlock (block : VMemBlockInfo) : VMemBlockInfo :=
  { block with size := 0, flags := 0, next := none, prev := none }

end VMemBlockInfo

structure VMemMan where
  extentStart : U32
  extentEnd : U32
  pdt : U32
  blocks : BPtr → VMemBlockInfo
  entry : BPtr

def VMemMan.modify (memman : VMemMan) (p : BPtr) (f : VMemBlockInfo → VMemBlockInfo) : VMemMan :=
  { memman with blocks := Function.update memman.blocks p (f (memman.blocks p)) }

/-- What the allocator reads and writes. `V_MEMMAN` is mapped over the page records from 87381 on,
so that the two are apart, as they are here, only while none of those records is taken. -/
structure Kernel where
  vmemman : VMemMan
  pmemman : PMemMan
  mem : Mem

/-- The ways a call goes wrong: an access through a `NULL` block record or page record, and a
loop or recursion that does not end. At `NULL` the call ends here; in the machine address 0 is
mapped, to VRAM, and it goes on over what it finds there. -/
inductive Fault where
  | nullBlock | nullPage | diverges
  deriving DecidableEq

namespace Kernel

def pmalloc4kPage (k : Kernel) : Except Fault (PPtr × Kernel) :=
  match k.pmemman.pmalloc4kPage with
  | none => .error .nullPage
  | some (page, pmemman) => .ok (page, { k with pmemman })

def mapMemory4k (k : Kernel) (virtualAddr physicalAddr : U32) : Kernel :=
  { k with mem := Uroboros.mapMemory4k k.mem kernelPdt virtualAddr physicalAddr }

/-- Pass `i` of the loop that maps the pages of `V_MEMMAN`. -/
def initVmallocPage (i : Nat) (k : Kernel) : Except Fault Kernel := do
  let (page, k) ← k.pmalloc4kPage
  return k.mapMemory4k (vmallocManAddr + BitVec.ofNat 32 i * memPageSize) (k.pmemman.tbl page).addr

def initVmalloc (k : Kernel) (extentStart initExtentEnd pdt : U32) : Except Fault Kernel := do
  let k ← forLoopM initVmallocPage (memNpage sizeofVMemMan).toNat k
  let blocks := fun i => (k.vmemman.blocks i).initVmemBlock
  let memman : VMemMan :=
    { extentStart, extentEnd := initExtentEnd, pdt, blocks, entry := firstBlock }
  let memman := memman.modify firstBlock fun b => { b with flags := b.flags ||| vmemBlocksUse }
  let memman := memman.modify firstBlock fun b => { b with addr := extentStart }
  let memman := memman.modify firstBlock fun b => { b with size := initExtentEnd - extentStart }
  return { k with vmemman := memman }

end Kernel

namespace VMemMan

/-- The first record without `VMEM_BLOCKS_USE`, which it now carries. -/
def getNewBlock (memman : VMemMan) : Option (BPtr × VMemMan) :=
  (scan fun i => (memman.blocks i).flags &&& vmemBlocksUse == 0).map fun i =>
    (i, memman.modify i fun b => { b with flags := b.flags ||| vmemBlocksUse })

/-- The search loop of `vmalloc`; `none` when `fuel` passes do not end it. -/
def findFit (memman : VMemMan) (size : U32) : Nat → BPtr → Option BPtr
  | 0, _ => none
  | fuel + 1, p =>
    match (memman.blocks p).next with
    | none => some p
    | some next =>
      if size ≤ (memman.blocks p).size ∧ ¬ (memman.blocks p).Allocated then some p
      else findFit memman size fuel next

/-- A new record behind `p`, which keeps only `size` bytes. -/
def insertBlock (memman : VMemMan) (p : BPtr) (size : U32) : Except Fault VMemMan :=
  match memman.getNewBlock with
  | none => .error .nullBlock
  | some (newBlock, m) =>
    let m := m.modify newBlock fun b => { b with next := (m.blocks p).next }
    let m := m.modify p fun b => { b with next := some newBlock }
    let m := m.modify newBlock fun b => { b with prev := some p }
    let m := m.modify newBlock fun b => { b with size := (m.blocks p).size - size }
    let m := m.modify p fun b => { b with size := size }
    .ok (m.modify newBlock fun b => { b with addr := (m.blocks p).addr + (m.blocks p).size })

end VMemMan

namespace Kernel

/-- Pass `i + 1` of the loop that backs the pages of block `p`; the state holds `p_mem`. -/
def backNextPage (p : BPtr) (i : Nat) (s : PPtr × Kernel) : Except Fault (PPtr × Kernel) := do
  let (newPage, k) ← s.2.pmalloc4kPage
  let tbl := Function.update k.pmemman.tbl s.1 { k.pmemman.tbl s.1 with next := some newPage }
  let k : Kernel := { k with pmemman := { k.pmemman with tbl } }
  return (newPage, k.mapMemory4k ((k.vmemman.blocks p).addr + memPageSize * BitVec.ofNat 32 (i + 1))
    (k.pmemman.tbl newPage).addr)

/-- Frames for the `size` bytes of block `p`, chained from its `p_mem`. -/
def backBlock (k : Kernel) (p : BPtr) (size : U32) : Except Fault Kernel := do
  let (pMem, k) ← k.pmalloc4kPage
  let k : Kernel := { k with vmemman := k.vmemman.modify p fun b => { b with pMem := some pMem } }
  let k := k.mapMemory4k (k.vmemman.blocks p).addr (k.pmemman.tbl pMem).addr
  let (_, k) ← forLoopM (backNextPage p) ((memNpage size).toNat - 1) (pMem, k)
  return k

/-- The statements that both branches of `vmalloc` repeat to cut `size` bytes off block `p`. -/
def splitBlock (k : Kernel) (p : BPtr) (size : U32) : Except Fault Kernel := do
  let vmemman ← k.vmemman.insertBlock p size
  { k with vmemman }.backBlock p size

def markAllocated (k : Kernel) (p : BPtr) : Kernel :=
  { k with vmemman := k.vmemman.modify p fun b => { b with flags := b.flags ||| vmemBlocksAlloc } }

/-- `vmalloc`; `fuel` bounds the search loop and the recursion at its end. -/
def vmalloc : Nat → Kernel → U32 → Except Fault (U32 × Kernel)
  | 0, _, _ => .error .diverges
  | fuel + 1, k, size =>
    let size := roundup size memPageSize
    match k.vmemman.findFit size fuel k.vmemman.entry with
    | none => .error .diverges
    | some p =>
      if (k.vmemman.blocks p).next ≠ none then
        if size ≤ (k.vmemman.blocks p).size then do
          let marked := k.markAllocated p
          let k' ← if size < (marked.vmemman.blocks p).size then marked.splitBlock p size
            else .ok marked
          return ((k'.vmemman.blocks p).addr, k')
        else vmalloc fuel k size
      else if size ≤ (k.vmemman.blocks p).size then do
        let k' ← (k.markAllocated p).splitBlock p size
        return ((k'.vmemman.blocks p).addr, k')
      else vmalloc fuel k size

end Kernel

namespace VMemMan

/-- The search loop of `vfree`: `some none` when it runs off the list. -/
def findAllocated (memman : VMemMan) (addr : U32) : Nat → Option BPtr → Option (Option BPtr)
  | _, none => some none
  | 0, some _ => none
  | fuel + 1, some p =>
    if (memman.blocks p).addr = addr ∧ (memman.blocks p).Allocated then some (some p)
    else findAllocated memman addr fuel (memman.blocks p).next

/-- The statements with which both halves of `vfree` join block `b` to block `a`. -/
def joinBlocks (memman : VMemMan) (a b : BPtr) : VMemMan :=
  let m := memman.modify a fun r => { r with next := (memman.blocks b).next }
  let m := m.modify a fun r => { r with size := r.size + (m.blocks b).size }
  let m := match (m.blocks b).next with
    | none => m
    | some q => m.modify q fun r => { r with prev := some a }
  m.modify b VMemBlockInfo.initVmemBlock

/-- Join a free block behind `p` to it. -/
def mergeNext (memman : VMemMan) (p : BPtr) : VMemMan :=
  match (memman.blocks p).next with
  | none => memman
  | some nextBlock =>
    if (memman.blocks nextBlock).Allocated then memman else memman.joinBlocks p nextBlock

/-- Join `p` to a free block before it. -/
def mergePrev (memman : VMemMan) (p : BPtr) : VMemMan :=
  match (memman.blocks p).prev with
  | none => memman
  | some prevBlock =>
    if (memman.blocks prevBlock).Allocated then memman else memman.joinBlocks prevBlock p

def clearAllocated (memman : VMemMan) (p : BPtr) : VMemMan :=
  memman.modify p fun b => { b with flags := b.flags &&& ~~~vmemBlocksAlloc }

def vfree (memman : VMemMan) (fuel : Nat) (addr : U32) : Except Fault VMemMan :=
  match memman.findAllocated addr fuel (some memman.entry) with
  | none => .error .diverges
  | some none => .ok memman
  | some (some p) => .ok (((memman.clearAllocated p).mergeNext p).mergePrev p)

end VMemMan

namespace Kernel

def kvmalloc (fuel : Nat) (k : Kernel) (size : U32) : Except Fault (U32 × Kernel) :=
  k.vmalloc fuel size

def kvfree (fuel : Nat) (k : Kernel) (addr : U32) : Except Fault Kernel :=
  (k.vmemman.vfree fuel addr).map fun vmemman => { k with vmemman }

end Kernel

end Uroboros
