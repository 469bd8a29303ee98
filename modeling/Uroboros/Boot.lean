import Uroboros.KernelMem

/-!
# The page tables after start-up

`Main` maps the new kernel stack, `init_vmalloc` maps the pages of `V_MEMMAN`
and `task_fdc` maps the floppy buffer. The first runs with paging off. The
others write directory and table cells that `kernelMap` maps to themselves, and
read page records below `VMALLOC_MAN_ADDR`, so they too reach memory directly.
-/

set_option autoImplicit false

namespace Uroboros

open ByteMemory ForLoop

/-- Pass `i` of the loops that take a page and map it at `virtualAddr + 4096 * i`. -/
def mapFreshPage (cr0 virtualAddr : U32) (i : Nat) (m : Mem) : Mem :=
  let (mem, m) := Flat.pmalloc4k cr0 m
  mapMemory4k m kernelPdt (virtualAddr + BitVec.ofNat 32 i * memPageSize) mem

/-- Pass `i` of `Main`'s stack loop, which also keeps the first frame in `new_stack_p`. -/
def mapStackPage (cr0 : U32) (i : Nat) (s : U32 × Mem) : U32 × Mem :=
  (if i = 0 then (Flat.pmalloc4k cr0 s.2).1 else s.1, mapFreshPage cr0 kernelStackTopV i s.2)

def mapStack (cr0 newStackP : U32) (m : Mem) : U32 × Mem :=
  forLoop (mapStackPage cr0) (memNpage kernelStackSize).toNat (newStackP, m)

/-- The mapping loop of `init_vmalloc`. -/
def initVmallocPages (cr0 : U32) (m : Mem) : Mem :=
  forLoop (mapFreshPage cr0 vmallocManAddr) (memNpage sizeofVMemMan).toNat m

/-- `init_kernel_mem` and the mappings that follow it. `newStackP` is the uninitialised local of
`Main`. -/
def bootMem (cr0 newStackP : U32) (m : Mem) : Mem :=
  let m := initKernelMem cr0 m
  let (_, m) := mapStack cr0 newStackP m
  let m := initVmallocPages (cr0 ||| cr0FlagPg) m
  mapMemory4k m kernelPdt fdBufferV fdBufferP

/-- Page tables and page manager as the boot code leaves them, with `k` frames handed out. -/
structure BootState (m : Mem) (k : Nat) (t : U32 → Option U32) : Prop where
  tables : Tables m
  manager : Flat.Repr m (PMemMan.firstUsed pmallocStart k)
  walk : walk m kernelPdt = t

theorem mapFreshPage_state {m : Mem} {k i : Nat} {t : U32 → Option U32} (h : BootState m k t)
    (cr0 : U32) {v : U32} (hk : k < pmallocMaxPage) (hva : v.toNat % 4096 = 0)
    (hvi : v.toNat + 4096 * i < 2 ^ 32) :
    BootState (mapFreshPage cr0 v i m) (k + 1)
      (overlay t (v + memPageSize * BitVec.ofNat 32 i)
        (pmallocStart + memPageSize * BitVec.ofNat 32 k) 4096) := by
  have hmax : k < 524288 := hk
  have hstart : pmallocStart.toNat = 0x1000000 := rfl
  have hv := toNat_pageStep hvi
  have hp := toNat_pageStep (a := pmallocStart) (i := k) (by omega)
  obtain ⟨hframe, hmanager⟩ := Flat.pmalloc4k_firstUsed hk h.manager cr0
  have hagree : ∀ x, InTables x → m x = (Flat.pmalloc4k cr0 m).2 x := by
    intro x hx
    refine (Flat.pmalloc4k_frame cr0 m ?_).symm
    unfold InTables at hx
    unfold Flat.InManager
    omega
  have hmap := mapMemory4k_maps (h.tables.congr hagree)
    (v := v + memPageSize * BitVec.ofNat 32 i)
    (p := pmallocStart + memPageSize * BitVec.ofNat 32 k) (by omega) (by omega)
  have heq : mapFreshPage cr0 v i m = mapMemory4k (Flat.pmalloc4k cr0 m).2 kernelPdt
      (v + memPageSize * BitVec.ofNat 32 i) (pmallocStart + memPageSize * BitVec.ofNat 32 k) := by
    simp only [mapFreshPage, hframe, BitVec.mul_comm memPageSize]
  rw [heq]
  refine ⟨hmap.tables, ?_, ?_⟩
  · apply hmanager.congr
    intro x hx
    apply hmap.frame
    unfold Flat.InManager at hx
    unfold InTables
    omega
  · rw [hmap.walk, funext (walk_congr hagree h.tables), h.walk]

theorem mapFreshPages_state {m : Mem} {k n : Nat} {t : U32 → Option U32} (h : BootState m k t)
    (cr0 : U32) {v : U32} (hk : k + n ≤ pmallocMaxPage) (hva : v.toNat % 4096 = 0)
    (hvn : v.toNat + 4096 * n ≤ 2 ^ 32) :
    BootState (forLoop (mapFreshPage cr0 v) n m) (k + n)
      (overlay t v (pmallocStart + memPageSize * BitVec.ofNat 32 k) (4096 * n)) := by
  have hstart : pmallocStart.toNat = 0x1000000 := rfl
  apply forLoop_invariant (fun (i : Nat) (m' : Mem) => BootState m' (k + i)
    (overlay t v (pmallocStart + memPageSize * BitVec.ofNat 32 k) (4096 * i)))
  · rw [overlay_zero]
    exact h
  · intro i m' hi hm'
    have hstep := mapFreshPage_state hm' cr0 (v := v) (i := i) (by omega) hva (by omega)
    have hpage : pmallocStart + memPageSize * BitVec.ofNat 32 (k + i) =
        pmallocStart + memPageSize * BitVec.ofNat 32 k + memPageSize * BitVec.ofNat 32 i := by
      unfold memPageSize
      bv_omega
    rwa [hpage, overlay_succ _ (by omega)] at hstep

theorem mapStack_snd (cr0 newStackP : U32) (m : Mem) :
    (mapStack cr0 newStackP m).2 =
      forLoop (mapFreshPage cr0 kernelStackTopV) (memNpage kernelStackSize).toNat m := by
  unfold mapStack
  generalize (memNpage kernelStackSize).toNat = n
  induction n with
  | zero => rfl
  | succ n ih =>
    rw [forLoop_succ, forLoop_succ, ← ih]
    rfl

theorem mapStack_state (cr0 newStackP : U32) (m : Mem) :
    BootState (mapStack cr0 newStackP (initKernelMem cr0 m)).2 9216
      (overlay kernelMap kernelStackTopV (pmallocStart + memPageSize * BitVec.ofNat 32 1024)
        (4096 * 8192)) := by
  have hk := initKernelMem_mapped cr0 m
  have hn : (memNpage kernelStackSize).toNat = 8192 := by decide
  rw [mapStack_snd, hn]
  exact mapFreshPages_state ⟨hk.tables, hk.manager, hk.walk⟩ cr0 (by decide) (by decide) (by decide)

/-- The translation after start-up, the latest mapping first. -/
def bootMap (w : U32) : Option U32 :=
  if 0xb01000 ≤ w.toNat ∧ w.toNat < 0xb02000 then some (fdBufferP + (w - fdBufferV))
  else if 0xa01000 ≤ w.toNat ∧ w.toNat < 0xa03000 then some (0x3400000#32 + (w - vmallocManAddr))
  else if 0x1000000 ≤ w.toNat ∧ w.toNat < 0x3000000 then some (0x1400000#32 + (w - kernelStackTopV))
  else kernelMap w

theorem bootMap_eq : bootMap =
    overlay (overlay (overlay kernelMap
      kernelStackTopV (pmallocStart + memPageSize * BitVec.ofNat 32 1024) (4096 * 8192))
      vmallocManAddr (pmallocStart + memPageSize * BitVec.ofNat 32 (1024 + 8192)) (4096 * 2))
      fdBufferV fdBufferP 4096 := by
  funext w
  have h1 : kernelStackTopV.toNat = 0x1000000 := rfl
  have h2 : vmallocManAddr.toNat = 0xa01000 := rfl
  have h3 : fdBufferV.toNat = 0xb01000 := rfl
  have h4 : pmallocStart + memPageSize * BitVec.ofNat 32 1024 = 0x1400000#32 := by decide
  have h5 : pmallocStart + memPageSize * BitVec.ofNat 32 (1024 + 8192) = 0x3400000#32 := by decide
  simp only [bootMap, overlay, InRange, h1, h2, h3, h4, h5]

theorem walk_bootMem (cr0 newStackP : U32) (m : Mem) :
    walk (bootMem cr0 newStackP m) kernelPdt = bootMap := by
  have hn2 : (memNpage sizeofVMemMan).toNat = 2 := by decide
  have s1 := mapStack_state cr0 newStackP m
  have s2 := mapFreshPages_state s1 (cr0 ||| cr0FlagPg) (v := vmallocManAddr) (n := 2)
    (by decide) (by decide) (by decide)
  have s3 := mapMemory4k_maps s2.tables (v := fdBufferV) (p := fdBufferP) (by decide) (by decide)
  simp only [bootMem, initVmallocPages, hn2]
  rw [s3.walk, s2.walk, bootMap_eq]

/-- Byte `k` of `tbl[i]` is reached at its virtual address exactly when it lies on no page that
`V_MEMMAN` or the floppy buffer took over. -/
theorem walk_tbl_iff (cr0 newStackP : U32) (m : Mem) (i : PPtr) (k : Fin 12) :
    walk (bootMem cr0 newStackP m) kernelPdt
          (Flat.pageAddr pmallocManAddrV i.val + BitVec.ofNat 32 k.val) =
        some (Flat.pageAddr pmallocManAddrP i.val + BitVec.ofNat 32 k.val) ↔
      ¬ (0x100000 ≤ 12 * i.val + k.val ∧ 12 * i.val + k.val < 0x102000) ∧
        ¬ (0x200000 ≤ 12 * i.val + k.val ∧ 12 * i.val + k.val < 0x201000) := by
  have hi : i.val < 524288 := i.isLt
  have hk := k.isLt
  have ha : (Flat.pageAddr pmallocManAddrP i.val).toNat = 0x901000 + 12 * i.val :=
    Flat.toNat_pageAddr i
  have hw : (Flat.pageAddr pmallocManAddrP i.val + BitVec.ofNat 32 k.val).toNat =
      0x901000 + (12 * i.val + k.val) := by
    rw [BitVec.toNat_add, ha, BitVec.toNat_ofNat]
    omega
  rw [walk_bootMem, show pmallocManAddrV = pmallocManAddrP from rfl]
  generalize Flat.pageAddr pmallocManAddrP i.val + BitVec.ofNat 32 k.val = w at hw ⊢
  by_cases hfd : 0xb01000 ≤ w.toNat ∧ w.toNat < 0xb02000
  · have hmoved : fdBufferP + (w - fdBufferV) ≠ w := by
      unfold fdBufferP fdBufferV
      bv_omega
    simp only [bootMap, if_pos hfd, Option.some.injEq, hmoved, false_iff]
    omega
  · by_cases hman : 0xa01000 ≤ w.toNat ∧ w.toNat < 0xa03000
    · have hmoved : 0x3400000#32 + (w - vmallocManAddr) ≠ w := by
        unfold vmallocManAddr
        bv_omega
      simp only [bootMap, if_neg hfd, if_pos hman, Option.some.injEq, hmoved, false_iff]
      omega
    · rw [bootMap, if_neg hfd, if_neg hman, if_neg (by omega), kernelMap, if_neg (by omega),
        if_neg (by omega), if_neg (by omega), if_pos (by omega)]
      simp only [true_iff]
      omega

/-- `tbl[87382]` lies on the first page of `V_MEMMAN`. -/
theorem walk_tbl_clash :
    walk (bootMem 0 0 fun _ => 0) kernelPdt (Flat.pageAddr pmallocManAddrV 87382) ≠
      some (Flat.pageAddr pmallocManAddrP 87382) := by
  rw [walk_bootMem]
  decide

end Uroboros
