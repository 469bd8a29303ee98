import Uroboros.PageStore
import Uroboros.PMallocMemory
import Mathlib.Tactic.SplitIfs

/-!
# The kernel's memory map

`init_kernel_mem` of `mem.c`, run with paging off on an arbitrary physical
memory, and the translation its page tables implement.
-/

set_option autoImplicit false

namespace Uroboros

open ByteMemory ForLoop

/-- One page taken from the page manager, mapped at `KERNEL_ADDR + 4096 * i` and
filled with page `i` of the image. -/
def relocatePage (cr0 kernel : U32) (i : Nat) (m : Mem) : Mem :=
  let (mem, m) := Flat.pmalloc4k cr0 m
  let m := mapMemory4k m kernelPdt (kernelAddr + memPageSize * BitVec.ofNat 32 i) mem
  forLoop (fun j m => store8 m (mem + BitVec.ofNat 32 j)
    (m (kernel + (memPageSize * BitVec.ofNat 32 i + BitVec.ofNat 32 j)))) memPageSize.toNat m

/-- `n` consecutive pages at `virtualAddr` onto `n` consecutive frames. -/
def mapPages (m : Mem) (virtualAddr physicalAddr : U32) (n : Nat) : Mem :=
  forLoop (fun i m => mapMemory4k m kernelPdt (virtualAddr + memPageSize * BitVec.ofNat 32 i)
    (physicalAddr + memPageSize * BitVec.ofNat 32 i)) n m

def initKernelMem (cr0 : U32) (m : Mem) : Mem :=
  let m := Flat.initPmalloc cr0 m pmallocStart
  let kernel := kernelAddr
  let m := initPageTables m
  let m := forLoop (relocatePage cr0 kernel) (memNpage kernelSize).toNat m
  -- vram
  let m := mapPages m vramAddrV vramAddr (memNpage vramSize).toNat
  -- the page manager itself
  let m := mapPages m pmallocManAddrV pmallocManAddrP (memNpage Flat.sizeofPMemMan).toNat
  -- the directory, and the page tables
  let m := mapMemory4k m kernelPdt kernelPdt kernelPdt
  let m := mapPages m kernelPdt kernelPdt (memNpage kernelPtSize).toNat
  mapMemory4k m kernelPdt gdtIdtHeadAddr gdtIdtHeadAddr

def InRange (a : U32) (n : Nat) (w : U32) : Prop := a.toNat ≤ w.toNat ∧ w.toNat < a.toNat + n

instance (a : U32) (n : Nat) (w : U32) : Decidable (InRange a n w) :=
  inferInstanceAs (Decidable (_ ∧ _))

/-- The translation that sends `n` bytes from `v` to the bytes from `p`. -/
def overlay (t : U32 → Option U32) (v p : U32) (n : Nat) : U32 → Option U32 := fun w =>
  if InRange v n w then some (p + (w - v)) else t w

theorem remap_eq_overlay (t : U32 → Option U32) {v p : U32}
    (hv : v.toNat % 4096 = 0) (hp : p.toNat % 4096 = 0) : remap t v p = overlay t v p 4096 := by
  funext w
  have hw := w.isLt
  have hpage : pageNumber w = pageNumber v ↔ InRange v 4096 w := by
    rw [← BitVec.toNat_inj, toNat_pageNumber, toNat_pageNumber, InRange]
    omega
  unfold remap overlay
  by_cases h : InRange v 4096 w
  · rw [if_pos h, if_pos (hpage.mpr h)]
    unfold InRange at h
    congr 1
    rw [← BitVec.toNat_inj, frameAddr_or_offset, BitVec.toNat_add, BitVec.toNat_sub]
    omega
  · rw [if_neg h, if_neg (fun e => h (hpage.mp e))]

theorem overlay_zero (t : U32 → Option U32) (v p : U32) : overlay t v p 0 = t := by
  funext w
  have h : ¬ InRange v 0 w := by unfold InRange; omega
  simp [overlay, h]

theorem overlay_succ (t : U32 → Option U32) {v p : U32} {i : Nat}
    (hva : v.toNat + 4096 * (i + 1) ≤ 2 ^ 32) :
    overlay (overlay t v p (4096 * i)) (v + memPageSize * BitVec.ofNat 32 i)
        (p + memPageSize * BitVec.ofNat 32 i) 4096 = overlay t v p (4096 * (i + 1)) := by
  funext w
  have hw := w.isLt
  have ha : (v + memPageSize * BitVec.ofNat 32 i).toNat = v.toNat + 4096 * i := by
    unfold memPageSize
    bv_omega
  have hnext : InRange v (4096 * (i + 1)) w ↔
      InRange (v + memPageSize * BitVec.ofNat 32 i) 4096 w ∨ InRange v (4096 * i) w := by
    unfold InRange
    omega
  have hsame : p + memPageSize * BitVec.ofNat 32 i + (w - (v + memPageSize * BitVec.ofNat 32 i)) =
      p + (w - v) := by
    bv_omega
  unfold overlay
  by_cases hlast : InRange (v + memPageSize * BitVec.ofNat 32 i) 4096 w
  · rw [if_pos hlast, if_pos (hnext.mpr (Or.inl hlast)), hsame]
  · by_cases hold : InRange v (4096 * i) w
    · rw [if_neg hlast, if_pos hold, if_pos (hnext.mpr (Or.inr hold))]
    · rw [if_neg hlast, if_neg hold, if_neg (fun e => (hnext.mp e).elim hlast hold)]

/-- What a mapping loop guarantees: the tables stay well formed, the walk gains a range, and
nothing outside the tables changes. -/
structure Maps (m m' : Mem) (v p : U32) (n : Nat) : Prop where
  tables : Tables m'
  walk : walk m' kernelPdt = overlay (walk m kernelPdt) v p n
  frame : ∀ x, ¬ InTables x → m' x = m x

theorem mapMemory4k_maps {m : Mem} (h : Tables m) {v p : U32}
    (hv : v.toNat % 4096 = 0) (hp : p.toNat % 4096 = 0) :
    Maps m (mapMemory4k m kernelPdt v p) v p 4096 where
  tables := mapMemory4k_tables h v p
  walk := (walk_mapMemory4k h v p).trans (remap_eq_overlay _ hv hp)
  frame _ hx := mapMemory4k_frame m v p hx

theorem toNat_pageStep {a : U32} {i : Nat} (h : a.toNat + 4096 * i < 2 ^ 32) :
    (a + memPageSize * BitVec.ofNat 32 i).toNat = a.toNat + 4096 * i := by
  unfold memPageSize
  bv_omega

theorem mapPages_maps {m : Mem} (h : Tables m) {v p : U32} {n : Nat}
    (hva : v.toNat % 4096 = 0) (hpa : p.toNat % 4096 = 0)
    (hvn : v.toNat + 4096 * n ≤ 2 ^ 32) (hpn : p.toNat + 4096 * n ≤ 2 ^ 32) :
    Maps m (mapPages m v p n) v p (4096 * n) := by
  apply forLoop_invariant (fun i t => Maps m t v p (4096 * i))
  · exact ⟨h, (overlay_zero _ v p).symm, fun _ _ => rfl⟩
  · intro i t hi ht
    have hv := toNat_pageStep (a := v) (i := i) (by omega)
    have hp := toNat_pageStep (a := p) (i := i) (by omega)
    have hstep := mapMemory4k_maps ht.tables (v := v + memPageSize * BitVec.ofNat 32 i)
      (p := p + memPageSize * BitVec.ofNat 32 i) (by omega) (by omega)
    refine ⟨hstep.tables, ?_, fun x hx => (hstep.frame x hx).trans (ht.frame x hx)⟩
    rw [hstep.walk, ht.walk, overlay_succ _ (by omega)]

theorem copyLoop_spec (m : Mem) (dst src : U32) (n : Nat)
    (hdst : dst.toNat + n ≤ 2 ^ 32) (hsrc : src.toNat + n ≤ 2 ^ 32)
    (apart : src.toNat + n ≤ dst.toNat ∨ dst.toNat + n ≤ src.toNat) :
    let m' := forLoop (fun j m =>
      store8 m (dst + BitVec.ofNat 32 j) (m (src + BitVec.ofNat 32 j))) n m
    (∀ x, ¬ InRange dst n x → m' x = m x) ∧
      ∀ j < n, m' (dst + BitVec.ofNat 32 j) = m (src + BitVec.ofNat 32 j) := by
  apply forLoop_invariant (fun (i : Nat) (t : Mem) => (∀ x, ¬ InRange dst n x → t x = m x) ∧
    ∀ j < i, t (dst + BitVec.ofNat 32 j) = m (src + BitVec.ofNat 32 j))
  · exact ⟨fun _ _ => rfl, fun j hj => absurd hj (Nat.not_lt_zero j)⟩
  · intro i t hi ⟨hframe, hcopied⟩
    have hsi : ¬ InRange dst n (src + BitVec.ofNat 32 i) := by
      unfold InRange
      bv_omega
    refine ⟨fun x hx => ?_, fun j hj => ?_⟩
    · rw [store8_ne, hframe x hx]
      rintro rfl
      apply hx
      unfold InRange
      bv_omega
    · by_cases heq : j = i
      · subst j
        rw [store8_same, hframe _ hsi]
      · rw [store8_ne, hcopied j (by omega)]
        bv_omega

/-- The state of the copy loop of `init_kernel_mem` after `i` pages, from memory `m`. -/
structure Relocated (m t : Mem) (i : Nat) : Prop where
  tables : Tables t
  manager : Flat.Repr t (PMemMan.firstUsed pmallocStart i)
  walk : walk t kernelPdt = overlay (fun _ => none) kernelAddr pmallocStart (4096 * i)
  copied : ∀ j < 4096 * i, t (pmallocStart + BitVec.ofNat 32 j) = m (kernelAddr + BitVec.ofNat 32 j)
  image : ∀ x, InRange kernelAddr (4096 * 1024) x → t x = m x

theorem relocatePage_eq {t : Mem} {i : Nat} (cr0 : U32) {mem : U32}
    (hmem : (Flat.pmalloc4k cr0 t).1 = mem) :
    relocatePage cr0 kernelAddr i t =
      let src := kernelAddr + memPageSize * BitVec.ofNat 32 i
      forLoop (fun j m => store8 m (mem + BitVec.ofNat 32 j) (m (src + BitVec.ofNat 32 j))) 4096
        (mapMemory4k (Flat.pmalloc4k cr0 t).2 kernelPdt src mem) := by
  subst hmem
  simp only [relocatePage, BitVec.add_assoc]
  rfl

/-- What a pass of the loop does: the page at `src` is copied to the new frame `dst` and mapped
there. -/
structure PagePlaced (t t' : Mem) (i : Nat) (src dst : U32) : Prop where
  tables : Tables t'
  manager : Flat.Repr t' (PMemMan.firstUsed pmallocStart (i + 1))
  walk : walk t' kernelPdt = overlay (walk t kernelPdt) src dst 4096
  frame : ∀ x, ¬ Flat.InManager x → ¬ InTables x → ¬ InRange dst 4096 x → t' x = t x
  page : ∀ j < 4096, t' (dst + BitVec.ofNat 32 j) = t (src + BitVec.ofNat 32 j)

theorem relocatePage_placed {t : Mem} {i : Nat} (cr0 : U32) (hi : i < 1024) (ht : Tables t)
    (hman : Flat.Repr t (PMemMan.firstUsed pmallocStart i)) :
    PagePlaced t (relocatePage cr0 kernelAddr i t) i
      (kernelAddr + memPageSize * BitVec.ofNat 32 i)
      (pmallocStart + memPageSize * BitVec.ofNat 32 i) := by
  have hmax : i < pmallocMaxPage := Nat.lt_trans hi (by decide)
  obtain ⟨hframe, hmanager⟩ := Flat.pmalloc4k_firstUsed hmax hman cr0
  have hmem : (Flat.pmalloc4k cr0 t).1 = pmallocStart + memPageSize * BitVec.ofNat 32 i :=
    hframe.trans (by rw [BitVec.mul_comm])
  have hstart : pmallocStart.toNat = 0x1000000 := rfl
  have hkernel : kernelAddr.toNat = 0x100000 := rfl
  have hdst := toNat_pageStep (a := pmallocStart) (i := i) (by omega)
  have hsrc := toNat_pageStep (a := kernelAddr) (i := i) (by omega)
  rw [relocatePage_eq cr0 hmem]
  generalize pmallocStart + memPageSize * BitVec.ofNat 32 i = dst at hdst ⊢
  generalize kernelAddr + memPageSize * BitVec.ofNat 32 i = src at hsrc ⊢
  -- the three writers in turn: the manager, the tables, the new frame
  have hunused : ∀ x, ¬ Flat.InManager x → (Flat.pmalloc4k cr0 t).2 x = t x :=
    fun x hx => Flat.pmalloc4k_frame cr0 t hx
  have htables : ∀ x, InTables x → t x = (Flat.pmalloc4k cr0 t).2 x := by
    intro x hx
    refine (hunused x ?_).symm
    unfold InTables at hx
    unfold Flat.InManager
    omega
  have hmap := mapMemory4k_maps (ht.congr htables) (v := src) (p := dst) (by omega) (by omega)
  obtain ⟨hkeep, hcopy⟩ := copyLoop_spec (mapMemory4k (Flat.pmalloc4k cr0 t).2 kernelPdt src dst)
    dst src 4096 (by omega) (by omega) (by omega)
  dsimp only at hkeep hcopy ⊢
  generalize forLoop _ 4096 _ = t' at hkeep hcopy ⊢
  have hagree : ∀ x, InTables x →
      mapMemory4k (Flat.pmalloc4k cr0 t).2 kernelPdt src dst x = t' x := by
    intro x hx
    refine (hkeep x ?_).symm
    unfold InTables at hx
    unfold InRange
    omega
  constructor
  · exact hmap.tables.congr hagree
  · apply hmanager.congr
    intro x hx
    unfold Flat.InManager at hx
    rw [hkeep x (by unfold InRange; omega), hmap.frame x (by unfold InTables; omega)]
  · funext w
    rw [walk_congr hagree hmap.tables, hmap.walk, funext (walk_congr htables ht)]
  · intro x h1 h2 h3
    rw [hkeep x h3, hmap.frame x h2, hunused x h1]
  · intro j hj
    rw [hcopy j hj, hmap.frame, hunused]
    · unfold Flat.InManager
      bv_omega
    · unfold InTables
      bv_omega

theorem relocatePage_relocated {m t : Mem} {i : Nat} (cr0 : U32) (hi : i < 1024)
    (h : Relocated m t i) : Relocated m (relocatePage cr0 kernelAddr i t) (i + 1) := by
  have hplaced := relocatePage_placed cr0 hi h.tables h.manager
  generalize relocatePage cr0 kernelAddr i t = t' at hplaced ⊢
  have hstart : pmallocStart.toNat = 0x1000000 := rfl
  have hkernel : kernelAddr.toNat = 0x100000 := rfl
  have hdst := toNat_pageStep (a := pmallocStart) (i := i) (by omega)
  refine ⟨hplaced.tables, hplaced.manager, ?_, ?_, ?_⟩
  · rw [hplaced.walk, h.walk, overlay_succ _ (by omega)]
  · intro j hj
    by_cases hlt : j < 4096 * i
    · rw [← h.copied j hlt]
      apply hplaced.frame
      · unfold Flat.InManager
        bv_omega
      · unfold InTables
        bv_omega
      · unfold InRange
        bv_omega
    · have hjump : ∀ a : U32, a + memPageSize * BitVec.ofNat 32 i + BitVec.ofNat 32 (j - 4096 * i) =
          a + BitVec.ofNat 32 j := by
        intro a
        unfold memPageSize
        bv_omega
      have hlast := hplaced.page (j - 4096 * i) (by omega)
      rw [hjump, hjump] at hlast
      rw [hlast, h.image]
      unfold InRange
      bv_omega
  · intro x hx
    rw [← h.image x hx]
    unfold InRange at hx
    apply hplaced.frame
    · unfold Flat.InManager
      omega
    · unfold InTables
      omega
    · unfold InRange
      omega

theorem initKernelMem_relocated (cr0 : U32) (m : Mem) :
    Relocated m (forLoop (relocatePage cr0 kernelAddr) 1024
      (initPageTables (Flat.initPmalloc cr0 m pmallocStart))) 1024 := by
  obtain ⟨htframe, -, -⟩ := initPageTables_spec (Flat.initPmalloc cr0 m pmallocStart)
  apply forLoop_invariant (fun (i : Nat) (t : Mem) => Relocated m t i)
  · constructor
    · exact initPageTables_tables _
    · rw [PMemMan.firstUsed_zero]
      apply (Flat.initPmalloc_repr cr0 m pmallocStart).congr
      intro x hx
      apply htframe
      unfold Flat.InManager at hx
      unfold InTables
      omega
    · rw [overlay_zero]
      funext v
      exact walk_initPageTables _ v
    · exact fun j hj => absurd hj (Nat.not_lt_zero j)
    · intro x hx
      have hkernel : kernelAddr.toNat = 0x100000 := rfl
      unfold InRange at hx
      rw [htframe x (by unfold InTables; omega),
        Flat.initPmalloc_frame cr0 m pmallocStart (by unfold Flat.InManager; omega)]
  · exact fun i t hi ht => relocatePage_relocated cr0 hi ht

/-- The translation `init_kernel_mem` leaves behind. -/
def kernelMap (w : U32) : Option U32 :=
  if w.toNat < 0x10000 then some (vramAddr + w)
  else if 0x100000 ≤ w.toNat ∧ w.toNat < 0x500000 then some (pmallocStart + (w - kernelAddr))
  else if 0x500000 ≤ w.toNat ∧ w.toNat < 0x900000 then some w
  else if 0x901000 ≤ w.toNat ∧ w.toNat < 0xf02000 then some w
  else none

theorem kernelMap_eq : kernelMap =
    overlay (overlay (overlay (overlay (overlay (overlay (fun _ => none)
      kernelAddr pmallocStart (4096 * 1024)) vramAddrV vramAddr (4096 * 16))
      pmallocManAddrV pmallocManAddrP (4096 * 1537)) kernelPdt kernelPdt 4096)
      kernelPdt kernelPdt (4096 * 1024)) gdtIdtHeadAddr gdtIdtHeadAddr 4096 := by
  funext w
  have h1 : kernelAddr.toNat = 0x100000 := rfl
  have h2 : vramAddrV.toNat = 0 := rfl
  have h3 : pmallocManAddrV.toNat = 0x901000 := rfl
  have h4 : kernelPdt.toNat = 0x500000 := rfl
  have h5 : gdtIdtHeadAddr.toNat = 0xf00000 := rfl
  have hid : ∀ a : U32, a + (w - a) = w := fun a => by bv_omega
  have hzero : w - vramAddrV = w := BitVec.sub_zero w
  have hman : pmallocManAddrP + (w - pmallocManAddrV) = w := hid _
  simp only [kernelMap, overlay, InRange, h1, h2, h3, h4, h5, hid, hzero, hman]
  split_ifs <;> first | rfl | omega

structure KernelMapped (m t : Mem) : Prop where
  tables : Tables t
  manager : Flat.Repr t (PMemMan.firstUsed pmallocStart 1024)
  walk : walk t kernelPdt = kernelMap
  copied : ∀ j < 0x400000, t (pmallocStart + BitVec.ofNat 32 j) = m (kernelAddr + BitVec.ofNat 32 j)

theorem initKernelMem_mapped (cr0 : U32) (m : Mem) : KernelMapped m (initKernelMem cr0 m) := by
  have hk := initKernelMem_relocated cr0 m
  have hn1 : (memNpage kernelSize).toNat = 1024 := by decide
  have hn2 : (memNpage vramSize).toNat = 16 := by decide
  have hn3 : (memNpage Flat.sizeofPMemMan).toNat = 1537 := by decide
  have hn4 : (memNpage kernelPtSize).toNat = 1024 := by decide
  simp only [initKernelMem, hn1, hn2, hn3, hn4]
  generalize forLoop (relocatePage cr0 kernelAddr) 1024 _ = t0 at hk ⊢
  have s1 := mapPages_maps hk.tables (v := vramAddrV) (p := vramAddr) (n := 16)
    (by decide) (by decide) (by decide) (by decide)
  generalize mapPages t0 vramAddrV vramAddr 16 = t1 at s1 ⊢
  have s2 := mapPages_maps s1.tables (v := pmallocManAddrV) (p := pmallocManAddrP) (n := 1537)
    (by decide) (by decide) (by decide) (by decide)
  generalize mapPages t1 pmallocManAddrV pmallocManAddrP 1537 = t2 at s2 ⊢
  have s3 := mapMemory4k_maps s2.tables (v := kernelPdt) (p := kernelPdt) (by decide) (by decide)
  generalize mapMemory4k t2 kernelPdt kernelPdt kernelPdt = t3 at s3 ⊢
  have s4 := mapPages_maps s3.tables (v := kernelPdt) (p := kernelPdt) (n := 1024)
    (by decide) (by decide) (by decide) (by decide)
  generalize mapPages t3 kernelPdt kernelPdt 1024 = t4 at s4 ⊢
  have s5 := mapMemory4k_maps s4.tables (v := gdtIdtHeadAddr) (p := gdtIdtHeadAddr)
    (by decide) (by decide)
  generalize mapMemory4k t4 kernelPdt gdtIdtHeadAddr gdtIdtHeadAddr = t5 at s5 ⊢
  have hframe : ∀ x, ¬ InTables x → t5 x = t0 x := fun x hx =>
    (s5.frame x hx).trans ((s4.frame x hx).trans ((s3.frame x hx).trans
      ((s2.frame x hx).trans (s1.frame x hx))))
  refine ⟨s5.tables, ?_, ?_, ?_⟩
  · apply hk.manager.congr
    intro x hx
    apply hframe
    unfold Flat.InManager at hx
    unfold InTables
    omega
  · rw [s5.walk, s4.walk, s3.walk, s2.walk, s1.walk, hk.walk, kernelMap_eq]
  · intro j hj
    rw [← hk.copied j (by omega)]
    apply hframe
    unfold InTables pmallocStart
    bv_omega

/-- The relocated image: every byte of the kernel is reached at its old address. -/
theorem initKernelMem_preserves_image (cr0 : U32) (m : Mem) (off : U32) (h : off < kernelSize) :
    ∃ p, walk (initKernelMem cr0 m) kernelPdt (kernelAddr + off) = some p ∧
      initKernelMem cr0 m p = m (kernelAddr + off) := by
  have hm := initKernelMem_mapped cr0 m
  have hoff : off.toNat < 0x400000 := h
  refine ⟨pmallocStart + off, ?_, ?_⟩
  · rw [hm.walk, kernelMap, if_neg, if_pos]
    · congr 1
      bv_omega
    · unfold kernelAddr
      bv_omega
    · unfold kernelAddr
      bv_omega
  · have hcopied := hm.copied off.toNat hoff
    rwa [BitVec.ofNat_toNat, BitVec.setWidth_eq] at hcopied

theorem initKernelMem_preserves_last_byte :
    ∃ p, walk (initKernelMem 0 fun _ => 0x90) kernelPdt (kernelAddr + 0x3fffff#32) = some p ∧
      initKernelMem 0 (fun _ => 0x90) p = 0x90 :=
  initKernelMem_preserves_image 0 (fun _ => 0x90) 0x3fffff#32 (by decide)

theorem kernelMap_of_inWindow {a : U32} (h : 0x500000 ≤ a.toNat ∧ a.toNat < 0x900000) :
    kernelMap a = some a := by
  rw [kernelMap, if_neg (by omega), if_neg (by omega), if_pos h]

/-- The table of the last 4 MB is the one page of the tables left out of the map. -/
theorem kernelMap_lastTable {a : U32} (h : 0x900000 ≤ a.toNat ∧ a.toNat < 0x901000) :
    kernelMap a = none := by
  rw [kernelMap, if_neg (by omega), if_neg (by omega), if_neg (by omega), if_neg (by omega)]

/-- `map_memory_4k` reaches both its cells through the tables exactly below the last 4 MB. -/
theorem walk_cells_iff (cr0 : U32) (m : Mem) (v : U32) :
    (walk (initKernelMem cr0 m) kernelPdt (pdeAddr v) = some (pdeAddr v) ∧
      walk (initKernelMem cr0 m) kernelPdt (pteAddr v) = some (pteAddr v)) ↔ v < 0xFFC00000#32 := by
  have hpde := pdeAddr_inTables (v := v)
  have hpte := toNat_pteAddr v
  rw [(initKernelMem_mapped cr0 m).walk, kernelMap_of_inWindow ⟨hpde.1, by omega⟩]
  constructor
  · rintro ⟨-, hcell⟩
    by_contra hv
    have hlast : kernelMap (pteAddr v) = none := by
      apply kernelMap_lastTable
      rw [hpte]
      bv_omega
    rw [hlast] at hcell
    exact absurd hcell (by simp)
  · intro hv
    refine ⟨rfl, kernelMap_of_inWindow ?_⟩
    rw [hpte]
    bv_omega

theorem walk_cells_last_faults :
    ¬ (walk (initKernelMem 0 fun _ => 0) kernelPdt (pdeAddr 0xFFC00000#32) =
        some (pdeAddr 0xFFC00000#32) ∧
      walk (initKernelMem 0 fun _ => 0) kernelPdt (pteAddr 0xFFC00000#32) =
        some (pteAddr 0xFFC00000#32)) := by
  rw [(initKernelMem_mapped 0 fun _ => 0).walk]
  decide

end Uroboros
