import Uroboros.PMalloc
import Uroboros.Lib.ByteMemory

/-!
# The page manager in memory

The same functions of `mem.c` on the bytes of `P_MEMMAN`, and the proof that
they refine the typed ones. A `P_MEM_PAGE` takes twelve bytes: `flags`, three
bytes of padding, `addr`, `next`; `base_addr` follows the table.
-/

set_option autoImplicit false

namespace Uroboros.Flat

open ByteMemory ForLoop

def getPagingStatus (cr0 : U32) : Bool := (cr0 &&& cr0FlagPg) != 0

def getPhyMemman (cr0 : U32) : U32 :=
  if getPagingStatus cr0 then pmallocManAddrV else pmallocManAddrP

def sizeofPMemPage : U32 := 12

def baseAddrOffset : U32 := sizeofPMemPage * BitVec.ofNat 32 pmallocMaxPage

def sizeofPMemMan : U32 := baseAddrOffset + 4

/-- The address of `memman->tbl[i]`. -/
def pageAddr (memman : U32) (i : Nat) : U32 := memman + sizeofPMemPage * BitVec.ofNat 32 i

def initPage (memman : U32) (i : Nat) (m : Mem) : Mem :=
  let page := pageAddr memman i
  let m := store8 m page 0
  let m := store32 m (page + 4#32)
    (load32 m (memman + baseAddrOffset) + BitVec.ofNat 32 i * memPageSize)
  store32 m (page + 8#32) 0

def initPmalloc (cr0 : U32) (m : Mem) (startAddr : U32) : Mem :=
  let memman := getPhyMemman cr0
  let m := store32 m (memman + baseAddrOffset) startAddr
  forLoop (initPage memman) pmallocMaxPage m

/-- The page record found free and marked used, `0` when there is none. -/
def pmalloc4kPage (cr0 : U32) (m : Mem) : U32 × Mem :=
  let memman := getPhyMemman cr0
  match scan fun i : PPtr => m (pageAddr memman i.val) == 0 with
  | some i => (pageAddr memman i.val, store8 m (pageAddr memman i.val) 1)
  | none => (0, m)

def pmalloc4k (cr0 : U32) (m : Mem) : U32 × Mem :=
  let (page, m) := pmalloc4kPage cr0 m
  (load32 m (page + 4#32), m)

@[simp] theorem getPhyMemman_eq (cr0 : U32) : getPhyMemman cr0 = pmallocManAddrP := by
  unfold getPhyMemman
  split <;> rfl

theorem toNat_pageAddr (i : PPtr) :
    (pageAddr pmallocManAddrP i.val).toNat = 0x901000 + 12 * i.val := by
  have hi : i.val < 524288 := i.isLt
  simp only [pageAddr, pmallocManAddrP, sizeofPMemPage]
  bv_omega

theorem toNat_baseAddr : (pmallocManAddrP + baseAddrOffset).toNat = 0x901000 + 12 * 524288 := rfl

def InManager (x : U32) : Prop := 0x901000 ≤ x.toNat ∧ x.toNat < 0xf01004

def pointer : Option PPtr → U32
  | some i => pageAddr pmallocManAddrP i.val
  | none => 0

/-- The memory holds the manager `man` at `PMALLOC_MAN_ADDR`. -/
structure Repr (m : Mem) (man : PMemMan) : Prop where
  flags : ∀ i : PPtr, m (pageAddr pmallocManAddrP i.val) = (man.tbl i).flags
  addr : ∀ i : PPtr, load32 m (pageAddr pmallocManAddrP i.val + 4#32) = (man.tbl i).addr
  next : ∀ i : PPtr, load32 m (pageAddr pmallocManAddrP i.val + 8#32) = pointer (man.tbl i).next
  base : load32 m (pmallocManAddrP + baseAddrOffset) = man.baseAddr

theorem toNat_field {i : PPtr} {n : Nat} (hn : n ≤ 8) :
    (pageAddr pmallocManAddrP i.val + BitVec.ofNat 32 n).toNat = 0x901000 + 12 * i.val + n := by
  have hi : i.val < 524288 := i.isLt
  have hp := toNat_pageAddr i
  rw [BitVec.toNat_add, hp, BitVec.toNat_ofNat]
  omega

theorem Repr.congr {m m' : Mem} {man : PMemMan} (h : Repr m man)
    (agree : ∀ x, InManager x → m' x = m x) : Repr m' man := by
  have hword : ∀ a : U32, 0x901000 ≤ a.toNat → a.toNat + 4 ≤ 0xf01004 → load32 m' a = load32 m a :=
    fun a hlo hhi => load32_congr_on _ _ (fun x h1 h2 => agree x ⟨h1, h2⟩) hlo hhi (by omega)
  constructor
  · intro i
    have hi : i.val < 524288 := i.isLt
    have hp := toNat_pageAddr i
    rw [agree _ ⟨by omega, by omega⟩]
    exact h.flags i
  · intro i
    have hi : i.val < 524288 := i.isLt
    have hp := toNat_field (i := i) (n := 4) (by omega)
    rw [← h.addr i]
    exact hword _ (by omega) (by omega)
  · intro i
    have hi : i.val < 524288 := i.isLt
    have hp := toNat_field (i := i) (n := 8) (by omega)
    rw [← h.next i]
    exact hword _ (by omega) (by omega)
  · have hb := toNat_baseAddr
    rw [← h.base]
    exact hword _ (by omega) (by omega)

theorem initPage_frame (m : Mem) (i : PPtr) {x : U32}
    (hx : x.toNat < 0x901000 + 12 * i.val ∨ 0x901000 + 12 * i.val + 12 ≤ x.toNat) :
    initPage pmallocManAddrP i.val m x = m x := by
  have hi : i.val < 524288 := i.isLt
  have hp := toNat_pageAddr i
  have h4 := toNat_field (i := i) (n := 4) (by omega)
  have h8 := toNat_field (i := i) (n := 8) (by omega)
  rw [initPage, store32_frame _ _ (by omega) (by omega), store32_frame _ _ (by omega) (by omega)]
  apply store8_ne
  rw [ne_eq, ← BitVec.toNat_inj]
  omega

theorem initPage_fields (m : Mem) (i : PPtr) :
    let m' := initPage pmallocManAddrP i.val m
    let page := pageAddr pmallocManAddrP i.val
    m' page = 0 ∧
      load32 m' (page + 4#32) =
        load32 m (pmallocManAddrP + baseAddrOffset) + BitVec.ofNat 32 i.val * memPageSize ∧
      load32 m' (page + 8#32) = 0 := by
  have hi : i.val < 524288 := i.isLt
  have hp := toNat_pageAddr i
  have h4 := toNat_field (i := i) (n := 4) (by omega)
  have h8 := toNat_field (i := i) (n := 8) (by omega)
  have hb := toNat_baseAddr
  have hbase : load32 (store8 m (pageAddr pmallocManAddrP i.val) 0)
      (pmallocManAddrP + baseAddrOffset) = load32 m (pmallocManAddrP + baseAddrOffset) := by
    apply load32_congr_on (0x901000 + 12 * i.val + 12) (2 ^ 32)
    · intro x hx _
      apply store8_ne
      rw [ne_eq, ← BitVec.toNat_inj]
      omega
    · omega
    · omega
    · omega
  refine ⟨?_, ?_, load32_store32_same ..⟩
  · rw [initPage, store32_frame _ _ (by omega) (by omega), store32_frame _ _ (by omega) (by omega),
      store8_same]
  · rw [initPage, load32_store32_disjoint _ _ (by omega) (by omega) (by omega),
      load32_store32_same, hbase]

structure PartlyInit (m t : Mem) (startAddr : U32) (n : Nat) : Prop where
  page : ∀ i : PPtr, i.val < n → t (pageAddr pmallocManAddrP i.val) = 0 ∧
    load32 t (pageAddr pmallocManAddrP i.val + 4#32) =
      startAddr + BitVec.ofNat 32 i.val * memPageSize ∧
    load32 t (pageAddr pmallocManAddrP i.val + 8#32) = 0
  base : load32 t (pmallocManAddrP + baseAddrOffset) = startAddr
  frame : ∀ x, ¬ InManager x → t x = m x

theorem initPage_partlyInit {m t : Mem} {startAddr : U32} (i : PPtr)
    (h : PartlyInit m t startAddr i.val) :
    PartlyInit m (initPage pmallocManAddrP i.val t) startAddr (i.val + 1) := by
  have hi : i.val < 524288 := i.isLt
  have hb := toNat_baseAddr
  obtain ⟨hflags, haddr, hnext⟩ := initPage_fields t i
  constructor
  · intro j hj
    by_cases heq : j = i
    · subst j
      exact ⟨hflags, haddr.trans (by rw [h.base]), hnext⟩
    · have hlt : j.val < i.val := by
        have hne : j.val ≠ i.val := fun e => heq (Fin.ext e)
        omega
      have hp := toNat_pageAddr j
      have h4 := toNat_field (i := j) (n := 4) (by omega)
      have h8 := toNat_field (i := j) (n := 8) (by omega)
      have agree : ∀ x : U32, x.toNat < 0x901000 + 12 * i.val →
          initPage pmallocManAddrP i.val t x = t x := fun x hx => initPage_frame t i (Or.inl hx)
      obtain ⟨h1, h2, h3⟩ := h.page j hlt
      refine ⟨(agree _ (by omega)).trans h1, ?_, ?_⟩
      · rw [← h2]
        exact load32_congr_on 0 _ (fun x _ hx => agree x hx) (Nat.zero_le _) (by omega) (by omega)
      · rw [← h3]
        exact load32_congr_on 0 _ (fun x _ hx => agree x hx) (Nat.zero_le _) (by omega) (by omega)
  · rw [← h.base]
    apply load32_congr_on (0x901000 + 12 * i.val + 12) (2 ^ 32)
    · exact fun x hx _ => initPage_frame t i (Or.inr hx)
    · omega
    · omega
    · omega
  · intro x hx
    rw [initPage_frame t i, h.frame x hx]
    unfold InManager at hx
    omega

theorem initPmalloc_partlyInit (cr0 : U32) (m : Mem) (startAddr : U32) :
    PartlyInit m (initPmalloc cr0 m startAddr) startAddr pmallocMaxPage := by
  have hb := toNat_baseAddr
  rw [initPmalloc, getPhyMemman_eq]
  apply forLoop_invariant (fun i t => PartlyInit m t startAddr i)
  · refine ⟨fun i hi => absurd hi (Nat.not_lt_zero _), load32_store32_same .., fun x hx => ?_⟩
    unfold InManager at hx
    exact store32_frame _ _ (by omega) (by omega)
  · exact fun i t hi ht => initPage_partlyInit ⟨i, hi⟩ ht

theorem initPmalloc_repr (cr0 : U32) (m : Mem) (startAddr : U32) :
    Repr (initPmalloc cr0 m startAddr) (PMemMan.initPmalloc startAddr) := by
  have h := initPmalloc_partlyInit cr0 m startAddr
  exact ⟨fun i => (h.page i i.isLt).1, fun i => (h.page i i.isLt).2.1,
    fun i => (h.page i i.isLt).2.2, h.base⟩

theorem initPmalloc_frame (cr0 : U32) (m : Mem) (startAddr : U32) {x : U32} (hx : ¬ InManager x) :
    initPmalloc cr0 m startAddr x = m x := (initPmalloc_partlyInit cr0 m startAddr).frame x hx

theorem pmalloc4kPage_frame (cr0 : U32) (m : Mem) {x : U32} (hx : ¬ InManager x) :
    (pmalloc4kPage cr0 m).2 x = m x := by
  simp only [pmalloc4kPage, getPhyMemman_eq]
  split
  · rename_i i _
    have hi : i.val < 524288 := i.isLt
    have hp := toNat_pageAddr i
    apply store8_ne
    rintro rfl
    exact hx ⟨by omega, by omega⟩
  · rfl

theorem Repr.store_flags {m : Mem} {man : PMemMan} (h : Repr m man) (j : PPtr) (f : U8) :
    Repr (store8 m (pageAddr pmallocManAddrP j.val) f)
      { man with tbl := Function.update man.tbl j { man.tbl j with flags := f } } := by
  have hji : j.val < 524288 := j.isLt
  have hja := toNat_pageAddr j
  have hword : ∀ a : U32, a.toNat + 4 ≤ 2 ^ 32 →
      a.toNat + 4 ≤ 0x901000 + 12 * j.val ∨ 0x901000 + 12 * j.val < a.toNat →
      load32 (store8 m (pageAddr pmallocManAddrP j.val) f) a = load32 m a := by
    intro a ha hne
    apply load32_congr
    intro k hk
    apply store8_ne
    rw [ne_eq, ← BitVec.toNat_inj, hja, BitVec.toNat_add, BitVec.toNat_ofNat]
    omega
  constructor
  · intro l
    by_cases hlj : l = j
    · subst l
      simp [store8_same]
    · have hla := toNat_pageAddr l
      have hne : l.val ≠ j.val := fun h => hlj (Fin.ext h)
      rw [store8_ne, h.flags l]
      · simp [Function.update_of_ne hlj]
      · rw [ne_eq, ← BitVec.toNat_inj]
        omega
  · intro l
    have hl : l.val < 524288 := l.isLt
    have hla := toNat_field (i := l) (n := 4) (by omega)
    rw [hword _ (by omega) (by omega), h.addr l]
    by_cases hlj : l = j
    · subst l
      simp
    · simp [Function.update_of_ne hlj]
  · intro l
    have hl : l.val < 524288 := l.isLt
    have hla := toNat_field (i := l) (n := 8) (by omega)
    rw [hword _ (by omega) (by omega), h.next l]
    by_cases hlj : l = j
    · subst l
      simp
    · simp [Function.update_of_ne hlj]
  · rw [hword _ (by rw [toNat_baseAddr]; omega) (by rw [toNat_baseAddr]; omega)]
    exact h.base

/-- The scan over the bytes allocates what the typed manager allocates. -/
theorem pmalloc4kPage_repr {m : Mem} {man man' : PMemMan} {i : PPtr} (h : Repr m man)
    (halloc : man.pmalloc4kPage = some (i, man')) (cr0 : U32) :
    (pmalloc4kPage cr0 m).1 = pointer (some i) ∧ Repr (pmalloc4kPage cr0 m).2 man' := by
  have hscan : (scan fun j : PPtr => m (pageAddr pmallocManAddrP j.val) == 0) =
      scan fun j => (man.tbl j).flags == 0 := by
    congr 1
    funext j
    rw [h.flags j]
  obtain ⟨j, hj, heq⟩ := Option.map_eq_some_iff.mp halloc
  obtain ⟨rfl, rfl⟩ := Prod.mk.inj heq
  simp only [pmalloc4kPage, getPhyMemman_eq, hscan, hj]
  exact ⟨rfl, h.store_flags j 1⟩

theorem pmalloc4k_firstUsed {m : Mem} {startAddr : U32} {k : Nat} (hk : k < pmallocMaxPage)
    (h : Repr m (PMemMan.firstUsed startAddr k)) (cr0 : U32) :
    (pmalloc4k cr0 m).1 = startAddr + BitVec.ofNat 32 k * memPageSize ∧
      Repr (pmalloc4k cr0 m).2 (PMemMan.firstUsed startAddr (k + 1)) := by
  obtain ⟨hptr, hrepr⟩ := pmalloc4kPage_repr h (PMemMan.pmalloc4kPage_firstUsed startAddr hk) cr0
  refine ⟨?_, hrepr⟩
  change load32 (pmalloc4kPage cr0 m).2 ((pmalloc4kPage cr0 m).1 + 4#32) = _
  rw [hptr]
  exact hrepr.addr ⟨k, hk⟩

theorem pmalloc4k_frame (cr0 : U32) (m : Mem) {x : U32} (hx : ¬ InManager x) :
    (pmalloc4k cr0 m).2 x = m x := pmalloc4kPage_frame cr0 m hx

end Uroboros.Flat
