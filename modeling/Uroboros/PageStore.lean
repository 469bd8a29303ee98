import Uroboros.Paging

/-!
# The page tables as a store

`Tables` is the invariant of the directory at `KERNEL_PDT` and the 1024 tables
at `KERNEL_PT0`: a directory entry is zero or points at its own table, and the
table of a zero entry is zero. Under it `walk` is an abstract map from pages to
frames, and `map_memory_4k` is the update of that map.
-/

set_option autoImplicit false

namespace Uroboros

open ByteMemory ForLoop

/-- The bytes of the directory and of all page tables. -/
def InTables (x : U32) : Prop := 0x500000 ≤ x.toNat ∧ x.toNat < 0x901000

structure Tables (m : Mem) : Prop where
  pde : ∀ v, load32 m (pdeAddr v) = 0 ∨ load32 m (pdeAddr v) = presentEntry (ptAddr v)
  pte : ∀ v, load32 m (pdeAddr v) = 0 → load32 m (pteAddr v) = 0

def entryTarget (pte v : U32) : Option U32 :=
  if pte &&& pteP = 0 then none else some ((pte &&& pteFrameAddr) ||| (v &&& 0xfff#32))

@[simp] theorem entryTarget_zero (v : U32) : entryTarget 0 v = none := by
  simp [entryTarget]

@[simp] theorem entryTarget_present (a v : U32) :
    entryTarget (presentEntry a) v = some ((a &&& pteFrameAddr) ||| (v &&& 0xfff#32)) := by
  simp [entryTarget]

theorem ptAddr_frame (v : U32) : ptAddr v &&& pteFrameAddr = ptAddr v := by
  rw [← BitVec.toNat_inj, toNat_frameAddr, toNat_ptAddr]
  omega

theorem walk_unfold (m : Mem) (v : U32) :
    walk m kernelPdt v =
      if load32 m (pdeAddr v) &&& pdeP = 0 then none
      else entryTarget (load32 m ((load32 m (pdeAddr v) &&& pdePtAddr) +
        4#32 * ((v >>> 12) &&& 0x3ff#32))) v := rfl

/-- Under the invariant the walk is decided by the table entry alone. -/
theorem walk_eq {m : Mem} (h : Tables m) (v : U32) :
    walk m kernelPdt v = entryTarget (load32 m (pteAddr v)) v := by
  rcases h.pde v with hz | hp
  · rw [walk_unfold, hz, h.pte v hz, entryTarget_zero]
    exact if_pos (by decide)
  · have hpt : presentEntry (ptAddr v) &&& pdePtAddr = ptAddr v :=
      (presentEntry_frame _).trans (ptAddr_frame v)
    have hpresent : presentEntry (ptAddr v) &&& pdeP = 1 := presentEntry_present _
    rw [walk_unfold, hp, hpt, hpresent, if_neg (by decide)]
    rfl

theorem pdeAddr_inTables {v : U32} :
    0x500000 ≤ (pdeAddr v).toNat ∧ (pdeAddr v).toNat + 4 ≤ 0x501000 := by
  have hv := v.isLt
  rw [toNat_pdeAddr]
  omega

theorem pteAddr_inTables {v : U32} :
    0x501000 ≤ (pteAddr v).toNat ∧ (pteAddr v).toNat + 4 ≤ 0x901000 := by
  have hv := v.isLt
  rw [toNat_pteAddr]
  omega

section Frame
variable {m m' : Mem} (agree : ∀ x, InTables x → m x = m' x)
include agree

theorem load_pde_congr (v : U32) : load32 m (pdeAddr v) = load32 m' (pdeAddr v) := by
  have hv := pdeAddr_inTables (v := v)
  exact load32_congr_on _ _ (fun x h1 h2 => agree x ⟨h1, h2⟩) hv.1 (by omega) (by omega)

theorem load_pte_congr (v : U32) : load32 m (pteAddr v) = load32 m' (pteAddr v) := by
  have hv := pteAddr_inTables (v := v)
  exact load32_congr_on _ _ (fun x h1 h2 => agree x ⟨h1, h2⟩) (by omega) hv.2 (by omega)

theorem Tables.congr (h : Tables m) : Tables m' := by
  constructor
  · intro v
    rw [← load_pde_congr agree v]
    exact h.pde v
  · intro v hz
    rw [← load_pde_congr agree v] at hz
    rw [← load_pte_congr agree v]
    exact h.pte v hz

theorem walk_congr (h : Tables m) (v : U32) : walk m' kernelPdt v = walk m kernelPdt v := by
  rw [walk_eq h, walk_eq (h.congr agree), load_pte_congr agree v]

end Frame

theorem mapMemory4k_frame (m : Mem) (v p : U32) {x : U32} (hx : ¬ InTables x) :
    mapMemory4k m kernelPdt v p x = m x := by
  have hd := pdeAddr_inTables (v := v)
  have ht := pteAddr_inTables (v := v)
  unfold InTables at hx
  rw [mapMemory4k_eq, store32_frame _ _ (by omega) (by omega),
    store32_frame _ _ (by omega) (by omega)]

theorem load_pde_mapMemory4k (m : Mem) (v p w : U32) :
    load32 (mapMemory4k m kernelPdt v p) (pdeAddr w) =
      if pdeAddr w = pdeAddr v then presentEntry (ptAddr v) else load32 m (pdeAddr w) := by
  rw [mapMemory4k_eq, load32_store32_ne _ _ (pteAddr_aligned v) (pdeAddr_aligned w)
    (pteAddr_ne_pdeAddr v w).symm]
  split
  · rename_i heq
    rw [heq, load32_store32_same]
  · rename_i hne
    exact load32_store32_ne _ _ (pdeAddr_aligned v) (pdeAddr_aligned w) hne

theorem load_pte_mapMemory4k (m : Mem) (v p w : U32) :
    load32 (mapMemory4k m kernelPdt v p) (pteAddr w) =
      if pageNumber w = pageNumber v then presentEntry p else load32 m (pteAddr w) := by
  rw [mapMemory4k_eq]
  split
  · rename_i heq
    rw [(pteAddr_eq_iff w v).mpr heq, load32_store32_same]
  · rename_i hne
    rw [load32_store32_ne _ _ (pteAddr_aligned v) (pteAddr_aligned w)
        (fun h => hne ((pteAddr_eq_iff w v).mp h)),
      load32_store32_ne _ _ (pdeAddr_aligned v) (pteAddr_aligned w) (pteAddr_ne_pdeAddr w v)]

theorem ptAddr_congr {v w : U32} (h : pdeAddr w = pdeAddr v) : ptAddr w = ptAddr v := by
  have hn := congrArg BitVec.toNat h
  rw [toNat_pdeAddr, toNat_pdeAddr] at hn
  rw [← BitVec.toNat_inj, toNat_ptAddr, toNat_ptAddr]
  omega

theorem pdeAddr_congr {v w : U32} (h : pageNumber w = pageNumber v) : pdeAddr w = pdeAddr v := by
  have hn := congrArg BitVec.toNat h
  rw [toNat_pageNumber, toNat_pageNumber] at hn
  rw [← BitVec.toNat_inj, toNat_pdeAddr, toNat_pdeAddr]
  omega

theorem presentEntry_ne_zero (a : U32) : presentEntry a ≠ 0 := by
  intro h
  have := presentEntry_present a
  rw [h] at this
  exact absurd this (by decide)

theorem mapMemory4k_tables {m : Mem} (h : Tables m) (v p : U32) :
    Tables (mapMemory4k m kernelPdt v p) := by
  constructor
  · intro w
    rw [load_pde_mapMemory4k]
    split
    · rename_i heq
      exact Or.inr (congrArg presentEntry (ptAddr_congr heq).symm)
    · exact h.pde w
  · intro w hz
    rw [load_pde_mapMemory4k] at hz
    split at hz
    · exact absurd hz (presentEntry_ne_zero _)
    · rename_i hne
      rw [load_pte_mapMemory4k, if_neg (fun heq => hne (pdeAddr_congr heq))]
      exact h.pte w hz

/-- The abstract store: the page of `v` now goes to the frame of `p`. -/
def remap (t : U32 → Option U32) (v p : U32) : U32 → Option U32 := fun w =>
  if pageNumber w = pageNumber v then some ((p &&& pteFrameAddr) ||| (w &&& 0xfff#32)) else t w

theorem walk_mapMemory4k {m : Mem} (h : Tables m) (v p : U32) :
    walk (mapMemory4k m kernelPdt v p) kernelPdt = remap (walk m kernelPdt) v p := by
  funext w
  rw [walk_eq (mapMemory4k_tables h v p), load_pte_mapMemory4k, remap]
  split
  · exact entryTarget_present p w
  · exact (walk_eq h w).symm

theorem zeroWords (m : Mem) (base : U32) (n : Nat) (hb : base.toNat + 4 * n ≤ 2 ^ 32) :
    let m' := forLoop (fun i m => store32 m (base + 4#32 * BitVec.ofNat 32 i) 0) n m
    (∀ x : U32, x.toNat < base.toNat ∨ base.toNat + 4 * n ≤ x.toNat → m' x = m x) ∧
      ∀ j < n, load32 m' (base + 4#32 * BitVec.ofNat 32 j) = 0 := by
  have haddr : ∀ i < n, (base + 4#32 * BitVec.ofNat 32 i).toNat = base.toNat + 4 * i := by
    intro i hi
    bv_omega
  apply forLoop_invariant (fun i t =>
    (∀ x : U32, x.toNat < base.toNat ∨ base.toNat + 4 * n ≤ x.toNat → t x = m x) ∧
      ∀ j < i, load32 t (base + 4#32 * BitVec.ofNat 32 j) = 0)
  · exact ⟨fun _ _ => rfl, fun j hj => absurd hj (Nat.not_lt_zero j)⟩
  · intro i t hi ⟨hframe, hzero⟩
    have hia := haddr i hi
    refine ⟨fun x hx => ?_, fun j hj => ?_⟩
    · rw [store32_frame t 0 (by omega) (by omega)]
      exact hframe x hx
    · by_cases heq : j = i
      · subst j
        exact load32_store32_same ..
      · have hja := haddr j (by omega)
        rw [load32_store32_disjoint t 0 (by omega) (by omega) (by omega)]
        exact hzero j (by omega)

/-- The directory and the 1024 tables cleared, as `init_kernel_mem` does first. -/
def initPageTables (m : Mem) : Mem :=
  forLoop (fun i m => initPt m (kernelPt0 + 4#32 * (BitVec.ofNat 32 i * 1024#32))) 1024
    (initPdt m kernelPdt)

theorem initPdt_spec (m : Mem) :
    (∀ x : U32, x.toNat < 0x500000 ∨ 0x501000 ≤ x.toNat → initPdt m kernelPdt x = m x) ∧
      ∀ v, load32 (initPdt m kernelPdt) (pdeAddr v) = 0 := by
  have hbase : kernelPdt.toNat = 0x500000 := rfl
  obtain ⟨hframe, hzero⟩ := zeroWords m kernelPdt 1024 (by omega)
  refine ⟨fun x hx => hframe x (by omega), fun v => ?_⟩
  have hv := v.isLt
  have hidx := toNat_shiftRight v 22
  have hpde : pdeAddr v = kernelPdt + 4#32 * BitVec.ofNat 32 (v >>> 22).toNat := by
    rw [BitVec.ofNat_toNat, BitVec.setWidth_eq]
    rfl
  rw [hpde]
  exact hzero _ (by omega)

theorem initPt_spec (m : Mem) {k : Nat} (hk : k < 1024) :
    let pt := kernelPt0 + 4#32 * (BitVec.ofNat 32 k * 1024#32)
    (∀ x : U32, x.toNat < 0x501000 + 4096 * k ∨ 0x502000 + 4096 * k ≤ x.toNat →
      initPt m pt x = m x) ∧
      ∀ v, v.toNat / 2 ^ 22 = k → load32 (initPt m pt) (pteAddr v) = 0 := by
  intro pt
  have hbase : kernelPt0.toNat = 0x501000 := rfl
  have hpt : pt.toNat = 0x501000 + 4096 * k := by
    simp only [pt]
    bv_omega
  obtain ⟨hframe, hzero⟩ := zeroWords m pt 1024 (by omega)
  refine ⟨fun x hx => hframe x (by omega), fun v hv => ?_⟩
  have hidx := toNat_pteIndex v
  have hpte : pteAddr v = pt + 4#32 * BitVec.ofNat 32 ((v >>> 12) &&& 0x3ff#32).toNat := by
    rw [BitVec.ofNat_toNat, BitVec.setWidth_eq, pteAddr]
    congr 1
    rw [← BitVec.toNat_inj, toNat_ptAddr, hpt, hv]
  rw [hpte]
  exact hzero _ (by omega)

theorem initPageTables_spec (m : Mem) :
    (∀ x, ¬ InTables x → initPageTables m x = m x) ∧
      (∀ v, load32 (initPageTables m) (pdeAddr v) = 0) ∧
      ∀ v, load32 (initPageTables m) (pteAddr v) = 0 := by
  obtain ⟨hdframe, hdzero⟩ := initPdt_spec m
  have loop : (∀ x : U32, x.toNat < 0x501000 ∨ 0x901000 ≤ x.toNat →
        initPageTables m x = initPdt m kernelPdt x) ∧
      ∀ v : U32, v.toNat / 2 ^ 22 < 1024 → load32 (initPageTables m) (pteAddr v) = 0 := by
    apply forLoop_invariant (fun i t =>
      (∀ x : U32, x.toNat < 0x501000 ∨ 0x901000 ≤ x.toNat → t x = initPdt m kernelPdt x) ∧
        ∀ v : U32, v.toNat / 2 ^ 22 < i → load32 t (pteAddr v) = 0)
    · exact ⟨fun _ _ => rfl, fun v hv => absurd hv (Nat.not_lt_zero _)⟩
    · intro i t hi ⟨hframe, hzero⟩
      obtain ⟨hptframe, hptzero⟩ := initPt_spec t hi
      refine ⟨fun x hx => ?_, fun v hv => ?_⟩
      · rw [hptframe x (by omega)]
        exact hframe x hx
      · by_cases heq : v.toNat / 2 ^ 22 = i
        · exact hptzero v heq
        · have hpte := toNat_pteAddr v
          rw [← hzero v (by omega)]
          -- the entry lies in a table cleared by an earlier pass
          apply load32_congr_on 0 _ (fun x _ hx => hptframe x (Or.inl hx)) (Nat.zero_le _)
          · omega
          · omega
  have hpde : ∀ v, load32 (initPageTables m) (pdeAddr v) = 0 := by
    intro v
    have hv := pdeAddr_inTables (v := v)
    rw [← hdzero v]
    exact load32_congr_on 0 _ (fun x _ hx => loop.1 x (Or.inl hx)) (Nat.zero_le _) hv.2 (by omega)
  refine ⟨fun x hx => ?_, hpde, fun v => loop.2 v ?_⟩
  · unfold InTables at hx
    rw [loop.1 x (by omega), hdframe x (by omega)]
  · have := v.isLt
    omega

theorem initPageTables_tables (m : Mem) : Tables (initPageTables m) := by
  obtain ⟨_, hpde, hpte⟩ := initPageTables_spec m
  exact ⟨fun v => Or.inl (hpde v), fun v _ => hpte v⟩

theorem walk_initPageTables (m : Mem) (v : U32) : walk (initPageTables m) kernelPdt v = none := by
  rw [walk_eq (initPageTables_tables m), (initPageTables_spec m).2.2 v, entryTarget_zero]

/-- A sequence of calls `map_memory_4k(KERNEL_PDT, v, p)`, one per pair. -/
def mapAll (m : Mem) (calls : List (U32 × U32)) : Mem :=
  calls.foldl (fun m c => mapMemory4k m kernelPdt c.1 c.2) m

/-- The physical page the last call for the page of `v` gave it. -/
def lastMapping (calls : List (U32 × U32)) (v : U32) : Option U32 :=
  (calls.reverse.find? fun c => pageNumber c.1 == pageNumber v).map Prod.snd

theorem mapAll_tables {m : Mem} (h : Tables m) (calls : List (U32 × U32)) :
    Tables (mapAll m calls) := by
  induction calls generalizing m with
  | nil => exact h
  | cons c rest ih => exact ih (mapMemory4k_tables h c.1 c.2)

theorem lastMapping_cons (c : U32 × U32) (rest : List (U32 × U32)) (v : U32) :
    lastMapping (c :: rest) v =
      (lastMapping rest v).or (if pageNumber c.1 = pageNumber v then some c.2 else none) := by
  simp only [lastMapping, List.reverse_cons, List.find?_append, List.find?_singleton,
    beq_iff_eq, Option.map_or]
  congr 1
  split <;> rfl

theorem walk_mapAll {m : Mem} (h : Tables m) (calls : List (U32 × U32)) (v : U32) :
    walk (mapAll m calls) kernelPdt v =
      match lastMapping calls v with
      | some p => some ((p &&& pteFrameAddr) ||| (v &&& 0xfff#32))
      | none => walk m kernelPdt v := by
  induction calls generalizing m with
  | nil => rfl
  | cons c rest ih =>
    change walk (mapAll (mapMemory4k m kernelPdt c.1 c.2) rest) kernelPdt v = _
    rw [ih (mapMemory4k_tables h c.1 c.2), lastMapping_cons, walk_mapMemory4k h]
    cases lastMapping rest v with
    | some p => rfl
    | none =>
      simp only [Option.none_or, remap, eq_comm (a := pageNumber v)]
      split <;> rfl

/-- The store law: after any history the walk of `v` finds the frame of the last call for its
page. -/
theorem walk_mapAll_initPageTables (m : Mem) (calls : List (U32 × U32)) (v : U32) :
    walk (mapAll (initPageTables m) calls) kernelPdt v =
      (lastMapping calls v).map fun p => (p &&& pteFrameAddr) ||| (v &&& 0xfff#32) := by
  rw [walk_mapAll (initPageTables_tables m), walk_initPageTables]
  cases lastMapping calls v <;> rfl

end Uroboros
