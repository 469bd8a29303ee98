import Mathlib.Data.Set.Insert
import Uroboros.Lib.Transducer
import Uroboros.PageSupply
import Uroboros.Prototype
import Uroboros.VMallocRuns

/-!
# The allocator follows its prototype

The tables of both agree field by field, and on `addr` for the records that have ever
been used: a search reads no other, since no pointer leads to one. Nothing is asked of
the shape of the list, so that the calls stay in lock step where it is no longer sound.
-/

set_option autoImplicit false

namespace Uroboros.Prototype

open ForLoop Transducer

/-- All fields but `addr` agree. -/
structure SameFields (b : Uroboros.VMemBlockInfo) (r : VMemBlockInfo) : Prop where
  flags : b.flags = r.flags
  size : b.size = r.size
  next : b.next = r.next
  prev : b.prev = r.prev

/-- The tables agree, on `addr` for the records in `T`; no pointer leaves `U`. -/
structure Related (T U : Set BPtr) (m : Uroboros.VMemMan) (q : VMemMan) : Prop where
  entry : m.entry = q.entry
  fields : ∀ i, SameFields (m.blocks i) (q.blocks i)
  addr : ∀ i ∈ T, (m.blocks i).addr = (q.blocks i).addr
  entry_mem : q.entry ∈ U
  next_mem : ∀ i n, (q.blocks i).next = some n → n ∈ U
  use_mem : ∀ i, (q.blocks i).InUse → i ∈ U

variable {T U : Set BPtr} {m m' : Uroboros.VMemMan} {q q' : VMemMan} {p a b : BPtr}
  {k k' : Kernel} {size addr : U32} {fuel fuel' : Nat}

theorem VMemMan.modify_blocks (q : VMemMan) (p i : BPtr) (g : VMemBlockInfo → VMemBlockInfo) :
    (q.modify p g).blocks i = if i = p then g (q.blocks p) else q.blocks i :=
  Function.update_apply _ _ _ _

namespace Related

theorem mono (h : Related T T m q) (hsub : T ⊆ U) : Related T U m q where
  entry := h.entry
  fields := h.fields
  addr := h.addr
  entry_mem := hsub h.entry_mem
  next_mem := fun i n hn => hsub (h.next_mem i n hn)
  use_mem := fun i hi => hsub (h.use_mem i hi)

theorem modify {f : Uroboros.VMemBlockInfo → Uroboros.VMemBlockInfo}
    {g : VMemBlockInfo → VMemBlockInfo} (h : Related T U m q)
    (hfields : SameFields (f (m.blocks p)) (g (q.blocks p)))
    (haddr : p ∈ T → (f (m.blocks p)).addr = (g (q.blocks p)).addr)
    (hnext : ∀ n, (g (q.blocks p)).next = some n → n ∈ U)
    (huse : (g (q.blocks p)).InUse → p ∈ U) : Related T U (m.modify p f) (q.modify p g) where
  entry := h.entry
  fields := by
    intro i
    rw [Uroboros.VMemMan.modify_blocks, VMemMan.modify_blocks]
    split_ifs
    · exact hfields
    · exact h.fields i
  addr := by
    intro i hi
    rw [Uroboros.VMemMan.modify_blocks, VMemMan.modify_blocks]
    split_ifs with heq
    · exact haddr (heq ▸ hi)
    · exact h.addr i hi
  entry_mem := h.entry_mem
  next_mem := by
    intro i n hn
    rw [VMemMan.modify_blocks] at hn
    split_ifs at hn
    · exact hnext n hn
    · exact h.next_mem i n hn
  use_mem := by
    intro i hi
    rw [VMemMan.modify_blocks] at hi
    split_ifs at hi with heq
    · exact heq ▸ huse hi
    · exact h.use_mem i hi

theorem setFlags (h : Related T U m q) (f : U8 → U8) (hp : p ∈ U) :
    Related T U (m.modify p fun b => { b with flags := f b.flags })
      (q.modify p fun b => { b with flags := f b.flags }) :=
  h.modify ⟨congrArg f (h.fields p).flags, (h.fields p).size, (h.fields p).next, (h.fields p).prev⟩
    (h.addr p) (h.next_mem p) fun _ => hp

theorem setNext (h : Related T U m q) (p : BPtr) {v v' : Option BPtr} (hv : v = v')
    (hU : ∀ n, v' = some n → n ∈ U) :
    Related T U (m.modify p fun b => { b with next := v })
      (q.modify p fun b => { b with next := v' }) :=
  h.modify ⟨(h.fields p).flags, (h.fields p).size, hv, (h.fields p).prev⟩ (h.addr p) hU
    (h.use_mem p)

theorem setPrev (h : Related T U m q) (p a : BPtr) :
    Related T U (m.modify p fun b => { b with prev := some a })
      (q.modify p fun b => { b with prev := some a }) :=
  h.modify ⟨(h.fields p).flags, (h.fields p).size, (h.fields p).next, rfl⟩ (h.addr p)
    (h.next_mem p) (h.use_mem p)

theorem setSize (h : Related T U m q) (p : BPtr) {f f' : U32 → U32} (hf : ∀ x, f x = f' x) :
    Related T U (m.modify p fun b => { b with size := f b.size })
      (q.modify p fun b => { b with size := f' b.size }) :=
  h.modify ⟨(h.fields p).flags, (hf _).trans (congrArg f' (h.fields p).size), (h.fields p).next,
    (h.fields p).prev⟩ (h.addr p) (h.next_mem p) (h.use_mem p)

theorem setAddr (h : Related T U m q) (p : BPtr) {v v' : U32} (hv : v = v') :
    Related (insert p T) U (m.modify p fun b => { b with addr := v })
      (q.modify p fun b => { b with addr := v' }) := by
  have hsame : Related T U (m.modify p fun b => { b with addr := v })
      (q.modify p fun b => { b with addr := v' }) :=
    h.modify ⟨(h.fields p).flags, (h.fields p).size, (h.fields p).next, (h.fields p).prev⟩
      (fun _ => hv) (h.next_mem p) (h.use_mem p)
  refine ⟨hsame.entry, hsame.fields, ?_, hsame.entry_mem, hsame.next_mem, hsame.use_mem⟩
  rintro i (rfl | hi)
  · rw [Uroboros.VMemMan.modify_blocks, VMemMan.modify_blocks, if_pos rfl, if_pos rfl]
    exact hv
  · exact hsame.addr i hi

theorem initBlock (h : Related T U m q) (p : BPtr) :
    Related T U (m.modify p Uroboros.VMemBlockInfo.initVmemBlock)
      (q.modify p VMemBlockInfo.initMemBlock) := by
  have hfree : (0 : U8) &&& vmemBlocksUse = 0 := by decide
  exact h.modify ⟨rfl, rfl, rfl, rfl⟩ (h.addr p)
    (fun n hn => absurd hn (Option.some_ne_none n).symm) fun huse => absurd hfree huse

theorem getNewBlock (h : Related T U m q) :
    (scan fun i => (m.blocks i).flags &&& vmemBlocksUse == 0) =
      scan fun i => (q.blocks i).flags &&& vmemBlocksUse == 0 := by
  refine congrArg scan (funext fun i => ?_)
  rw [(h.fields i).flags]

/-- The new record is the same one, and its address is known in the end. -/
theorem insertBlock (h : Related T T m q) (hp : p ∈ T) (hq : q.insertBlock p size = .ok q') :
    ∃ m' T', m.insertBlock p size = .ok m' ∧ T ⊆ T' ∧ Related T' T' m' q' := by
  cases hscan : scan fun i => (q.blocks i).flags &&& vmemBlocksUse == 0 with
  | none =>
    rw [VMemMan.insertBlock, VMemMan.getNewBlock, hscan] at hq
    cases hq
  | some n =>
    rw [VMemMan.insertBlock, VMemMan.getNewBlock, hscan] at hq
    rw [Uroboros.VMemMan.insertBlock, Uroboros.VMemMan.getNewBlock, h.getNewBlock, hscan]
    cases hq
    have hn : n ∈ insert n T := Set.mem_insert n T
    have h₁ := (h.mono (Set.subset_insert n T)).setFlags (fun f => f ||| vmemBlocksUse) hn
    have h₂ := h₁.setNext n (h₁.fields p).next (h₁.next_mem p)
    have h₃ := h₂.setNext p (v := some n) rfl fun i hi => Option.some.inj hi ▸ hn
    have h₄ := h₃.setPrev n p
    have h₅ := h₄.setSize n fun _ => congrArg (· - size) (h₄.fields p).size
    have h₆ := h₅.setSize p (f := fun _ => size) fun _ => rfl
    have h₇ := h₆.setAddr n (congrArg₂ (· + ·) (h₆.addr p hp) (h₆.fields p).size)
    exact ⟨_, insert n T, rfl, Set.subset_insert n T, h₇⟩

theorem findFit (h : Related T U m q) (size : U32) (fuel : Nat) (p : BPtr) :
    m.findFit size fuel p = q.findFit size fuel p := by
  induction fuel generalizing p with
  | zero => rfl
  | succ fuel ih =>
    have halloc : (m.blocks p).Allocated ↔ (q.blocks p).Allocated := by
      rw [Uroboros.VMemBlockInfo.Allocated, (h.fields p).flags, VMemBlockInfo.Allocated]
    rw [Uroboros.VMemMan.findFit, VMemMan.findFit, (h.fields p).next, (h.fields p).size]
    cases (q.blocks p).next with
    | none => rfl
    | some next =>
      dsimp only [Option.elim]
      rw [ih next]
      exact if_congr (and_congr_right fun _ => not_congr halloc) rfl rfl

theorem findFit_mem (h : Related T U m q) (hp : p ∈ U) (hfit : q.findFit size fuel p = some a) :
    a ∈ U := by
  induction fuel generalizing p with
  | zero => cases hfit
  | succ fuel ih =>
    rw [VMemMan.findFit] at hfit
    cases hnext : (q.blocks p).next with
    | none =>
      rw [hnext] at hfit
      exact Option.some.inj hfit ▸ hp
    | some next =>
      rw [hnext] at hfit
      dsimp only [Option.elim] at hfit
      split_ifs at hfit
      · exact Option.some.inj hfit ▸ hp
      · exact ih (h.next_mem p next hnext) hfit

theorem setPMem (h : Related T U m q) (p : BPtr) (pMem : Option PPtr) :
    Related T U (m.modify p fun b => { b with pMem }) q := by
  refine ⟨h.entry, ?_, ?_, h.entry_mem, h.next_mem, h.use_mem⟩
  · intro i
    rw [Uroboros.VMemMan.modify_blocks]
    split_ifs with heq
    · rw [heq]
      exact ⟨(h.fields p).flags, (h.fields p).size, (h.fields p).next, (h.fields p).prev⟩
    · exact h.fields i
  · intro i hi
    rw [Uroboros.VMemMan.modify_blocks]
    split_ifs with heq
    · rw [heq]
      exact h.addr p (heq ▸ hi)
    · exact h.addr i hi

theorem splitBlock (h : Related T T k.vmemman q) (hp : p ∈ T)
    (hq : q.insertBlock p size = .ok q') :
    k.splitBlock p size = .error .nullPage ∨ ∃ k' T', k.splitBlock p size = .ok k' ∧
      p ∈ T' ∧ Related T' T' k'.vmemman q' := by
  obtain ⟨m', T', hinsert, hsub, hrel⟩ := h.insertBlock hp hq
  have hsplit : k.splitBlock p size = ({ k with vmemman := m' } : Kernel).backBlock p size := by
    rw [Kernel.splitBlock, hinsert]
    rfl
  rw [hsplit]
  rcases Kernel.backBlock_supply { k with vmemman := m' } p size with ⟨_, herror⟩ | ⟨_, k', hok⟩
  · exact Or.inl herror
  · obtain ⟨pMem, hpmem⟩ := Kernel.backBlock_vmemman hok
    refine Or.inr ⟨k', T', hok, hsub hp, ?_⟩
    rw [hpmem]
    exact hrel.setPMem p pMem

end Related

theorem Related.splitBlock_answer (h : Related T T k.vmemman q) (hp : p ∈ T)
    (hq : (q.insertBlock p size).map (fun m => ((m.blocks p).addr, m)) = .ok (addr, q')) :
    (k.splitBlock p size >>= fun k' => .ok ((k'.vmemman.blocks p).addr, k')) = .error .nullPage ∨
      ∃ k' T', (k.splitBlock p size >>= fun k' => .ok ((k'.vmemman.blocks p).addr, k')) =
        .ok (addr, k') ∧ Related T' T' k'.vmemman q' := by
  cases hinsert : q.insertBlock p size with
  | error e =>
    rw [hinsert] at hq
    cases hq
  | ok q₁ =>
    rw [hinsert] at hq
    cases hq
    rcases h.splitBlock hp hinsert with herror | ⟨k', T', hsplit, hmem, hrel⟩
    · exact Or.inl (by rw [herror]; rfl)
    · refine Or.inr ⟨k', T', ?_, hrel⟩
      rw [hsplit, ← hrel.addr p hmem]
      rfl

/-- More passes do not change where the search stops. -/
theorem VMemMan.findFit_mono (hfit : q.findFit size fuel a = some p) (hle : fuel ≤ fuel') :
    q.findFit size fuel' a = some p := by
  induction fuel generalizing a fuel' with
  | zero => cases hfit
  | succ fuel ih =>
    obtain ⟨fuel', rfl⟩ := Nat.exists_eq_succ_of_ne_zero (show fuel' ≠ 0 by omega)
    rw [VMemMan.findFit] at hfit ⊢
    cases hnext : (q.blocks a).next with
    | none =>
      rw [hnext] at hfit
      exact hfit
    | some next =>
      rw [hnext] at hfit
      dsimp only [Option.elim] at hfit ⊢
      split_ifs at hfit ⊢
      · exact hfit
      · exact ih hfit (Nat.le_of_succ_le_succ hle)

namespace Related

theorem vmalloc (h : Related T T k.vmemman q) (hsize : size.toNat % 4096 = 0)
    (hq : q.vmalloc fuel size = .ok (addr, q')) (haddr : addr ≠ 0) (hfuel : fuel < fuel') :
    k.vmalloc fuel' size = .error .nullPage ∨ ∃ k' T', k.vmalloc fuel' size = .ok (addr, k') ∧
      Related T' T' k'.vmemman q' := by
  obtain ⟨f, rfl⟩ := Nat.exists_eq_succ_of_ne_zero (show fuel' ≠ 0 by omega)
  cases hfit : q.findFit size fuel q.entry with
  | none =>
    rw [VMemMan.vmalloc, hfit] at hq
    cases hq
  | some p =>
    have hp : p ∈ T := h.findFit_mem h.entry_mem hfit
    have hfit' : k.vmemman.findFit size f k.vmemman.entry = some p := by
      rw [h.findFit, h.entry]
      exact VMemMan.findFit_mono hfit (Nat.le_of_lt_succ hfuel)
    have hmark : Related T T (k.markAllocated p).vmemman (q.markAllocated p) :=
      h.setFlags (fun f => f ||| vmemBlocksAlloc) hp
    rw [VMemMan.vmalloc, hfit] at hq
    dsimp only [Option.elim] at hq
    rw [Kernel.vmalloc, roundup_of_dvd hsize]
    dsimp only
    rw [hfit']
    dsimp only
    rw [(h.fields p).next, (h.fields p).size, (hmark.fields p).size]
    by_cases hlast : (q.blocks p).next ≠ none
    · rw [if_pos hlast] at hq ⊢
      by_cases hroom : size ≤ (q.blocks p).size
      · rw [if_pos hroom] at hq ⊢
        by_cases hcut : size < ((q.markAllocated p).blocks p).size
        · rw [if_pos hcut] at hq ⊢
          exact hmark.splitBlock_answer hp hq
        · rw [if_neg hcut] at hq ⊢
          cases hq
          refine Or.inr ⟨k.markAllocated p, T, ?_, hmark⟩
          rw [← hmark.addr p hp]
          rfl
      · rw [if_neg hroom] at hq
        cases hq
        exact absurd rfl haddr
    · rw [if_neg hlast] at hq ⊢
      by_cases hroom : size ≤ (q.blocks p).size
      · rw [if_pos hroom] at hq ⊢
        exact hmark.splitBlock_answer hp hq
      · rw [if_neg hroom] at hq
        cases hq
        exact absurd rfl haddr

theorem allocated_iff (h : Related T U m q) (p : BPtr) :
    (m.blocks p).Allocated ↔ (q.blocks p).Allocated := by
  rw [Uroboros.VMemBlockInfo.Allocated, (h.fields p).flags, VMemBlockInfo.Allocated]

theorem findAllocated (h : Related T T m q) (addr : U32) (fuel : Nat) (start : Option BPtr)
    (hstart : ∀ n, start = some n → n ∈ T) :
    m.findAllocated addr fuel start = q.findAllocated addr fuel start := by
  induction fuel generalizing start with
  | zero => cases start <;> rfl
  | succ fuel ih =>
    cases start with
    | none => rfl
    | some p =>
      rw [Uroboros.VMemMan.findAllocated, VMemMan.findAllocated, h.addr p (hstart p rfl),
        (h.fields p).next, ih _ (h.next_mem p)]
      exact if_congr (and_congr_right fun _ => h.allocated_iff p) rfl rfl

theorem joinBlocks (h : Related T U m q) (a b : BPtr) :
    Related T U (m.joinBlocks a b) (q.joinBlocks a b) := by
  have h₁ := h.setNext a (h.fields b).next (h.next_mem b)
  have h₂ := h₁.setSize a fun x => congrArg (x + ·) (h₁.fields b).size
  have hnext := (h₂.fields b).next
  rw [Uroboros.VMemMan.joinBlocks, VMemMan.joinBlocks, ← hnext]
  split
  · rename_i hnone
    rw [hnone]
    exact h₂.initBlock b
  · rename_i c hsome
    rw [hsome]
    exact (h₂.setPrev c a).initBlock b

theorem joinFree (h : Related T U m q) (n a b : BPtr) :
    Related T U (if (m.blocks n).Allocated then m else m.joinBlocks a b)
      (if (q.blocks n).Allocated then q else q.joinBlocks a b) := by
  by_cases halloc : (q.blocks n).Allocated
  · rw [if_pos halloc, if_pos ((h.allocated_iff n).mpr halloc)]
    exact h
  · rw [if_neg halloc, if_neg fun hm => halloc ((h.allocated_iff n).mp hm)]
    exact h.joinBlocks a b

theorem mergeNext (h : Related T U m q) (p : BPtr) :
    Related T U (m.mergeNext p) (q.mergeNext p) := by
  rw [Uroboros.VMemMan.mergeNext, VMemMan.mergeNext, (h.fields p).next]
  cases (q.blocks p).next with
  | none => exact h
  | some n => exact h.joinFree n p n

theorem mergePrev (h : Related T U m q) (p : BPtr) :
    Related T U (m.mergePrev p) (q.mergePrev p) := by
  rw [Uroboros.VMemMan.mergePrev, VMemMan.mergePrev, (h.fields p).prev]
  cases (q.blocks p).prev with
  | none => exact h
  | some n => exact h.joinFree n n p

theorem clearAllocated (h : Related T U m q) (p : BPtr) :
    Related T U (m.clearAllocated p) (q.clearAllocated p) := by
  have hflags := congrArg (fun f => f &&& ~~~vmemBlocksAlloc) (h.fields p).flags
  refine h.modify ⟨hflags, (h.fields p).size, (h.fields p).next, (h.fields p).prev⟩ (h.addr p)
    (h.next_mem p) ?_
  intro huse
  rw [VMemBlockInfo.InUse, clear_use] at huse
  exact h.use_mem p huse

end Related

theorem VMemMan.findAllocated_mono {start r : Option BPtr}
    (hfind : q.findAllocated addr fuel start = some r) (hle : fuel ≤ fuel') :
    q.findAllocated addr fuel' start = some r := by
  induction fuel generalizing start fuel' with
  | zero =>
    cases start with
    | none => cases fuel' <;> exact hfind
    | some p => cases hfind
  | succ fuel ih =>
    obtain ⟨fuel', rfl⟩ := Nat.exists_eq_succ_of_ne_zero (show fuel' ≠ 0 by omega)
    cases start with
    | none => exact hfind
    | some p =>
      rw [VMemMan.findAllocated] at hfind ⊢
      split_ifs at hfind ⊢
      · exact hfind
      · exact ih hfind (Nat.le_of_succ_le_succ hle)

theorem Related.vfree (h : Related T T m q) (hq : q.vfree fuel addr = .ok q')
    (hfuel : fuel ≤ fuel') : ∃ m', m.vfree fuel' addr = .ok m' ∧ Related T T m' q' := by
  cases hfind : q.findAllocated addr fuel (some q.entry) with
  | none =>
    rw [VMemMan.vfree, hfind] at hq
    cases hq
  | some found =>
    have hfind' : m.findAllocated addr fuel' (some m.entry) = some found := by
      rw [h.entry, h.findAllocated addr fuel' _ fun n hn => Option.some.inj hn ▸ h.entry_mem]
      exact VMemMan.findAllocated_mono hfind hfuel
    rw [VMemMan.vfree, hfind] at hq
    rw [Uroboros.VMemMan.vfree, hfind']
    cases hq
    cases found with
    | none => exact ⟨m, rfl, h⟩
    | some p => exact ⟨_, rfl, ((h.clearAllocated p).mergeNext p).mergePrev p⟩

def Request.PageMultiple : Request → Prop
  | .vmalloc size => size.toNat % 4096 = 0
  | .vfree _ => True

structure Agrees (m : Uroboros.VMemMan) (q : VMemMan) : Prop where
  fields : ∀ i, SameFields (m.blocks i) (q.blocks i)
  addr : ∀ i, (m.blocks i).InUse → (m.blocks i).addr = (q.blocks i).addr

theorem Related.agrees (h : Related T T m q) : Agrees m q := by
  refine ⟨h.fields, ?_⟩
  intro i huse
  rw [Uroboros.VMemBlockInfo.InUse, (h.fields i).flags] at huse
  exact h.addr i (h.use_mem i huse)

theorem related_init {extentStart initExtentEnd pdt : U32}
    (hinit : k.initVmalloc extentStart initExtentEnd pdt = .ok k') (memman : VMemMan) :
    Related {firstBlock} {firstBlock} k'.vmemman
      (memman.initVmalloc extentStart initExtentEnd) := by
  obtain ⟨k₁, _, hret⟩ := bind_ok hinit
  cases hret
  have hfree : (0 : U8) &&& vmemBlocksUse = 0 := by decide
  have hblank : Related ∅ {firstBlock}
      ⟨extentStart, initExtentEnd, pdt, fun i => (k₁.vmemman.blocks i).initVmemBlock, firstBlock⟩
      ⟨extentStart, fun i => (memman.blocks i).initMemBlock, firstBlock⟩ := {
    entry := rfl
    fields := fun i => ⟨rfl, rfl, rfl, rfl⟩
    addr := fun i hi => absurd hi (Set.notMem_empty i)
    entry_mem := Set.mem_singleton firstBlock
    next_mem := fun i n hn => absurd hn (Option.some_ne_none n).symm
    use_mem := fun i huse => absurd hfree huse }
  have h₁ := hblank.setFlags (fun f => f ||| vmemBlocksUse) (Set.mem_singleton firstBlock)
  have h₂ := h₁.setAddr firstBlock (v := extentStart) rfl
  rw [insert_empty_eq] at h₂
  exact h₂.setSize firstBlock (f := fun _ => initExtentEnd - extentStart) fun _ => rfl

/-- The kernel does each step of the prototype that returns, unless the frames run out. -/
theorem lockStep (hfuel : fuel < fuel') :
    LockStep (kernelStep fuel') (step fuel) (fun k q => ∃ T, Related T T k.vmemman q)
      Request.PageMultiple (fun o => o ≠ some 0) .nullPage := by
  rintro k q request o q' ⟨T, h⟩ hask hstep hanswer
  cases request with
  | vmalloc size =>
    cases hcall : q.vmalloc fuel size with
    | error e =>
      rw [step, hcall] at hstep
      cases hstep
    | ok r =>
      rw [step, hcall] at hstep
      cases hstep
      have haddr : r.1 ≠ 0 := fun hzero => hanswer (congrArg some hzero)
      rw [kernelStep]
      rcases h.vmalloc hask hcall haddr hfuel with herror | ⟨k', T', hok, hrel⟩
      · rw [herror]
        exact Or.inl rfl
      · rw [hok]
        exact Or.inr ⟨k', rfl, T', hrel⟩
  | vfree addr =>
    cases hcall : q.vfree fuel addr with
    | error e =>
      rw [step, hcall] at hstep
      cases hstep
    | ok q₁ =>
      rw [step, hcall] at hstep
      cases hstep
      obtain ⟨m', hok, hrel⟩ := h.vfree hcall (Nat.le_of_lt hfuel)
      rw [kernelStep, Kernel.kvfree, hok]
      exact Or.inr ⟨_, rfl, T, hrel⟩

/-- The allocator of the kernel answers as its prototype, through tables that agree. -/
theorem vmalloc_refines_prototype {k k₀ : Kernel} {extentStart initExtentEnd pdt : U32}
    (hinit : k.initVmalloc extentStart initExtentEnd pdt = .ok k₀) (memman : VMemMan)
    (requests : List Request) (hsizes : ∀ r ∈ requests, r.PageMultiple)
    {fuel : Nat} {answers : List (Option U32 × VMemMan)}
    (hproto : trace (step fuel) requests (memman.initVmalloc extentStart initExtentEnd) =
      .ok answers)
    (hnull : ∀ x ∈ answers, x.1 ≠ some 0)
    (hframes : ∀ fuel, trace (kernelStep fuel) requests k₀ ≠ .error .nullPage) :
    ∃ enough, ∀ fuel ≥ enough, ∃ calls, trace (kernelStep fuel) requests k₀ = .ok calls ∧
      List.Forall₂ (fun x y => x.1 = y.1 ∧ Agrees x.2.vmemman y.2) calls answers := by
  refine ⟨fuel + 1, ?_⟩
  intro fuel' hfuel
  have hrel : ∃ T, Related T T k₀.vmemman (memman.initVmalloc extentStart initExtentEnd) :=
    ⟨_, related_init hinit memman⟩
  obtain ⟨calls, hcalls, hall⟩ :=
    (lockStep hfuel).trace hrel hsizes hproto hnull (hframes fuel')
  refine ⟨calls, hcalls, hall.imp ?_⟩
  rintro x y ⟨hsame, T, hrel⟩
  exact ⟨hsame, hrel.agrees⟩

def bareTable : VMemMan := ⟨0, fun _ => ⟨0, 0, 0, none, none⟩, firstBlock⟩

theorem kernel_findFit_mono {p a : BPtr} (hfit : m.findFit size fuel a = some p)
    (hle : fuel ≤ fuel') : m.findFit size fuel' a = some p := by
  induction fuel generalizing a fuel' with
  | zero => cases hfit
  | succ fuel ih =>
    obtain ⟨fuel', rfl⟩ := Nat.exists_eq_succ_of_ne_zero (show fuel' ≠ 0 by omega)
    rw [Uroboros.VMemMan.findFit] at hfit ⊢
    split at hfit
    · exact hfit
    · split_ifs at hfit ⊢
      · exact hfit
      · exact ih hfit (Nat.le_of_succ_le_succ hle)

theorem kernel_findAllocated_mono {start r : Option BPtr}
    (hfind : m.findAllocated addr fuel start = some r) (hle : fuel ≤ fuel') :
    m.findAllocated addr fuel' start = some r := by
  induction fuel generalizing start fuel' with
  | zero =>
    cases start with
    | none =>
      rw [Uroboros.VMemMan.findAllocated] at hfind ⊢
      exact hfind
    | some p => cases hfind
  | succ fuel ih =>
    obtain ⟨fuel', rfl⟩ := Nat.exists_eq_succ_of_ne_zero (show fuel' ≠ 0 by omega)
    cases start with
    | none =>
      rw [Uroboros.VMemMan.findAllocated] at hfind ⊢
      exact hfind
    | some p =>
      rw [Uroboros.VMemMan.findAllocated] at hfind ⊢
      split_ifs at hfind ⊢
      · exact hfind
      · exact ih hfind (Nat.le_of_succ_le_succ hle)

/-- A call that ends does the same however many passes it may take. -/
theorem kernel_vmalloc_mono (hends : k.vmalloc fuel size ≠ .error .diverges)
    (hle : fuel ≤ fuel') : k.vmalloc fuel' size = k.vmalloc fuel size := by
  induction fuel generalizing fuel' size with
  | zero => exact absurd rfl hends
  | succ fuel ih =>
    obtain ⟨fuel', rfl⟩ := Nat.exists_eq_succ_of_ne_zero (show fuel' ≠ 0 by omega)
    have hle' : fuel ≤ fuel' := Nat.le_of_succ_le_succ hle
    rw [Kernel.vmalloc] at hends
    rw [Kernel.vmalloc, Kernel.vmalloc]
    dsimp only at hends ⊢
    cases hfit : k.vmemman.findFit (roundup size memPageSize) fuel k.vmemman.entry with
    | none =>
      rw [hfit] at hends
      exact absurd rfl hends
    | some p =>
      rw [hfit] at hends
      rw [kernel_findFit_mono hfit hle']
      dsimp only at hends ⊢
      split_ifs at hends ⊢
      · rfl
      · rfl
      · exact ih hends hle'
      · rfl
      · exact ih hends hle'

theorem kernelStep_mono {r : Request} (hends : kernelStep fuel k r ≠ .error .diverges)
    (hle : fuel ≤ fuel') : kernelStep fuel' k r = kernelStep fuel k r := by
  cases r with
  | vmalloc size =>
    have hcall : k.vmalloc fuel size ≠ .error .diverges := by
      intro herror
      rw [kernelStep, herror] at hends
      exact hends rfl
    rw [kernelStep, kernelStep, kernel_vmalloc_mono hcall hle]
  | vfree addr =>
    cases hfind : k.vmemman.findAllocated addr fuel (some k.vmemman.entry) with
    | none =>
      rw [kernelStep, Kernel.kvfree, Uroboros.VMemMan.vfree, hfind] at hends
      exact absurd rfl hends
    | some r =>
      rw [kernelStep, kernelStep, Kernel.kvfree, Kernel.kvfree, Uroboros.VMemMan.vfree,
        Uroboros.VMemMan.vfree, hfind, kernel_findAllocated_mono hfind hle]

/-- The frames last however many passes the calls may take, if they do once. -/
theorem frames_last {requests : List Request} {calls : List (Option U32 × Kernel)}
    (hcalls : trace (kernelStep fuel) requests k = .ok calls) (fuel' : Nat) :
    trace (kernelStep fuel') requests k ≠ .error .nullPage := by
  intro herror
  have hsame : ∀ f f', f ≤ f' → trace (kernelStep f) requests k ≠ .error .diverges →
      trace (kernelStep f') requests k = trace (kernelStep f) requests k :=
    fun f f' hle => trace_eq fun k r h => kernelStep_mono h hle
  rcases Nat.le_total fuel fuel' with hle | hle
  · have heq := hsame fuel fuel' hle (by rw [hcalls]; exact fun h => by cases h)
    rw [herror, hcalls] at heq
    cases heq
  · have heq := hsame fuel' fuel hle (by rw [herror]; exact fun h => by cases h)
    rw [herror, hcalls] at heq
    cases heq

/-- A block of three pages is cut off, freed, and cut again for one page of it. -/
def splitAndReuse : List Request :=
  [.vmalloc 0x3000#32, .vmalloc 0x1000#32, .vfree 0x3000000#32, .vmalloc 0x1000#32,
    .vmalloc 0x2000#32]

theorem vmalloc_refines_prototype_reuse : ∃ k₀ answers,
    bareKernel.initVmalloc vmallocStart vmallocInitEnd kernelPdt = .ok k₀ ∧
      trace (step 4) splitAndReuse (bareTable.initVmalloc vmallocStart vmallocInitEnd) =
        .ok answers ∧
      answers.map Prod.fst = [some 0x3000000#32, some 0x3003000#32, none, some 0x3000000#32,
        some 0x3001000#32] ∧
      ∃ enough, ∀ fuel ≥ enough, ∃ calls,
        trace (kernelStep fuel) splitAndReuse k₀ = .ok calls ∧
          List.Forall₂ (fun x y => x.1 = y.1 ∧ Agrees x.2.vmemman y.2) calls answers := by
  have hruns : (trace (step 4) splitAndReuse
      (bareTable.initVmalloc vmallocStart vmallocInitEnd)).toOption.map (·.map Prod.fst) =
        some [some 0x3000000#32, some 0x3003000#32, none, some 0x3000000#32,
          some 0x3001000#32] := by
    decide +kernel
  have hkernel : (do
      let k ← bareKernel.initVmalloc vmallocStart vmallocInitEnd kernelPdt
      let calls ← trace (kernelStep 5) splitAndReuse k
      return calls.length).toOption = some 5 := by
    decide +kernel
  obtain ⟨answers, hanswers, hreturned⟩ := Option.map_eq_some_iff.mp hruns
  obtain ⟨k₀, hinit, hrest⟩ := bind_ok (ok_of_toOption hkernel)
  obtain ⟨calls, hcalls, _⟩ := bind_ok hrest
  have hproto := ok_of_toOption hanswers
  have hsizes : ∀ r ∈ splitAndReuse, r.PageMultiple := by
    simp [splitAndReuse, Request.PageMultiple]
  have hnull : ∀ x ∈ answers, x.1 ≠ some 0 := by
    intro x hx
    have hmem : x.1 ∈ answers.map Prod.fst := List.mem_map_of_mem hx
    rw [hreturned] at hmem
    intro hzero
    rw [hzero] at hmem
    revert hmem
    decide
  exact ⟨k₀, answers, hinit, hproto, hreturned,
    vmalloc_refines_prototype hinit bareTable _ hsizes hproto hnull (frames_last hcalls)⟩

end Uroboros.Prototype
