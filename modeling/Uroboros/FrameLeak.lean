import Uroboros.Lib.Shares
import Uroboros.PageChain
import Uroboros.VMallocFull

/-!
# Frames that no block holds

`vfree` gives no frame back to `P_MEMMAN`. As long as it finds no allocated block,
the heap only grows: all blocks but the last one are allocated, and the frames
taken since `init_kvmalloc` are shared out among them. The first release loses the
frames of its block. Requests of any size and frees of any address are covered.
-/

set_option autoImplicit false

namespace Uroboros

open ByteMemory VMemMan PMemMan

/-- A call that returns, whatever its argument. -/
inductive AnyCall : Kernel → HeapOp → Kernel → Prop where
  | kvmalloc {k k' : Kernel} {size addr : U32} (fuel : Nat) :
      k.kvmalloc fuel size = .ok (addr, k') → AnyCall k (.kvmalloc size addr) k'
  | kvfree {k k' : Kernel} {addr : U32} (fuel : Nat) :
      k.kvfree fuel addr = .ok k' → AnyCall k (.kvfree addr) k'

theorem HeapCall.anyCall (k : Kernel) (op : HeapOp) (k' : Kernel) (h : HeapCall k op k') :
    AnyCall k op k' := by
  cases h with
  | kvmalloc fuel _ _ hret => exact .kvmalloc fuel hret
  | kvfree fuel hret => exact .kvfree fuel hret

/-- Any call that comes back. Where no record or page is left `vmalloc` goes on through `NULL`, over
memory that is mapped, and nothing is said of what such a call returns and leaves. -/
inductive SourceCall : Kernel → HeapOp → Kernel → Prop where
  | returns {k k' : Kernel} {op : HeapOp} : AnyCall k op k' → SourceCall k op k'
  | exhausted {k k' : Kernel} {size addr : U32} {e : Fault} (fuel : Nat) :
      k.kvmalloc fuel size = .error e → e ≠ .diverges → SourceCall k (.kvmalloc size addr) k'

theorem SourceCall.anyCall (k : Kernel) (op : HeapOp) (k' : Kernel)
    (h : SourceCall k op k' ∧ k.Supplies op) : AnyCall k op k' := by
  obtain ⟨hcall, hsupplied⟩ := h
  cases hcall with
  | returns hcall => exact hcall
  | exhausted fuel herr hfault =>
    exact absurd (Kernel.kvmalloc_supplied (hsupplied _ _ rfl) herr) hfault

/-- Following `next` from the `p_mem` of block `p` arrives at page `i`. -/
def OnChain (k : Kernel) (p : BPtr) (i : PPtr) : Prop :=
  ∃ l, Seg (fun j => (k.pmemman.tbl j).next) (k.vmemman.blocks p).pMem l (some i)

/-- The frames taken since `k₁` are free again or on the chains of allocated blocks. -/
structure NoLeak (k₁ k : Kernel) : Prop where
  accounted : ∀ i, (k₁.pmemman.tbl i).flags = 0 → (k.pmemman.tbl i).flags = 0 ∨
    ∃ p, (k.vmemman.blocks p).Allocated ∧ OnChain k p i
  restored : (∀ p, ¬ (k.vmemman.blocks p).Allocated) →
    ∀ i, (k.pmemman.tbl i).flags = 0 ↔ (k₁.pmemman.tbl i).flags = 0

/-- No allocated block is freed. -/
def FreesNothing (k : Kernel) : HeapOp → Prop
  | .kvmalloc _ _ => True
  | .kvfree addr => ∀ p, (k.vmemman.blocks p).Allocated → (k.vmemman.blocks p).addr ≠ addr

instance (k : Kernel) : (op : HeapOp) → Decidable (FreesNothing k op)
  | .kvmalloc _ _ => isTrue trivial
  | .kvfree _ => inferInstanceAs (Decidable (∀ _, _))

/-- The blocks of `l` are allocated, and the last block `z` is free. -/
structure Growing (k₁ k : Kernel) (l : List BPtr) (z : BPtr) (pages : BPtr → List PPtr) :
    Prop where
  list : Seg (fun p => (k.vmemman.blocks p).next) (some k.vmemman.entry) (l ++ [z]) none
  taken : ∀ p ∈ l, (k.vmemman.blocks p).IsTaken
  free : (k.vmemman.blocks z).IsFree
  unlisted : ∀ p, p ∉ l ++ [z] → (k.vmemman.blocks p).flags = 0
  chain : ∀ p ∈ l, pages p ≠ [] ∧
    Seg (fun i => (k.pmemman.tbl i).next) (k.vmemman.blocks p).pMem (pages p) none
  shared : SharedOut l pages fun i =>
    (k₁.pmemman.tbl i).flags = 0 ∧ (k.pmemman.tbl i).flags ≠ 0
  unused : ∀ i, (k.pmemman.tbl i).flags = 0 → (k₁.pmemman.tbl i).flags = 0
  clear : k.pmemman.UnusedClear

namespace Growing
variable {k₁ k k' : Kernel} {l : List BPtr} {p z n : BPtr} {pages : BPtr → List PPtr}
  {new : List PPtr} {size addr : U32} {fuel : Nat}

theorem allocated_iff (h : Growing k₁ k l z pages) : (k.vmemman.blocks p).Allocated ↔ p ∈ l := by
  constructor
  · intro hp
    by_cases hmem : p ∈ l ++ [z]
    · rcases List.mem_append.mp hmem with hmem | hmem
      · exact hmem
      · rw [List.mem_singleton.mp hmem] at hp
        exact absurd hp h.free.not_allocated
    · rw [VMemBlockInfo.Allocated, h.unlisted p hmem] at hp
      exact absurd BitVec.zero_and hp
  · exact fun hp => (h.taken p hp).allocated

theorem inUse (h : Growing k₁ k l z pages) (hp : p ∈ l ++ [z]) : (k.vmemman.blocks p).InUse := by
  rcases List.mem_append.mp hp with hp | hp
  · exact (h.taken p hp).inUse
  · rw [List.mem_singleton.mp hp]
    exact h.free.inUse

theorem last_notMem (h : Growing k₁ k l z pages) : z ∉ l := by
  intro hz
  exact h.free.not_allocated (h.taken z hz).allocated

theorem noLeak (h : Growing k₁ k l z pages) : NoLeak k₁ k := by
  have hheld : ∀ i, (k₁.pmemman.tbl i).flags = 0 → (k.pmemman.tbl i).flags = 0 ∨
      ∃ p ∈ l, i ∈ pages p := by
    intro i hi
    by_cases hused : (k.pmemman.tbl i).flags = 0
    · exact .inl hused
    · exact .inr ((h.shared.covered i).mp ⟨hi, hused⟩)
  constructor
  · intro i hi
    rcases hheld i hi with hfree | ⟨p, hp, hmem⟩
    · exact .inl hfree
    · obtain ⟨l₁, l₂, heq⟩ := List.append_of_mem hmem
      have hseg := (h.chain p hp).2
      rw [heq] at hseg
      exact .inr ⟨p, h.allocated_iff.mpr hp, l₁, (Seg.append_cons_iff.mp hseg).1⟩
  · intro hnone i
    refine ⟨h.unused i, fun hi => ?_⟩
    rcases hheld i hi with hfree | ⟨p, hp, _⟩
    · exact hfree
    · exact absurd (h.allocated_iff.mpr hp) (hnone p)

theorem findFit_last (h : Growing k₁ k l z pages)
    (hfit : k.vmemman.findFit size fuel k.vmemman.entry = some p) : p = z := by
  obtain ⟨hp, hstop⟩ := findFit_cases h.list hfit
  rcases List.mem_append.mp hp with hmem | hmem
  · rcases hstop with hlast | ⟨_, hfree⟩
    · obtain ⟨l₁, l₂, rfl⟩ := List.append_of_mem hmem
      have hseg := h.list
      rw [List.append_assoc, List.cons_append] at hseg
      have hrest := (Seg.append_cons_iff.mp hseg).2
      rw [hlast] at hrest
      cases l₂ <;> cases hrest.1
    · exact absurd (h.allocated_iff.mpr hmem) hfree
  · exact List.mem_singleton.mp hmem

section Carve
variable (h : Growing k₁ k l z pages) (hcarved : Kernel.Carved k k' z n size new)
include h hcarved

theorem carve_new : n ∉ l ++ [z] := fun hmem => hcarved.cut.fresh (h.inUse hmem)

theorem carve_last : z ≠ n := by
  rintro rfl
  exact h.carve_new hcarved (List.mem_append_right _ List.mem_cons_self)

theorem carve_old (hp : p ∈ l) : p ≠ n ∧ p ≠ z := by
  constructor
  · rintro rfl
    exact h.carve_new hcarved (List.mem_append_left _ hp)
  · rintro rfl
    exact h.last_notMem hp

theorem carve_chain : ∀ p ∈ l ++ [z], Function.update pages z new p ≠ [] ∧
    Seg (fun i => (k'.pmemman.tbl i).next) (k'.vmemman.blocks p).pMem
      (Function.update pages z new p) none := by
  intro p hp
  rw [hcarved.pMem]
  rcases List.mem_append.mp hp with hp | hp
  · obtain ⟨hne, hseg⟩ := h.chain p hp
    have hpz := (h.carve_old hcarved hp).2
    have hheld : ∀ i ∈ pages p, (k.pmemman.tbl i).flags ≠ 0 :=
      fun i hi => ((h.shared.covered i).mpr ⟨p, hp, hi⟩).2
    rw [Function.update_of_ne hpz, if_neg hpz]
    exact ⟨hne, (hcarved.kept hseg hheld).1⟩
  · rw [List.mem_singleton.mp hp, Function.update_self, if_pos rfl]
    refine ⟨?_, hcarved.chain⟩
    intro hnil
    have hlen := hcarved.length
    rw [hnil, List.length_nil] at hlen
    omega

theorem carve_shared : SharedOut (l ++ [z]) (Function.update pages z new) fun i =>
    (k₁.pmemman.tbl i).flags = 0 ∧ (k'.pmemman.tbl i).flags ≠ 0 := by
  apply h.shared.snoc h.last_notMem
  · intro i hi hboth
    exact hboth.2 (hcarved.unused i hi)
  · intro i
    rw [hcarved.used_iff]
    constructor
    · rintro ⟨hi, hk | hi'⟩
      · exact .inl ⟨hi, hk⟩
      · exact .inr hi'
    · rintro (⟨hi, hk⟩ | hi')
      · exact ⟨hi, .inl hk⟩
      · exact ⟨h.unused i (hcarved.unused i hi'), .inr hi'⟩

theorem carve : Growing k₁ k' (l ++ [z]) n (Function.update pages z new) := by
  have hcut := hcarved.cut
  have hn := h.carve_new hcarved
  have hzn := h.carve_last hcarved
  have hold := fun p hp => h.carve_old hcarved (p := p) hp
  constructor
  · rw [hcut.frame.2.2, List.append_assoc]
    apply h.list.insert
    · rw [hcut.next, if_neg hzn, if_pos rfl]
    · rw [hcut.next, if_pos rfl]
    · intro p hp
      rw [List.append_nil] at hp
      rw [hcut.next, if_neg (hold p hp).1, if_neg (hold p hp).2]
  · intro p hp
    rcases List.mem_append.mp hp with hp | hp
    · rw [VMemBlockInfo.IsTaken, (hcut.elsewhere (hold p hp).1 (hold p hp).2).1]
      exact h.taken p hp
    · rw [List.mem_singleton.mp hp, VMemBlockInfo.IsTaken, hcut.flags, if_neg hzn, if_pos rfl,
        h.free.flags_eq]
  · rw [VMemBlockInfo.IsFree, hcut.flags, if_pos rfl, h.unlisted n hn]
    decide
  · intro p hp
    have hp' : p ∉ l ++ [z] := fun hmem => hp (List.mem_append_left _ hmem)
    have hpn : p ≠ n := fun heq => hp (heq ▸ List.mem_append_right _ List.mem_cons_self)
    have hpz : p ≠ z := fun heq => hp' (heq ▸ List.mem_append_right _ List.mem_cons_self)
    rw [(hcut.elsewhere hpn hpz).1]
    exact h.unlisted p hp'
  · exact h.carve_chain hcarved
  · exact h.carve_shared hcarved
  · intro i hi
    apply h.unused i
    by_contra hk
    exact (hcarved.used_iff i).mpr (.inl hk) hi
  · exact hcarved.unusedClear h.clear

end Carve

theorem kvmalloc (h : Growing k₁ k l z pages) (hcall : k.kvmalloc fuel size = .ok (addr, k')) :
    ∃ n new, Growing k₁ k' (l ++ [z]) n (Function.update pages z new) := by
  have hret : k.vmalloc fuel (roundup size memPageSize) = .ok (addr, k') :=
    Kernel.vmalloc_roundup fuel k size ▸ hcall
  obtain ⟨fuel', p, hfit, _, _, hcase⟩ := Kernel.vmalloc_cases (roundup_mod size) hret
  have hpz := h.findFit_last hfit
  subst p
  have hend : (k.vmemman.blocks z).next = none := (Seg.append_cons_iff.mp h.list).2
  rcases hcase with ⟨hmid, _, _⟩ | ⟨_, hsplit⟩
  · exact absurd hend hmid
  · obtain ⟨n, new, hcarved⟩ := Kernel.splitBlock_carved h.clear h.free.inUse hsplit
    exact ⟨n, new, h.carve hcarved⟩

theorem kvfree (h : Growing k₁ k l z pages) (hcall : k.kvfree fuel addr = .ok k')
    (hguard : FreesNothing k (.kvfree addr)) : k' = k := by
  rcases Kernel.kvfree_cases hcall with ⟨_, rfl⟩ | ⟨p, hfind, _⟩
  · rfl
  · obtain ⟨_, haddr, halloc⟩ := findAllocated_some h.list hfind
    exact absurd haddr (hguard p halloc)

/-- A release takes a block off the list of the allocated ones and keeps its frames in use. -/
theorem kvfree_leaks (h : Growing k₁ k l z pages) (hcall : k.kvfree fuel addr = .ok k')
    (hguard : ¬ FreesNothing k (.kvfree addr)) : ¬ NoLeak k₁ k' := by
  intro hleak
  rcases Kernel.kvfree_cases hcall with ⟨hfind, _⟩ | ⟨p, hfind, rfl⟩
  · apply hguard
    intro p hp haddr
    exact findAllocated_none h.list hfind (List.mem_append_left _ (h.allocated_iff.mp hp)) haddr hp
  · obtain ⟨_, _, halloc⟩ := findAllocated_some h.list hfind
    have hp := h.allocated_iff.mp halloc
    obtain ⟨hthin, hfreed⟩ := release_thinned k.vmemman p
    obtain ⟨i, hi⟩ := List.exists_mem_of_ne_nil _ (h.chain p hp).1
    obtain ⟨hunused, hused⟩ := (h.shared.covered i).mpr ⟨p, hp, hi⟩
    rcases hleak.accounted i hunused with hfree | ⟨q, hq, l', hreach⟩
    · exact hused hfree
    · obtain ⟨hq', _, hpages⟩ := hthin.allocated q hq
      have hql := h.allocated_iff.mp hq'
      have hreach' : Seg (fun j => (k.pmemman.tbl j).next) (k.vmemman.blocks q).pMem l' (some i) :=
        hpages ▸ hreach
      have hmem := (h.chain q hql).2.mem_of_seg hreach'
      have heq := h.shared.apart p hp q hql i hi hmem
      exact hfreed (heq ▸ hq)

end Growing

def GrowingInv (k₁ k : Kernel) : Prop := ∃ l z pages, Growing k₁ k l z pages

theorem growingInv_init {k₀ k₁ : Kernel} {start stop pdt : U32}
    (hclear : k₀.pmemman.UnusedClear) (hinit : k₀.initVmalloc start stop pdt = .ok k₁) :
    GrowingInv k₁ k₁ := by
  obtain ⟨_, _, hentry, hflags, _, _, hlinks, hrest⟩ := Kernel.initVmalloc_cases hinit
  refine ⟨[], firstBlock, fun _ => [], ?_⟩
  constructor
  · exact ⟨congrArg some hentry, (hlinks firstBlock).1⟩
  · exact List.forall_mem_nil _
  · exact hflags
  · intro p hp
    exact (hrest p fun heq => hp (heq ▸ List.mem_cons_self)).1
  · exact List.forall_mem_nil _
  · exact SharedOut.nil _ fun i h => h.2 h.1
  · exact fun _ hi => hi
  · exact Kernel.initVmalloc_unusedClear hclear hinit

theorem growingInv_call (k₁ k : Kernel) (op : HeapOp) (k' : Kernel) (h : GrowingInv k₁ k)
    (hguard : FreesNothing k op) (hcall : AnyCall k op k') : GrowingInv k₁ k' := by
  obtain ⟨l, z, pages, h⟩ := h
  cases hcall with
  | kvmalloc fuel hret =>
    obtain ⟨n, new, hgrown⟩ := h.kvmalloc hret
    exact ⟨l ++ [z], n, Function.update pages z new, hgrown⟩
  | kvfree fuel hret =>
    rw [h.kvfree hret hguard]
    exact ⟨l, z, pages, h⟩

theorem release_leaks (k₁ k : Kernel) (op : HeapOp) (k' : Kernel) (h : GrowingInv k₁ k)
    (hguard : ¬ FreesNothing k op) (hcall : AnyCall k op k') : ¬ NoLeak k₁ k' := by
  obtain ⟨l, z, pages, h⟩ := h
  cases hcall with
  | kvmalloc fuel hret => exact absurd trivial hguard
  | kvfree fuel hret => exact h.kvfree_leaks hret hguard

/-- In a run whose `kvmalloc` calls find their records and pages, every frame taken is free again or
on the chain of an allocated block, all along the run, exactly when no allocated block is freed. -/
theorem noLeak_iff {k₀ k₁ : Kernel} {start stop pdt : U32} (hclear : k₀.pmemman.UnusedClear)
    (hinit : k₀.initVmalloc start stop pdt = .ok k₁)
    {tr : List (Kernel × HeapOp × Kernel)} {k : Kernel} (hrun : Run SourceCall k₁ tr k)
    (hsupplied : Run.Guarded Kernel.Supplies tr) :
    (NoLeak k₁ k₁ ∧ ∀ x ∈ tr, NoLeak k₁ x.2.2) ↔ Run.Guarded FreesNothing tr :=
  ((hrun.guard hsupplied).mono SourceCall.anyCall).forall_iff_guarded (P := NoLeak k₁)
    (growingInv_init hclear hinit) (fun k => growingInv_call k₁ k)
    (fun _ ⟨_, _, _, h⟩ => h.noLeak) (fun k => release_leaks k₁ k)

/-- Two blocks, never freed. -/
theorem noLeak_two : ∃ k₁ tr k,
    bareKernel.initVmalloc vmallocStart vmallocInitEnd kernelPdt = .ok k₁ ∧
      Run SourceCall k₁ tr k ∧ tr.length = 2 ∧ NoLeak k₁ k₁ ∧ ∀ x ∈ tr, NoLeak k₁ x.2.2 := by
  let pages : List PPtr := [⟨8, by decide⟩, ⟨9, by decide⟩]
  have hserved : (served [.kvmalloc 0x2000, .kvmalloc 0x1000]).map (fun r =>
      (decide (Run.Guarded FreesNothing (kernelTrace r.2.1)), (kernelTrace r.2.1).length,
        (kernelTrace r.2.1).all fun x => match x.2.1 with
          | .kvmalloc size _ => decide (Kernel.HasLeft 9 pages x.1 size)
          | .kvfree _ => true)) = some (true, 2, true) := by
    decide +kernel
  obtain ⟨k₁, tr, s, hinit, hrun, heq⟩ := served_run hserved
  simp only [Prod.mk.injEq, decide_eq_true_eq] at heq
  obtain ⟨hguard, hlen, hleft⟩ := heq
  have hcalls := hrun.map Prod.fst fun s op s' h =>
    SourceCall.returns (SessionStep.heapCall s op s' h).anyCall
  have hsupplied : Run.Guarded Kernel.Supplies (kernelTrace tr) := by
    intro x hx size addr hop
    have hx' := List.all_eq_true.mp hleft x hx
    rw [hop] at hx'
    exact Kernel.HasLeft.supplied (by decide) (of_decide_eq_true hx')
  exact ⟨k₁, kernelTrace tr, s.1, hinit, hcalls, hlen,
    (noLeak_iff (fun _ _ => rfl) hinit hcalls hsupplied).mpr hguard⟩

/-- One page allocated and freed: page 2 stays in use. -/
theorem leak_after_free : ∃ k₁ tr k,
    bareKernel.initVmalloc vmallocStart vmallocInitEnd kernelPdt = .ok k₁ ∧
      Run AnyCall k₁ tr k ∧ ¬ NoLeak k₁ k := by
  let page : PPtr := ⟨2, by decide⟩
  have hserved : (served [.kvmalloc 0x1000, .kvfree 0x3000000]).map (fun r =>
      (decide (∀ p, ¬ (r.2.2.1.vmemman.blocks p).Allocated), (r.1.pmemman.tbl page).flags,
        (r.2.2.1.pmemman.tbl page).flags)) = some (true, 0, 1) := by
    decide +kernel
  obtain ⟨k₁, tr, s, hinit, hrun, heq⟩ := served_run hserved
  simp only [Prod.mk.injEq, decide_eq_true_eq] at heq
  obtain ⟨hnone, hbefore, hafter⟩ := heq
  have hcalls := hrun.map Prod.fst fun s op s' h => (SessionStep.heapCall s op s' h).anyCall
  refine ⟨k₁, kernelTrace tr, s.1, hinit, hcalls, ?_⟩
  intro hleak
  have hfree := (hleak.restored hnone page).mpr hbefore
  rw [hafter] at hfree
  cases hfree

end Uroboros
