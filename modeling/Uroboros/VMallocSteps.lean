import Uroboros.Lib.Segment
import Uroboros.VMalloc

/-!
# What a call of `vmalloc` or `vfree` does to the block records

Field by field descriptions of the two ways the list changes: `insertBlock` cuts
a new block off, `joinBlocks` joins two. The searches and the calls themselves
are inverted once, so that the invariants never open them.
-/

set_option autoImplicit false

namespace Uroboros

open ForLoop

theorem bind_ok {α β : Type} {x : Except Fault α} {f : α → Except Fault β} {r : β}
    (h : (x >>= f) = .ok r) : ∃ a, x = .ok a ∧ f a = .ok r := by
  cases x with
  | error e => cases h
  | ok a => exact ⟨a, rfl, h⟩

theorem ok_of_toOption {ε α : Type} {x : Except ε α} {a : α} (h : x.toOption = some a) :
    x = .ok a := by
  cases x with
  | error e => cases h
  | ok b => exact congrArg Except.ok (Option.some.inj h)

theorem mark_use (f : U8) : (f ||| vmemBlocksAlloc) &&& vmemBlocksUse = f &&& vmemBlocksUse := by
  revert f
  decide

theorem mark_alloc (f : U8) : (f ||| vmemBlocksAlloc) &&& vmemBlocksAlloc = vmemBlocksAlloc := by
  revert f
  decide

theorem clear_use (f : U8) :
    (f &&& ~~~vmemBlocksAlloc) &&& vmemBlocksUse = f &&& vmemBlocksUse := by
  revert f
  decide

theorem clear_alloc (f : U8) : (f &&& ~~~vmemBlocksAlloc) &&& vmemBlocksAlloc = 0 := by
  revert f
  decide

theorem clear_mark {f : U8} (h : f &&& vmemBlocksAlloc = 0) :
    (f ||| vmemBlocksAlloc) &&& ~~~vmemBlocksAlloc = f := by
  revert f
  decide

theorem use_use (f : U8) : (f ||| vmemBlocksUse) &&& vmemBlocksUse = vmemBlocksUse := by
  revert f
  decide

theorem use_alloc (f : U8) : (f ||| vmemBlocksUse) &&& vmemBlocksAlloc = f &&& vmemBlocksAlloc := by
  revert f
  decide

namespace VMemMan
variable {m m' : VMemMan} {p q a b : BPtr} {size : U32}

@[simp] theorem modify_same (m : VMemMan) (p : BPtr) (f : VMemBlockInfo → VMemBlockInfo) :
    (m.modify p f).blocks p = f (m.blocks p) := by
  simp [modify]

theorem modify_ne (f : VMemBlockInfo → VMemBlockInfo) (h : q ≠ p) :
    (m.modify p f).blocks q = m.blocks q := by
  simp [modify, h]

theorem modify_blocks (f : VMemBlockInfo → VMemBlockInfo) :
    (m.modify p f).blocks q = if q = p then f (m.blocks p) else m.blocks q := by
  simp only [modify, Function.update_apply]

theorem modify_flags_fields (f : U8 → U8) (q : BPtr) :
    let b' := (m.modify p fun b => { b with flags := f b.flags }).blocks q
    b'.addr = (m.blocks q).addr ∧ b'.size = (m.blocks q).size ∧
      b'.next = (m.blocks q).next ∧ b'.prev = (m.blocks q).prev := by
  dsimp only
  rw [modify_blocks]
  split
  · subst q
    exact ⟨rfl, rfl, rfl, rfl⟩
  · exact ⟨rfl, rfl, rfl, rfl⟩

@[simp] theorem modify_extentStart (f : VMemBlockInfo → VMemBlockInfo) :
    (m.modify p f).extentStart = m.extentStart := rfl

@[simp] theorem modify_extentEnd (f : VMemBlockInfo → VMemBlockInfo) :
    (m.modify p f).extentEnd = m.extentEnd := rfl

@[simp] theorem modify_entry (f : VMemBlockInfo → VMemBlockInfo) :
    (m.modify p f).entry = m.entry := rfl

def SameFrame (m m' : VMemMan) : Prop :=
  m'.extentStart = m.extentStart ∧ m'.extentEnd = m.extentEnd ∧ m'.entry = m.entry

theorem SameFrame.trans {m₁ m₂ m₃ : VMemMan} (h : SameFrame m₁ m₂) (h' : SameFrame m₂ m₃) :
    SameFrame m₁ m₃ :=
  ⟨h'.1.trans h.1, h'.2.1.trans h.2.1, h'.2.2.trans h.2.2⟩

theorem joinBlocks_frame (m : VMemMan) (a b : BPtr) : SameFrame m (m.joinBlocks a b) := by
  unfold joinBlocks
  dsimp only
  split <;> exact ⟨rfl, rfl, rfl⟩

theorem joinBlocks_blocks (hab : a ≠ b) (q : BPtr) :
    (m.joinBlocks a b).blocks q =
      if q = b then (m.blocks b).initVmemBlock else
      { m.blocks q with
        next := if q = a then (m.blocks b).next else (m.blocks q).next
        size := if q = a then (m.blocks a).size + (m.blocks b).size else (m.blocks q).size
        prev := if (m.blocks b).next = some q then some a else (m.blocks q).prev } := by
  have hb : b ≠ a := hab.symm
  unfold joinBlocks
  dsimp only
  cases hnext : (m.blocks b).next <;>
    simp only [modify_blocks, hb, hnext, if_false, if_true] <;>
    apply VMemBlockInfo.ext <;>
    grind [VMemBlockInfo.initVmemBlock]

section Join
variable (hab : a ≠ b)
include hab

theorem joinBlocks_flags (q : BPtr) :
    ((m.joinBlocks a b).blocks q).flags = if q = b then 0 else (m.blocks q).flags := by
  rw [joinBlocks_blocks hab]
  split <;> rfl

theorem joinBlocks_addr (q : BPtr) :
    ((m.joinBlocks a b).blocks q).addr = (m.blocks q).addr := by
  rw [joinBlocks_blocks hab]
  split
  · subst q
    rfl
  · rfl

theorem joinBlocks_size (q : BPtr) : ((m.joinBlocks a b).blocks q).size =
    if q = b then 0 else if q = a then (m.blocks a).size + (m.blocks b).size
    else (m.blocks q).size := by
  rw [joinBlocks_blocks hab]
  split <;> rfl

theorem joinBlocks_next (q : BPtr) : ((m.joinBlocks a b).blocks q).next =
    if q = b then none else if q = a then (m.blocks b).next else (m.blocks q).next := by
  rw [joinBlocks_blocks hab]
  split <;> rfl

theorem joinBlocks_prev (q : BPtr) : ((m.joinBlocks a b).blocks q).prev =
    if q = b then none else if (m.blocks b).next = some q then some a else (m.blocks q).prev := by
  rw [joinBlocks_blocks hab]
  split <;> rfl

end Join

theorem getNewBlock_cases {n : BPtr} (h : m.getNewBlock = some (n, m')) :
    ¬ (m.blocks n).InUse ∧
      m' = m.modify n fun b => { b with flags := b.flags ||| vmemBlocksUse } := by
  obtain ⟨i, hi, heq⟩ := Option.map_eq_some_iff.mp h
  cases heq
  have hfree := (scan_eq_some_iff.mp hi).1
  refine ⟨?_, rfl⟩
  simpa [VMemBlockInfo.InUse] using hfree

/-- `m'` is `m` with the unused record `n` behind `p`, which keeps `size` bytes. -/
structure Inserted (m m' : VMemMan) (p n : BPtr) (size : U32) : Prop where
  frame : SameFrame m m'
  fresh : ¬ (m.blocks n).InUse
  blocks : ∀ q, m'.blocks q =
    if q = n then
      { m.blocks n with
        flags := (m.blocks n).flags ||| vmemBlocksUse
        addr := (m.blocks p).addr + size
        size := (m.blocks p).size - size
        next := (m.blocks p).next
        prev := some p }
    else if q = p then { m.blocks p with next := some n, size := size } else m.blocks q

theorem insertBlock_cases (hp : (m.blocks p).InUse) (h : m.insertBlock p size = .ok m') :
    ∃ n, Inserted m m' p n size := by
  unfold insertBlock at h
  cases hnew : m.getNewBlock with
  | none => simp [hnew] at h
  | some new =>
    obtain ⟨n, m₁⟩ := new
    obtain ⟨hfresh, hm₁⟩ := getNewBlock_cases hnew
    have hnp : n ≠ p := by
      intro heq
      exact hfresh (heq ▸ hp)
    simp only [hnew, Except.ok.injEq] at h
    refine ⟨n, ?_, hfresh, ?_⟩
    · subst m' m₁
      simp only [SameFrame, modify_extentStart, modify_extentEnd, modify_entry, and_self]
    · intro q
      subst m' m₁
      simp only [modify_blocks, hnp, hnp.symm, if_false, if_true]
      apply VMemBlockInfo.ext <;> grind

theorem findFit_cases {fuel : Nat} {l : List BPtr}
    (hl : Seg (fun q => (m.blocks q).next) (some a) l none) (h : m.findFit size fuel a = some p) :
    p ∈ l ∧ ((m.blocks p).next = none ∨
      size ≤ (m.blocks p).size ∧ ¬ (m.blocks p).Allocated) := by
  induction fuel generalizing a l with
  | zero => simp [findFit] at h
  | succ fuel ih =>
    cases l with
    | nil => cases hl
    | cons x l =>
      obtain ⟨hx, hl⟩ := hl
      cases hx
      rw [findFit] at h
      cases hnext : (m.blocks a).next with
      | none =>
        simp only [hnext, Option.some.injEq] at h
        subst p
        exact ⟨List.mem_cons_self, .inl hnext⟩
      | some next =>
        simp only [hnext] at h hl
        split at h
        · rename_i hfit
          cases h
          exact ⟨List.mem_cons_self, .inr hfit⟩
        · obtain ⟨hmem, hp⟩ := ih hl h
          exact ⟨List.mem_cons_of_mem _ hmem, hp⟩

theorem findFit_unique {fuel fuel' : Nat} (h : m.findFit size fuel a = some p)
    (h' : m.findFit size fuel' a = some q) : p = q := by
  induction fuel generalizing a fuel' with
  | zero => simp [findFit] at h
  | succ fuel ih =>
    cases fuel' with
    | zero => simp [findFit] at h'
    | succ fuel' =>
      rw [findFit] at h h'
      cases hnext : (m.blocks a).next with
      | none =>
        simp only [hnext, Option.some.injEq] at h h'
        exact h.symm.trans h'
      | some next =>
        simp only [hnext] at h h'
        split at h
        · rename_i hfit
          rw [if_pos hfit] at h'
          exact Option.some.inj (h.symm.trans h')
        · rename_i hfit
          rw [if_neg hfit] at h'
          exact ih h h'

theorem findFit_ends {fuel : Nat} {l : List BPtr}
    (hl : Seg (fun q => (m.blocks q).next) (some a) l none) (hfuel : l.length ≤ fuel) :
    m.findFit size fuel a ≠ none := by
  induction l generalizing a fuel with
  | nil => cases hl
  | cons x l ih =>
    obtain ⟨hx, hl⟩ := hl
    cases hx
    cases fuel with
    | zero => simp at hfuel
    | succ fuel =>
      rw [findFit]
      cases hnext : (m.blocks x).next with
      | none => simp
      | some next =>
        simp only [hnext] at hl ⊢
        split
        · simp
        · exact ih hl (by simpa using hfuel)

theorem findAllocated_some {fuel : Nat} {addr : U32} {start : Option BPtr} {l : List BPtr}
    (hl : Seg (fun q => (m.blocks q).next) start l none)
    (h : m.findAllocated addr fuel start = some (some p)) :
    p ∈ l ∧ (m.blocks p).addr = addr ∧ (m.blocks p).Allocated := by
  induction l generalizing start fuel with
  | nil =>
    rw [hl.eq_of_nil] at h
    cases fuel <;> simp [findAllocated] at h
  | cons x l ih =>
    obtain ⟨rfl, hl⟩ := hl
    cases fuel with
    | zero => simp [findAllocated] at h
    | succ fuel =>
      rw [findAllocated] at h
      split at h
      · rename_i hx
        cases h
        exact ⟨List.mem_cons_self, hx⟩
      · obtain ⟨hmem, hp⟩ := ih hl h
        exact ⟨List.mem_cons_of_mem _ hmem, hp⟩

theorem findAllocated_none {fuel : Nat} {addr : U32} {start : Option BPtr} {l : List BPtr}
    (hl : Seg (fun q => (m.blocks q).next) start l none)
    (h : m.findAllocated addr fuel start = some none) (hp : p ∈ l)
    (haddr : (m.blocks p).addr = addr) : ¬ (m.blocks p).Allocated := by
  induction l generalizing start fuel with
  | nil => cases hp
  | cons x l ih =>
    obtain ⟨rfl, hl⟩ := hl
    cases fuel with
    | zero => simp [findAllocated] at h
    | succ fuel =>
      rw [findAllocated] at h
      split at h
      · cases h
      · rename_i hx
        rcases List.mem_cons.mp hp with heq | hp
        · subst p
          exact fun halloc => hx ⟨haddr, halloc⟩
        · exact ih hl h hp

theorem findAllocated_ends {fuel : Nat} {addr : U32} {start : Option BPtr} {l : List BPtr}
    (hl : Seg (fun q => (m.blocks q).next) start l none) (hfuel : l.length ≤ fuel) :
    m.findAllocated addr fuel start ≠ none := by
  induction l generalizing start fuel with
  | nil =>
    rw [hl.eq_of_nil]
    cases fuel <;> simp [findAllocated]
  | cons x l ih =>
    obtain ⟨rfl, hl⟩ := hl
    cases fuel with
    | zero => simp at hfuel
    | succ fuel =>
      rw [findAllocated]
      split
      · simp
      · exact ih hl (by simpa using hfuel)

/-- What `vfree` does to the block it finds. -/
def release (m : VMemMan) (p : BPtr) : VMemMan :=
  ((m.clearAllocated p).mergeNext p).mergePrev p

theorem release_frame (m : VMemMan) (p : BPtr) : SameFrame m (m.release p) := by
  have hnext : SameFrame (m.clearAllocated p) ((m.clearAllocated p).mergeNext p) := by
    unfold mergeNext
    split
    · exact ⟨rfl, rfl, rfl⟩
    · split
      · exact ⟨rfl, rfl, rfl⟩
      · exact joinBlocks_frame _ _ _
  have hprev : ∀ m' : VMemMan, SameFrame m' (m'.mergePrev p) := by
    intro m'
    unfold mergePrev
    split
    · exact ⟨rfl, rfl, rfl⟩
    · split
      · exact ⟨rfl, rfl, rfl⟩
      · exact joinBlocks_frame _ _ _
  exact SameFrame.trans ⟨rfl, rfl, rfl⟩ (hnext.trans (hprev _))

/-- What a release keeps of each block: its address, and of the blocks that are still allocated
their extent and pages. -/
structure Thinned (m m' : VMemMan) : Prop where
  addr : ∀ q, (m'.blocks q).addr = (m.blocks q).addr
  inUse : ∀ q, (m'.blocks q).InUse → (m.blocks q).InUse
  allocated : ∀ q, (m'.blocks q).Allocated → (m.blocks q).Allocated ∧
    (m'.blocks q).size = (m.blocks q).size ∧ (m'.blocks q).pMem = (m.blocks q).pMem

theorem Thinned.refl (m : VMemMan) : Thinned m m :=
  ⟨fun _ => rfl, fun _ h => h, fun _ h => ⟨h, rfl, rfl⟩⟩

theorem Thinned.trans {m₁ m₂ m₃ : VMemMan} (h : Thinned m₁ m₂) (h' : Thinned m₂ m₃) :
    Thinned m₁ m₃ := by
  refine ⟨fun q => (h'.addr q).trans (h.addr q), fun q hq => h.inUse q (h'.inUse q hq), ?_⟩
  intro q hq
  obtain ⟨hq₂, hsize, hpages⟩ := h'.allocated q hq
  obtain ⟨hq₁, hsize', hpages'⟩ := h.allocated q hq₂
  exact ⟨hq₁, hsize.trans hsize', hpages.trans hpages'⟩

theorem thinned_modify {f : VMemBlockInfo → VMemBlockInfo}
    (haddr : (f (m.blocks p)).addr = (m.blocks p).addr)
    (hinUse : (f (m.blocks p)).InUse → (m.blocks p).InUse)
    (halloc : (f (m.blocks p)).Allocated → (m.blocks p).Allocated ∧
      (f (m.blocks p)).size = (m.blocks p).size ∧ (f (m.blocks p)).pMem = (m.blocks p).pMem) :
    Thinned m (m.modify p f) := by
  constructor
  all_goals
    intro q
    rw [modify_blocks]
    split
  · subst q
    exact haddr
  · rfl
  · subst q
    exact hinUse
  · exact fun h => h
  · subst q
    exact halloc
  · exact fun h => ⟨h, rfl, rfl⟩

theorem joinBlocks_thinned (ha : ¬ (m.blocks a).Allocated) : Thinned m (m.joinBlocks a b) := by
  have hlink : Thinned m (m.modify a fun r => { r with next := (m.blocks b).next }) :=
    thinned_modify rfl (fun h => h) fun h => ⟨h, rfl, rfl⟩
  have hgrow : ∀ (m : VMemMan) (size : U32), ¬ (m.blocks a).Allocated →
      Thinned m (m.modify a fun r => { r with size := r.size + size }) :=
    fun m size ha => thinned_modify rfl (fun h => h) fun h => absurd h ha
  have hback : ∀ (m : VMemMan) (q : BPtr),
      Thinned m (m.modify q fun r => { r with prev := some a }) :=
    fun m q => thinned_modify rfl (fun h => h) fun h => ⟨h, rfl, rfl⟩
  have hclear : ∀ m : VMemMan, Thinned m (m.modify b VMemBlockInfo.initVmemBlock) :=
    fun m => thinned_modify rfl (fun h => absurd BitVec.zero_and h)
      fun h => absurd BitVec.zero_and h
  unfold joinBlocks
  dsimp only
  refine Thinned.trans ?_ (hclear _)
  have hlinked : ¬ ((m.modify a fun r =>
      { r with next := (m.blocks b).next }).blocks a).Allocated := by
    rw [modify_same]
    exact ha
  split
  · exact hlink.trans (hgrow _ _ hlinked)
  · exact (hlink.trans (hgrow _ _ hlinked)).trans (hback _ _)

theorem clearAllocated_thinned (m : VMemMan) (p : BPtr) :
    Thinned m (m.clearAllocated p) ∧ ¬ ((m.clearAllocated p).blocks p).Allocated := by
  have hcleared := clear_alloc (m.blocks p).flags
  constructor
  · refine thinned_modify rfl ?_ fun h => absurd hcleared h
    intro h hzero
    apply h
    exact (clear_use _).trans hzero
  · rw [clearAllocated, modify_same]
    exact fun h => h hcleared

/-- A release leaves the other allocated blocks as they are, whatever the links. -/
theorem release_thinned (m : VMemMan) (p : BPtr) :
    Thinned m (m.release p) ∧ ¬ ((m.release p).blocks p).Allocated := by
  obtain ⟨hclear, hcleared⟩ := clearAllocated_thinned m p
  have hnext : Thinned (m.clearAllocated p) ((m.clearAllocated p).mergeNext p) := by
    unfold mergeNext
    split
    · exact Thinned.refl _
    · split
      · exact Thinned.refl _
      · exact joinBlocks_thinned hcleared
  have hprev : ∀ m' : VMemMan, Thinned m' (m'.mergePrev p) := by
    intro m'
    unfold mergePrev
    split
    · exact Thinned.refl _
    · split
      · exact Thinned.refl _
      · rename_i hfree
        exact joinBlocks_thinned hfree
  have hrest := hnext.trans (hprev ((m.clearAllocated p).mergeNext p))
  exact ⟨hclear.trans hrest, fun h => hcleared (hrest.allocated p h).1⟩

theorem vfree_cases {fuel : Nat} {addr : U32} (h : m.vfree fuel addr = .ok m') :
    m.findAllocated addr fuel (some m.entry) = some none ∧ m' = m ∨
      ∃ p, m.findAllocated addr fuel (some m.entry) = some (some p) ∧ m' = m.release p := by
  unfold vfree at h
  cases hfind : m.findAllocated addr fuel (some m.entry) with
  | none => simp [hfind] at h
  | some found =>
    cases found with
    | none =>
      simp only [hfind, Except.ok.injEq] at h
      exact .inl ⟨rfl, h.symm⟩
    | some p =>
      simp only [hfind, Except.ok.injEq] at h
      exact .inr ⟨p, rfl, h.symm⟩

end VMemMan

namespace Kernel
variable {k k' : Kernel} {p : BPtr} {size addr : U32} {fuel : Nat}

theorem kvfree_cases (h : k.kvfree fuel addr = .ok k') :
    k.vmemman.findAllocated addr fuel (some k.vmemman.entry) = some none ∧ k' = k ∨
      ∃ p, k.vmemman.findAllocated addr fuel (some k.vmemman.entry) = some (some p) ∧
        k' = { k with vmemman := k.vmemman.release p } := by
  unfold kvfree at h
  cases hfree : k.vmemman.vfree fuel addr with
  | error e => simp [hfree, Except.map] at h
  | ok m =>
    rw [hfree] at h
    cases h
    rcases VMemMan.vfree_cases hfree with ⟨hfind, rfl⟩ | ⟨p, hfind, rfl⟩
    · exact .inl ⟨hfind, rfl⟩
    · exact .inr ⟨p, hfind, rfl⟩

theorem pmalloc4kPage_vmemman {page : PPtr} (h : k.pmalloc4kPage = .ok (page, k')) :
    k'.vmemman = k.vmemman := by
  unfold pmalloc4kPage at h
  split at h
  · cases h
  · cases h
    rfl

theorem backNextPage_vmemman {i : Nat} {s s' : PPtr × Kernel} (h : backNextPage p i s = .ok s') :
    s'.2.vmemman = s.2.vmemman := by
  obtain ⟨⟨newPage, k₁⟩, hpage, hret⟩ := bind_ok h
  cases hret
  exact (pmalloc4kPage_vmemman hpage : k₁.vmemman = s.2.vmemman)

theorem backBlock_vmemman (h : k.backBlock p size = .ok k') :
    ∃ pMem, k'.vmemman = k.vmemman.modify p fun b => { b with pMem } := by
  obtain ⟨⟨pMem, k₁⟩, hpage, hrest⟩ := bind_ok h
  obtain ⟨⟨last, k₂⟩, hloop, hret⟩ := bind_ok hrest
  cases hret
  have hfirst := pmalloc4kPage_vmemman hpage
  refine ⟨some pMem, ?_⟩
  exact forLoopM_invariant (fun (_ : Nat) (s : PPtr × Kernel) =>
    s.2.vmemman = k.vmemman.modify p fun b => { b with pMem := some pMem })
    (by rw [← hfirst]; rfl) (fun i t t' _ ht hstep => (backNextPage_vmemman hstep).trans ht) hloop

theorem splitBlock_cases (hp : (k.vmemman.blocks p).InUse) (h : k.splitBlock p size = .ok k') :
    ∃ n m pMem, VMemMan.Inserted k.vmemman m p n size ∧
      k'.vmemman = m.modify p fun b => { b with pMem } := by
  obtain ⟨m, hins, hback⟩ := bind_ok h
  obtain ⟨n, hn⟩ := VMemMan.insertBlock_cases hp hins
  obtain ⟨pMem, hm⟩ := backBlock_vmemman hback
  exact ⟨n, m, pMem, hn, hm⟩

/-- `m'` is `m` with block `p` allocated and cut to `size` bytes, the rest in the new block `n`. -/
structure Cut (m m' : VMemMan) (p n : BPtr) (size : U32) : Prop where
  frame : VMemMan.SameFrame m m'
  fresh : ¬ (m.blocks n).InUse
  flags : ∀ q, (m'.blocks q).flags =
    if q = n then (m.blocks n).flags ||| vmemBlocksUse
    else if q = p then (m.blocks p).flags ||| vmemBlocksAlloc else (m.blocks q).flags
  addr : ∀ q, (m'.blocks q).addr =
    if q = n then (m.blocks p).addr + size else (m.blocks q).addr
  size : ∀ q, (m'.blocks q).size =
    if q = n then (m.blocks p).size - size else if q = p then size else (m.blocks q).size
  next : ∀ q, (m'.blocks q).next =
    if q = n then (m.blocks p).next else if q = p then some n else (m.blocks q).next
  prev : ∀ q, (m'.blocks q).prev = if q = n then some p else (m.blocks q).prev

theorem Cut.elsewhere {m m' : VMemMan} {n q : BPtr} (hcut : Cut m m' p n size) (hqn : q ≠ n)
    (hqp : q ≠ p) :
    (m'.blocks q).flags = (m.blocks q).flags ∧ (m'.blocks q).addr = (m.blocks q).addr ∧
      (m'.blocks q).size = (m.blocks q).size ∧ (m'.blocks q).next = (m.blocks q).next ∧
      (m'.blocks q).prev = (m.blocks q).prev := by
  simp [hcut.flags, hcut.addr, hcut.size, hcut.next, hcut.prev, hqn, hqp]

theorem markAllocated_blocks (q : BPtr) : (k.markAllocated p).vmemman.blocks q =
    if q = p then
      { k.vmemman.blocks p with flags := (k.vmemman.blocks p).flags ||| vmemBlocksAlloc }
    else k.vmemman.blocks q :=
  VMemMan.modify_blocks (m := k.vmemman) fun b => { b with flags := b.flags ||| vmemBlocksAlloc }

theorem markAllocated_flags (k : Kernel) (p q : BPtr) :
    ((k.markAllocated p).vmemman.blocks q).flags =
      if q = p then (k.vmemman.blocks p).flags ||| vmemBlocksAlloc
      else (k.vmemman.blocks q).flags := by
  rw [markAllocated_blocks]
  split <;> rfl

theorem markAllocated_inUse {q : BPtr} :
    ((k.markAllocated p).vmemman.blocks q).InUse ↔ (k.vmemman.blocks q).InUse := by
  simp only [markAllocated_blocks, VMemBlockInfo.InUse]
  split
  · subst q
    rw [mark_use]
  · rfl

theorem splitBlock_cut (hp : (k.vmemman.blocks p).InUse)
    (h : (k.markAllocated p).splitBlock p size = .ok k') :
    ∃ n, Cut k.vmemman k'.vmemman p n size := by
  obtain ⟨n, m, pMem, hins, hk'⟩ := splitBlock_cases (markAllocated_inUse.mpr hp) h
  have hnp : n ≠ p := by
    intro heq
    subst n
    exact hins.fresh (markAllocated_inUse.mpr hp)
  have hblocks : ∀ q, k'.vmemman.blocks q = { m.blocks q with
      pMem := if q = p then pMem else (m.blocks q).pMem } := by
    intro q
    rw [hk', VMemMan.modify_blocks]
    split
    · subst q
      rfl
    · rfl
  refine ⟨n, ?_, ?_, ?_, ?_, ?_, ?_, ?_⟩
  · rw [hk']
    exact hins.frame
  · have hfresh := hins.fresh
    rwa [markAllocated_blocks, if_neg hnp] at hfresh
  all_goals
    intro q
    rw [hblocks, hins.blocks]
    simp only [markAllocated_blocks, hnp, if_false, if_true]
    grind

theorem vmalloc_roundup (fuel : Nat) (k : Kernel) (size : U32) :
    k.vmalloc fuel size = k.vmalloc fuel (roundup size memPageSize) := by
  cases fuel with
  | zero => rfl
  | succ fuel => rw [vmalloc, vmalloc, roundup_of_dvd (roundup_mod size)]

theorem vmalloc_cases (hsize : size.toNat % 4096 = 0) (h : k.vmalloc fuel size = .ok (addr, k')) :
    ∃ fuel' p, k.vmemman.findFit size fuel' k.vmemman.entry = some p ∧
      size ≤ (k.vmemman.blocks p).size ∧ addr = (k'.vmemman.blocks p).addr ∧
      ((k.vmemman.blocks p).next ≠ none ∧ ¬ size < (k.vmemman.blocks p).size ∧
          k' = k.markAllocated p ∨
        ((k.vmemman.blocks p).next = none ∨ size < (k.vmemman.blocks p).size) ∧
          (k.markAllocated p).splitBlock p size = .ok k') := by
  induction fuel with
  | zero => simp [vmalloc] at h
  | succ fuel ih =>
    rw [vmalloc, roundup_of_dvd hsize] at h
    dsimp only at h
    cases hfit : k.vmemman.findFit size fuel k.vmemman.entry with
    | none => simp [hfit] at h
    | some p =>
      simp only [hfit] at h
      split at h
      · rename_i hnext
        split at h
        · rename_i hle
          have hsame : ((k.markAllocated p).vmemman.blocks p).size = (k.vmemman.blocks p).size := by
            simp [markAllocated]
          rw [hsame] at h
          split at h
          · rename_i hlt
            obtain ⟨k₁, hsplit, hret⟩ := bind_ok h
            cases hret
            exact ⟨fuel, p, hfit, hle, rfl, .inr ⟨.inr hlt, hsplit⟩⟩
          · rename_i hge
            cases h
            exact ⟨fuel, p, hfit, hle, rfl, .inl ⟨hnext, hge, rfl⟩⟩
        · exact ih h
      · rename_i hlast
        split at h
        · rename_i hle
          obtain ⟨k₁, hsplit, hret⟩ := bind_ok h
          cases hret
          exact ⟨fuel, p, hfit, hle, rfl, .inr ⟨.inl (Classical.not_not.mp hlast), hsplit⟩⟩
        · exact ih h

theorem initVmalloc_cases {extentStart initExtentEnd pdt : U32}
    (h : k.initVmalloc extentStart initExtentEnd pdt = .ok k') :
    k'.vmemman.extentStart = extentStart ∧ k'.vmemman.extentEnd = initExtentEnd ∧
      k'.vmemman.entry = firstBlock ∧
      (k'.vmemman.blocks firstBlock).flags = vmemBlocksUse ∧
      (k'.vmemman.blocks firstBlock).addr = extentStart ∧
      (k'.vmemman.blocks firstBlock).size = initExtentEnd - extentStart ∧
      (∀ q, (k'.vmemman.blocks q).next = none ∧ (k'.vmemman.blocks q).prev = none) ∧
      ∀ q, q ≠ firstBlock → (k'.vmemman.blocks q).flags = 0 ∧ (k'.vmemman.blocks q).size = 0 := by
  obtain ⟨k₁, _, hret⟩ := bind_ok h
  cases hret
  refine ⟨rfl, rfl, rfl, ?_, ?_, ?_, ?_, ?_⟩
  · simp [VMemBlockInfo.initVmemBlock]
  · simp
  · simp
  · intro q
    simp only [VMemMan.modify_blocks, VMemBlockInfo.initVmemBlock]
    split <;> exact ⟨rfl, rfl⟩
  · intro q hq
    simp [VMemMan.modify_blocks, VMemBlockInfo.initVmemBlock, hq]

end Kernel

end Uroboros
