import Uroboros.Lib.Run
import Uroboros.VMallocLinks

/-!
# Runs of `kvmalloc` and `kvfree`

A session pairs the kernel with the ranges handed out and not yet freed. The
middle split of `vmalloc` leaves the `prev` of the block behind the new one as
it was; the ranges stay disjoint in every run in which no `kvfree` joins a block
to a record that does not link to it.
-/

set_option autoImplicit false

namespace Uroboros

open ByteMemory VMemMan

inductive HeapOp where
  | kvmalloc (size addr : U32)
  | kvfree (addr : U32)

/-- A call that returns, with a size that is a positive number of pages. -/
inductive HeapCall : Kernel → HeapOp → Kernel → Prop where
  | kvmalloc {k k' : Kernel} {size addr : U32} (fuel : Nat) :
      size.toNat % 4096 = 0 → 4096 ≤ size.toNat → k.kvmalloc fuel size = .ok (addr, k') →
      HeapCall k (.kvmalloc size addr) k'
  | kvfree {k k' : Kernel} {addr : U32} (fuel : Nat) :
      k.kvfree fuel addr = .ok k' → HeapCall k (.kvfree addr) k'

abbrev Session := Kernel × List (U32 × U32)

inductive SessionStep : Session → HeapOp → Session → Prop where
  | kvmalloc {k k' : Kernel} {live : List (U32 × U32)} {size addr : U32} :
      HeapCall k (.kvmalloc size addr) k' →
      SessionStep (k, live) (.kvmalloc size addr) (k', (addr, size) :: live)
  | kvfree {k k' : Kernel} {live₁ live₂ : List (U32 × U32)} {size addr : U32} :
      HeapCall k (.kvfree addr) k' →
      SessionStep (k, live₁ ++ (addr, size) :: live₂) (.kvfree addr) (k', live₁ ++ live₂)

theorem SessionStep.heapCall (s : Session) (op : HeapOp) (s' : Session)
    (h : SessionStep s op s') : HeapCall s.1 op s'.1 := by
  cases h <;> assumption

inductive HeapRequest where
  | kvmalloc (size : U32)
  | kvfree (addr : U32)

namespace Session

def call (s : Session) : HeapRequest → Option (HeapOp × Session)
  | .kvmalloc size =>
    if size.toNat % 4096 = 0 ∧ 4096 ≤ size.toNat then
      match s.1.kvmalloc (vmemMaxUnits + 1) size with
      | .ok (addr, k) => some (.kvmalloc size addr, k, (addr, size) :: s.2)
      | .error _ => none
    else none
  | .kvfree addr =>
    if s.2.any fun r => r.1 == addr then
      match s.1.kvfree vmemMaxUnits addr with
      | .ok k => some (.kvfree addr, k, s.2.eraseP fun r => r.1 == addr)
      | .error _ => none
    else none

theorem call_step (s : Session) (r : HeapRequest) (op : HeapOp) (s' : Session)
    (h : s.call r = some (op, s')) : SessionStep s op s' := by
  obtain ⟨k, live⟩ := s
  cases r with
  | kvmalloc size =>
    simp only [call] at h
    split at h
    · rename_i hsize
      split at h
      · rename_i addr k' hret
        cases h
        exact .kvmalloc (.kvmalloc _ hsize.1 hsize.2 hret)
      · cases h
    · cases h
  | kvfree addr =>
    simp only [call] at h
    split at h
    · rename_i hany
      split at h
      · rename_i k' hret
        cases h
        obtain ⟨r, hr, haddr⟩ := List.any_eq_true.mp hany
        obtain ⟨⟨a, size⟩, live₁, live₂, _, ha, hlive, hrest⟩ :=
          List.exists_of_eraseP (p := fun r => r.1 == addr) hr haddr
        have heq : a = addr := by simpa using ha
        subst a
        rw [hrest, hlive]
        exact .kvfree (.kvfree _ hret)
      · cases h
    · cases h

end Session

/-- `V_MEMMAN` as `init_kvmalloc` finds it, over a page manager with no page in use. -/
def bareKernel : Kernel where
  vmemman := ⟨0, 0, 0, fun _ => ⟨0, 0, 0, none, none, none⟩, firstBlock⟩
  pmemman := PMemMan.firstUsed pmallocStart 0
  mem := fun _ => 0

def served (rs : List HeapRequest) :
    Option (Kernel × List (Session × HeapOp × Session) × Session) :=
  match bareKernel.initVmalloc vmallocStart vmallocInitEnd kernelPdt with
  | .error _ => none
  | .ok k₁ => (Run.exec Session.call rs (k₁, [])).map fun u => (k₁, u)

theorem served_run {rs : List HeapRequest} {β : Type} {f : _ → β} {y : β}
    (h : (served rs).map f = some y) : ∃ k₁ tr s,
      bareKernel.initVmalloc vmallocStart vmallocInitEnd kernelPdt = .ok k₁ ∧
      Run SessionStep (k₁, []) tr s ∧ f (k₁, tr, s) = y := by
  obtain ⟨⟨k₁, tr, s⟩, hserved, hy⟩ := Option.map_eq_some_iff.mp h
  unfold served at hserved
  split at hserved
  · cases hserved
  · rename_i hinit
    obtain ⟨⟨tr', t⟩, hserve, heq⟩ := Option.map_eq_some_iff.mp hserved
    cases heq
    exact ⟨k₁, tr, s, hinit, Run.exec_run Session.call_step hserve, hy⟩

def RangesDisjoint (x y : U32 × U32) : Prop :=
  x.1.toNat + x.2.toNat ≤ y.1.toNat ∨ y.1.toNat + y.2.toNat ≤ x.1.toNat

/-- The block that `kvfree` finds, if it is joined to the record that its `prev` names, is the one
that record links to. -/
def FreesLinked (s : Session) : HeapOp → Prop
  | .kvmalloc _ _ => True
  | .kvfree addr =>
    ∀ p ∈ (s.1.vmemman.findAllocated addr vmemMaxUnits (some s.1.vmemman.entry)).join,
      s.1.vmemman.PrevLinks p

instance (s : Session) : (op : HeapOp) → Decidable (FreesLinked s op)
  | .kvmalloc _ _ => isTrue trivial
  | .kvfree _ => inferInstanceAs (Decidable (∀ p ∈ _, _))

theorem FreesLinked.prevLinks {s : Session} {l : List BPtr} {p : BPtr} {addr : U32}
    (hguard : FreesLinked s (.kvfree addr)) (hsound : Sound s.1.vmemman l) (hp : p ∈ l)
    (halloc : (s.1.vmemman.blocks p).Allocated) (haddr : (s.1.vmemman.blocks p).addr = addr) :
    s.1.vmemman.PrevLinks p := by
  subst addr
  apply hguard p
  rw [hsound.findAllocated_max hp halloc]
  rfl

/-- The chain is sound and its allocated blocks are the live ranges. -/
def SessionInv (start stop : U32) (s : Session) : Prop :=
  s.1.vmemman.extentStart = start ∧ s.1.vmemman.extentEnd = stop ∧
    ∃ l, Sound s.1.vmemman l ∧ s.2.Perm (s.1.vmemman.taken l)

theorem taken_disjoint {m : VMemMan} {l : List BPtr} (h : Sound m l) :
    (m.taken l).Pairwise RangesDisjoint := by
  refine List.pairwise_map.mpr (List.Pairwise.filter _ (h.tiles.pairwise.imp ?_))
  intro p q hpq
  exact .inl hpq

theorem taken_bounds {m : VMemMan} {l : List BPtr} (h : Sound m l) {r : U32 × U32}
    (hr : r ∈ m.taken l) :
    m.extentStart.toNat ≤ r.1.toNat ∧ r.1.toNat + r.2.toNat ≤ m.extentEnd.toNat := by
  obtain ⟨p, hp, _, rfl⟩ := mem_taken hr
  exact h.tiles.mem_bounds hp

theorem SessionInv.disjoint {start stop : U32} {s : Session} (h : SessionInv start stop s) :
    s.2.Pairwise RangesDisjoint := by
  obtain ⟨_, _, l, hl, hlive⟩ := h
  exact (hlive.pairwise_iff fun h => h.symm).mpr (taken_disjoint hl)

theorem sessionInv_init {k₀ k₁ : Kernel} {start stop pdt : U32} (hle : start.toNat ≤ stop.toNat)
    (hinit : k₀.initVmalloc start stop pdt = .ok k₁) : SessionInv start stop (k₁, []) := by
  have hsound := Kernel.sound_initVmalloc hle hinit
  obtain ⟨hstart, hstop, _⟩ := Kernel.initVmalloc_cases hinit
  have hfree : (k₁.vmemman.blocks firstBlock).IsFree :=
    hsound.lastFree _ List.mem_cons_self hsound.list.2
  have hnone : k₁.vmemman.taken [firstBlock] = [] := taken_cons_free hfree
  exact ⟨hstart, hstop, [firstBlock], hsound, hnone ▸ List.Perm.refl _⟩

theorem sessionInv_step {start stop : U32} (s : Session) (op : HeapOp) (s' : Session)
    (h : SessionInv start stop s) (hguard : FreesLinked s op) (hstep : SessionStep s op s') :
    SessionInv start stop s' := by
  obtain ⟨hstart, hstop, l, hsound, hlive⟩ := h
  cases hstep with
  | kvmalloc hcall =>
    cases hcall with
    | kvmalloc fuel hmod hpos hret =>
      obtain ⟨hs, he, _⟩ := Kernel.vmalloc_frame hsound hmod hret
      obtain ⟨l', hsound', htaken⟩ := Kernel.sound_vmalloc hsound hmod (by omega) hret
      exact ⟨hs.trans hstart, he.trans hstop, l', hsound', (hlive.cons _).trans htaken.symm⟩
  | @kvfree k k' live₁ live₂ size addr hcall =>
    cases hcall with
    | kvfree fuel hret =>
      have hmem : (addr, size) ∈ k.vmemman.taken l :=
        hlive.subset (List.mem_append_right _ List.mem_cons_self)
      obtain ⟨q, hq, halloc, hrange⟩ := mem_taken hmem
      cases hrange
      rcases Kernel.kvfree_chain hsound hret with ⟨_, hnone⟩ | ⟨p, hp, haddr, htaken, heq⟩
      · exact absurd halloc (hnone q hq rfl)
      · have hqp : p = q := hsound.eq_of_addr_eq hp hq htaken.allocated halloc haddr
        subst q
        obtain ⟨hs, he, _⟩ := release_frame k.vmemman p
        have hlinks : k.vmemman.PrevLinks p := hguard.prevLinks hsound hp halloc rfl
        obtain ⟨l', hsound', hperm⟩ := hsound.release hp htaken hlinks
        rw [← heq] at hs he hsound' hperm
        refine ⟨hs.trans hstart, he.trans hstop, l', hsound', ?_⟩
        exact (List.perm_middle.symm.trans (hlive.trans hperm)).cons_inv

/-- The live ranges are disjoint and inside the extent after every run whose `kvfree` calls join
only to records that link back. -/
theorem live_ranges_disjoint {k₀ k₁ : Kernel} {start stop pdt : U32}
    (hle : start.toNat ≤ stop.toNat) (hinit : k₀.initVmalloc start stop pdt = .ok k₁)
    {tr : List (Session × HeapOp × Session)} {s : Session}
    (hrun : Run SessionStep (k₁, []) tr s) (hguard : Run.Guarded FreesLinked tr) :
    s.2.Pairwise RangesDisjoint ∧
      ∀ r ∈ s.2, start.toNat ≤ r.1.toNat ∧ r.1.toNat + r.2.toNat ≤ stop.toNat := by
  have hinv := hrun.invariant (sessionInv_init hle hinit) sessionInv_step hguard
  refine ⟨hinv.disjoint, ?_⟩
  obtain ⟨hs, he, l, hl, hlive⟩ := hinv
  intro r hr
  rw [← hs, ← he]
  exact taken_bounds hl (hlive.subset hr)

/-- Two blocks, one freed and allocated again. -/
theorem live_ranges_disjoint_reused : ∃ k₁ tr s,
    bareKernel.initVmalloc vmallocStart vmallocInitEnd kernelPdt = .ok k₁ ∧
      Run SessionStep (k₁, []) tr s ∧
      s.2 = [(0x3000000#32, 0x2000#32), (0x3002000#32, 0x1000#32)] ∧
      s.2.Pairwise RangesDisjoint ∧
      ∀ r ∈ s.2, vmallocStart.toNat ≤ r.1.toNat ∧ r.1.toNat + r.2.toNat ≤ vmallocInitEnd.toNat := by
  have hserved : (served [.kvmalloc 0x2000, .kvmalloc 0x1000, .kvfree 0x3000000,
      .kvmalloc 0x2000]).map (fun r => (decide (Run.Guarded FreesLinked r.2.1), r.2.2.2)) =
      some (true, [(0x3000000#32, 0x2000#32), (0x3002000#32, 0x1000#32)]) := by
    decide +kernel
  obtain ⟨k₁, tr, s, hinit, hrun, heq⟩ := served_run hserved
  obtain ⟨hguard, hlive⟩ := Prod.mk.inj heq
  exact ⟨k₁, tr, s, hinit, hrun, hlive,
    live_ranges_disjoint (by decide) hinit hrun (of_decide_eq_true hguard)⟩

/-- Blocks `A` of three pages and `B` of one; `A` is freed and its first page allocated again, then
the other two; both one-page blocks are freed, and three pages are allocated over the live two. -/
theorem live_ranges_overlap : ∃ k₁ tr s,
    bareKernel.initVmalloc vmallocStart vmallocInitEnd kernelPdt = .ok k₁ ∧
      Run SessionStep (k₁, []) tr s ∧ ¬ s.2.Pairwise RangesDisjoint := by
  have hserved : (served [.kvmalloc 0x3000, .kvmalloc 0x1000, .kvfree 0x3000000, .kvmalloc 0x1000,
      .kvmalloc 0x2000, .kvfree 0x3000000, .kvfree 0x3003000, .kvmalloc 0x3000]).map
      (fun r => r.2.2.2) = some [(0x3000000#32, 0x3000#32), (0x3001000#32, 0x2000#32)] := by
    decide +kernel
  obtain ⟨k₁, tr, s, hinit, hrun, hlive⟩ := served_run hserved
  refine ⟨k₁, tr, s, hinit, hrun, ?_⟩
  rw [hlive]
  simp [RangesDisjoint]

/-- The chain from `entry` is `l`: distinct records that tile the extent, linked both ways, no two
neighbours free, and exactly the records in use. -/
structure RepInvOn (start stop : U32) (m : VMemMan) (l : List BPtr) : Prop where
  list : Seg (fun p => (m.blocks p).next) (some m.entry) l none
  distinct : l.Nodup
  tiles : Tiles (fun p => (m.blocks p).addr.toNat) (fun p => (m.blocks p).size.toNat)
    start.toNat l stop.toNat
  linked : ∀ p ∈ l, ∀ q, (m.blocks p).next = some q → (m.blocks q).prev = some p
  entryPrev : (m.blocks m.entry).prev = none
  apart : ∀ p ∈ l, ∀ q, (m.blocks p).next = some q →
    ¬ (¬ (m.blocks p).Allocated ∧ ¬ (m.blocks q).Allocated)
  inUse : ∀ p, (m.blocks p).InUse ↔ p ∈ l

def RepInv (start stop : U32) (m : VMemMan) : Prop := ∃ l, RepInvOn start stop m l

/-- `vmalloc` stops at a block that is not the last one and is larger than the request. -/
def MiddleSplit (k : Kernel) (size : U32) : Prop :=
  ∃ p ∈ k.vmemman.findFit size vmemMaxUnits k.vmemman.entry,
    (k.vmemman.blocks p).next ≠ none ∧ size < (k.vmemman.blocks p).size

def NoMiddleSplit (k : Kernel) : HeapOp → Prop
  | .kvmalloc size _ => ¬ MiddleSplit k size
  | .kvfree _ => True

instance (k : Kernel) : (op : HeapOp) → Decidable (NoMiddleSplit k op)
  | .kvmalloc _ _ => inferInstanceAs (Decidable (¬ ∃ p ∈ _, _))
  | .kvfree _ => isTrue trivial

def HeapInv (start stop : U32) (k : Kernel) : Prop :=
  k.vmemman.extentStart = start ∧ k.vmemman.extentEnd = stop ∧
    ∃ l, Linked k.vmemman l ∧ Apart k.vmemman l

theorem HeapInv.repInv {start stop : U32} {k : Kernel} (h : HeapInv start stop k) :
    RepInv start stop k.vmemman := by
  obtain ⟨rfl, rfl, l, hl, hapart⟩ := h
  refine ⟨l, hl.list, hl.nodup, hl.tiles, hl.linked, hl.entryPrev, ?_, fun p => hl.inUse_iff⟩
  intro p hp q hq hfree
  rcases Apart.apply hapart hp hq with halloc | halloc
  · exact hfree.1 halloc
  · exact hfree.2 halloc

theorem heapInv_initVmalloc {k₀ k₁ : Kernel} {start stop pdt : U32}
    (hle : start.toNat ≤ stop.toNat) (hinit : k₀.initVmalloc start stop pdt = .ok k₁) :
    HeapInv start stop k₁ := by
  have hsound := Kernel.sound_initVmalloc hle hinit
  obtain ⟨hstart, hstop, _, _, _, _, hlinks, _⟩ := Kernel.initVmalloc_cases hinit
  refine ⟨hstart, hstop, [firstBlock], ⟨hsound, ?_, (hlinks _).2⟩, ?_⟩
  · intro p _ q hq
    rw [(hlinks p).1] at hq
    cases hq
  · intro p _ q hq
    rw [(hlinks p).1] at hq
    cases hq

theorem heapInv_call {start stop : U32} (k : Kernel) (op : HeapOp) (k' : Kernel)
    (h : HeapInv start stop k) (hguard : NoMiddleSplit k op) (hcall : HeapCall k op k') :
    HeapInv start stop k' := by
  obtain ⟨hstart, hstop, l, hl, hapart⟩ := h
  cases hcall with
  | kvmalloc fuel hmod hpos hret =>
    rename_i size addr
    obtain ⟨hs, he, _⟩ := Kernel.vmalloc_frame hl.toSound hmod hret
    refine ⟨hs.trans hstart, he.trans hstop, ?_⟩
    obtain ⟨p, hp, _, hfree, hle, hfit, hcase⟩ := Kernel.vmalloc_chain hl.toSound hmod hret
    rcases hcase with ⟨hmid, _, rfl⟩ | ⟨hcut, n, hn⟩
    · exact ⟨l, hl.markAllocated hapart (hl.toSound.markAllocated hp hfree hmid).1⟩
    · have hlast : (k.vmemman.blocks p).next = none := by
        apply Classical.byContradiction
        intro hmid
        exact hguard ⟨p, hfit, hmid, hcut.resolve_left hmid⟩
      obtain ⟨l₁, l₂, rfl⟩ := List.append_of_mem hp
      have hsound := hl.toSound.cut hn hfree hle (by omega) hcut
      exact ⟨l₁ ++ p :: n :: l₂, hl.cut_last hn hapart hsound hfree hlast⟩
  | kvfree fuel hret =>
    rcases Kernel.kvfree_chain hl.toSound hret with ⟨heq, _⟩ | ⟨p, hp, _, htaken, heq⟩
    · rw [HeapInv, heq]
      exact ⟨hstart, hstop, l, hl, hapart⟩
    · obtain ⟨hs, he, _⟩ := release_frame k.vmemman p
      rw [HeapInv, heq]
      exact ⟨hs.trans hstart, he.trans hstop, hl.release hapart hp htaken⟩

theorem middleSplit_breaks {start stop : U32} (k : Kernel) (op : HeapOp) (k' : Kernel)
    (h : HeapInv start stop k) (hsplit : ¬ NoMiddleSplit k op) (hcall : HeapCall k op k') :
    ¬ RepInv start stop k'.vmemman := by
  obtain ⟨_, _, l, hl, _⟩ := h
  cases hcall with
  | kvfree fuel hret => exact absurd trivial hsplit
  | kvmalloc fuel hmod hpos hret =>
    obtain ⟨p, hp, _, hfree, hle, hfit, hcase⟩ := Kernel.vmalloc_chain hl.toSound hmod hret
    obtain ⟨p₀, hfit₀, hmid, hlt⟩ := Classical.not_not.mp hsplit
    cases hfit.symm.trans hfit₀
    rcases hcase with ⟨_, hexact, _⟩ | ⟨hcut, n, hn⟩
    · rw [hexact] at hlt
      exact absurd hlt (BitVec.lt_irrefl _)
    · obtain ⟨q, hq⟩ := Option.ne_none_iff_exists'.mp hmid
      obtain ⟨l₁, l₂, rfl⟩ := List.append_of_mem hp
      have hsound := hl.toSound.cut hn hfree hle (by omega) hcut
      obtain ⟨hnext, hprev⟩ := hl.cut_middle hn hq
      rintro ⟨l', hrep⟩
      have hmem : n ∈ l' := by
        rw [hrep.list.unique hsound.list]
        exact mem_of_mem_middle mem_self_middle
      exact hprev (hrep.linked n hmem q hnext)

/-- The representation invariant holds all along a run exactly when no call takes the middle
split of `vmalloc`. -/
theorem repInv_iff {k₀ k₁ : Kernel} {start stop pdt : U32} (hle : start.toNat ≤ stop.toNat)
    (hinit : k₀.initVmalloc start stop pdt = .ok k₁)
    {tr : List (Kernel × HeapOp × Kernel)} {k : Kernel} (hrun : Run HeapCall k₁ tr k) :
    (RepInv start stop k₁.vmemman ∧ ∀ x ∈ tr, RepInv start stop x.2.2.vmemman) ↔
      Run.Guarded NoMiddleSplit tr :=
  hrun.forall_iff_guarded (P := fun k => RepInv start stop k.vmemman)
    (heapInv_initVmalloc hle hinit) heapInv_call (fun _ h => h.repInv) middleSplit_breaks

def kernelTrace (tr : List (Session × HeapOp × Session)) : List (Kernel × HeapOp × Kernel) :=
  tr.map fun x => (x.1.1, x.2.1, x.2.2.1)

/-- Two blocks, one freed and allocated again at its size. -/
theorem repInv_reused : ∃ k₁ tr k,
    bareKernel.initVmalloc vmallocStart vmallocInitEnd kernelPdt = .ok k₁ ∧
      Run HeapCall k₁ tr k ∧ tr.length = 4 ∧
      RepInv vmallocStart vmallocInitEnd k₁.vmemman ∧
      ∀ x ∈ tr, RepInv vmallocStart vmallocInitEnd x.2.2.vmemman := by
  have hserved : (served [.kvmalloc 0x2000, .kvmalloc 0x1000, .kvfree 0x3000000,
      .kvmalloc 0x2000]).map (fun r => (decide (Run.Guarded NoMiddleSplit (kernelTrace r.2.1)),
        (kernelTrace r.2.1).length)) = some (true, 4) := by
    decide +kernel
  obtain ⟨k₁, tr, s, hinit, hrun, heq⟩ := served_run hserved
  obtain ⟨hguard, hlen⟩ := Prod.mk.inj heq
  have hcalls := hrun.map Prod.fst SessionStep.heapCall
  exact ⟨k₁, kernelTrace tr, s.1, hinit, hcalls, hlen,
    (repInv_iff (by decide) hinit hcalls).mpr (of_decide_eq_true hguard)⟩

/-- A block of three pages, freed while the next one is live, is cut: record 3 is put between
records 0 and 1, and the `prev` of record 1 stays at record 0. -/
theorem repInv_broken : ∃ k₁ tr k,
    bareKernel.initVmalloc vmallocStart vmallocInitEnd kernelPdt = .ok k₁ ∧
      Run HeapCall k₁ tr k ∧ ¬ RepInv vmallocStart vmallocInitEnd k.vmemman := by
  have hserved : (served [.kvmalloc 0x3000, .kvmalloc 0x1000, .kvfree 0x3000000,
      .kvmalloc 0x1000]).map (fun r => ((r.2.2.1.vmemman.blocks r.2.2.1.vmemman.entry).next,
        (r.2.2.1.vmemman.blocks 3).next, (r.2.2.1.vmemman.blocks 1).prev)) =
      some (some 3, some 1, some 0) := by
    decide +kernel
  obtain ⟨k₁, tr, s, hinit, hrun, heq⟩ := served_run hserved
  simp only [Prod.mk.injEq] at heq
  obtain ⟨hentry, hnext, hprev⟩ := heq
  refine ⟨k₁, _, s.1, hinit, hrun.map Prod.fst SessionStep.heapCall, ?_⟩
  rintro ⟨l, hrep⟩
  have hmem : (3 : BPtr) ∈ l := by
    have hlist := hrep.list
    cases l with
    | nil => cases hlist
    | cons x l =>
      obtain ⟨hx, hlist⟩ := hlist
      cases hx
      cases l with
      | nil =>
        cases hlist.eq_of_nil.symm.trans hentry
      | cons y l =>
        have hy := hlist.1.symm.trans hentry
        cases hy
        exact List.mem_cons_of_mem _ List.mem_cons_self
  have hback := hrep.linked 3 hmem 1 hnext
  rw [hprev] at hback
  cases hback

end Uroboros
