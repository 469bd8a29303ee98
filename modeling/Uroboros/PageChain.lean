import Uroboros.VMallocSteps
import Uroboros.PageStore

/-!
# The pages behind a block

What `vmalloc` takes from the page manager: records that it finds unused, linked
from the `p_mem` of the block that they back, and the calls of `map_memory_4k`
in their order.
-/

set_option autoImplicit false

namespace Uroboros

open ByteMemory ForLoop

namespace PMemMan
variable {man man' man₁ man₂ : PMemMan} {pages l : List PPtr} {page last : PPtr}

/-- A page that is not in use links to no other. -/
def UnusedClear (man : PMemMan) : Prop :=
  ∀ i, (man.tbl i).flags = 0 → (man.tbl i).next = none

theorem pmalloc4kPage_cases (h : man.pmalloc4kPage = some (page, man')) :
    (man.tbl page).flags = 0 ∧
      man' = { man with
        tbl := Function.update man.tbl page { man.tbl page with flags := 1 } } := by
  obtain ⟨i, hi, heq⟩ := Option.map_eq_some_iff.mp h
  cases heq
  have hunused := (scan_eq_some_iff.mp hi).1
  exact ⟨by simpa using hunused, rfl⟩

/-- `man'` is `man` with the unused `pages` taken, whatever they link to. -/
structure Taken (man man' : PMemMan) (pages : List PPtr) : Prop where
  nodup : pages.Nodup
  unused : ∀ i ∈ pages, (man.tbl i).flags = 0
  used : ∀ i ∈ pages, (man'.tbl i).flags ≠ 0
  elsewhere : ∀ i, i ∉ pages → man'.tbl i = man.tbl i
  addr : ∀ i, (man'.tbl i).addr = (man.tbl i).addr

/-- `man'` is `man` with the unused `pages` taken, each linked to the following one. -/
structure Chained (man man' : PMemMan) (pages : List PPtr) : Prop where
  chain : Seg (fun i => (man'.tbl i).next) pages.head? pages none
  unused : ∀ i ∈ pages, (man.tbl i).flags = 0
  used : ∀ i ∈ pages, (man'.tbl i).flags ≠ 0
  elsewhere : ∀ i, i ∉ pages → man'.tbl i = man.tbl i
  addr : ∀ i, (man'.tbl i).addr = (man.tbl i).addr

theorem Chained.taken (h : Chained man man' pages) : Taken man man' pages :=
  ⟨h.chain.nodup, h.unused, h.used, h.elsewhere, h.addr⟩

theorem Taken.chained (h : Taken man man' pages)
    (chain : Seg (fun i => (man'.tbl i).next) pages.head? pages none) : Chained man man' pages :=
  ⟨chain, h.unused, h.used, h.elsewhere, h.addr⟩

theorem taken_singleton (h : man.pmalloc4kPage = some (page, man')) : Taken man man' [page] := by
  obtain ⟨hunused, rfl⟩ := pmalloc4kPage_cases h
  constructor
  · exact List.nodup_singleton page
  · exact List.forall_mem_singleton.mpr hunused
  · intro i hi
    cases List.mem_singleton.mp hi
    simp
  · intro i hi
    exact Function.update_of_ne (fun heq => hi (List.mem_singleton.mpr heq)) ..
  · intro i
    simp only [Function.update_apply]
    split
    · subst i
      rfl
    · rfl

theorem chained_singleton (hclear : man.UnusedClear)
    (h : man.pmalloc4kPage = some (page, man')) : Chained man man' [page] := by
  apply (taken_singleton h).chained
  obtain ⟨hunused, rfl⟩ := pmalloc4kPage_cases h
  refine ⟨rfl, ?_⟩
  change (Function.update man.tbl page _ page).next = none
  rw [Function.update_self]
  exact hclear page hunused

theorem Taken.free_ne (h : Taken man man₁ (l ++ [last])) (hfree : (man₁.tbl page).flags = 0) :
    page ∉ l ++ [last] ∧ page ≠ last := by
  have hnew : page ∉ l ++ [last] := fun hmem => h.used page hmem hfree
  refine ⟨hnew, ?_⟩
  rintro rfl
  exact hnew (List.mem_append_right _ List.mem_cons_self)

section Link
variable (hfree : (man₁.tbl page).flags = 0)
  (htbl : ∀ i, man'.tbl i =
    if i = last then { man₁.tbl last with next := some page }
    else if i = page then { man₁.tbl page with flags := 1 } else man₁.tbl i)
include hfree htbl

theorem Taken.link (h : Taken man man₁ (l ++ [last])) : Taken man man' (l ++ [last, page]) := by
  obtain ⟨hnew, hlast⟩ := h.free_ne hfree
  have hlist : l ++ [last, page] = (l ++ [last]) ++ [page] := by simp
  have hcases : ∀ i, i ∈ l ++ [last, page] → i ∈ l ++ [last] ∨ i = page := by
    intro i hi
    rw [hlist] at hi
    exact (List.mem_append.mp hi).imp_right List.mem_singleton.mp
  constructor
  · rw [hlist]
    refine List.nodup_append.mpr ⟨h.nodup, List.nodup_singleton page, ?_⟩
    rintro i hi j hj rfl
    exact hnew (List.mem_singleton.mp hj ▸ hi)
  · intro i hi
    rcases hcases i hi with hi | rfl
    · exact h.unused i hi
    · exact h.elsewhere i hnew ▸ hfree
  · intro i hi
    rw [htbl]
    rcases hcases i hi with hi | rfl
    · have hip : i ≠ page := fun heq => hnew (heq ▸ hi)
      have hused := h.used i hi
      rw [if_neg hip]
      split
      · subst i
        exact hused
      · exact hused
    · rw [if_neg hlast, if_pos rfl]
      change (1 : U8) ≠ 0
      decide
  · intro i hi
    rw [hlist] at hi
    have hil : i ∉ l ++ [last] := fun hmem => hi (List.mem_append_left _ hmem)
    have hip : i ≠ page := fun heq => hi (heq ▸ List.mem_append_right _ List.mem_cons_self)
    have hne : i ≠ last := fun heq => hil (heq ▸ List.mem_append_right _ List.mem_cons_self)
    rw [htbl, if_neg hne, if_neg hip, h.elsewhere i hil]
  · intro i
    rw [← h.addr i, htbl]
    split
    · subst i
      rfl
    · split
      · subst i
        rfl
      · rfl

theorem Chained.link (h : Chained man man₁ (l ++ [last])) (hclear : man.UnusedClear) :
    Chained man man' (l ++ [last, page]) := by
  obtain ⟨hnew, hlast⟩ := h.taken.free_ne hfree
  have hold : man₁.tbl page = man.tbl page := h.elsewhere page hnew
  have hunused : (man.tbl page).flags = 0 := hold ▸ hfree
  apply (h.taken.link hfree htbl).chained
  have hhead : (l ++ [last, page]).head? = (l ++ [last]).head? := by
    cases l <;> rfl
  have hend : (man₁.tbl last).next = none := (Seg.append_cons_iff.mp h.chain).2
  rw [hhead]
  apply h.chain.insert
  · rw [htbl, if_pos rfl]
  · rw [htbl, if_neg hlast, if_pos rfl, hend]
    exact hold ▸ hclear page hunused
  · intro i hi
    rw [List.append_nil] at hi
    have hil : i ≠ last := by
      rintro rfl
      exact notMem_front h.chain.nodup hi
    have hip : i ≠ page := fun heq => hnew (heq ▸ List.mem_append_left _ hi)
    rw [htbl, if_neg hil, if_neg hip]

end Link

theorem Taken.link_tbl (h : Taken man man₁ (l ++ [last]))
    (hpage : man₁.pmalloc4kPage = some (page, man₂)) (i : PPtr) :
    Function.update man₂.tbl last { man₂.tbl last with next := some page } i =
      if i = last then { man₁.tbl last with next := some page }
      else if i = page then { man₁.tbl page with flags := 1 } else man₁.tbl i := by
  obtain ⟨hfree, rfl⟩ := pmalloc4kPage_cases hpage
  have hne : last ≠ page := by
    rintro rfl
    exact h.used last (List.mem_append_right _ List.mem_cons_self) hfree
  simp only [Function.update_apply, hne, if_false]

theorem Chained.used_iff (h : Chained man man' pages) (i : PPtr) :
    (man'.tbl i).flags ≠ 0 ↔ (man.tbl i).flags ≠ 0 ∨ i ∈ pages := by
  by_cases hi : i ∈ pages
  · exact iff_of_true (h.used i hi) (.inr hi)
  · rw [h.elsewhere i hi]
    exact ⟨.inl, fun h => h.resolve_right hi⟩

theorem Chained.unusedClear (h : Chained man man' pages) (hclear : man.UnusedClear) :
    man'.UnusedClear := by
  intro i hi
  have hout : i ∉ pages := fun hmem => h.used i hmem hi
  rw [h.elsewhere i hout] at hi ⊢
  exact hclear i hi

theorem Chained.kept (h : Chained man man' pages) {a : Option PPtr}
    (hchain : Seg (fun i => (man.tbl i).next) a l none)
    (hused : ∀ i ∈ l, (man.tbl i).flags ≠ 0) :
    Seg (fun i => (man'.tbl i).next) a l none ∧ ∀ i ∈ l, (man'.tbl i).flags ≠ 0 := by
  have hout : ∀ i ∈ l, i ∉ pages := fun i hi hmem => hused i hi (h.unused i hmem)
  constructor
  · apply hchain.congr
    intro i hi
    rw [h.elsewhere i (hout i hi)]
  · intro i hi
    rw [h.elsewhere i (hout i hi)]
    exact hused i hi

end PMemMan

/-- The calls of `map_memory_4k` that put `pages` under the addresses from `a` on. -/
def backCalls (a : U32) (man : PMemMan) (pages : List PPtr) : List (U32 × U32) :=
  pages.mapIdx fun i page => (a + memPageSize * BitVec.ofNat 32 i, (man.tbl page).addr)

theorem mapAll_backCalls_snoc (m : Mem) (a : U32) (man : PMemMan) (pages : List PPtr)
    (page : PPtr) : mapAll m (backCalls a man (pages ++ [page])) =
      mapMemory4k (mapAll m (backCalls a man pages)) kernelPdt
        (a + memPageSize * BitVec.ofNat 32 pages.length) (man.tbl page).addr := by
  rw [backCalls, List.mapIdx_concat, mapAll, List.foldl_append]
  rfl

namespace Kernel
open PMemMan
variable {k k' : Kernel} {p : BPtr} {size : U32} {pages : List PPtr}

theorem pmalloc4kPage_ok {page : PPtr} (h : k.pmalloc4kPage = .ok (page, k')) :
    ∃ man, k.pmemman.pmalloc4kPage = some (page, man) ∧ k' = { k with pmemman := man } := by
  unfold pmalloc4kPage at h
  split at h
  · cases h
  · rename_i man hpage
    cases h
    exact ⟨man, hpage, rfl⟩

/-- `k'` is `k` with `pages` behind block `p`, whatever they link to. -/
structure Filled (k k' : Kernel) (p : BPtr) (pages : List PPtr) : Prop
    extends Taken k.pmemman k'.pmemman pages where
  vmemman : k'.vmemman = k.vmemman.modify p fun b => { b with pMem := pages.head? }
  mem : k'.mem = mapAll k.mem (backCalls (k.vmemman.blocks p).addr k.pmemman pages)

/-- `k'` is `k` with `pages` behind block `p`. -/
structure Backed (k k' : Kernel) (p : BPtr) (pages : List PPtr) : Prop
    extends Chained k.pmemman k'.pmemman pages where
  vmemman : k'.vmemman = k.vmemman.modify p fun b => { b with pMem := pages.head? }
  mem : k'.mem = mapAll k.mem (backCalls (k.vmemman.blocks p).addr k.pmemman pages)

theorem Filled.backed (h : Filled k k' p pages)
    (hchain : Chained k.pmemman k'.pmemman pages) : Backed k k' p pages :=
  ⟨hchain, h.vmemman, h.mem⟩

theorem Backed.filled (h : Backed k k' p pages) : Filled k k' p pages :=
  ⟨h.toChained.taken, h.vmemman, h.mem⟩

theorem Filled.next {l : List PPtr} {s s' : PPtr × Kernel} (h : Filled k s.2 p (l ++ [s.1]))
    (hpass : backNextPage p l.length s = .ok s') : Filled k s'.2 p (l ++ [s.1] ++ [s'.1]) := by
  obtain ⟨⟨newPage, k₁⟩, hpage, hret⟩ := bind_ok hpass
  obtain ⟨man, hman, rfl⟩ := pmalloc4kPage_ok hpage
  cases hret
  have htaken : Taken k.pmemman { man with tbl := _ } (l ++ [s.1, newPage]) :=
    h.toTaken.link (pmalloc4kPage_cases hman).1 (h.toTaken.link_tbl hman)
  have hlist : l ++ [s.1] ++ [newPage] = l ++ [s.1, newPage] := by simp
  have haddr : ((s.2.vmemman.blocks p).addr) = (k.vmemman.blocks p).addr := by
    rw [h.vmemman, VMemMan.modify_same]
  refine ⟨hlist ▸ htaken, ?_, ?_⟩
  · have hhead : (l ++ [s.1] ++ [newPage]).head? = (l ++ [s.1]).head? := by
      cases l <;> rfl
    rw [hhead]
    exact h.vmemman
  · rw [mapAll_backCalls_snoc, ← h.mem, List.length_append, List.length_singleton, ← haddr]
    exact congrArg (Uroboros.mapMemory4k s.2.mem kernelPdt _) (htaken.addr newPage)

theorem Backed.next {l : List PPtr} {s s' : PPtr × Kernel} (h : Backed k s.2 p (l ++ [s.1]))
    (hclear : k.pmemman.UnusedClear) (hpass : backNextPage p l.length s = .ok s') :
    Backed k s'.2 p (l ++ [s.1] ++ [s'.1]) := by
  apply (h.filled.next hpass).backed
  obtain ⟨⟨newPage, k₁⟩, hpage, hret⟩ := bind_ok hpass
  obtain ⟨man, hman, rfl⟩ := pmalloc4kPage_ok hpage
  cases hret
  have hlist : l ++ [s.1] ++ [newPage] = l ++ [s.1, newPage] := by simp
  rw [hlist]
  exact h.toChained.link (pmalloc4kPage_cases hman).1 (h.filled.toTaken.link_tbl hman) hclear

theorem backBlock_filled (h : k.backBlock p size = .ok k') :
    ∃ pages, Filled k k' p pages ∧ pages.length = (memNpage size).toNat - 1 + 1 ∧
      (k.pmemman.UnusedClear → Backed k k' p pages) := by
  obtain ⟨⟨pMem, k₁⟩, hpage, hrest⟩ := bind_ok h
  obtain ⟨⟨last, k₂⟩, hloop, hret⟩ := bind_ok hrest
  cases hret
  obtain ⟨man, hman, rfl⟩ := pmalloc4kPage_ok hpage
  have htaken := taken_singleton hman
  have hloop' := forLoopM_invariant
    (fun (i : Nat) (s : PPtr × Kernel) => ∃ l, Filled k s.2 p (l ++ [s.1]) ∧ l.length = i ∧
      (k.pmemman.UnusedClear → Backed k s.2 p (l ++ [s.1])))
    ?_ ?_ hloop
  · obtain ⟨l, hfilled, hlen, hbacked⟩ := hloop'
    exact ⟨l ++ [last], hfilled, by rw [List.length_append, hlen]; rfl, hbacked⟩
  · refine ⟨[], ?first, rfl,
      fun hclear => Filled.backed ?first (chained_singleton hclear hman)⟩
    have haddr := htaken.addr pMem
    refine ⟨htaken, rfl, ?_⟩
    simp [mapAll, backCalls, mapMemory4k, haddr]
  · rintro i s s' _ ⟨l, hfilled, rfl, hbacked⟩ hpass
    exact ⟨l ++ [s.1], hfilled.next hpass, by simp,
      fun hclear => (hbacked hclear).next hclear hpass⟩

/-- `k'` is `k` with block `p` allocated and cut to `size` bytes, which `pages` back, whatever they
link to. -/
structure CutOff (k k' : Kernel) (p n : BPtr) (size : U32) (pages : List PPtr) : Prop
    extends Taken k.pmemman k'.pmemman pages where
  cut : Cut k.vmemman k'.vmemman p n size
  length : pages.length = (memNpage size).toNat - 1 + 1
  pMem : ∀ q, (k'.vmemman.blocks q).pMem =
    if q = p then pages.head? else (k.vmemman.blocks q).pMem
  mem : k'.mem = mapAll k.mem (backCalls (k.vmemman.blocks p).addr k.pmemman pages)

theorem splitBlock_cutOff (hp : (k.vmemman.blocks p).InUse)
    (h : (k.markAllocated p).splitBlock p size = .ok k') : ∃ n pages, CutOff k k' p n size pages ∧
      (k.pmemman.UnusedClear → Chained k.pmemman k'.pmemman pages) := by
  obtain ⟨n, hcut⟩ := splitBlock_cut hp h
  obtain ⟨m, hins, hback⟩ := bind_ok h
  obtain ⟨n', hn'⟩ := VMemMan.insertBlock_cases (markAllocated_inUse.mpr hp) hins
  obtain ⟨pages, hfilled, hlen, hbacked⟩ :=
    backBlock_filled (k := { k.markAllocated p with vmemman := m }) hback
  have hpn : p ≠ n' := by
    intro heq
    exact hn'.fresh (heq ▸ markAllocated_inUse.mpr hp)
  have haddr : (m.blocks p).addr = (k.vmemman.blocks p).addr := by
    rw [hn'.blocks, if_neg hpn, if_pos rfl, markAllocated_blocks, if_pos rfl]
  refine ⟨n, pages, ⟨hfilled.toTaken, hcut, hlen, ?_, ?_⟩,
    fun hclear => (hbacked hclear).toChained⟩
  · intro q
    rw [hfilled.vmemman, VMemMan.modify_blocks, hn'.blocks, hn'.blocks]
    simp only [markAllocated_blocks]
    split
    · rfl
    · split
      · subst q
        rw [if_neg hpn.symm]
      · rfl
  · exact haddr ▸ hfilled.mem

/-- `k'` is `k` with block `p` allocated and cut to `size` bytes, which `pages` back. -/
structure Carved (k k' : Kernel) (p n : BPtr) (size : U32) (pages : List PPtr) : Prop
    extends Chained k.pmemman k'.pmemman pages where
  cut : Cut k.vmemman k'.vmemman p n size
  length : pages.length = (memNpage size).toNat - 1 + 1
  pMem : ∀ q, (k'.vmemman.blocks q).pMem =
    if q = p then pages.head? else (k.vmemman.blocks q).pMem
  mem : k'.mem = mapAll k.mem (backCalls (k.vmemman.blocks p).addr k.pmemman pages)

theorem splitBlock_carved (hclear : k.pmemman.UnusedClear) (hp : (k.vmemman.blocks p).InUse)
    (h : (k.markAllocated p).splitBlock p size = .ok k') :
    ∃ n pages, Carved k k' p n size pages := by
  obtain ⟨n, pages, hcut, hchain⟩ := splitBlock_cutOff hp h
  exact ⟨n, pages, hchain hclear, hcut.cut, hcut.length, hcut.pMem, hcut.mem⟩

theorem initVmallocPage_chained {i : Nat} (hclear : k.pmemman.UnusedClear)
    (hpass : initVmallocPage i k = .ok k') :
    ∃ page, Chained k.pmemman k'.pmemman [page] ∧
      k'.mem = mapAll k.mem
        (backCalls (vmallocManAddr + BitVec.ofNat 32 i * memPageSize) k.pmemman [page]) := by
  obtain ⟨⟨page, k₁⟩, hpage, hret⟩ := bind_ok hpass
  obtain ⟨man, hman, rfl⟩ := pmalloc4kPage_ok hpage
  cases hret
  have hchain := chained_singleton hclear hman
  refine ⟨page, hchain, ?_⟩
  have haddr := hchain.addr page
  simp [mapAll, backCalls, mapMemory4k, haddr]

theorem initVmalloc_invariant {P : Kernel → Prop} {start stop pdt : U32} (init : P k)
    (pass : ∀ i k k', i < 2 → P k → initVmallocPage i k = .ok k' → P k')
    (frame : ∀ k vmemman, P k → P { k with vmemman })
    (h : k.initVmalloc start stop pdt = .ok k') : P k' := by
  obtain ⟨k₁, hloop, hret⟩ := bind_ok h
  cases hret
  have hnpage : (memNpage sizeofVMemMan).toNat = 2 := by decide
  rw [hnpage] at hloop
  exact frame k₁ _ (forLoopM_invariant (fun _ => P) init pass hloop)

theorem initVmalloc_unusedClear {start stop pdt : U32} (hclear : k.pmemman.UnusedClear)
    (h : k.initVmalloc start stop pdt = .ok k') : k'.pmemman.UnusedClear := by
  refine initVmalloc_invariant (P := fun k => k.pmemman.UnusedClear) hclear ?_
    (fun _ _ hk => hk) h
  intro i k k' _ hk hpass
  obtain ⟨page, hchain, _⟩ := initVmallocPage_chained hk hpass
  exact hchain.unusedClear hk

end Kernel

end Uroboros
