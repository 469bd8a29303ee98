import Mathlib.Order.Bounds.Basic
import Uroboros.Lib.Run
import Uroboros.PMallocMemory

/-!
# Pages that come back

`pfree` beside `pmalloc_4k`: what holds of the pages that are live after any
calls, and what becomes of the calls that `mem.c` does not expect.
-/

set_option autoImplicit false

namespace Uroboros

open ForLoop

namespace PMemMan

/-- `man->tbl[i].flags = 0`. -/
def release (man : PMemMan) (i : PPtr) : PMemMan :=
  { man with tbl := Function.update man.tbl i { man.tbl i with flags := 0 } }

/-- Nothing when the index leaves `tbl`. -/
def pfree (man : PMemMan) (addr : U32) : Option PMemMan :=
  let page := rounddown addr memPageSize
  let index := (page - man.baseAddr) / memPageSize
  if h : index.toNat < pmallocMaxPage then some (man.release ⟨index.toNat, h⟩) else none

/-- Nothing when the record of the page would be that of `NULL`. -/
def pmalloc4k (man : PMemMan) : Option (U32 × PMemMan) :=
  man.pmalloc4kPage.map fun r => ((r.2.tbl r.1).addr, r.2)

def pmallocMany : Nat → PMemMan → Option (List U32 × PMemMan)
  | 0, man => some ([], man)
  | k + 1, man => man.pmalloc4k.bind fun r =>
    (pmallocMany k r.2).map fun rest => (r.1 :: rest.1, rest.2)

def pageAt (startAddr : U32) (i : Nat) : U32 := startAddr + BitVec.ofNat 32 i * memPageSize

variable {man : PMemMan} {startAddr addr a d : U32} {i j k : Nat}

theorem toNat_rounddown (x : U32) : (rounddown x memPageSize).toNat = x.toNat / 4096 * 4096 := by
  have hx := x.isLt
  have hpage : memPageSize.toNat = 4096 := rfl
  rw [rounddown, BitVec.toNat_mul, BitVec.toNat_udiv, hpage]
  omega

theorem toNat_pageAt (hfit : startAddr.toNat + pmallocMaxPage * 4096 < 2 ^ 32)
    (hi : i < pmallocMaxPage) : (pageAt startAddr i).toNat = startAddr.toNat + 4096 * i := by
  unfold pageAt memPageSize
  unfold pmallocMaxPage at hfit hi
  bv_omega

theorem pfree_of_index (hpage : (rounddown addr memPageSize - man.baseAddr).toNat / 4096 = i)
    (hi : i < pmallocMaxPage) : man.pfree addr = some (man.release ⟨i, hi⟩) := by
  subst hpage
  exact dif_pos hi

theorem pfree_eq_none (h : pmallocMaxPage ≤
    (rounddown addr memPageSize - man.baseAddr).toNat / 4096) : man.pfree addr = none :=
  dif_neg (Nat.not_lt.mpr h)

theorem pfree_pageAt (hbase : man.baseAddr = startAddr) (halign : startAddr.toNat % 4096 = 0)
    (hfit : startAddr.toNat + pmallocMaxPage * 4096 < 2 ^ 32) (hi : i < pmallocMaxPage)
    (hd : d.toNat < 4096) : man.pfree (pageAt startAddr i + d) = some (man.release ⟨i, hi⟩) := by
  apply pfree_of_index
  have hpage := toNat_pageAt hfit hi
  have hround := toNat_rounddown (pageAt startAddr i + d)
  unfold pmallocMaxPage at hfit hi
  rw [hbase]
  bv_omega

/-- A manager and the addresses that it has handed out and not got back. -/
structure Pool where
  man : PMemMan
  live : List U32

inductive Call where
  | alloc (a : U32)
  | free (a d : U32)

/-- `alloc a` is a call that returns the page at `a`, `free a d` the call `pfree(a + d)` for a page
that is live. -/
def Step : Pool → Call → Pool → Prop
  | s, .alloc a, t => ∃ i, s.man.pmalloc4kPage = some (i, t.man) ∧ a = (t.man.tbl i).addr ∧
      t.live = a :: s.live
  | s, .free a d, t => a ∈ s.live ∧ d.toNat < 4096 ∧ s.man.pfree (a + d) = some t.man ∧
      t.live = s.live.erase a

/-- The addresses of the pages that the table marks used. -/
def usedPages (man : PMemMan) : Set U32 := {a | ∃ i, (man.tbl i).flags ≠ 0 ∧ a = (man.tbl i).addr}

structure Contract (startAddr : U32) (s : Pool) : Prop where
  distinct : s.live.Nodup
  inside : ∀ a ∈ s.live, a.toNat % 4096 = 0 ∧ startAddr.toNat ≤ a.toNat ∧
    a.toNat + 4096 ≤ startAddr.toNat + pmallocMaxPage * 4096
  used : s.man.usedPages = {a | a ∈ s.live}
  lowest : (∃ i < pmallocMaxPage, pageAt startAddr i ∉ s.live) →
    ∃ i man', s.man.pmalloc4kPage = some (i, man') ∧
      IsLeast {x | ∃ j < pmallocMaxPage, x = startAddr.toNat + 4096 * j ∧
        pageAt startAddr j ∉ s.live} (man'.tbl i).addr.toNat ∧
      man'.usedPages = {a | a = (man'.tbl i).addr ∨ a ∈ s.live}
  releases : ∀ a ∈ s.live, ∀ d : U32, d.toNat < 4096 → ∃ man', s.man.pfree (a + d) = some man' ∧
    man'.usedPages = {b | b ∈ s.live ∧ b ≠ a}

/-- The table of a manager that started at `startAddr` describes the live pages. -/
structure Describes (startAddr : U32) (s : Pool) : Prop where
  base : s.man.baseAddr = startAddr
  addr : ∀ i : PPtr, (s.man.tbl i).addr = pageAt startAddr i
  nodup : s.live.Nodup
  flags : ∀ i : PPtr, (s.man.tbl i).flags ≠ 0 ↔ pageAt startAddr i ∈ s.live
  pages : ∀ a ∈ s.live, ∃ i < pmallocMaxPage, a = pageAt startAddr i

variable {s t : Pool} {man' : PMemMan} {p : PPtr}

theorem pageAt_inj (hfit : startAddr.toNat + pmallocMaxPage * 4096 < 2 ^ 32)
    (hi : i < pmallocMaxPage) (hj : j < pmallocMaxPage)
    (h : pageAt startAddr i = pageAt startAddr j) : i = j := by
  have hnat := congrArg BitVec.toNat h
  rw [toNat_pageAt hfit hi, toNat_pageAt hfit hj] at hnat
  omega

theorem pageAt_ne (hfit : startAddr.toNat + pmallocMaxPage * 4096 < 2 ^ 32) {q : PPtr}
    (h : q ≠ p) : pageAt startAddr q ≠ pageAt startAddr p :=
  fun heq => h (Fin.ext (pageAt_inj hfit q.isLt p.isLt heq))

theorem addr_update_flags (man : PMemMan) (p q : PPtr) (x : U8) :
    (Function.update man.tbl p { man.tbl p with flags := x } q).addr = (man.tbl q).addr := by
  by_cases hq : q = p
  · rw [hq, Function.update_self]
  · rw [Function.update_of_ne hq]

theorem pmalloc4kPage_eq_some : man.pmalloc4kPage = some (p, man') ↔
    (man.tbl p).flags = 0 ∧ (∀ l < p, (man.tbl l).flags ≠ 0) ∧
      man' = { man with tbl := Function.update man.tbl p { man.tbl p with flags := 1 } } := by
  rw [pmalloc4kPage, Option.map_eq_some_iff]
  constructor
  · rintro ⟨q, hscan, heq⟩
    obtain ⟨rfl, rfl⟩ := Prod.mk.inj heq
    obtain ⟨hfree, hused⟩ := scan_eq_some_iff.mp hscan
    exact ⟨beq_iff_eq.mp hfree, fun l hl => beq_eq_false_iff_ne.mp (hused l hl), rfl⟩
  · rintro ⟨hfree, hused, rfl⟩
    exact ⟨p, scan_eq_some_iff.mpr
      ⟨beq_iff_eq.mpr hfree, fun l hl => beq_eq_false_iff_ne.mpr (hused l hl)⟩, rfl⟩

theorem pmalloc4kPage_eq_none :
    man.pmalloc4kPage = none ↔ ∀ l, (man.tbl l).flags ≠ 0 := by
  rw [pmalloc4kPage, Option.map_eq_none_iff, scan_eq_none_iff]
  exact forall_congr' fun l => beq_eq_false_iff_ne

theorem describes_init (startAddr : U32) : Describes startAddr ⟨initPmalloc startAddr, []⟩ where
  base := rfl
  addr _ := rfl
  nodup := List.nodup_nil
  flags _ := iff_of_false (fun h => h rfl) List.not_mem_nil
  pages _ ha := absurd ha List.not_mem_nil

namespace Describes

section
variable (h : Describes startAddr s)
include h

theorem usedPages : s.man.usedPages = {a | a ∈ s.live} := by
  ext a
  constructor
  · rintro ⟨q, hq, rfl⟩
    rw [h.addr]
    exact (h.flags q).mp hq
  · intro ha
    obtain ⟨n, hn, rfl⟩ := h.pages a ha
    exact ⟨⟨n, hn⟩, (h.flags ⟨n, hn⟩).mpr ha, (h.addr ⟨n, hn⟩).symm⟩

theorem alloc (hfit : startAddr.toNat + pmallocMaxPage * 4096 < 2 ^ 32)
    (halloc : s.man.pmalloc4kPage = some (p, man')) :
    (man'.tbl p).addr = pageAt startAddr p ∧ pageAt startAddr p ∉ s.live ∧
      (∀ j < p.val, pageAt startAddr j ∈ s.live) ∧
      Describes startAddr ⟨man', pageAt startAddr p :: s.live⟩ := by
  obtain ⟨hfree, hused, rfl⟩ := pmalloc4kPage_eq_some.mp halloc
  have hnew : pageAt startAddr p ∉ s.live := fun hin => (h.flags p).mpr hin hfree
  have haddr : ∀ q : PPtr, (Function.update s.man.tbl p { s.man.tbl p with flags := 1 } q).addr =
      pageAt startAddr q := fun q => (addr_update_flags _ p q 1).trans (h.addr q)
  refine ⟨haddr p, hnew, ?_, h.base, haddr, List.nodup_cons.mpr ⟨hnew, h.nodup⟩, ?_, ?_⟩
  · intro j hj
    exact (h.flags ⟨j, Nat.lt_trans hj p.isLt⟩).mp (hused _ hj)
  · intro q
    dsimp only
    rw [List.mem_cons]
    by_cases hq : q = p
    · rw [hq, Function.update_self]
      exact iff_of_true (show (1 : U8) ≠ 0 by decide) (.inl rfl)
    · rw [Function.update_of_ne hq, h.flags q, or_iff_right (pageAt_ne hfit hq)]
  · intro a ha
    rcases List.mem_cons.mp ha with rfl | ha
    · exact ⟨p, p.isLt, rfl⟩
    · exact h.pages a ha

theorem release (hfit : startAddr.toNat + pmallocMaxPage * 4096 < 2 ^ 32) :
    Describes startAddr ⟨s.man.release p, s.live.erase (pageAt startAddr p)⟩ := by
  refine ⟨h.base, fun q => (addr_update_flags _ p q 0).trans (h.addr q), h.nodup.erase _, ?_, ?_⟩
  · intro q
    dsimp only [PMemMan.release]
    rw [h.nodup.mem_erase_iff]
    by_cases hq : q = p
    · rw [hq, Function.update_self]
      exact iff_of_false (fun hne => hne rfl) fun hin => hin.1 rfl
    · rw [Function.update_of_ne hq, h.flags q, and_iff_right (pageAt_ne hfit hq)]
  · intro a ha
    exact h.pages a (List.mem_of_mem_erase ha)

theorem free (halign : startAddr.toNat % 4096 = 0)
    (hfit : startAddr.toNat + pmallocMaxPage * 4096 < 2 ^ 32) (ha : a ∈ s.live)
    (hd : d.toNat < 4096) : ∃ man', s.man.pfree (a + d) = some man' ∧
      Describes startAddr ⟨man', s.live.erase a⟩ := by
  obtain ⟨n, hn, rfl⟩ := h.pages a ha
  exact ⟨_, pfree_pageAt h.base halign hfit hn hd, h.release hfit⟩

end

theorem step (halign : startAddr.toNat % 4096 = 0)
    (hfit : startAddr.toNat + pmallocMaxPage * 4096 < 2 ^ 32) (c : Call)
    (h : Describes startAddr s) (hstep : Step s c t) : Describes startAddr t := by
  obtain ⟨man, live⟩ := t
  cases c with
  | alloc a =>
    obtain ⟨p, halloc, ha, hlive⟩ := hstep
    obtain ⟨haddr, _, _, hnext⟩ := h.alloc hfit halloc
    rw [haddr] at ha
    rw [ha] at hlive
    rwa [← hlive] at hnext
  | free a d =>
    obtain ⟨ha, hd, hfree, rfl⟩ := hstep
    obtain ⟨man', hman, hnext⟩ := h.free halign hfit ha hd
    obtain rfl := Option.some.inj (hfree.symm.trans hman)
    exact hnext

theorem contract (h : Describes startAddr s) (halign : startAddr.toNat % 4096 = 0)
    (hfit : startAddr.toNat + pmallocMaxPage * 4096 < 2 ^ 32) : Contract startAddr s where
  distinct := h.nodup
  inside a ha := by
    obtain ⟨n, hn, rfl⟩ := h.pages a ha
    rw [toNat_pageAt hfit hn]
    omega
  used := h.usedPages
  lowest := by
    rintro ⟨n, hn, hout⟩
    cases halloc : s.man.pmalloc4kPage with
    | none => exact absurd ((h.flags ⟨n, hn⟩).mp (pmalloc4kPage_eq_none.mp halloc _)) hout
    | some r =>
      obtain ⟨p, man'⟩ := r
      obtain ⟨haddr, hnew, hbelow, hnext⟩ := h.alloc hfit halloc
      refine ⟨p, man', rfl, ⟨⟨p, p.isLt, ?_, hnew⟩, ?_⟩, ?_⟩
      · rw [haddr, toNat_pageAt hfit p.isLt]
      · rintro x ⟨j, hj, rfl, hfree⟩
        have hpj : ¬ j < p.val := fun hlt => hfree (hbelow j hlt)
        rw [haddr, toNat_pageAt hfit p.isLt]
        omega
      · rw [haddr, hnext.usedPages]
        simp only [List.mem_cons]
  releases a ha d hd := by
    obtain ⟨man', hman, hnext⟩ := h.free halign hfit ha hd
    refine ⟨man', hman, ?_⟩
    rw [hnext.usedPages]
    ext b
    exact h.nodup.mem_erase_iff.trans and_comm

end Describes

theorem pmallocMany_firstUsed (startAddr : U32) (hk : j + k ≤ pmallocMaxPage) :
    pmallocMany k (firstUsed startAddr j) =
      some ((List.range' j k).map (pageAt startAddr), firstUsed startAddr (j + k)) := by
  induction k generalizing j with
  | zero => rfl
  | succ k ih =>
    have hj : j < pmallocMaxPage := by omega
    have hnext : (firstUsed startAddr j).pmalloc4k =
        some (pageAt startAddr j, firstUsed startAddr (j + 1)) := by
      rw [pmalloc4k, pmalloc4kPage_firstUsed startAddr hj]
      rfl
    rw [pmallocMany, hnext, Option.bind_some, ih (by omega), Option.map_some, List.range'_succ,
      List.map_cons, Nat.add_assoc, Nat.add_comm 1 k]

/-- The contract holds after any calls, and a fresh manager hands out one page after the other. -/
theorem contract_of_run (startAddr : U32) (halign : startAddr.toNat % 4096 = 0)
    (hfit : startAddr.toNat + pmallocMaxPage * 4096 < 2 ^ 32) :
    (∀ tr s, Run Step ⟨initPmalloc startAddr, []⟩ tr s → Contract startAddr s) ∧
      ∀ k ≤ pmallocMaxPage, ∃ addrs man, pmallocMany k (initPmalloc startAddr) = some (addrs, man) ∧
        addrs.map BitVec.toNat = (List.range k).map fun i => startAddr.toNat + 4096 * i := by
  constructor
  · intro tr s hrun
    have hdescribes : Describes startAddr s :=
      hrun.invariant (C := fun _ _ => True) (describes_init startAddr)
        (fun _ c _ h _ hstep => h.step halign hfit c hstep) fun _ _ => trivial
    exact hdescribes.contract halign hfit
  · intro k hk
    have hmany := pmallocMany_firstUsed startAddr (j := 0) (k := k) (by omega)
    rw [firstUsed_zero, ← List.range_eq_range'] at hmany
    refine ⟨_, _, hmany, ?_⟩
    rw [List.map_map, List.map_inj_left]
    intro i hi
    exact toNat_pageAt hfit (Nat.lt_of_lt_of_le (List.mem_range.mp hi) hk)

/-- The first page of the kernel, handed out and given back through an address inside it. -/
theorem contract_pmallocStart :
    Contract pmallocStart ⟨(firstUsed pmallocStart 1).release ⟨0, by decide⟩, []⟩ ∧
      ∃ addrs man, pmallocMany 2 (initPmalloc pmallocStart) = some (addrs, man) ∧
        addrs.map BitVec.toNat = [0x01000000, 0x01001000] := by
  have halloc : (initPmalloc pmallocStart).pmalloc4kPage =
      some (⟨0, by decide⟩, firstUsed pmallocStart 1) := by
    rw [← firstUsed_zero]
    exact pmalloc4kPage_firstUsed pmallocStart (by decide)
  have hfree : (firstUsed pmallocStart 1).pfree (pmallocStart + 5) =
      some ((firstUsed pmallocStart 1).release ⟨0, by decide⟩) :=
    pfree_of_index (by decide) (by decide)
  have hfirst : Step ⟨initPmalloc pmallocStart, []⟩ (.alloc pmallocStart)
      ⟨firstUsed pmallocStart 1, [pmallocStart]⟩ := ⟨_, halloc, by decide, rfl⟩
  have hsecond : Step ⟨firstUsed pmallocStart 1, [pmallocStart]⟩ (.free pmallocStart 5)
      ⟨(firstUsed pmallocStart 1).release ⟨0, by decide⟩, []⟩ :=
    ⟨by decide, by decide, hfree, by decide⟩
  obtain ⟨hall, hmany⟩ := contract_of_run pmallocStart (by decide) (by decide)
  exact ⟨hall _ _ (.snoc (.snoc (.nil _) hfirst) hsecond), hmany 2 (by decide)⟩

/-- The address lies in one of the pages. -/
def Manages (man : PMemMan) (addr : U32) : Prop :=
  (addr - man.baseAddr).toNat < pmallocMaxPage * 4096

def lastPage : PPtr := ⟨pmallocMaxPage - 1, by decide⟩

/-- A request that cannot be met yields `NULL`, and a foreign address changes nothing. -/
def ErrorPathsSafe (man : PMemMan) (addr : U32) : Prop :=
  ((∀ i, (man.tbl i).flags ≠ 0) → man.pmalloc4k = some (0, man)) ∧
    ∃ man', man.pfree addr = some man' ∧ (¬ man.Manages addr → man' = man)

theorem pmalloc4k_eq_none : man.pmalloc4k = none ↔ ∀ l, (man.tbl l).flags ≠ 0 := by
  rw [pmalloc4k, Option.map_eq_none_iff, pmalloc4kPage_eq_none]

theorem release_eq_self_iff : man.release p = man ↔ (man.tbl p).flags = 0 := by
  constructor
  · intro h
    have hflags : ((man.release p).tbl p).flags = 0 := by
      dsimp only [release]
      rw [Function.update_self]
    rwa [h] at hflags
  · intro h
    have hsame : { man.tbl p with flags := 0 } = man.tbl p := by rw [← h]
    rw [release, hsame, Function.update_eq_self]

/-- Only the end of the last page can lie in the table and not in the pages. -/
theorem index_of_not_manages (hin : (rounddown addr memPageSize - man.baseAddr).toNat / 4096 <
      pmallocMaxPage) (hout : ¬ man.Manages addr) :
    (rounddown addr memPageSize - man.baseAddr).toNat / 4096 = lastPage.val := by
  have hround := toNat_rounddown addr
  unfold Manages at hout
  unfold lastPage
  unfold pmallocMaxPage at hin hout ⊢
  dsimp only
  bv_omega

/-- Both calls go right exactly when a page is free and the address belongs to a page of the table:
with a base between two pages, the last record may belong to an address behind the pages. -/
theorem error_paths_iff (man : PMemMan) (addr : U32) : man.ErrorPathsSafe addr ↔
    (∃ i, (man.tbl i).flags = 0) ∧ man.Manages (rounddown addr memPageSize) ∧
      (man.Manages addr ∨ (man.tbl lastPage).flags = 0) := by
  constructor
  · rintro ⟨hfull, man', hman, hforeign⟩
    have hin : (rounddown addr memPageSize - man.baseAddr).toNat / 4096 < pmallocMaxPage := by
      by_contra hout
      rw [pfree_eq_none (Nat.not_lt.mp hout)] at hman
      exact absurd hman.symm (Option.some_ne_none man')
    refine ⟨?_, ?_, ?_⟩
    · by_contra hno
      have hused : ∀ i, (man.tbl i).flags ≠ 0 := fun i hi => hno ⟨i, hi⟩
      have hnull := hfull hused
      rw [pmalloc4k_eq_none.mpr hused] at hnull
      exact absurd hnull.symm (Option.some_ne_none _)
    · unfold Manages
      omega
    · by_cases hmanages : man.Manages addr
      · exact .inl hmanages
      · right
        have hlast := index_of_not_manages hin hmanages
        rw [pfree_of_index hlast lastPage.isLt, hforeign hmanages] at hman
        exact release_eq_self_iff.mp (Option.some.inj hman)
  · rintro ⟨⟨i, hi⟩, hpage, hlast⟩
    have hin : (rounddown addr memPageSize - man.baseAddr).toNat / 4096 < pmallocMaxPage := by
      unfold Manages at hpage
      omega
    refine ⟨fun hused => absurd hi (hused i), _, pfree_of_index rfl hin, ?_⟩
    intro hforeign
    have hindex := index_of_not_manages hin hforeign
    rw [release_eq_self_iff, show (⟨_, hin⟩ : PPtr) = lastPage from Fin.ext hindex]
    exact hlast.resolve_left hforeign

/-- With all pages used the record of `NULL` is read; page 0 is not that of the manager. -/
theorem error_paths_unsafe :
    ¬ ∀ (man : PMemMan) (addr : U32), man.ErrorPathsSafe addr := by
  intro hall
  have hused : ∀ i, ((firstUsed pmallocStart pmallocMaxPage).tbl i).flags ≠ 0 := by
    intro i
    have hflags : ((firstUsed pmallocStart pmallocMaxPage).tbl i).flags = 1 := if_pos i.isLt
    rw [hflags]
    decide
  have hnull := (hall (firstUsed pmallocStart pmallocMaxPage) 0).1 hused
  rw [pmalloc4k_eq_none.mpr hused] at hnull
  exact absurd hnull.symm (Option.some_ne_none _)

end PMemMan

end Uroboros
