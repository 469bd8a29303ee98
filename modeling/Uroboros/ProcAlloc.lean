import Uroboros.Mtask
import Uroboros.TaskImage

/-!
# Handing out a process

`proc_alloc` of `mtask.c` with its cursor, and what `ktask_init` then does with the
pointer. The cursor is the result too, so that a search without success ends at
the last slot and not at `NULL`.
-/

set_option autoImplicit false

namespace Uroboros

open ByteMemory ForLoop

/-- A process with the addresses of its frame, its context and its stack block. -/
structure Process where
  iframe : U32
  context : U32
  stack : U32
  status : ProcessStatus

/-- `sched.proc`, the interrupt flag and the memory. -/
structure ProcTable where
  proc : Slot → Process
  iflag : Bool
  mem : Mem

namespace ProcTable

def loadIntFlag (t : ProcTable) : Bool := t.iflag

def ioCli (t : ProcTable) : ProcTable := { t with iflag := false }

def storeIntFlag (t : ProcTable) (iflag : Bool) : ProcTable := { t with iflag }

def setStatus (t : ProcTable) (p : Slot) (status : ProcessStatus) : ProcTable :=
  { t with proc := Function.update t.proc p { t.proc p with status } }

/-- The loop from index `i` on with `k` passes to go; `none` is `NULL`. -/
def procAllocLoop : Nat → Nat → Option Slot → ProcTable → Option Slot × ProcTable
  | 0, _, proc, t => (proc, t)
  | k + 1, i, proc, t =>
    if h : i < processCount then
      if (t.proc ⟨i, h⟩).status = .noalloc then (some ⟨i, h⟩, t.setStatus ⟨i, h⟩ .init)
      else procAllocLoop k (i + 1) (some ⟨i, h⟩) t
    else (proc, t)

def procAlloc (t : ProcTable) : Option Slot × ProcTable :=
  let iflag := t.loadIntFlag
  let r := procAllocLoop processCount 0 none t.ioCli
  (r.1, r.2.storeIntFlag iflag)

/-- `kvmalloc` returns `taskStack`. -/
def ktaskInit (t : ProcTable) (p : Slot) (taskStack taskEntryAddr : U32) (args : List U8)
    (allInterruptRetAddr : U32) : ProcTable :=
  let iflag := t.loadIntFlag
  let t := t.ioCli
  let image := Uroboros.ktaskInit t.mem taskStack taskEntryAddr args allInterruptRetAddr
  let t := { t with
    mem := image.mem
    proc := Function.update t.proc p ⟨image.iframe, image.context, taskStack, .runnable⟩ }
  t.storeIntFlag iflag

/-- A free slot, with nothing changed but its status, or `NULL` when there is none. -/
def AllocatesFree (t : ProcTable) : Prop :=
  (∃ p, (t.proc p).status = .noalloc ∧ t.procAlloc = (some p, t.setStatus p .init)) ∨
  (∀ i, (t.proc i).status ≠ .noalloc) ∧ t.procAlloc = (none, t)

/-- What `ktask_init` does to the result of `proc_alloc` leaves the processes in use as they were,
and the contents of their stacks, when the new stack has a block of its own. -/
def KeepsLive (t : ProcTable) : Prop :=
  ∀ p, t.procAlloc.1 = some p → ∀ taskStack taskEntryAddr args allInterruptRetAddr,
    args.length + 92 ≤ ktaskStackSize.toNat →
    let t' := t.procAlloc.2.ktaskInit p taskStack taskEntryAddr args allInterruptRetAddr
    ∀ q, (t.proc q).status ≠ .noalloc → t'.proc q = t.proc q ∧
      (Apart (t.proc q).stack ktaskStackSize.toNat taskStack ktaskStackSize.toNat →
        ∀ i < ktaskStackSize.toNat,
          t'.mem ((t.proc q).stack + BitVec.ofNat 32 i) = t.mem ((t.proc q).stack + BitVec.ofNat 32 i))

section
variable {t : ProcTable} {p q : Slot} {status : ProcessStatus} {i k : Nat}

theorem setStatus_ne (h : q ≠ p) : (t.setStatus p status).proc q = t.proc q := by
  simp [setStatus, h]

theorem procAllocLoop_cases (proc : Option Slot) (hk : k + i = processCount) :
    (∃ p, scanFrom (fun j => (t.proc j).status == .noalloc) k i = some p ∧
      (t.proc p).status = .noalloc ∧ procAllocLoop k i proc t = (some p, t.setStatus p .init)) ∨
    (scanFrom (fun j => (t.proc j).status == .noalloc) k i = none ∧
      procAllocLoop k i proc t = (if k = 0 then proc else some (Fin.last 15), t)) := by
  induction k generalizing i proc with
  | zero => exact Or.inr ⟨rfl, rfl⟩
  | succ k ih =>
    have hi : i < processCount := by omega
    rw [procAllocLoop, scanFrom, dif_pos hi, dif_pos hi]
    by_cases hfree : (t.proc ⟨i, hi⟩).status = .noalloc
    · rw [if_pos hfree, if_pos (beq_iff_eq.mpr hfree)]
      exact Or.inl ⟨_, rfl, hfree, rfl⟩
    · rw [if_neg hfree, if_neg (by simpa using hfree)]
      rcases ih (some ⟨i, hi⟩) (show k + (i + 1) = processCount by omega) with
        hfound | ⟨hscan, hloop⟩
      · exact Or.inl hfound
      · refine Or.inr ⟨hscan, ?_⟩
        rw [hloop, if_neg (Nat.succ_ne_zero k)]
        split
        · have hlast : (⟨i, hi⟩ : Slot) = Fin.last 15 := by
            apply Fin.ext
            show i = 15
            have hcount : processCount = 16 := rfl
            omega
          rw [hlast]
        · rfl

/-- The table with the flag cleared for the search and restored behind it. -/
theorem procAlloc_cases (t : ProcTable) :
    (∃ p, scan (fun j => (t.proc j).status == .noalloc) = some p ∧
      (t.proc p).status = .noalloc ∧ t.procAlloc = (some p, t.setStatus p .init)) ∨
    (scan (fun j => (t.proc j).status == .noalloc) = none ∧
      t.procAlloc = (some (Fin.last 15), t)) := by
  rcases procAllocLoop_cases (t := t.ioCli) none (show processCount + 0 = processCount from rfl)
    with ⟨p, hscan, hfree, hloop⟩ | ⟨hscan, hloop⟩
  · refine Or.inl ⟨p, hscan, hfree, ?_⟩
    rw [procAlloc, hloop]
    rfl
  · refine Or.inr ⟨hscan, ?_⟩
    rw [procAlloc, hloop]
    rfl

theorem ktaskInit_mem_of_le {mem : Mem} {taskStack entry ret x : U32} {args : List U8}
    (hsize : args.length + 92 ≤ ktaskStackSize.toNat)
    (hx : ktaskStackSize.toNat ≤ (x - taskStack).toNat) :
    (Uroboros.ktaskInit mem taskStack entry args ret).mem x = mem x := by
  have hblock : ktaskStackSize = 16384 := rfl
  obtain ⟨c, hc⟩ : ∃ c, (Uroboros.ktaskInit mem taskStack entry args ret).context = c := ⟨_, rfl⟩
  rw [ktaskInit_mem hc]
  rw [ktaskInit_context, hblock] at hc
  rw [hblock] at hsize hx
  have hlen : args.length + 92 ≤ 16384 := hsize
  have hout : 16384 ≤ (x - taskStack).toNat := hx
  rw [store32_of_le (by bv_omega), store32_of_le (by bv_omega), store16_of_le (by bv_omega),
    store32_of_le (by bv_omega), store32_of_le (by bv_omega), store16_of_le (by bv_omega),
    store16_of_le (by bv_omega), store16_of_le (by bv_omega), store16_of_le (by bv_omega),
    store32_of_le (by bv_omega), storeBytes_of_le (by bv_omega)]

theorem ktaskInit_proc_ne (h : q ≠ p) (taskStack taskEntryAddr : U32) (args : List U8) (ret : U32) :
    (t.ktaskInit p taskStack taskEntryAddr args ret).proc q = t.proc q := by
  simp [ktaskInit, ioCli, storeIntFlag, h]

theorem ktaskInit_memory (t : ProcTable) (p : Slot) (taskStack taskEntryAddr : U32) (args : List U8)
    (ret : U32) : (t.ktaskInit p taskStack taskEntryAddr args ret).mem =
      (Uroboros.ktaskInit t.mem taskStack taskEntryAddr args ret).mem := rfl

theorem keepsLive_of_free (hfree : (t.proc p).status = .noalloc)
    (halloc : t.procAlloc = (some p, t.setStatus p .init)) : t.KeepsLive := by
  intro p' hp' taskStack taskEntryAddr args ret hsize t' q hq
  rw [halloc] at hp'
  obtain rfl : p = p' := Option.some.inj hp'
  have hne : q ≠ p := by
    intro heq
    rw [heq] at hq
    exact hq hfree
  have ht' : t' = (t.setStatus p .init).ktaskInit p taskStack taskEntryAddr args ret := by
    rw [show t' = t.procAlloc.2.ktaskInit p taskStack taskEntryAddr args ret from rfl, halloc]
  rw [ht']
  refine ⟨?_, ?_⟩
  · rw [ktaskInit_proc_ne hne, setStatus_ne hne]
  · intro hapart i hi
    have hblock := hapart.le_offset hi
    rw [ktaskInit_memory, ktaskInit_mem_of_le hsize hblock]
    rfl

/-- `proc_alloc` is right exactly when the table has a free slot. -/
theorem procAlloc_iff : t.AllocatesFree ∧ t.KeepsLive ↔ ∃ i, (t.proc i).status = .noalloc := by
  rcases t.procAlloc_cases with ⟨p, _, hfree, halloc⟩ | ⟨hscan, halloc⟩
  · exact iff_of_true ⟨Or.inl ⟨p, hfree, halloc⟩, keepsLive_of_free hfree halloc⟩ ⟨p, hfree⟩
  · have hfull : ¬ ∃ i, (t.proc i).status = .noalloc := by
      rintro ⟨i, hi⟩
      have hfalse := scan_eq_none_iff.mp hscan i
      rw [hi] at hfalse
      exact Bool.noConfusion hfalse
    refine iff_of_false ?_ hfull
    rintro ⟨⟨p, hfree, _⟩ | ⟨_, hnull⟩, _⟩
    · exact hfull ⟨p, hfree⟩
    · rw [halloc] at hnull
      have hsome : some (Fin.last 15) = none := congrArg Prod.fst hnull
      exact nomatch hsome

end

def full : ProcTable :=
  { proc := fun i => ⟨0, BitVec.ofNat 32 i, 0x3001000 + 0x4000 * BitVec.ofNat 32 i, .runnable⟩
    iflag := true
    mem := fun _ => 0 }

/-- The table of the boot, with all slots but that of the scheduler free. -/
theorem procAlloc_iff_boot :
    let t : ProcTable := { full with
      proc := fun i => ⟨0, 0, 0, if i = 0 then .nosched else .noalloc⟩ }
    t.AllocatesFree ∧ t.KeepsLive :=
  procAlloc_iff.mpr ⟨1, rfl⟩

/-- The last process is handed out a second time, and a new context goes over its own. -/
theorem procAlloc_full :
    full.procAlloc.1 = some 15 ∧ ¬ full.AllocatesFree ∧ ¬ full.KeepsLive := by
  have halloc : full.procAlloc.1 = some 15 := by decide +kernel
  refine ⟨halloc, ?_, ?_⟩
  · rintro (⟨p, hfree, _⟩ | ⟨_, hnull⟩)
    · exact ProcessStatus.noConfusion hfree
    · rw [hnull] at halloc
      exact nomatch halloc
  · intro hkeeps
    obtain ⟨hsame, _⟩ := hkeeps 15 halloc 0x3100000 0x100000 [] 0x100200 (by decide) 15
      (fun hfree => ProcessStatus.noConfusion hfree)
    exact absurd (congrArg Process.stack hsame) (by decide +kernel)

end ProcTable

end Uroboros
