import Uroboros.Preemption
import Uroboros.VMallocFit

/-!
# Sleeping

`sleep` of `timer.c` with the queue and the timer that it makes and gives back.
The record of a queue and its buffer lie in one block, and `q8_free` hands the
address of the buffer to `kvfree`, which knows blocks by their first address only.
-/

set_option autoImplicit false

namespace Uroboros

namespace Timers

/-- The statements of `timer_reset` from `point` on, one after the other. -/
def resetFrom : Nat → Timers → U32 → Option Reset → Option Timers
  | 0, _, _, _ => none
  | fuel + 1, s, t, point =>
    let r := s.resetNext t point
    if r.1 = none then some r.2 else resetFrom fuel r.2 t r.1

def timerReset (s : Timers) (fuel : Nat) (t : U32) : Option Timers := resetFrom fuel s t none

/-- The loop of `sleep`: each `io_hlt` waits for a call of `timer_tick`. Nothing when the queue is
still empty after `ticks` of them. -/
def sleepLoop (fuel : Nat) (q : U32) : Nat → Timers → Option Timers
  | 0, s => if q8Empty (s.queue q) then none else some s
  | ticks + 1, s =>
    if q8Empty (s.queue q) then (s.timerTick fuel).bind (sleepLoop fuel q ticks) else some s

end Timers

/-- The allocator, the timers, and `buf`, the field of that name of each queue record. -/
structure QueueHeap where
  kernel : Kernel
  timers : Timers
  buf : U32 → U32

namespace QueueHeap

def q8Make (h : QueueHeap) (fuel : Nat) (size : U32) (defaultValue : U8) (bytes : Nat → U8) :
    Option (U32 × QueueHeap) :=
  (h.timers.q8Make fuel h.kernel size defaultValue bytes).map fun r =>
    (r.1, { kernel := r.2.1
            timers := r.2.2
            buf := Function.update h.buf r.1 (r.1 + sizeofQueue8) })

def q8Free (h : QueueHeap) (fuel : Nat) (q : U32) : Option QueueHeap :=
  (h.kernel.kvfree fuel (h.buf q)).toOption.map fun kernel => { h with kernel }

/-- `sleep` up to its loop: the queue, the timer, and the state. -/
def sleepStart (h : QueueHeap) (fuel : Nat) (tick : U32) (bytes : Nat → U8) :
    Option (U32 × U32 × QueueHeap) :=
  (h.q8Make fuel timerQueueSize 0 bytes).bind fun r =>
    (r.2.timers.timerAlloc fuel r.2.kernel r.1 tick timerModeOneshot).bind fun u =>
      (u.2.2.timerReset fuel u.1).map fun timers =>
        (r.1, u.1, { r.2 with kernel := u.2.1, timers })

/-- Nothing when the loop does not end within `ticks` calls of `timer_tick`. -/
def sleep (h : QueueHeap) (fuel : Nat) (tick : U32) (bytes : Nat → U8) (ticks : Nat) :
    Option QueueHeap :=
  (h.sleepStart fuel tick bytes).bind fun r =>
    (r.2.2.timers.sleepLoop fuel r.1 ticks).bind fun timers =>
      (timers.timerFree fuel r.2.2.kernel r.2.1).bind fun u =>
        { r.2.2 with kernel := u.1, timers := u.2 : QueueHeap }.q8Free fuel r.1

end QueueHeap

namespace Kernel

def allocatedBlocks (k : Kernel) : Set (U32 × U32) :=
  {r | ∃ p, (k.vmemman.blocks p).Allocated ∧ k.vmemman.range p = r}

/-- What is promised of `kvmalloc`: whenever it returns, the block is new, begins with a page, and
the others are as before. -/
def ServesFresh (k : Kernel) (size : U32) : Prop :=
  ∀ fuel addr k', k.kvmalloc fuel size = .ok (addr, k') →
    addr.toNat % 4096 = 0 ∧ (∀ r ∈ k.allocatedBlocks, r.1 ≠ addr) ∧
      ∃ size', k'.allocatedBlocks = insert (addr, size') k.allocatedBlocks

end Kernel

section
open VMemMan
variable {k k' : Kernel} {m : VMemMan} {fuel : Nat} {size addr q tick : U32} {p : BPtr}
  {l : List BPtr} {h h' : QueueHeap}

theorem findAllocated_addr {start : Option BPtr}
    (hfind : m.findAllocated addr fuel start = some (some p)) : (m.blocks p).addr = addr := by
  induction fuel generalizing start with
  | zero => cases start <;> cases hfind
  | succ fuel ih =>
    cases start with
    | none => cases hfind
    | some x =>
      rw [findAllocated] at hfind
      split at hfind
      · rename_i hx
        cases hfind
        exact hx.1
      · exact ih hfind

theorem allocatedBlocks_kvfree (hfree : k.kvfree fuel addr = .ok k') {r : U32 × U32}
    (hr : r ∈ k.allocatedBlocks) (hne : r.1 ≠ addr) : r ∈ k'.allocatedBlocks := by
  rcases Kernel.kvfree_cases hfree with ⟨_, rfl⟩ | ⟨p, hfind, rfl⟩
  · exact hr
  · obtain ⟨q, halloc, rfl⟩ := hr
    have hqp : q ≠ p := by
      rintro rfl
      exact hne (findAllocated_addr hfind)
    have halloc' : ((k.vmemman.release p).blocks q).Allocated :=
      (release_allocated_iff k.vmemman p q).mpr ⟨hqp, halloc⟩
    obtain ⟨hthin, _⟩ := release_thinned k.vmemman p
    exact ⟨q, halloc', Prod.ext (hthin.addr q) (hthin.allocated q halloc').2.1⟩

theorem buffer_ne (q : U32) : q ≠ q + sizeofQueue8 := by
  unfold sizeofQueue8
  bv_omega

namespace QueueHeap

theorem q8Make_cases {defaultValue : U8} {bytes : Nat → U8}
    (hmake : h.q8Make fuel size defaultValue bytes = some (q, h')) :
    h.kernel.kvmalloc fuel (sizeofQueue8 + size + 1) = .ok (q, h'.kernel) ∧
      h'.buf q = q + sizeofQueue8 ∧
      ∃ buf, h'.timers = h.timers.setQueue q (q8Init buf (size + 1) defaultValue) := by
  obtain ⟨r, hr, heq⟩ := Option.map_eq_some_iff.mp hmake
  cases heq
  obtain ⟨halloc, hbuf⟩ := Timers.q8Make_cases hr
  exact ⟨halloc, Function.update_self .., hbuf⟩

/-- The block of a queue is new, and it is in use behind `q8_make`. -/
theorem q8Make_block {defaultValue : U8} {bytes : Nat → U8}
    (hspec : h.kernel.ServesFresh (sizeofQueue8 + size + 1))
    (hmake : h.q8Make fuel size defaultValue bytes = some (q, h')) :
    (∀ r ∈ h.kernel.allocatedBlocks, r.1 ≠ q) ∧
      ∃ size', (q, size') ∈ h'.kernel.allocatedBlocks := by
  obtain ⟨halloc, _, _⟩ := q8Make_cases hmake
  obtain ⟨_, hfresh, size', hblocks⟩ := hspec fuel q h'.kernel halloc
  exact ⟨hfresh, size', hblocks ▸ Set.mem_insert _ _⟩

/-- `q8_free` does not free the block of its queue. -/
theorem q8Free_keeps {size' : U32} (hbuf : h.buf q = q + sizeofQueue8)
    (hblock : (q, size') ∈ h.kernel.allocatedBlocks) (hfree : h.q8Free fuel q = some h') :
    (q, size') ∈ h'.kernel.allocatedBlocks := by
  obtain ⟨k', hk', rfl⟩ := Option.map_eq_some_iff.mp hfree
  rw [hbuf] at hk'
  exact allocatedBlocks_kvfree (ok_of_toOption hk') hblock (buffer_ne q)

theorem sleepStart_cases {bytes : Nat → U8} {t : U32}
    (hstart : h.sleepStart fuel tick bytes = some (q, t, h')) :
    ∃ h₁ timers, h.q8Make fuel timerQueueSize 0 bytes = some (q, h₁) ∧
      h₁.timers.timerAlloc fuel h₁.kernel q tick timerModeOneshot = some (t, h'.kernel, timers) ∧
      timers.timerReset fuel t = some h'.timers ∧ h'.buf = h₁.buf := by
  obtain ⟨⟨q', h₁⟩, hmake, hstart⟩ := Option.bind_eq_some_iff.mp hstart
  obtain ⟨⟨t', k', timers⟩, halloc, hstart⟩ := Option.bind_eq_some_iff.mp hstart
  obtain ⟨timers', hreset, heq⟩ := Option.map_eq_some_iff.mp hstart
  cases heq
  exact ⟨h₁, timers, hmake, halloc, hreset, rfl⟩

theorem sleep_keeps {bytes : Nat → U8} {ticks : Nat}
    (hspec : h.kernel.ServesFresh (sizeofQueue8 + timerQueueSize + 1))
    (hspec' : ∀ q h₁, h.q8Make fuel timerQueueSize 0 bytes = some (q, h₁) →
      h₁.kernel.ServesFresh sizeofTimer)
    (hsleep : h.sleep fuel tick bytes ticks = some h') :
    ∃ q size', (∀ r ∈ h.kernel.allocatedBlocks, r.1 ≠ q) ∧
      (q, size') ∈ h'.kernel.allocatedBlocks := by
  obtain ⟨⟨q, t, h₂⟩, hstart, hsleep⟩ := Option.bind_eq_some_iff.mp hsleep
  obtain ⟨timers, _, hsleep⟩ := Option.bind_eq_some_iff.mp hsleep
  obtain ⟨⟨k₃, timers₃⟩, hfree, hsleep⟩ := Option.bind_eq_some_iff.mp hsleep
  obtain ⟨h₁, timers₁, hmake, halloc, _, hbuf⟩ := sleepStart_cases hstart
  obtain ⟨hfresh, size', hblock⟩ := q8Make_block hspec hmake
  obtain ⟨_, _, hmalloc, _⟩ := Timers.timerAlloc_cases halloc
  obtain ⟨_, hnew, _, hblocks⟩ := hspec' q h₁ hmake fuel t h₂.kernel hmalloc
  have hqt : q ≠ t := hnew _ hblock
  have hblock₂ : (q, size') ∈ h₂.kernel.allocatedBlocks := hblocks ▸ Set.mem_insert_of_mem _ hblock
  have hblock₃ : (q, size') ∈ k₃.allocatedBlocks :=
    allocatedBlocks_kvfree (Timers.timerFree_cases hfree).2 hblock₂ hqt
  refine ⟨q, size', hfresh, q8Free_keeps ?_ hblock₃ hsleep⟩
  exact (congrFun hbuf q).trans (q8Make_cases hmake).2.1

theorem q8Free_ne {defaultValue : U8} {bytes : Nat → U8} {fuel' : Nat} {h₁ h₂ : QueueHeap}
    (hspec : h.kernel.ServesFresh (sizeofQueue8 + size + 1))
    (hmake : h.q8Make fuel size defaultValue bytes = some (q, h₁))
    (hfree : h₁.q8Free fuel' q = some h₂) :
    h₂.kernel.allocatedBlocks ≠ h.kernel.allocatedBlocks := by
  intro hsame
  obtain ⟨hfresh, size', hblock⟩ := q8Make_block hspec hmake
  have hkept := q8Free_keeps (q8Make_cases hmake).2.1 hblock hfree
  rw [hsame] at hkept
  exact hfresh _ hkept rfl

theorem sleep_ne {bytes : Nat → U8} {ticks : Nat}
    (hspec : h.kernel.ServesFresh (sizeofQueue8 + timerQueueSize + 1))
    (hspec' : ∀ q h₁, h.q8Make fuel timerQueueSize 0 bytes = some (q, h₁) →
      h₁.kernel.ServesFresh sizeofTimer)
    (hsleep : h.sleep fuel tick bytes ticks = some h') :
    h'.kernel.allocatedBlocks ≠ h.kernel.allocatedBlocks := by
  intro hsame
  obtain ⟨q, size', hfresh, hkept⟩ := sleep_keeps hspec hspec' hsleep
  rw [hsame] at hkept
  exact hfresh _ hkept rfl

/-- Neither `q8_free` behind `q8_make` nor `sleep` gives back the blocks it took. -/
theorem queue_never_returned (h : QueueHeap) :
    (∀ size defaultValue bytes, h.kernel.ServesFresh (sizeofQueue8 + size + 1) →
      ¬ ∃ fuel fuel' q h₁ h₂, h.q8Make fuel size defaultValue bytes = some (q, h₁) ∧
        h₁.q8Free fuel' q = some h₂ ∧ h₂.kernel.allocatedBlocks = h.kernel.allocatedBlocks) ∧
    ∀ bytes, h.kernel.ServesFresh (sizeofQueue8 + timerQueueSize + 1) →
      (∀ fuel q h₁, h.q8Make fuel timerQueueSize 0 bytes = some (q, h₁) →
        h₁.kernel.ServesFresh sizeofTimer) →
      ¬ ∃ fuel tick ticks h', h.sleep fuel tick bytes ticks = some h' ∧
        h'.kernel.allocatedBlocks = h.kernel.allocatedBlocks := by
  constructor
  · rintro size defaultValue bytes hspec ⟨fuel, fuel', q, h₁, h₂, hmake, hfree, hsame⟩
    exact q8Free_ne hspec hmake hfree hsame
  · rintro bytes hspec hspec' ⟨fuel, tick, ticks, h', hsleep, hsame⟩
    exact sleep_ne hspec (hspec' fuel) hsleep hsame

end QueueHeap

structure PagedHeap (k : Kernel) : Prop where
  sound : ∃ l, Sound k.vmemman l
  paged : ∀ p, (k.vmemman.blocks p).InUse → (k.vmemman.blocks p).addr.toNat % 4096 = 0

theorem allocatedBlocks_eq (hl : Sound k.vmemman l) :
    k.allocatedBlocks = {r | r ∈ k.vmemman.taken l} := by
  ext r
  constructor
  · rintro ⟨p, halloc, rfl⟩
    have hp : p ∈ l := by
      by_contra hp
      exact hl.unlisted_free hp halloc
    exact List.mem_map.mpr ⟨p, List.mem_filter.mpr ⟨hp, decide_eq_true halloc⟩, rfl⟩
  · intro hr
    obtain ⟨p, _, htaken, rfl⟩ := mem_taken hr
    exact ⟨p, htaken, rfl⟩

theorem pagedHeap_init {k₀ : Kernel} {start stop pdt : U32} (hle : start.toNat ≤ stop.toNat)
    (hpage : start.toNat % 4096 = 0) (hinit : k₀.initVmalloc start stop pdt = .ok k) :
    PagedHeap k := by
  obtain ⟨_, _, _, _, haddr, _, _, hrest⟩ := Kernel.initVmalloc_cases hinit
  refine ⟨⟨_, Kernel.sound_initVmalloc hle hinit⟩, ?_⟩
  intro p huse
  by_cases hp : p = firstBlock
  · rw [hp, haddr]
    exact hpage
  · rw [VMemBlockInfo.InUse, (hrest p hp).1] at huse
    exact absurd BitVec.zero_and huse

namespace PagedHeap

theorem kvmalloc (hk : PagedHeap k) (hpos : 0 < (roundup size memPageSize).toNat)
    (halloc : k.kvmalloc fuel size = .ok (addr, k')) : PagedHeap k' := by
  have hpage := roundup_mod size
  rw [Kernel.kvmalloc, Kernel.vmalloc_roundup] at halloc
  obtain ⟨l, hl⟩ := hk.sound
  obtain ⟨l', hl', _⟩ := Kernel.sound_vmalloc hl hpage hpos halloc
  refine ⟨⟨l', hl'⟩, ?_⟩
  obtain ⟨p, hp, _, hfree, _, _, ⟨_, _, rfl⟩ | ⟨_, n, hcut⟩⟩ := Kernel.vmalloc_chain hl hpage halloc
  · intro q huse
    have haddr : ((k.markAllocated p).vmemman.blocks q).addr = (k.vmemman.blocks q).addr := by
      rw [Kernel.markAllocated_blocks]
      split
      · rename_i hq
        rw [hq]
      · rfl
    rw [haddr]
    exact hk.paged q (Kernel.markAllocated_inUse.mp huse)
  · intro q huse
    rw [hcut.addr]
    split
    · have haddr := hk.paged p hfree.inUse
      rw [BitVec.toNat_add]
      omega
    · rename_i hqn
      apply hk.paged
      rw [VMemBlockInfo.InUse, hcut.flags, if_neg hqn] at huse
      split at huse
      · rename_i hqp
        rw [mark_use] at huse
        exact hqp ▸ huse
      · exact huse

theorem servesFresh (hk : PagedHeap k) (hpos : 0 < (roundup size memPageSize).toNat) :
    k.ServesFresh size := by
  intro fuel addr k' halloc
  have hpage := roundup_mod size
  rw [Kernel.kvmalloc, Kernel.vmalloc_roundup] at halloc
  obtain ⟨l, hl⟩ := hk.sound
  obtain ⟨l', hl', htaken⟩ := Kernel.sound_vmalloc hl hpage hpos halloc
  obtain ⟨p, hp, rfl, hfree, hle, _⟩ := Kernel.vmalloc_chain hl hpage halloc
  refine ⟨hk.paged p hfree.inUse, ?_, roundup size memPageSize, ?_⟩
  · intro r hr heq
    rw [allocatedBlocks_eq hl] at hr
    obtain ⟨q, hq, hqtaken, rfl⟩ := mem_taken hr
    have hppos : 0 < (k.vmemman.blocks p).size.toNat := Nat.lt_of_lt_of_le hpos hle
    have hqpos : 0 < (k.vmemman.blocks q).size.toNat :=
      hl.nonempty q hq fun hlast => (hl.lastFree q hq hlast).not_allocated hqtaken
    have hqp : q = p := hl.layout.eq_of_addr_eq hq hp hqpos hppos heq
    exact hfree.not_allocated (hqp ▸ hqtaken)
  · rw [allocatedBlocks_eq hl, allocatedBlocks_eq hl']
    ext r
    rw [Set.mem_insert_iff]
    exact htaken.mem_iff.trans List.mem_cons

end PagedHeap

end

def bootHeap (k : Kernel) : QueueHeap := ⟨k, noTimers, fun _ => 0⟩

/-- A queue made and freed, and a sleep of one tick, both right after `init_kvmalloc`. -/
def bootQueues : Option (Kernel × (U32 × QueueHeap × QueueHeap) × QueueHeap) :=
  match bareKernel.initVmalloc vmallocStart vmallocInitEnd kernelPdt with
  | .error _ => none
  | .ok k =>
    ((bootHeap k).q8Make vmemMaxUnits timerQueueSize 0 fun _ => 0).bind fun r =>
      (r.2.q8Free vmemMaxUnits r.1).bind fun freed =>
        ((bootHeap k).sleep vmemMaxUnits 1 (fun _ => 0) 1).map fun slept =>
          (k, (r.1, r.2, freed), slept)

theorem bootQueues_cases : ∃ k q h₁ h₂ h',
    bareKernel.initVmalloc vmallocStart vmallocInitEnd kernelPdt = .ok k ∧ PagedHeap k ∧
      (bootHeap k).q8Make vmemMaxUnits timerQueueSize 0 (fun _ => 0) = some (q, h₁) ∧
      h₁.q8Free vmemMaxUnits q = some h₂ ∧
      (bootHeap k).sleep vmemMaxUnits 1 (fun _ => 0) 1 = some h' := by
  have hsome : bootQueues.isSome = true := by decide +kernel
  obtain ⟨r, hr⟩ := Option.isSome_iff_exists.mp hsome
  unfold bootQueues at hr
  split at hr
  · cases hr
  · rename_i k hinit
    obtain ⟨⟨q, h₁⟩, hmake, hr⟩ := Option.bind_eq_some_iff.mp hr
    obtain ⟨h₂, hfree, hr⟩ := Option.bind_eq_some_iff.mp hr
    obtain ⟨h', hsleep, _⟩ := Option.map_eq_some_iff.mp hr
    exact ⟨k, q, h₁, h₂, h', hinit, pagedHeap_init (by decide) (by decide) hinit, hmake, hfree,
      hsleep⟩

namespace QueueHeap

theorem bootHeap_serves {k : Kernel} (hpaged : PagedHeap k) :
    (bootHeap k).kernel.ServesFresh (sizeofQueue8 + timerQueueSize + 1) ∧
      ∀ fuel q h₁, (bootHeap k).q8Make fuel timerQueueSize 0 (fun _ => 0) = some (q, h₁) →
        h₁.kernel.ServesFresh sizeofTimer := by
  refine ⟨hpaged.servesFresh (by decide), ?_⟩
  intro fuel q h₁ hmake
  have hpaged₁ : PagedHeap h₁.kernel := hpaged.kvmalloc (by decide) (q8Make_cases hmake).1
  exact hpaged₁.servesFresh (by decide)

theorem queue_never_returned_boot : ∃ k,
    bareKernel.initVmalloc vmallocStart vmallocInitEnd kernelPdt = .ok k ∧
      (¬ ∃ fuel fuel' q h₁ h₂,
        (bootHeap k).q8Make fuel timerQueueSize 0 (fun _ => 0) = some (q, h₁) ∧
        h₁.q8Free fuel' q = some h₂ ∧ h₂.kernel.allocatedBlocks = k.allocatedBlocks) ∧
      ¬ ∃ fuel tick ticks h', (bootHeap k).sleep fuel tick (fun _ => 0) ticks = some h' ∧
        h'.kernel.allocatedBlocks = k.allocatedBlocks := by
  obtain ⟨k, _, _, _, _, hinit, hpaged, _⟩ := bootQueues_cases
  obtain ⟨hspec, hspec'⟩ := bootHeap_serves hpaged
  obtain ⟨hqueue, hsleep⟩ := queue_never_returned (bootHeap k)
  exact ⟨k, hinit, hqueue _ _ _ hspec, hsleep _ hspec hspec'⟩

/-- The calls return, and a block more is in use behind them. -/
theorem queue_leaks : ∃ k q h₁ h₂ h',
    bareKernel.initVmalloc vmallocStart vmallocInitEnd kernelPdt = .ok k ∧
      k.ServesFresh (sizeofQueue8 + timerQueueSize + 1) ∧ h₁.kernel.ServesFresh sizeofTimer ∧
      (bootHeap k).q8Make vmemMaxUnits timerQueueSize 0 (fun _ => 0) = some (q, h₁) ∧
      h₁.q8Free vmemMaxUnits q = some h₂ ∧
      h₂.kernel.allocatedBlocks ≠ k.allocatedBlocks ∧
      (bootHeap k).sleep vmemMaxUnits 1 (fun _ => 0) 1 = some h' ∧
      h'.kernel.allocatedBlocks ≠ k.allocatedBlocks := by
  obtain ⟨k, q, h₁, h₂, h', hinit, hpaged, hmake, hfree, hsleep⟩ := bootQueues_cases
  obtain ⟨hspec, hspec'⟩ := bootHeap_serves hpaged
  exact ⟨k, q, h₁, h₂, h', hinit, hspec, hspec' _ q h₁ hmake, hmake, hfree,
    q8Free_ne hspec hmake hfree, hsleep, sleep_ne hspec (hspec' _) hsleep⟩

end QueueHeap

end Uroboros
