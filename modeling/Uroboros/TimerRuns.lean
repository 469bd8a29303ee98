import Uroboros.Preemption

/-!
# The timer list over whole runs

Calls of `timer_alloc` and `timer_free`, with ticks, statements of `timer_reset` and
work on queues in between. That `kvmalloc` returns a block that is not in use is
here a condition on the address of the new timer, so other code may take and free
blocks between the calls.
-/

set_option autoImplicit false

namespace Uroboros

/-- `live` lists the timers in the order of their `timer_alloc` calls, `freed` the blocks that
`timer_free` gave back and no later `timer_alloc` got. -/
structure TimerHistory where
  timers : Timers
  live : List U32
  freed : List U32

inductive ListEvent where
  | alloc (q interval : U32) (mode : U8)
  | free (t : U32)
  | tick
  | reset (t : U32)
  | queue (q : U32)

namespace TimerHistory

def listed (s : TimerHistory) : List U32 := s.timers.head :: s.live

def init (timers : Timers) : TimerHistory := ⟨timers, [], []⟩

inductive Step : TimerHistory → ListEvent → TimerHistory → Prop where
  | alloc {s : TimerHistory} {q interval t : U32} {mode : U8} {k k' : Kernel} {r : Timers}
      (fuel : Nat) : t ∉ s.listed →
      s.timers.timerAlloc fuel k q interval mode = some (t, k', r) →
      Step s (.alloc q interval mode) ⟨r, s.live ++ [t], s.freed.filter (· ≠ t)⟩
  | free {s : TimerHistory} {t : U32} {k k' : Kernel} {r : Timers} (fuel : Nat) : t ∈ s.live →
      s.timers.timerFree fuel k t = some (k', r) →
      Step s (.free t) ⟨r, s.live.erase t, t :: s.freed⟩
  | tick {s : TimerHistory} {r : Timers} (fuel : Nat) : s.timers.timerTick fuel = some r →
      Step s .tick { s with timers := r }
  | reset {s : TimerHistory} {t : U32} (point : Option Timers.Reset) : t ∈ s.live →
      Step s (.reset t) { s with timers := (s.timers.resetNext t point).2 }
  | queue {s : TimerHistory} {q : U32} (queue : Queue8) :
      Step s (.queue q) { s with timers := s.timers.setQueue q queue }

/-- The links agree both ways, and no block on the list was freed. -/
structure Linked (dummy : U32) (s : TimerHistory) : Prop where
  head : s.timers.head = dummy
  twoWay : s.timers.TwoWay s.listed
  freed : ∀ t ∈ s.listed, t ∉ s.freed

variable {s s' : TimerHistory} {dummy t : U32} {r : Timers}

theorem Linked.setTimers (h : s.Linked dummy) (hhead : r.head = s.timers.head)
    (hr : r.TwoWay s.listed) : Linked dummy { s with timers := r } := by
  have hlisted : listed { s with timers := r } = s.listed := by
    rw [listed, listed, hhead]
  refine ⟨hhead.trans h.head, ?_, ?_⟩
  · rw [hlisted]
    exact hr
  · rw [hlisted]
    exact h.freed

theorem Linked.alloc {q interval : U32} {mode : U8} {k k' : Kernel} {fuel : Nat}
    (h : s.Linked dummy) (ht : t ∉ s.listed)
    (halloc : s.timers.timerAlloc fuel k q interval mode = some (t, k', r)) :
    Linked dummy ⟨r, s.live ++ [t], s.freed.filter (· ≠ t)⟩ := by
  obtain ⟨hlist, hhead, _⟩ := Timers.timerAlloc_twoWay h.twoWay ht halloc
  have hlisted : listed ⟨r, s.live ++ [t], s.freed.filter (· ≠ t)⟩ = s.listed ++ [t] := by
    rw [listed, listed, hhead, List.cons_append]
  refine ⟨hhead.trans h.head, hlisted ▸ hlist, ?_⟩
  intro x hx hfreed
  obtain ⟨hfreed, hne⟩ := List.mem_filter.mp hfreed
  rw [hlisted] at hx
  rcases List.mem_append.mp hx with hx | hx
  · exact h.freed x hx hfreed
  · exact of_decide_eq_true hne (List.mem_singleton.mp hx)

theorem Linked.free {k k' : Kernel} {fuel : Nat} (h : s.Linked dummy) (ht : t ∈ s.live)
    (hfree : s.timers.timerFree fuel k t = some (k', r)) :
    Linked dummy ⟨r, s.live.erase t, t :: s.freed⟩ := by
  obtain ⟨hunlink, _⟩ := Timers.timerFree_cases hfree
  obtain ⟨u, hu, hlist, hhead, _⟩ := Timers.unlink_erase h.twoWay ht
  cases hunlink.symm.trans hu
  have hlisted : listed ⟨r, s.live.erase t, t :: s.freed⟩ = s.timers.head :: s.live.erase t := by
    rw [listed, hhead]
  obtain ⟨hdummy, hnodup⟩ := List.nodup_cons.mp h.twoWay.nodup
  have hgone : t ∉ s.timers.head :: s.live.erase t := by
    intro hm
    rcases List.mem_cons.mp hm with heq | hm
    · exact hdummy (heq ▸ ht)
    · exact (hnodup.mem_erase_iff.mp hm).1 rfl
  refine ⟨hhead.trans h.head, hlisted ▸ hlist, ?_⟩
  intro x hx hfreed
  rw [hlisted] at hx
  rcases List.mem_cons.mp hfreed with heq | hfreed
  · exact hgone (heq ▸ hx)
  · exact h.freed x (List.cons_subset_cons _ List.erase_subset hx) hfreed

theorem Linked.tick {fuel : Nat} (h : s.Linked dummy) (ht : s.timers.timerTick fuel = some r) :
    Linked dummy { s with timers := r } := by
  have hr := (Timers.ticks_iff h.twoWay.chain).mp ⟨fuel, ht⟩
  have hframe := Timers.frame_tickList s.listed s.timers
  rw [← hr] at hframe
  exact h.setTimers hframe.head (hframe.twoWay h.twoWay)

/-- Each call keeps the list. -/
theorem linked_step (s : TimerHistory) (e : ListEvent) (s' : TimerHistory)
    (h : s.Linked dummy) (step : Step s e s') : s'.Linked dummy := by
  cases step with
  | alloc fuel ht halloc => exact h.alloc ht halloc
  | free fuel ht hfree => exact h.free ht hfree
  | tick fuel ht => exact h.tick ht
  | reset point ht => exact h.setTimers (Timers.resetNext_head point) (h.twoWay.resetNext point)
  | queue queue => exact h.setTimers rfl (h.twoWay.setQueue _ _)

/-- The list from `sys->timerctl->t` on ends, is the dummy and the live timers in the order of their
allocation, has links that agree, and leads to no freed timer. -/
structure WellListed (dummy : U32) (s : TimerHistory) : Prop where
  chain : s.timers.Chain (dummy :: s.live)
  back : ∀ x ∈ dummy :: s.live, ∀ y, (s.timers.timer x).next = some y →
    (s.timers.timer y).prev = some x
  apart : ∀ x ∈ dummy :: s.live, ∀ y, Relation.ReflTransGen
    (fun x y => (s.timers.timer x).next = some y ∨ (s.timers.timer x).prev = some y) x y →
    y ∉ s.freed

theorem Linked.wellListed (h : s.Linked dummy) : s.WellListed dummy := by
  have hlisted : s.listed = dummy :: s.live := by rw [listed, h.head]
  obtain ⟨b, hlist⟩ := h.twoWay
  have hfreed := h.freed
  rw [hlisted] at hlist hfreed
  refine ⟨hlist.forward, ?_, ?_⟩
  · intro x hx y hy
    exact hlist.prev_of_next hx hy
  · intro x hx y hpath
    exact hfreed y (hlist.mem_of_links hx hpath)

theorem linked_init {timers : Timers} {fuel : Nat} {k k' : Kernel} {ctl : U32}
    (h : timers.timerInit fuel k = some (ctl, k', r)) : (init r).Linked r.head := by
  obtain ⟨k₁, dummy, _, _, rfl⟩ := Timers.timerInit_cases h
  exact ⟨rfl, Timers.twoWay_init .., fun _ _ => List.not_mem_nil⟩

/-- `timer_init` and any calls after it leave the dummy and the live timers on the list. -/
theorem timer_list_wellListed {timers : Timers} {fuel : Nat} {k k' : Kernel} {ctl : U32}
    (hinit : timers.timerInit fuel k = some (ctl, k', r))
    {tr : List (TimerHistory × ListEvent × TimerHistory)} (hrun : Run Step (init r) tr s) :
    s.WellListed r.head := by
  have hlinked : s.Linked r.head := hrun.invariant (C := fun _ _ => True) (linked_init hinit)
    (fun t e u ht _ step => linked_step t e u ht step) (fun _ _ => trivial)
  exact hlinked.wellListed

def perform (s : Kernel × TimerHistory) : ListEvent → Option (ListEvent × Kernel × TimerHistory)
  | .alloc q interval mode =>
    (s.2.timers.timerAlloc (vmemMaxUnits + 1) s.1 q interval mode).bind fun r =>
      if s.2.listed.contains r.1 then none
      else some (.alloc q interval mode, r.2.1,
        ⟨r.2.2, s.2.live ++ [r.1], s.2.freed.filter (· ≠ r.1)⟩)
  | .free t =>
    if s.2.live.contains t then
      (s.2.timers.timerFree vmemMaxUnits s.1 t).map fun r =>
        (.free t, r.1, ⟨r.2, s.2.live.erase t, t :: s.2.freed⟩)
    else none
  | .tick => (s.2.timers.timerTick vmemMaxUnits).map fun r => (.tick, s.1, { s.2 with timers := r })
  | _ => none

theorem perform_step (s : Kernel × TimerHistory) (e e' : ListEvent) (s' : Kernel × TimerHistory)
    (h : perform s e = some (e', s')) : Step s.2 e' s'.2 := by
  cases e with
  | alloc q interval mode =>
    obtain ⟨⟨t, k, r⟩, halloc, h⟩ := Option.bind_eq_some_iff.mp h
    split at h
    · cases h
    · rename_i ht
      cases h
      exact .alloc _ (fun hm => ht (List.contains_iff_mem.mpr hm)) halloc
  | free t =>
    simp only [perform] at h
    split at h
    · rename_i ht
      obtain ⟨⟨k, r⟩, hfree, heq⟩ := Option.map_eq_some_iff.mp h
      cases heq
      exact .free _ (List.contains_iff_mem.mp ht) hfree
    · cases h
  | tick =>
    obtain ⟨r, hr, heq⟩ := Option.map_eq_some_iff.mp h
    cases heq
    exact .tick _ hr
  | reset => cases h
  | queue => cases h

def performed (es : List ListEvent) : Option (Kernel × (U32 × Kernel × Timers) ×
    List ((Kernel × TimerHistory) × ListEvent × Kernel × TimerHistory) × Kernel × TimerHistory) :=
  match bareKernel.initVmalloc vmallocStart vmallocInitEnd kernelPdt with
  | .error _ => none
  | .ok k => do
    let r ← noTimers.timerInit vmemMaxUnits k
    let u ← Run.exec perform es (r.2.1, init r.2.2)
    return (k, r, u)

/-- Three timers, of which the second goes; the fourth gets its block. -/
theorem timer_list_wellListed_reused : ∃ k ctl k' r tr s,
    noTimers.timerInit vmemMaxUnits k = some (ctl, k', r) ∧ Run Step (init r) tr s ∧
      tr.length = 6 ∧ s.live = [0x3002000, 0x3004000, 0x3003000] ∧ s.WellListed r.head := by
  have hperformed : (performed [.alloc 0xa000 3 timerModeOneshot, .alloc 0xb000 1 timerModeContinues,
      .alloc 0xc000 7 timerModeContinues, .tick, .free 0x3003000,
      .alloc 0xb000 2 timerModeContinues]).map (fun r => (r.2.2.1.length, r.2.2.2.2.live)) =
      some (6, [0x3002000, 0x3004000, 0x3003000]) := by
    decide +kernel
  obtain ⟨⟨k, ⟨ctl, k', r⟩, tr, s⟩, hperformed, heq⟩ := Option.map_eq_some_iff.mp hperformed
  obtain ⟨hlen, hlive⟩ := Prod.mk.inj heq
  unfold performed at hperformed
  split at hperformed
  · cases hperformed
  · obtain ⟨r', hinit, hrest⟩ := Option.bind_eq_some_iff.mp hperformed
    obtain ⟨u, hexec, heq'⟩ := Option.bind_eq_some_iff.mp hrest
    cases heq'
    have hrun := (Run.exec_run perform_step hexec).map Prod.snd fun _ _ _ step => step
    refine ⟨k, ctl, k', r, _, s.2, hinit, hrun, ?_, hlive, timer_list_wellListed hinit hrun⟩
    rw [List.length_map]
    exact hlen

end TimerHistory

end Uroboros
