import Uroboros.Lib.Period
import Uroboros.TimerTick

/-!
# Periodic timers

The tick with a log of the calls of `q8_in` that it makes, over any number of
ticks. No `TIMER_MODE_CONTINUES` timer stops a tick, so each one counts by
itself, also where several share a queue.
-/

set_option autoImplicit false

namespace Uroboros

namespace Timers

variable {s r : Timers} {t x a : U32} {l : List U32} {fuel k : Nat}

/-- `tickFrom`, also with the timers for which it calls `q8_in`. -/
def tickCallsFrom : Nat → Timers → Option U32 → Option (List U32 × Timers)
  | _, s, none => some ([], s)
  | 0, _, some _ => none
  | fuel + 1, s, some t =>
    if (s.timer t).interval = 0 then tickCallsFrom fuel s (s.timer t).next
    else if s.Blocked t then some ([], s.restart t)
    else
      let calls := if (s.timer t).count - 1 = 0 then [t] else []
      let s := s.countDown t
      (tickCallsFrom fuel s (s.timer t).next).map fun r => (calls ++ r.1, r.2)

/-- `k` ticks; `(i, t)` in the log is a call of `q8_in` for `t` in tick `i`. -/
def timerTicks (s : Timers) (fuel : Nat) : Nat → Option (List (Nat × U32) × Timers)
  | 0 => some ([], s)
  | k + 1 => do
    let (log, s) ← timerTicks s fuel k
    let (calls, s) ← tickCallsFrom fuel s (some s.head)
    return (log ++ calls.map fun t => (k + 1, t), s)

theorem tickCallsFrom_snd (fuel : Nat) (s : Timers) (b : Option U32) :
    (tickCallsFrom fuel s b).map Prod.snd = tickFrom fuel s b := by
  induction fuel generalizing s b with
  | zero => cases b <;> rfl
  | succ fuel ih =>
    cases b with
    | none => rfl
    | some t =>
      rw [tickCallsFrom, tickFrom]
      split
      · exact ih ..
      · split
        · rfl
        · rw [Option.map_map]
          exact ih ..

/-- But for the log these are `k` calls of `timer_tick`. -/
theorem timerTicks_snd (s : Timers) (fuel k : Nat) : (s.timerTicks fuel k).map Prod.snd =
    (fun r : Option Timers => r.bind fun r => r.timerTick fuel)^[k] (some s) := by
  induction k with
  | zero => rfl
  | succ k ih =>
    rw [Function.iterate_succ_apply', ← ih, timerTicks]
    cases s.timerTicks fuel k with
    | none => rfl
    | some u =>
      obtain ⟨log, r⟩ := u
      change ((tickCallsFrom fuel r (some r.head)).bind _).map Prod.snd = r.timerTick fuel
      rw [timerTick, ← tickCallsFrom_snd]
      cases tickCallsFrom fuel r (some r.head) <;> rfl

/-- No tick ends at such a timer. -/
def Passes (s : Timers) (t : U32) : Prop :=
  (s.timer t).interval = 0 ∨ (s.timer t).mode ≠ timerModeOneshot

/-- The tick that reaches such a timer calls `q8_in` for it. -/
def Due (s : Timers) (t : U32) : Prop := (s.timer t).interval ≠ 0 ∧ (s.timer t).count - 1 = 0

instance (s : Timers) (t : U32) : Decidable (s.Due t) := inferInstanceAs (Decidable (_ ∧ _))

def ticked (r : Timer) : Timer :=
  if r.interval = 0 then r
  else { r with count := if r.count - 1 = 0 then r.interval else r.count - 1 }

theorem Passes.not_stops (h : s.Passes t) : ¬ s.Stops t := by
  rintro ⟨hzero, hmode, _⟩
  rcases h with h | h
  · exact hzero h
  · exact h hmode

theorem Frame.passes (h : Frame l s r) (hx : s.Passes x) : r.Passes x := by
  obtain ⟨count, heq⟩ := h.fields x
  unfold Passes
  rw [heq]
  exact hx

theorem tickOne_alone_pass (h : ¬ s.Stops t) :
    ((s.tickOne t).timer t, (s.tickOne t).queueOf t) =
      (ticked (s.timer t), if s.Due t then q8In (s.queueOf t) 1 else s.queueOf t) := by
  rw [tickOne_alone]
  unfold tickAlone ticked
  split
  · rename_i hzero
    rw [if_neg fun hd : s.Due t => hd.1 hzero]
  · rename_i hzero
    have hblocked : ¬ ((s.timer t).mode = timerModeOneshot ∧ ¬ q8Empty (s.queueOf t)) :=
      fun hb => h ⟨hzero, hb⟩
    rw [if_neg hblocked]
    split
    · rename_i hcount
      rw [if_pos (show s.Due t from ⟨hzero, hcount⟩)]
    · rename_i hcount
      rw [if_neg fun hd : s.Due t => hcount hd.2]

theorem tickOne_timer_pass (h : ¬ s.Stops t) :
    (s.tickOne t).timer x = if x = t then ticked (s.timer t) else s.timer x := by
  by_cases hx : x = t
  · subst hx
    rw [if_pos rfl]
    exact congrArg Prod.fst (tickOne_alone_pass h)
  · rw [if_neg hx]
    exact (frame_tickOne s t).timer x fun hm => hx (List.mem_singleton.mp hm)

theorem tickOne_queue_pass (h : ¬ s.Stops t) (a : U32) :
    (s.tickOne t).queue a = if s.Due t ∧ (s.timer t).q = a then q8In (s.queue a) 1
      else s.queue a := by
  have hframe := frame_tickOne s t
  by_cases ha : (s.timer t).q = a
  · have hown := congrArg Prod.snd (tickOne_alone_pass h)
    unfold queueOf at hown
    rw [hframe.q, ha] at hown
    simp only [ha, and_true]
    exact hown
  · rw [if_neg fun hd => ha hd.2]
    apply hframe.queue
    intro y hy
    rw [List.mem_singleton.mp hy]
    exact ha

/-- The timers of which the tick calls `q8_in`, in the order of the list. -/
def dueOf (s : Timers) (l : List U32) : List U32 := l.filter fun t => s.Due t

theorem dueOf_cons (s : Timers) (t : U32) (l : List U32) :
    s.dueOf (t :: l) = (if s.Due t then [t] else []) ++ s.dueOf l := by
  rw [dueOf, List.filter_cons]
  split
  · rename_i hdue
    rw [if_pos (of_decide_eq_true hdue)]
    rfl
  · rename_i hdue
    rw [if_neg fun hd => hdue (decide_eq_true hd)]
    rfl

theorem tickOne_others (hpass : ∀ x ∈ l, s.Passes x) (ht : t ∉ l) (h : s.Passes t) :
    (∀ x ∈ l, (s.tickOne t).timer x = s.timer x) ∧ (∀ x ∈ l, (s.tickOne t).Passes x) ∧
      (s.tickOne t).dueOf l = s.dueOf l := by
  have hsame : ∀ x ∈ l, (s.tickOne t).timer x = s.timer x := by
    intro x hx
    rw [tickOne_timer_pass h.not_stops, if_neg]
    intro heq
    exact ht (heq ▸ hx)
  refine ⟨hsame, fun x hx => (frame_tickOne s t).passes (hpass x hx), ?_⟩
  apply List.filter_congr
  intro x hx
  apply decide_eq_decide.mpr
  unfold Due
  rw [hsame x hx]

theorem tickList_timer (hnodup : l.Nodup) (hpass : ∀ x ∈ l, s.Passes x) (hx : x ∈ l) :
    (tickList l s).timer x = ticked (s.timer x) := by
  induction l generalizing s with
  | nil => cases hx
  | cons t l ih =>
    obtain ⟨ht, hnodup⟩ := List.nodup_cons.mp hnodup
    obtain ⟨hpt, hpass⟩ := List.forall_mem_cons.mp hpass
    obtain ⟨hsame, hpass', _⟩ := tickOne_others hpass ht hpt
    rw [tickList, if_neg hpt.not_stops]
    rcases List.mem_cons.mp hx with rfl | hx
    · rw [(frame_tickList l _).timer x ht, tickOne_timer_pass hpt.not_stops, if_pos rfl]
    · rw [ih hnodup hpass' hx, hsame x hx]

theorem tickList_queue (hnodup : l.Nodup) (hpass : ∀ x ∈ l, s.Passes x) (a : U32) :
    (tickList l s).queue a =
      (fun q => q8In q 1)^[(s.dueOf l).countP fun t => (s.timer t).q = a] (s.queue a) := by
  induction l generalizing s with
  | nil => rfl
  | cons t l ih =>
    obtain ⟨ht, hnodup⟩ := List.nodup_cons.mp hnodup
    obtain ⟨hpt, hpass⟩ := List.forall_mem_cons.mp hpass
    obtain ⟨hsame, hpass', hdue⟩ := tickOne_others hpass ht hpt
    have hcount : (s.dueOf l).countP (fun x => ((s.tickOne t).timer x).q = a) =
        (s.dueOf l).countP fun x => (s.timer x).q = a := by
      apply List.countP_congr
      intro x _
      rw [(frame_tickOne s t).q]
    rw [tickList, if_neg hpt.not_stops, ih hnodup hpass', hdue, hcount, dueOf_cons,
      tickOne_queue_pass hpt.not_stops a, List.countP_append, Nat.add_comm,
      Function.iterate_add_apply]
    congr 1
    by_cases hd : s.Due t
    · simp only [hd, true_and, if_true, List.countP_singleton, decide_eq_true_eq]
      split <;> rfl
    · simp only [hd, false_and, if_false, List.countP_nil, Function.iterate_zero, id_eq]

theorem tickCallsFrom_chain {b : Option U32} (h : Seg (fun p => (s.timer p).next) b l none)
    (hpass : ∀ x ∈ l, s.Passes x) (hfuel : l.length ≤ fuel) :
    tickCallsFrom fuel s b = some (s.dueOf l, tickList l s) := by
  induction l generalizing s b fuel with
  | nil =>
    have hb : b = none := h
    subst hb
    cases fuel <;> rfl
  | cons t l ih =>
    have hnodup := h.nodup
    obtain ⟨hb, h⟩ := h
    subst hb
    obtain ⟨ht, hnodup⟩ := List.nodup_cons.mp hnodup
    obtain ⟨hpt, hpass⟩ := List.forall_mem_cons.mp hpass
    obtain ⟨_, hpass', hdue⟩ := tickOne_others hpass ht hpt
    obtain ⟨fuel, rfl⟩ := Nat.exists_eq_succ_of_ne_zero (Nat.ne_zero_of_lt hfuel)
    have hlen : l.length ≤ fuel := Nat.le_of_succ_le_succ hfuel
    have hframe := frame_tickOne s t
    have hrest := ih (h.congr fun x _ => hframe.next x) hpass' hlen
    rw [hdue] at hrest
    rw [tickCallsFrom, dueOf_cons, tickList, if_neg hpt.not_stops]
    by_cases hzero : (s.timer t).interval = 0
    · have hone : s.tickOne t = s := by rw [tickOne, if_pos hzero]
      rw [if_pos hzero, if_neg fun hd : s.Due t => hd.1 hzero, List.nil_append]
      rw [hone] at hrest ⊢
      exact hrest
    · have hblocked : ¬ s.Blocked t := fun hb => hpt.not_stops ⟨hzero, hb⟩
      have hone : s.tickOne t = s.countDown t := by
        rw [tickOne, if_neg hzero, if_neg hblocked]
      have hcalls : s.Due t ↔ (s.timer t).count - 1 = 0 := and_iff_right hzero
      rw [hone] at hrest hframe ⊢
      rw [if_neg hzero, if_neg hblocked]
      dsimp only
      rw [hframe.next, hrest, Option.map_some]
      simp only [hcalls]

open Period

def callsFor (log : List (Nat × U32)) (t : U32) : List Nat :=
  (log.filter fun c => c.2 = t).map Prod.fst

theorem callsFor_append (log₁ log₂ : List (Nat × U32)) (t : U32) :
    callsFor (log₁ ++ log₂) t = callsFor log₁ t ++ callsFor log₂ t := by
  simp only [callsFor, List.filter_append, List.map_append]

theorem callsFor_dueOf (hnodup : l.Nodup) (ht : t ∈ l) (i : Nat) :
    callsFor ((s.dueOf l).map fun x => (i, x)) t = if s.Due t then [i] else [] := by
  have hown : (s.dueOf l).filter (fun x => x = t) = if s.Due t then [t] else [] := by
    rw [List.filter_eq]
    split
    · rename_i hdue
      have hcount : (s.dueOf l).count t = 1 :=
        List.count_eq_one_of_mem (hnodup.filter _) (List.mem_filter.mpr ⟨ht, decide_eq_true hdue⟩)
      rw [hcount]
      rfl
    · rename_i hdue
      have hcount : (s.dueOf l).count t = 0 := by
        apply List.count_eq_zero_of_not_mem
        intro hm
        exact hdue (of_decide_eq_true (List.mem_filter.mp hm).2)
      rw [hcount]
      rfl
  rw [callsFor, List.filter_map]
  change List.map _ (List.map _ ((s.dueOf l).filter fun x => x = t)) = _
  rw [hown]
  split <;> rfl

structure Counted (l : List U32) (s : Timers) (k : Nat) (log : List (Nat × U32)) (r : Timers) :
    Prop where
  frame : Frame l s r
  count : ∀ t ∈ l, (s.timer t).interval ≠ 0 →
    (r.timer t).count.toNat = remaining (s.timer t).interval.toNat k
  idle : ∀ t ∈ l, (s.timer t).interval = 0 → r.timer t = s.timer t
  calls : ∀ t ∈ l, callsFor log t = multiples (s.timer t).interval.toNat k
  queue : ∀ a, r.queue a =
    (fun q => q8In q 1)^[log.countP fun c => (s.timer c.2).q = a] (s.queue a)

variable {log : List (Nat × U32)}

theorem counted_zero (hfresh : ∀ t ∈ l, (s.timer t).count = (s.timer t).interval) :
    Counted l s 0 [] s := by
  refine ⟨Frame.refl .., ?_, fun _ _ _ => rfl, ?_, fun _ => rfl⟩
  · intro t ht _
    rw [remaining_zero, hfresh t ht]
  · intro t _
    exact (multiples_zero _).symm

theorem toNat_pos {x : U32} (h : x ≠ 0) : 0 < x.toNat := by
  bv_omega

/-- A timer is due in the ticks that its interval divides. -/
theorem Counted.due_iff (h : Counted l s k log r) (ht : t ∈ l) :
    r.Due t ↔ (s.timer t).interval.toNat ∣ k + 1 := by
  unfold Due
  rw [h.frame.interval]
  by_cases hzero : (s.timer t).interval = 0
  · rw [hzero]
    exact iff_of_false (fun hd => hd.1 rfl) (fun hdvd => by
      cases Nat.eq_zero_of_zero_dvd hdvd)
  · rw [← remaining_eq_one_iff (toNat_pos hzero), ← h.count t ht hzero, and_iff_right hzero]
    bv_omega

theorem Counted.step (hnodup : l.Nodup) (hpass : ∀ x ∈ l, s.Passes x)
    (h : Counted l s k log r) :
    Counted l s (k + 1) (log ++ (r.dueOf l).map fun t => (k + 1, t)) (tickList l r) := by
  have hpass' : ∀ x ∈ l, r.Passes x := fun x hx => h.frame.passes (hpass x hx)
  have hsub := List.Subset.refl l
  refine ⟨h.frame.trans (frame_tickList l r) hsub hsub, ?_, ?_, ?_, ?_⟩
  · intro t ht hzero
    have hdue := h.due_iff ht
    have hcount := h.count t ht hzero
    have hpos : 0 < remaining (s.timer t).interval.toNat k := remaining_pos (toNat_pos hzero)
    rw [tickList_timer hnodup hpass' ht, ticked, h.frame.interval, if_neg hzero,
      remaining_succ (toNat_pos hzero)]
    unfold Due at hdue
    rw [h.frame.interval, and_iff_right hzero] at hdue
    by_cases hend : (r.timer t).count - 1 = 0
    · simp only [if_pos hend, if_pos (hdue.mp hend)]
    · simp only [if_neg hend, if_neg (mt hdue.mpr hend)]
      bv_omega
  · intro t ht hzero
    rw [tickList_timer hnodup hpass' ht, ticked, h.frame.interval, if_pos hzero]
    exact h.idle t ht hzero
  · intro t ht
    rw [callsFor_append, callsFor_dueOf hnodup ht, h.calls t ht, multiples_succ]
    simp only [h.due_iff ht]
  · intro a
    have hqueues : (r.dueOf l).countP (fun t => (r.timer t).q = a) =
        ((r.dueOf l).map fun t => (k + 1, t)).countP fun c => (s.timer c.2).q = a := by
      rw [List.countP_map]
      apply List.countP_congr
      intro t _
      rw [h.frame.q]
      exact Iff.rfl
    rw [tickList_queue hnodup hpass', h.queue, List.countP_append, Nat.add_comm,
      Function.iterate_add_apply, hqueues]

theorem counted_run (hchain : s.Chain l) (hpass : ∀ x ∈ l, s.Passes x)
    (hfresh : ∀ t ∈ l, (s.timer t).count = (s.timer t).interval) (hfuel : l.length ≤ fuel)
    (k : Nat) : ∃ log r, s.timerTicks fuel k = some (log, r) ∧ Counted l s k log r := by
  induction k with
  | zero => exact ⟨[], s, rfl, counted_zero hfresh⟩
  | succ k ih =>
    obtain ⟨log, r, hticks, hcounted⟩ := ih
    have hframe := hcounted.frame
    have htick := tickCallsFrom_chain (hframe.chain hchain)
      (fun x hx => hframe.passes (hpass x hx)) hfuel
    refine ⟨_, _, ?_, hcounted.step hchain.nodup hpass⟩
    rw [timerTicks, hticks]
    change (tickCallsFrom fuel r (some r.head)).bind _ = _
    rw [htick]
    rfl

/-- What `k` ticks from `s` to `r` do for the timer `t` of interval `n`: `q8_in` is called in the
ticks `n`, `2n`, `3n`, ... up to `k`. -/
structure Periodic (s : Timers) (k : Nat) (log : List (Nat × U32)) (r : Timers) (t : U32) :
    Prop where
  calls : callsFor log t = (List.range (k / (s.timer t).interval.toNat)).map
    fun j => (s.timer t).interval.toNat * (j + 1)
  number : (callsFor log t).length = k / (s.timer t).interval.toNat
  count : (s.timer t).interval ≠ 0 →
    (r.timer t).count.toNat = (s.timer t).interval.toNat - k % (s.timer t).interval.toNat
  disabled : (s.timer t).interval = 0 → r.timer t = s.timer t ∧ callsFor log t = []

theorem Counted.periodic (h : Counted l s k log r) (ht : t ∈ l) : Periodic s k log r t := by
  have hcalls := h.calls t ht
  refine ⟨hcalls, ?_, h.count t ht, ?_⟩
  · rw [hcalls, length_multiples]
  · intro hzero
    refine ⟨h.idle t ht hzero, List.length_eq_zero_iff.mp ?_⟩
    rw [hcalls, length_multiples, hzero]
    exact Nat.div_zero k

/-- Enabled timers of a list that are all `TIMER_MODE_CONTINUES` run with their intervals, whatever
queues they have; each queue gets one byte for every call. -/
theorem timerTicks_periodic (hchain : s.Chain l)
    (hmode : ∀ t ∈ l, (s.timer t).interval ≠ 0 → (s.timer t).mode = timerModeContinues)
    (hfresh : ∀ t ∈ l, (s.timer t).count = (s.timer t).interval) (hfuel : l.length ≤ fuel)
    (k : Nat) : ∃ log r, s.timerTicks fuel k = some (log, r) ∧
      (∀ t ∈ l, Periodic s k log r t) ∧ ∀ a, r.queue a =
        (fun q => q8In q 1)^[log.countP fun c => (s.timer c.2).q = a] (s.queue a) := by
  have hpass : ∀ x ∈ l, s.Passes x := by
    intro x hx
    by_cases hzero : (s.timer x).interval = 0
    · exact .inl hzero
    · refine .inr ?_
      rw [hmode x hx hzero]
      decide
  obtain ⟨log, r, hticks, hcounted⟩ := counted_run hchain hpass hfresh hfuel k
  exact ⟨log, r, hticks, fun t ht => hcounted.periodic ht, hcounted.queue⟩

def sharedQueue : Timers where
  timer t :=
    if t = 0x1000 then ⟨some 0x2000, none, 0, 0, 0, 0⟩
    else if t = 0x2000 then ⟨some 0x3000, some 0x1000, 0xa000, 3, 3, timerModeContinues⟩
    else if t = 0x3000 then ⟨some 0x4000, some 0x2000, 0xa000, 0, 0, timerModeOneshot⟩
    else ⟨none, some 0x3000, 0xa000, 2, 2, timerModeContinues⟩
  queue _ := q8Init (fun _ => 0) 1 0
  head := 0x1000

theorem timerTicks_periodic_shared : ∃ log r, sharedQueue.timerTicks 4 7 = some (log, r) ∧
    callsFor log 0x2000 = [3, 6] ∧ callsFor log 0x4000 = [2, 4, 6] ∧
    (r.timer 0x2000).count.toNat = 2 ∧ r.timer 0x3000 = sharedQueue.timer 0x3000 ∧
    (fun r : Option Timers => r.bind fun r => r.timerTick 4)^[7] (some sharedQueue) = some r := by
  have hlist : ∀ p : U32 → Prop, p 0x1000 → p 0x2000 → p 0x3000 → p 0x4000 →
      ∀ t ∈ [0x1000, 0x2000, 0x3000, 0x4000], p t := by
    intro p h₁ h₂ h₃ h₄ t ht
    simp only [List.mem_cons, List.not_mem_nil, or_false] at ht
    rcases ht with rfl | rfl | rfl | rfl <;> assumption
  have hchain : sharedQueue.Chain [0x1000, 0x2000, 0x3000, 0x4000] := ⟨rfl, rfl, rfl, rfl, rfl⟩
  obtain ⟨log, r, hticks, hperiodic, _⟩ := timerTicks_periodic hchain
    (hlist _ (by decide) (by decide) (by decide) (by decide)) (hlist _ rfl rfl rfl rfl)
    (Nat.le_refl 4) 7
  refine ⟨log, r, hticks, (hperiodic 0x2000 (by decide)).calls,
    (hperiodic 0x4000 (by decide)).calls, (hperiodic 0x2000 (by decide)).count (by decide),
    ((hperiodic 0x3000 (by decide)).disabled rfl).1, ?_⟩
  rw [← timerTicks_snd, hticks, Option.map_some]

end Timers

end Uroboros
