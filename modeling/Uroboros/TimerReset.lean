import Uroboros.TimerTick
import Uroboros.Lib.Run

/-!
# timer_reset among ticks

`timer_reset` runs with the interrupts on. Here it is cut at every statement, the
test of its loop being one, and any number of ticks arrive at each cut.
-/

set_option autoImplicit false

namespace Uroboros

namespace Timers

/-- The statement of `timer_reset` that comes next, with its local `interval`. -/
inductive ResetPoint where
  /-- `interval = t->interval` -/
  | load
  /-- `t->interval = 0` -/
  | park (interval : U32)
  /-- `t->count = interval` -/
  | reload (interval : U32)
  /-- `!q8_empty(t->q)` -/
  | test (interval : U32)
  /-- `q8_de(t->q)` -/
  | drain (interval : U32)
  /-- `t->interval = interval` -/
  | restore (interval : U32)
  | done
  deriving DecidableEq

/-- `none` is after the last statement. -/
def resetStatement (t : U32) : ResetPoint × Timers → Option (ResetPoint × Timers)
  | (.load, s) => some (.park (s.timer t).interval, s)
  | (.park interval, s) => some (.reload interval, s.modify t fun r => { r with interval := 0 })
  | (.reload interval, s) =>
    some (.test interval, s.modify t fun r => { r with count := interval })
  | (.test interval, s) =>
    some (if q8Empty (s.queueOf t) then .restore interval else .drain interval, s)
  | (.drain interval, s) =>
    some (.test interval, s.setQueue (s.timer t).q (q8De (s.queueOf t)).2)
  | (.restore interval, s) =>
    some (.done, s.modify t fun r => { r with interval := interval })
  | (.done, _) => none

inductive ResetEvent where
  | statement
  | tick
  deriving DecidableEq

inductive ResetStep (t : U32) :
    ResetPoint × Timers → ResetEvent → ResetPoint × Timers → Prop where
  | statement {u u' : ResetPoint × Timers} :
      resetStatement t u = some u' → ResetStep t u .statement u'
  | tick {p : ResetPoint} {s r : Timers} (fuel : Nat) : p ≠ .done →
      s.timerTick fuel = some r → ResetStep t (p, s) .tick (p, r)

variable {s r : Timers} {t q : U32} {l : List U32}

theorem tickOne_queue (s : Timers) (t q : U32) :
    (s.tickOne t).queue q = s.queue q ∨ (s.tickOne t).queue q = q8In (s.queue q) 1 := by
  have hframe := frame_tickOne s t
  by_cases hq : (s.timer t).q = q
  · have hown := congrArg Prod.snd (tickOne_alone s t)
    unfold queueOf tickAlone at hown
    rw [hframe.q, hq] at hown
    replace hown : (s.tickOne t).queue q = _ := hown
    rw [hown]
    split
    · exact .inl rfl
    · split
      · exact .inl rfl
      · split
        · exact .inr rfl
        · exact .inl rfl
  · apply Or.inl
    apply hframe.queue
    intro x hx
    rw [List.mem_singleton.mp hx]
    exact hq

theorem tickList_valid (h : (s.queue q).Valid) :
    ((tickList l s).queue q).Valid ∧ ((tickList l s).queue q).size = (s.queue q).size := by
  induction l generalizing s with
  | nil => exact ⟨h, rfl⟩
  | cons x l ih =>
    have hone : ((s.tickOne x).queue q).Valid ∧
        ((s.tickOne x).queue q).size = (s.queue q).size := by
      rcases tickOne_queue s x q with hq | hq
      · rw [hq]
        exact ⟨h, rfl⟩
      · rw [hq]
        exact ⟨q8In_valid h 1, q8In_size ..⟩
    rw [tickList]
    split
    · exact hone
    · obtain ⟨hvalid, hsize⟩ := ih hone.1
      exact ⟨hvalid, hsize.trans hone.2⟩

/-- On the list `l` only `t` has the queue `q`. -/
structure Owned (l : List U32) (t q : U32) (s : Timers) : Prop where
  chain : s.Chain l
  queue : (s.timer t).q = q
  others : ∀ x ∈ l, x ≠ t → (s.timer x).q ≠ q

theorem Owned.congr (h : Owned l t q s) (hhead : r.head = s.head)
    (hnext : ∀ x, (r.timer x).next = (s.timer x).next)
    (hq : ∀ x, (r.timer x).q = (s.timer x).q) : Owned l t q r := by
  refine ⟨h.chain.congr hhead hnext, (hq t).trans h.queue, ?_⟩
  intro x hx hne
  rw [hq]
  exact h.others x hx hne

theorem Owned.modify (h : Owned l t q s) {f : Timer → Timer}
    (hf : ∀ a, (f a).next = a.next ∧ (f a).q = a.q) : Owned l t q (s.modify t f) :=
  h.congr rfl (modify_field Timer.next fun a => (hf a).1)
    (modify_field Timer.q fun a => (hf a).2)

theorem Owned.queueOf (h : Owned l t q s) : s.queueOf t = s.queue q := by
  unfold Timers.queueOf
  rw [h.queue]

/-- While its interval is 0, ticks change neither the timer nor its queue. -/
theorem tickList_parked (hzero : (s.timer t).interval = 0) (hq : (s.timer t).q = q)
    (hown : ∀ x ∈ l, x ≠ t → (s.timer x).q ≠ q) :
    (tickList l s).timer t = s.timer t ∧ (tickList l s).queue q = s.queue q := by
  induction l generalizing s with
  | nil => exact ⟨rfl, rfl⟩
  | cons x l ih =>
    obtain ⟨hx, hown⟩ := List.forall_mem_cons.mp hown
    have hone : (s.tickOne x).timer t = s.timer t ∧ (s.tickOne x).queue q = s.queue q := by
      by_cases heq : x = t
      · subst heq
        rw [tickOne, if_pos hzero]
        exact ⟨rfl, rfl⟩
      · have hframe := frame_tickOne s x
        refine ⟨hframe.timer t fun hm => heq (List.mem_singleton.mp hm).symm, ?_⟩
        apply hframe.queue
        intro y hy
        rw [List.mem_singleton.mp hy]
        exact hx heq
    rw [tickList]
    split
    · exact hone
    · rw [← hone.1, ← hone.2]
      apply ih
      · rw [hone.1]
        exact hzero
      · rw [hone.1]
        exact hq
      · intro y hy hne
        rw [(frame_tickOne s x).q]
        exact hown y hy hne

/-- What has been done when `p` comes next in the reset of a timer of interval `n`. -/
def Reached (n : U32) (r : Timer) (queue : Queue8) : ResetPoint → Prop
  | .load => r.interval = n
  | .park interval => interval = n ∧ r.interval = n
  | .reload interval => interval = n ∧ r.interval = 0
  | .test interval => interval = n ∧ r.interval = 0 ∧ r.count = n
  | .drain interval => interval = n ∧ r.interval = 0 ∧ r.count = n ∧ q8Empty queue = false
  | .restore interval => interval = n ∧ r.interval = 0 ∧ r.count = n ∧ q8Empty queue = true
  | .done => r.interval = n ∧ r.count = n ∧ q8Empty queue = true

/-- An upper bound of the statements that are left. -/
def statementsLeft (queue : Queue8) : ResetPoint → Nat
  | .load => 2 * queue.size.toNat + 4
  | .park _ => 2 * queue.size.toNat + 3
  | .reload _ => 2 * (q8Usage queue).toNat + 3
  | .test _ => 2 * (q8Usage queue).toNat + 2
  | .drain _ => 2 * (q8Usage queue).toNat + 1
  | .restore _ => 1
  | .done => 0

/-- The call has come to the point `u.1` in the state `u.2`. -/
structure Resetting (l : List U32) (t q n : U32) (u : ResetPoint × Timers) : Prop where
  owned : Owned l t q u.2
  valid : (u.2.queue q).Valid
  reached : Reached n (u.2.timer t) (u.2.queue q) u.1

variable {n : U32} {p : ResetPoint} {u u' : ResetPoint × Timers}

/-- From `t->interval = 0` on, the interval is 0 until it is restored. -/
theorem Reached.cases {a : Timer} {queue : Queue8} (h : Reached n a queue p) :
    p = .load ∨ (∃ interval, p = .park interval) ∨ a.interval = 0 ∨ p = .done := by
  cases p with
  | load => exact .inl rfl
  | park interval => exact .inr (.inl ⟨interval, rfl⟩)
  | reload interval => exact .inr (.inr (.inl h.2))
  | test interval => exact .inr (.inr (.inl h.2.1))
  | drain interval => exact .inr (.inr (.inl h.2.1))
  | restore interval => exact .inr (.inr (.inl h.2.1))
  | done => exact .inr (.inr (.inr rfl))

theorem Resetting.tick (h : Resetting l t q n (p, s)) (hp : p ≠ .done) :
    Resetting l t q n (p, tickList l s) ∧
      statementsLeft ((tickList l s).queue q) p ≤ statementsLeft (s.queue q) p := by
  have hframe := frame_tickList l s
  have howned : Owned l t q (tickList l s) := h.owned.congr hframe.head hframe.next hframe.q
  have hqueue := tickList_valid (l := l) h.valid
  have hreached := h.reached
  rcases hreached.cases with rfl | ⟨interval, rfl⟩ | hzero | hdone
  · refine ⟨⟨howned, hqueue.1, (hframe.interval t).trans hreached⟩, ?_⟩
    rw [statementsLeft, statementsLeft, hqueue.2]
  · refine ⟨⟨howned, hqueue.1, hreached.1, (hframe.interval t).trans hreached.2⟩, ?_⟩
    rw [statementsLeft, statementsLeft, hqueue.2]
  · obtain ⟨htimer, hsame⟩ := tickList_parked hzero h.owned.queue h.owned.others
    refine ⟨⟨howned, hqueue.1, ?_⟩, Nat.le_of_eq (by rw [hsame])⟩
    change Reached n ((tickList l s).timer t) ((tickList l s).queue q) p
    rw [htimer, hsame]
    exact hreached
  · exact absurd hdone hp

theorem Resetting.modify {p' : ResetPoint} (h : Resetting l t q n (p, s)) {f : Timer → Timer}
    (hf : ∀ a, (f a).next = a.next ∧ (f a).q = a.q)
    (hreached : Reached n (f (s.timer t)) (s.queue q) p') :
    Resetting l t q n (p', s.modify t f) := by
  refine ⟨h.owned.modify hf, h.valid, ?_⟩
  dsimp only
  rw [modify_self]
  exact hreached

theorem Resetting.test {interval : U32} (h : Resetting l t q n (.test interval, s)) :
    Resetting l t q n (if q8Empty (s.queueOf t) then .restore interval else .drain interval, s) ∧
      statementsLeft (s.queue q)
        (if q8Empty (s.queueOf t) then .restore interval else .drain interval) + 1 ≤
        statementsLeft (s.queue q) (.test interval) := by
  have howned : Owned l t q s := h.owned
  obtain ⟨hn, hzero, hcount⟩ := h.reached
  rw [howned.queueOf]
  cases hempty : q8Empty (s.queue q) with
  | true =>
    refine ⟨⟨howned, h.valid, hn, hzero, hcount, hempty⟩, ?_⟩
    simp only [statementsLeft, if_true]
    omega
  | false =>
    refine ⟨⟨howned, h.valid, hn, hzero, hcount, hempty⟩, ?_⟩
    simp only [statementsLeft, Bool.false_eq_true, if_false]
    omega

theorem Resetting.drain {interval : U32} (h : Resetting l t q n (.drain interval, s)) :
    Resetting l t q n (.test interval, s.setQueue (s.timer t).q (q8De (s.queueOf t)).2) ∧
      statementsLeft ((s.setQueue (s.timer t).q (q8De (s.queueOf t)).2).queue q)
        (.test interval) + 1 ≤ statementsLeft (s.queue q) (.drain interval) := by
  have howned : Owned l t q s := h.owned
  have hvalid : (s.queue q).Valid := h.valid
  obtain ⟨hn, hzero, hcount, hempty⟩ := h.reached
  have hused := QueueSystem.q8Usage_de hvalid hempty
  have hnew : (s.setQueue (s.timer t).q (q8De (s.queueOf t)).2).queue q =
      (q8De (s.queue q)).2 := by
    rw [howned.queueOf, howned.queue]
    exact Function.update_self ..
  refine ⟨⟨howned.congr rfl (fun _ => rfl) (fun _ => rfl), ?_, hn, hzero, hcount⟩, ?_⟩
  · dsimp only
    rw [hnew]
    exact q8De_valid hvalid
  · simp only [statementsLeft, hnew]
    omega

/-- Each statement keeps the invariant and leaves one statement less. -/
theorem Resetting.statement (h : Resetting l t q n u) (hu : resetStatement t u = some u') :
    Resetting l t q n u' ∧
      statementsLeft (u'.2.queue q) u'.1 + 1 ≤ statementsLeft (u.2.queue q) u.1 := by
  obtain ⟨p, s⟩ := u
  have hvalid : (s.queue q).Valid := h.valid
  have hreached : Reached n (s.timer t) (s.queue q) p := h.reached
  cases p with
  | load =>
    cases hu
    exact ⟨⟨h.owned, hvalid, hreached, hreached⟩, Nat.le_refl _⟩
  | park interval =>
    cases hu
    constructor
    · apply h.modify
      · exact fun a => ⟨rfl, rfl⟩
      · exact ⟨hreached.1, rfl⟩
    · obtain ⟨hroom, _⟩ := QueueSystem.q8Usage_spec hvalid
      simp only [statementsLeft, modify_queue]
      omega
  | reload interval =>
    cases hu
    obtain ⟨hn, hzero⟩ := hreached
    constructor
    · apply h.modify
      · exact fun a => ⟨rfl, rfl⟩
      · exact ⟨hn, hzero, hn⟩
    · exact Nat.le_refl _
  | test interval =>
    cases hu
    exact h.test
  | drain interval =>
    cases hu
    exact h.drain
  | restore interval =>
    cases hu
    obtain ⟨hn, hzero, hcount, hempty⟩ := hreached
    constructor
    · apply h.modify
      · exact fun a => ⟨rfl, rfl⟩
      · exact ⟨hn, hcount, hempty⟩
    · exact Nat.le_refl _
  | done => cases hu

theorem resetting_step (u : ResetPoint × Timers) (e : ResetEvent) (u' : ResetPoint × Timers)
    (h : Resetting l t q n u) (step : ResetStep t u e u') :
    Resetting l t q n u' ∧ statementsLeft (u'.2.queue q) u'.1 +
      (if e = .statement then 1 else 0) ≤ statementsLeft (u.2.queue q) u.1 := by
  cases step with
  | statement hu =>
    rw [if_pos rfl]
    exact h.statement hu
  | tick fuel hp hr =>
    have heq := (ticks_iff h.owned.chain).mp ⟨fuel, hr⟩
    rw [if_neg (by decide), Nat.add_zero, heq]
    exact h.tick hp

def statements (tr : List ((ResetPoint × Timers) × ResetEvent × ResetPoint × Timers)) : Nat :=
  tr.countP fun x => x.2.1 = .statement

/-- After any run: the call has not made more statements than its bound, goes on while it is not
done, and in the end has emptied the queue and set both fields to the interval. -/
structure ResetsCleanly (s : Timers) (t : U32)
    (tr : List ((ResetPoint × Timers) × ResetEvent × ResetPoint × Timers))
    (u : ResetPoint × Timers) : Prop where
  bound : statements tr ≤ 2 * (s.queueOf t).size.toNat + 4
  ends : statements tr = 2 * (s.queueOf t).size.toNat + 4 → u.1 = .done
  continues : u.1 ≠ .done → ∃ u', resetStatement t u = some u'
  ticks : ∃ r, u.2.Ticks r
  reset : u.1 = .done → (u.2.timer t).q = (s.timer t).q ∧ q8Empty (u.2.queueOf t) = true ∧
    (u.2.timer t).count = (s.timer t).interval ∧ (u.2.timer t).interval = (s.timer t).interval

theorem resetStatement_returns (h : u.1 ≠ .done) : ∃ u', resetStatement t u = some u' := by
  obtain ⟨p, s⟩ := u
  cases p with
  | done => exact absurd rfl h
  | load => exact ⟨_, rfl⟩
  | park interval => exact ⟨_, rfl⟩
  | reload interval => exact ⟨_, rfl⟩
  | test interval => exact ⟨_, rfl⟩
  | drain interval => exact ⟨_, rfl⟩
  | restore interval => exact ⟨_, rfl⟩

theorem statementsLeft_pos {queue : Queue8} (h : p ≠ .done) : 0 < statementsLeft queue p := by
  cases p with
  | done => exact absurd rfl h
  | load => exact Nat.succ_pos _
  | park interval => exact Nat.succ_pos _
  | reload interval => exact Nat.succ_pos _
  | test interval => exact Nat.succ_pos _
  | drain interval => exact Nat.succ_pos _
  | restore interval => exact Nat.succ_pos _

/-- Ticks between the statements of `timer_reset` do not keep it from its end or change what it
leaves. -/
theorem timer_reset_atomic (hchain : s.Chain l)
    (hown : ∀ x ∈ l, x ≠ t → (s.timer x).q ≠ (s.timer t).q) (hvalid : (s.queueOf t).Valid)
    {tr : List ((ResetPoint × Timers) × ResetEvent × ResetPoint × Timers)}
    (hrun : Run (ResetStep t) (.load, s) tr u) : ResetsCleanly s t tr u := by
  have hstart : Resetting l t (s.timer t).q (s.timer t).interval (.load, s) :=
    ⟨⟨hchain, rfl, hown⟩, hvalid, rfl⟩
  obtain ⟨h, hbound⟩ := hrun.variant hstart
    (fun u e u' h step => (resetting_step u e u' h step).1)
    (m := fun u => statementsLeft (u.2.queue (s.timer t).q) u.1) (P := fun e => e = .statement)
    (fun u e u' h step => (resetting_step u e u' h step).2)
  replace hbound : statements tr + statementsLeft (u.2.queue (s.timer t).q) u.1 ≤
      2 * (s.queueOf t).size.toNat + 4 := hbound
  refine ⟨(Nat.le_add_right ..).trans hbound, ?_, resetStatement_returns,
    ⟨_, (ticks_iff h.owned.chain).mpr rfl⟩, ?_⟩
  · intro hall
    apply Classical.byContradiction
    intro hdone
    have hpos : 0 < statementsLeft (u.2.queue (s.timer t).q) u.1 := statementsLeft_pos hdone
    omega
  intro hdone
  have hreached := h.reached
  rw [hdone] at hreached
  obtain ⟨hinterval, hcount, hempty⟩ := hreached
  rw [h.owned.queueOf]
  exact ⟨h.owned.queue, hempty, hcount, hinterval⟩

def perform (t : U32) (fuel : Nat) (u : ResetPoint × Timers) :
    ResetEvent → Option (ResetEvent × ResetPoint × Timers)
  | .statement => (resetStatement t u).map fun u' => (.statement, u')
  | .tick =>
    if u.1 ≠ .done then (u.2.timerTick fuel).map fun r => (.tick, u.1, r) else none

theorem perform_step {fuel : Nat} (u : ResetPoint × Timers) (e e' : ResetEvent)
    (u' : ResetPoint × Timers) (h : perform t fuel u e = some (e', u')) : ResetStep t u e' u' := by
  cases e with
  | statement =>
    obtain ⟨v, hv, heq⟩ := Option.map_eq_some_iff.mp h
    cases heq
    exact .statement hv
  | tick =>
    simp only [perform] at h
    split at h
    · rename_i hp
      obtain ⟨r, hr, heq⟩ := Option.map_eq_some_iff.mp h
      cases heq
      exact .tick fuel hp hr
    · cases h

/-- One byte waits when the call begins, and a tick comes before each statement. -/
theorem timer_reset_atomic_byte : ∃ tr r,
    Run (ResetStep 0x2000) (.load, twoTimers (q8In (q8Init (fun _ => 0) 32 0) 1)) tr (.done, r) ∧
      statements tr = 7 ∧ q8Empty (r.queueOf 0x2000) = true ∧ (r.timer 0x2000).count = 1 ∧
      (r.timer 0x2000).interval = 1 := by
  let s := twoTimers (q8In (q8Init (fun _ => 0) 32 0) 1)
  have hexec : (Run.exec (perform 0x2000 3) ((List.replicate 7 [.tick, .statement]).flatten)
      (.load, s)).map (fun u => (u.2.1, statements u.1)) = some (.done, 7) := by
    decide +kernel
  obtain ⟨⟨tr, p, r⟩, hexec, heq⟩ := Option.map_eq_some_iff.mp hexec
  obtain ⟨hp, hcount⟩ := Prod.mk.inj heq
  dsimp only at hp hcount
  subst hp
  have hrun := Run.exec_run perform_step hexec
  have hown : ∀ x ∈ [0x1000, 0x2000, 0x3000], x ≠ 0x2000 →
      (s.timer x).q ≠ (s.timer 0x2000).q := by
    intro x hx hne
    simp only [List.mem_cons, List.not_mem_nil, or_false] at hx
    rcases hx with rfl | rfl | rfl
    · decide
    · exact absurd rfl hne
    · decide
  have h := timer_reset_atomic (chain_twoTimers _) hown ⟨by decide, by decide⟩ hrun
  obtain ⟨_, hempty, hc, hi⟩ := h.reset rfl
  exact ⟨tr, r, hrun, hcount, hempty, hc, hi⟩

end Timers

end Uroboros
