import Uroboros.Sleep
import Uroboros.TimerPeriod
import Uroboros.TimerReset

/-!
# Waking up

How often a timer is visited decides when it calls `q8_in` first, as long as no
timer stops a tick. The timer of `sleep` is the last of the list: a timer that
stops one tick in front of it stops all that follow.
-/

set_option autoImplicit false

namespace Uroboros

namespace Timers

variable {s r : Timers} {t x y q a : U32} {l l₁ l₂ : List U32} {tick : U32} {fuel j k ticks : Nat}
  {visits visits' : U32 → Nat}

/-- The visit in which a timer of these fields calls `q8_in` first; a count of 0 goes around. -/
def firstCall (r : Timer) : Nat := (r.count - 1).toNat + 1

/-- No ONESHOT timer of `l` has data in its queue when one of the next `n` ticks comes to it: the
timers with that queue call `q8_in` in tick `n` at the earliest, and then behind it. -/
def Clear (s : Timers) (l : List U32) (n : Nat) : Prop :=
  ∀ l₁ x l₂, l = l₁ ++ x :: l₂ → (s.timer x).interval ≠ 0 → (s.timer x).mode = timerModeOneshot →
    q8Full (s.queueOf x) = false → ∀ y ∈ l, (s.timer y).interval ≠ 0 →
      (s.timer y).q = (s.timer x).q →
        n ≤ firstCall (s.timer y) ∧ (y ∈ l₁ → n ≠ firstCall (s.timer y))

theorem sleepLoop_filled (h : q8Empty (s.queue q) = false) :
    s.sleepLoop fuel q ticks = some s := by
  cases ticks with
  | zero => rw [sleepLoop, h, if_neg Bool.false_ne_true]
  | succ ticks => rw [sleepLoop, h, if_neg Bool.false_ne_true]

theorem sleepLoop_empty (h : q8Empty (s.queue q) = true) :
    s.sleepLoop fuel q (ticks + 1) = (s.timerTick fuel).bind (sleepLoop fuel q ticks) := by
  rw [sleepLoop, h, if_pos rfl]

theorem sleepLoop_wakes (hchain : s.Chain l) (h : s.sleepLoop fuel q ticks = some r) :
    ∃ j ≤ ticks, q8Empty (((tickList l)^[j] s).queue q) = false := by
  induction ticks generalizing s with
  | zero =>
    rw [sleepLoop] at h
    split at h
    · cases h
    · rename_i hempty
      exact ⟨0, Nat.le_refl 0, eq_false_of_ne_true hempty⟩
  | succ ticks ih =>
    cases hempty : q8Empty (s.queue q) with
    | false => exact ⟨0, Nat.zero_le _, hempty⟩
    | true =>
      rw [sleepLoop_empty hempty] at h
      obtain ⟨u, hu, h⟩ := Option.bind_eq_some_iff.mp h
      rw [(ticks_iff hchain).mp ⟨fuel, hu⟩] at h
      obtain ⟨j, hj, hfilled⟩ := ih ((frame_tickList l s).chain hchain) h
      exact ⟨j + 1, Nat.succ_le_succ hj, hfilled⟩

theorem sleepLoop_returns (hchain : s.Chain l) (hfuel : l.length ≤ fuel) {j : Nat} (hj : j ≤ ticks)
    (hfilled : q8Empty (((tickList l)^[j] s).queue q) = false) :
    ∃ r, s.sleepLoop fuel q ticks = some r := by
  induction ticks generalizing s j with
  | zero =>
    cases Nat.le_zero.mp hj
    exact ⟨s, sleepLoop_filled hfilled⟩
  | succ ticks ih =>
    cases hempty : q8Empty (s.queue q) with
    | false => exact ⟨s, sleepLoop_filled hempty⟩
    | true =>
      have htick : s.timerTick fuel = some (tickList l s) := tickFrom_chain hchain hfuel
      rw [sleepLoop_empty hempty, htick]
      cases j with
      | zero =>
        rw [Function.iterate_zero_apply, hempty] at hfilled
        cases hfilled
      | succ j => exact ih ((frame_tickList l s).chain hchain) (Nat.le_of_succ_le_succ hj) hfilled

/-- On a list that ends the loop returns when one of the ticks leaves data in the queue. -/
theorem sleepLoop_iff (hchain : s.Chain l) : (∃ fuel r, s.sleepLoop fuel q ticks = some r) ↔
    ∃ j ≤ ticks, q8Empty (((tickList l)^[j] s).queue q) = false := by
  constructor
  · rintro ⟨fuel, r, h⟩
    exact sleepLoop_wakes hchain h
  · rintro ⟨j, hj, hfilled⟩
    exact ⟨l.length, sleepLoop_returns hchain (Nat.le_refl _) hj hfilled⟩

def Called (s : Timers) (visits : U32 → Nat) (y : U32) : Prop :=
  (s.timer y).interval ≠ 0 ∧ firstCall (s.timer y) ≤ visits y

/-- From `s` to `r` each timer of `l` was visited so many times, and stopped none of the ticks. -/
structure Visited (l : List U32) (s : Timers) (visits : U32 → Nat) (r : Timers) : Prop where
  frame : Frame l s r
  count : ∀ y ∈ l, (s.timer y).interval ≠ 0 → visits y < firstCall (s.timer y) →
    firstCall (r.timer y) + visits y = firstCall (s.timer y)
  filled : ∀ a, q8Empty (s.queue a) = true → (q8Empty (r.queue a) = false ↔
    q8Full (s.queue a) = false ∧ ∃ y ∈ l, s.Called visits y ∧ (s.timer y).q = a)
  room : ∀ a, q8Empty (s.queue a) = true → q8Empty (r.queue a) = true →
    q8Full (r.queue a) = q8Full (s.queue a)

theorem firstCall_pos (r : Timer) : 0 < firstCall r := Nat.succ_pos _

theorem firstCall_eq_one_iff {r : Timer} : firstCall r = 1 ↔ r.count - 1 = 0 := by
  unfold firstCall
  bv_omega

theorem firstCall_ticked {r : Timer} (hinterval : r.interval ≠ 0) (hcount : r.count - 1 ≠ 0) :
    firstCall (ticked r) + 1 = firstCall r := by
  unfold firstCall ticked
  rw [if_neg hinterval, if_neg hcount]
  dsimp only
  bv_omega

theorem visited_start (s : Timers) (l : List U32) : Visited l s (fun _ => 0) s := by
  refine ⟨Frame.refl l s, fun _ _ _ _ => rfl, ?_, fun _ _ _ => rfl⟩
  intro a hempty
  refine iff_of_false (by rw [hempty]; decide) ?_
  rintro ⟨_, y, _, hcalled, _⟩
  exact absurd hcalled.2 (Nat.not_le.mpr (firstCall_pos _))

theorem Visited.congr (h : Visited l s visits r) (hvisits : ∀ y ∈ l, visits' y = visits y) :
    Visited l s visits' r := by
  refine ⟨h.frame, ?_, ?_, h.room⟩
  · intro y hy
    rw [hvisits y hy]
    exact h.count y hy
  · intro a hempty
    rw [h.filled a hempty]
    refine and_congr_right fun _ => exists_congr fun y => and_congr_right fun hy => ?_
    unfold Called
    rw [hvisits y hy]

theorem Visited.due (h : Visited l s visits r) (hx : x ∈ l) (hdue : r.Due x) :
    s.Called (Function.update visits x (visits x + 1)) x := by
  obtain ⟨hinterval, hcount⟩ := hdue
  rw [h.frame.interval] at hinterval
  refine ⟨hinterval, ?_⟩
  rw [Function.update_self]
  by_cases hlt : visits x < firstCall (s.timer x)
  · have heq := h.count x hx hinterval hlt
    have hone := firstCall_eq_one_iff.mpr hcount
    omega
  · omega

theorem Visited.called (h : Visited l s visits r) (hy : y ∈ l)
    (hcalled : s.Called (Function.update visits x (visits x + 1)) y) :
    s.Called visits y ∨ y = x ∧ r.Due x := by
  obtain ⟨hinterval, hle⟩ := hcalled
  by_cases hyx : y = x
  · subst hyx
    rw [Function.update_self] at hle
    by_cases hlt : visits y < firstCall (s.timer y)
    · have heq := h.count y hy hinterval hlt
      refine .inr ⟨rfl, ?_, firstCall_eq_one_iff.mp (by omega)⟩
      rw [h.frame.interval]
      exact hinterval
    · exact .inl ⟨hinterval, Nat.not_lt.mp hlt⟩
  · rw [Function.update_of_ne hyx] at hle
    exact .inl ⟨hinterval, hle⟩

theorem Called.mono (h : s.Called visits y) (hle : visits y ≤ visits' y) : s.Called visits' y :=
  ⟨h.1, h.2.trans hle⟩

theorem le_update (visits : U32 → Nat) (x y : U32) :
    visits y ≤ Function.update visits x (visits x + 1) y := by
  by_cases hyx : y = x
  · rw [hyx, Function.update_self]
    exact Nat.le_succ _
  · rw [Function.update_of_ne hyx]

theorem Visited.count_step (h : Visited l s visits r) (hpass : ¬ r.Stops x) (hy : y ∈ l)
    (hinterval : (s.timer y).interval ≠ 0)
    (hlt : Function.update visits x (visits x + 1) y < firstCall (s.timer y)) :
    firstCall ((r.tickOne x).timer y) + Function.update visits x (visits x + 1) y =
      firstCall (s.timer y) := by
  rw [tickOne_timer_pass hpass]
  by_cases hyx : y = x
  · subst hyx
    rw [Function.update_self] at hlt ⊢
    have hcount := h.count y hy hinterval (by omega)
    have hrest : (r.timer y).count - 1 ≠ 0 := by
      intro hzero
      have hone := firstCall_eq_one_iff.mpr hzero
      omega
    have hstep := firstCall_ticked (by rwa [h.frame.interval]) hrest
    rw [if_pos rfl]
    omega
  · rw [Function.update_of_ne hyx] at hlt ⊢
    rw [if_neg hyx]
    exact h.count y hy hinterval hlt

theorem Visited.tickOne (h : Visited l s visits r) (hx : x ∈ l) (hpass : ¬ r.Stops x) :
    Visited l s (Function.update visits x (visits x + 1)) (r.tickOne x) := by
  have hone : [x] ⊆ l := List.cons_subset.mpr ⟨hx, List.nil_subset l⟩
  refine ⟨h.frame.trans (frame_tickOne r x) (List.Subset.refl l) hone,
    fun y hy => h.count_step hpass hy, ?_, ?_⟩
  · intro a hempty
    have hfilled := h.filled a hempty
    have hroom := h.room a hempty
    rw [tickOne_queue_pass hpass, h.frame.q]
    by_cases hcall : r.Due x ∧ (s.timer x).q = a
    · have hcalled := h.due hx hcall.1
      rw [if_pos hcall, q8Empty_q8In]
      cases hr : q8Empty (r.queue a) with
      | true =>
        -- still empty, the queue takes the byte exactly if it had room at the start
        rw [Bool.true_and, hroom hr]
        exact ⟨fun hfull => ⟨hfull, x, hx, hcalled, hcall.2⟩, And.left⟩
      | false =>
        refine iff_of_true (Bool.false_and _) ⟨(hfilled.mp hr).1, x, hx, hcalled, hcall.2⟩
    · rw [if_neg hcall, hfilled]
      refine and_congr_right fun _ => exists_congr fun y => and_congr_right fun hy => ?_
      constructor
      · rintro ⟨hcalled, hq⟩
        exact ⟨hcalled.mono (le_update visits x y), hq⟩
      · rintro ⟨hcalled, hq⟩
        refine ⟨(h.called hy hcalled).resolve_right ?_, hq⟩
        rintro ⟨rfl, hdue⟩
        exact hcall ⟨hdue, hq⟩
  · intro a hempty hr
    rw [tickOne_queue_pass hpass] at hr ⊢
    split at hr
    · rename_i hcall
      rw [q8Empty_q8In, Bool.and_eq_true] at hr
      rw [if_pos hcall, q8Full_q8In hr.2, ← h.room a hempty hr.1, hr.2]
    · rename_i hcall
      rw [if_neg hcall]
      exact h.room a hempty hr

/-- The visits in tick `k + 1` when it has come behind `l₁`. -/
def visitsAt (k : Nat) (l₁ : List U32) (y : U32) : Nat := k + (l₁.contains y).toNat

/-- Tick `k + 1` ends at `x` behind `l₁`, unless one in front stops it. -/
def StoppedAt (s : Timers) (l : List U32) (k : Nat) (l₁ : List U32) (x : U32) : Prop :=
  (s.timer x).interval ≠ 0 ∧ (s.timer x).mode = timerModeOneshot ∧ q8Full (s.queueOf x) = false ∧
    ∃ y ∈ l, s.Called (visitsAt k l₁) y ∧ (s.timer y).q = (s.timer x).q

theorem visitsAt_of_mem (k : Nat) (hy : y ∈ l) : visitsAt k l y = k + 1 := by
  rw [visitsAt, List.contains_iff_mem.mpr hy]
  rfl

theorem visitsAt_of_notMem (k : Nat) (hy : y ∉ l) : visitsAt k l y = k := by
  rw [visitsAt, eq_false_of_ne_true (mt List.contains_iff_mem.mp hy)]
  rfl

theorem visitsAt_concat (hx : x ∉ l₁) (y : U32) : visitsAt k (l₁ ++ [x]) y =
    Function.update (visitsAt k l₁) x (visitsAt k l₁ x + 1) y := by
  by_cases hyx : y = x
  · subst hyx
    rw [Function.update_self, visitsAt_of_notMem k hx]
    exact visitsAt_of_mem k (List.mem_append_right _ List.mem_cons_self)
  · have hone : y ∉ [x] := fun hm => hyx (List.mem_singleton.mp hm)
    rw [Function.update_of_ne hyx]
    by_cases hy : y ∈ l₁
    · rw [visitsAt_of_mem k hy, visitsAt_of_mem k (List.mem_append_left _ hy)]
    · rw [visitsAt_of_notMem k hy, visitsAt_of_notMem k]
      exact fun hm => (List.mem_append.mp hm).elim hy hone

def Drained (s : Timers) (l : List U32) : Prop :=
  ∀ x ∈ l, (s.timer x).mode = timerModeOneshot → q8Empty (s.queueOf x) = true

theorem Visited.stops_iff (h : Visited l s (visitsAt k l₁) r) (hdrained : s.Drained l)
    (hx : x ∈ l) : r.Stops x ↔ s.StoppedAt l k l₁ x := by
  unfold Stops Blocked StoppedAt
  rw [h.frame.interval, h.frame.mode]
  refine and_congr_right fun _ => and_congr_right fun hmode => ?_
  rw [Bool.not_eq_true, queueOf, h.frame.q]
  exact h.filled _ (hdrained x hx hmode)

theorem Stops.tickOne (h : s.Stops x) (y : U32) : (s.tickOne y).Stops x := by
  obtain ⟨hinterval, hmode, hfilled⟩ := h
  have hframe := frame_tickOne s y
  refine ⟨by rwa [hframe.interval], by rwa [hframe.mode], ?_⟩
  unfold queueOf at hfilled ⊢
  rw [hframe.q]
  rcases tickOne_queue s y (s.timer x).q with heq | heq
  · rwa [heq]
  · rw [heq, q8Empty_q8In, eq_false_of_ne_true hfilled]
    exact Bool.false_ne_true

/-- A timer that stops the tick stops it still behind it, and those behind it are not reached. -/
theorem Stops.tickList (h : r.Stops x) (l₁ l₂ : List U32) :
    (tickList (l₁ ++ x :: l₂) r).Stops x ∧
    Frame (l₁ ++ [x]) r (Timers.tickList (l₁ ++ x :: l₂) r) := by
  induction l₁ generalizing r with
  | nil =>
    rw [List.nil_append, List.nil_append, Timers.tickList, if_pos h]
    exact ⟨h.tickOne x, frame_tickOne r x⟩
  | cons y l₁ ih =>
    have hone : [y] ⊆ y :: (l₁ ++ [x]) := List.cons_subset_cons y (List.nil_subset _)
    have hrest : l₁ ++ [x] ⊆ y :: (l₁ ++ [x]) := List.subset_cons_self ..
    have hframe := frame_tickOne r y
    rw [List.cons_append, List.cons_append, Timers.tickList]
    split
    · exact ⟨h.tickOne y, hframe.trans (Frame.refl (l₁ ++ [x]) _) hone hrest⟩
    · obtain ⟨hstops, hframe'⟩ := ih (h.tickOne y)
      exact ⟨hstops, hframe.trans hframe' hone hrest⟩

/-- The tick goes over the rest `l₂` of the list, or it ends at the first timer that stops it. -/
theorem Visited.tickList (hl : l = l₁ ++ l₂) (hnodup : l.Nodup) (hdrained : s.Drained l)
    (h : Visited l s (visitsAt k l₁) r) :
    (Visited l s (visitsAt k l) (tickList l₂ r) ∧
      ∀ m x m', l₂ = m ++ x :: m' → ¬ s.StoppedAt l k (l₁ ++ m) x) ∨
    ∃ m x m', l₂ = m ++ x :: m' ∧ s.StoppedAt l k (l₁ ++ m) x ∧
      (Timers.tickList l₂ r).Stops x ∧ Frame (m ++ [x]) r (Timers.tickList l₂ r) := by
  induction l₂ generalizing l₁ r with
  | nil =>
    rw [List.append_nil] at hl
    subst hl
    exact .inl ⟨h, fun m x m' heq => by simp at heq⟩
  | cons x l₂ ih =>
    have hx : x ∈ l := hl ▸ List.mem_append_right _ List.mem_cons_self
    have hx₁ : x ∉ l₁ := notMem_front (hl ▸ hnodup)
    have hiff := h.stops_iff hdrained hx
    by_cases hstops : r.Stops x
    · obtain ⟨hstops', hframe⟩ := hstops.tickList [] l₂
      refine .inr ⟨[], x, l₂, rfl, ?_, hstops', hframe⟩
      rw [List.append_nil]
      exact hiff.mp hstops
    · have hvisited : Visited l s (visitsAt k (l₁ ++ [x])) (r.tickOne x) :=
        (h.tickOne hx hstops).congr fun y _ => visitsAt_concat hx₁ y
      rw [Timers.tickList, if_neg hstops]
      rcases ih (hl.trans (List.append_cons ..)) hvisited with
        ⟨hrest, hopen⟩ | ⟨m, z, m', rfl, hz, hstops', hframe⟩
      · refine .inl ⟨hrest, ?_⟩
        intro m z m' heq
        cases m with
        | nil =>
          obtain ⟨rfl, rfl⟩ := List.cons.inj heq
          rw [List.append_nil]
          exact mt hiff.mpr hstops
        | cons w m =>
          obtain ⟨rfl, rfl⟩ := List.cons.inj heq
          rw [List.append_cons]
          exact hopen m z m' rfl
      · refine .inr ⟨x :: m, z, m', rfl, ?_, hstops', ?_⟩
        · rwa [List.append_cons]
        · exact (frame_tickOne r x).trans hframe (List.cons_subset_cons x (List.nil_subset _))
            (List.subset_cons_self ..)

def StoppedIn (s : Timers) (l : List U32) (k : Nat) : Prop :=
  ∃ l₁ x l₂, l = l₁ ++ x :: l₂ ∧ s.StoppedAt l k l₁ x

/-- The timer `t` of `sleep` behind the timers `l`, with its own queue `q`. -/
structure Sleeping (l : List U32) (t q tick : U32) (s : Timers) : Prop where
  chain : s.Chain (l ++ [t])
  timer : SameData ⟨none, none, q, tick, tick, timerModeOneshot⟩ (s.timer t)
  empty : q8Empty (s.queue q) = true
  room : q8Full (s.queue q) = false
  own : ∀ x ∈ l, (s.timer x).q ≠ q
  drained : s.Drained l

/-- A timer of `l` stops the tick while `q` is empty. -/
structure Stalled (l : List U32) (q : U32) (r : Timers) : Prop where
  empty : q8Empty (r.queue q) = true
  own : ∀ x ∈ l, (r.timer x).q ≠ q
  stops : ∃ l₁ x l₂, l = l₁ ++ x :: l₂ ∧ r.Stops x

theorem concat_split (h : l ++ [t] = l₁ ++ x :: l₂) :
    l = l₁ ∧ t = x ∨ ∃ l₃, l = l₁ ++ x :: l₃ := by
  rcases List.eq_nil_or_concat l₂ with rfl | ⟨l₃, z, rfl⟩
  · obtain ⟨hl, hx⟩ := List.append_inj' h rfl
    exact .inl ⟨hl, List.head_eq_of_cons_eq hx⟩
  · rw [List.concat_eq_append, ← List.cons_append, ← List.append_assoc] at h
    exact .inr ⟨l₃, (List.append_inj' h rfl).1⟩

theorem concat_subset (l₁ : List U32) (x : U32) (l₂ : List U32) : l₁ ++ [x] ⊆ l₁ ++ x :: l₂ := by
  rw [List.append_cons l₁ x l₂]
  exact List.subset_append_left ..

theorem Stalled.of_frame {r' : Timers} (hempty : q8Empty (r.queue q) = true)
    (hown : ∀ x ∈ l, (r.timer x).q ≠ q) (hframe : Frame l r r')
    (hstops : ∃ l₁ x l₂, l = l₁ ++ x :: l₂ ∧ r'.Stops x) : Stalled l q r' := by
  refine ⟨?_, ?_, hstops⟩
  · rw [hframe.queue q hown]
    exact hempty
  · intro x hx
    rw [hframe.q]
    exact hown x hx

theorem Stalled.tickList (h : Stalled l q r) : Stalled l q (tickList (l ++ [t]) r) := by
  obtain ⟨l₁, x, l₂, rfl, hstops⟩ := h.stops
  rw [List.append_assoc, List.cons_append]
  obtain ⟨hstops', hframe⟩ := hstops.tickList l₁ (l₂ ++ [t])
  exact .of_frame h.empty h.own (hframe.mono (concat_subset ..)) ⟨l₁, x, l₂, rfl, hstops'⟩

namespace Sleeping

theorem notMem (h : Sleeping l t q tick s) : t ∉ l := notMem_front h.chain.nodup

theorem queue (h : Sleeping l t q tick s) : (s.timer t).q = q := h.timer.1

theorem eq_of_queue (h : Sleeping l t q tick s) (hy : y ∈ l ++ [t]) (hq : (s.timer y).q = q) :
    y = t := by
  rcases List.mem_append.mp hy with hy | hy
  · exact absurd hq (h.own y hy)
  · exact List.mem_singleton.mp hy

theorem drained_concat (h : Sleeping l t q tick s) : s.Drained (l ++ [t]) := by
  intro x hx hmode
  rcases List.mem_append.mp hx with hx | hx
  · exact h.drained x hx hmode
  · rw [List.mem_singleton.mp hx, queueOf, h.queue]
    exact h.empty

theorem firstCall_eq (h : Sleeping l t q tick s) (htick : tick ≠ 0) :
    firstCall (s.timer t) = tick.toNat := by
  rw [firstCall, h.timer.2.2.1]
  bv_omega

theorem called_iff (h : Sleeping l t q tick s) (htick : tick ≠ 0) :
    s.Called visits t ↔ tick.toNat ≤ visits t := by
  rw [Called, h.firstCall_eq htick, h.timer.2.1]
  exact and_iff_right htick

theorem stoppedAt (h : Sleeping l t q tick s) (htick : tick ≠ 0) (hk : k < tick.toNat)
    (hl : l ++ [t] = l₁ ++ x :: l₂) (hx : s.StoppedAt (l ++ [t]) k l₁ x) :
    ∃ l₃, l = l₁ ++ x :: l₃ := by
  rcases concat_split hl with ⟨rfl, rfl⟩ | hsplit
  · obtain ⟨_, _, _, y, hy, hcalled, hq⟩ := hx
    rw [h.eq_of_queue hy (hq.trans h.queue), h.called_iff htick,
      visitsAt_of_notMem k h.notMem] at hcalled
    omega
  · exact hsplit

theorem filled_iff (h : Sleeping l t q tick s) (htick : tick ≠ 0)
    (hvisited : Visited (l ++ [t]) s (fun _ => j) r) :
    q8Empty (r.queue q) = false ↔ tick.toNat ≤ j := by
  rw [hvisited.filled q h.empty, and_iff_right h.room]
  constructor
  · rintro ⟨y, hy, hcalled, hq⟩
    rw [h.eq_of_queue hy hq, h.called_iff htick] at hcalled
    exact hcalled
  · intro hle
    have ht : t ∈ l ++ [t] := List.mem_append_right _ List.mem_cons_self
    exact ⟨t, ht, (h.called_iff htick).mpr hle, h.queue⟩

/-- Up to tick `tick` either all ticks come to the end of the list, or one was stopped. -/
theorem run (h : Sleeping l t q tick s) (htick : tick ≠ 0) (hj : j ≤ tick.toNat) :
    Visited (l ++ [t]) s (fun _ => j) ((tickList (l ++ [t]))^[j] s) ∧
        (∀ k < j, ¬ s.StoppedIn (l ++ [t]) k) ∨
      Stalled l q ((tickList (l ++ [t]))^[j] s) ∧ ∃ k < j, s.StoppedIn (l ++ [t]) k := by
  induction j with
  | zero => exact .inl ⟨visited_start .., fun k hk => absurd hk (Nat.not_lt_zero k)⟩
  | succ j ih =>
    rw [Function.iterate_succ_apply']
    rcases ih (Nat.le_of_succ_le hj) with ⟨hvisited, hopen⟩ | ⟨hstalled, k, hk, hstopped⟩
    · have hstart : Visited (l ++ [t]) s (visitsAt j []) ((Timers.tickList (l ++ [t]))^[j] s) :=
        hvisited.congr fun y _ => visitsAt_of_notMem j List.not_mem_nil
      have hl : l ++ [t] = [] ++ (l ++ [t]) := rfl
      rcases hstart.tickList hl h.chain.nodup h.drained_concat with
        ⟨hrest, hopen'⟩ | ⟨l₁, x, l₂, hl, hx, hstops, hframe⟩
      · refine .inl ⟨hrest.congr fun y hy => (visitsAt_of_mem j hy).symm, ?_⟩
        intro k hk
        rcases Nat.lt_succ_iff_lt_or_eq.mp hk with hk | rfl
        · exact hopen k hk
        · rintro ⟨l₁, x, l₂, hl, hx⟩
          exact hopen' l₁ x l₂ hl hx
      · -- the first tick that is stopped, and in front of `t`
        have hx' : s.StoppedAt (l ++ [t]) j l₁ x := hx
        obtain ⟨l₃, hl₃⟩ := h.stoppedAt htick hj hl hx'
        have hempty : q8Empty (((Timers.tickList (l ++ [t]))^[j] s).queue q) = true := by
          rw [← Bool.not_eq_false, h.filled_iff htick hvisited]
          omega
        have hown : ∀ y ∈ l, (((Timers.tickList (l ++ [t]))^[j] s).timer y).q ≠ q := by
          intro y hy
          rw [hvisited.frame.q]
          exact h.own y hy
        refine .inr ⟨?_, j, Nat.lt_succ_self j, l₁, x, l₂, hl, hx'⟩
        exact .of_frame hempty hown (hframe.mono (hl₃ ▸ concat_subset l₁ x l₃))
          ⟨l₁, x, l₃, hl₃, hstops⟩
    · exact .inr ⟨hstalled.tickList, k, Nat.lt_succ_of_lt hk, hstopped⟩

theorem wakes_iff (h : Sleeping l t q tick s) (htick : tick ≠ 0) :
    (∃ j ≤ tick.toNat, q8Empty (((tickList (l ++ [t]))^[j] s).queue q) = false) ↔
      ∀ k < tick.toNat, ¬ s.StoppedIn (l ++ [t]) k := by
  constructor
  · rintro ⟨j, hj, hfilled⟩
    rcases h.run htick hj with ⟨hvisited, hopen⟩ | ⟨hstalled, _⟩
    · cases Nat.le_antisymm hj ((h.filled_iff htick hvisited).mp hfilled)
      exact hopen
    · rw [hstalled.empty] at hfilled
      cases hfilled
  · intro hopen
    rcases h.run htick (Nat.le_refl _) with ⟨hvisited, _⟩ | ⟨_, k, hk, hstopped⟩
    · exact ⟨tick.toNat, Nat.le_refl _, (h.filled_iff htick hvisited).mpr (Nat.le_refl _)⟩
    · exact absurd hstopped (hopen k hk)

theorem clear_iff (h : Sleeping l t q tick s) (htick : tick ≠ 0) :
    (∀ k < tick.toNat, ¬ s.StoppedIn (l ++ [t]) k) ↔ s.Clear l tick.toNat := by
  constructor
  · intro hopen l₁ x l₂ hl hinterval hmode hfull y hy hinterval' hq
    have hstopped : ∀ k < tick.toNat, ¬ firstCall (s.timer y) ≤ visitsAt k l₁ y := by
      intro k hk hle
      refine hopen k hk ⟨l₁, x, l₂ ++ [t], by rw [hl, List.append_assoc, List.cons_append], ?_⟩
      exact ⟨hinterval, hmode, hfull, y, List.mem_append_left _ hy, ⟨hinterval', hle⟩, hq⟩
    have hpos := firstCall_pos (s.timer y)
    constructor
    · apply Nat.not_lt.mp
      intro hlt
      exact hstopped _ hlt (Nat.le_add_right ..)
    · -- in the last tick `y` calls before the tick comes to `x`
      rintro hmem heq
      refine hstopped (tick.toNat - 1) (by omega) ?_
      rw [visitsAt_of_mem _ hmem]
      omega
  · intro hclear k hk hstopped
    obtain ⟨l₁, x, l₂, hl, hx⟩ := hstopped
    obtain ⟨l₃, rfl⟩ := h.stoppedAt htick hk hl hx
    obtain ⟨hinterval, hmode, hfull, y, hy, ⟨hinterval', hle⟩, hq⟩ := hx
    have hx : x ∈ l₁ ++ x :: l₃ := List.mem_append_right _ List.mem_cons_self
    have hy' : y ∈ l₁ ++ x :: l₃ := by
      rcases List.mem_append.mp hy with hy | hy
      · exact hy
      · rw [List.mem_singleton.mp hy, h.queue] at hq
        exact absurd hq.symm (h.own x hx)
    obtain ⟨hge, hne⟩ := hclear l₁ x l₃ rfl hinterval hmode hfull y hy' hinterval' hq
    by_cases hmem : y ∈ l₁
    · rw [visitsAt_of_mem k hmem] at hle
      exact hne hmem (by omega)
    · rw [visitsAt_of_notMem k hmem] at hle
      omega

theorem parked (h : Sleeping l t q 0 s) (j : Nat) :
    Frame (l ++ [t]) s ((tickList (l ++ [t]))^[j] s) ∧
      ((tickList (l ++ [t]))^[j] s).queue q = s.queue q := by
  induction j with
  | zero => exact ⟨Frame.refl .., rfl⟩
  | succ j ih =>
    obtain ⟨hframe, hqueue⟩ := ih
    have hown : ∀ x ∈ l ++ [t], x ≠ t → (((tickList (l ++ [t]))^[j] s).timer x).q ≠ q := by
      intro x hx hne
      rw [hframe.q]
      exact fun hq => hne (h.eq_of_queue hx hq)
    have hparked := tickList_parked ((hframe.interval t).trans h.timer.2.1)
      ((hframe.q t).trans h.queue) hown
    rw [Function.iterate_succ_apply']
    exact ⟨hframe.trans (frame_tickList ..) (List.Subset.refl _) (List.Subset.refl _),
      hparked.2.trans hqueue⟩

end Sleeping

theorem modify_modify (s : Timers) (t : U32) (f g : Timer → Timer) :
    (s.modify t f).modify t g = s.modify t fun a => g (f a) := by
  simp [modify]

theorem queueOf_modify {f : Timer → Timer} (hf : ∀ a, (f a).q = a.q) (x : U32) :
    (s.modify t f).queueOf x = s.queueOf x := by
  rw [queueOf, modify_field Timer.q hf, modify_queue]
  rfl

theorem resetFrom_drained {interval : U32} (hempty : q8Empty (s.queueOf t) = true) :
    resetFrom (fuel + 1) s t (some (.draining interval)) =
      some (s.modify t fun a => { a with interval }) := by
  have hnext : s.resetNext t (some (.draining interval)) =
      (none, s.modify t fun a => { a with interval }) := if_pos hempty
  rw [resetFrom, hnext]
  rfl

theorem timerReset_empty (hempty : q8Empty (s.queueOf t) = true)
    (h : s.timerReset fuel t = some r) :
    r = s.modify t fun a => { a with interval := (s.timer t).interval
                                     count := (s.timer t).interval } := by
  rcases fuel with _ | _ | _ | fuel
  · cases h
  · cases h
  · cases h
  · rw [← queueOf_modify (f := fun a => { a with interval := 0, count := (s.timer t).interval })
      fun _ => rfl, ← modify_modify s t (fun a => { a with interval := 0 })
        fun a => { a with count := (s.timer t).interval }] at hempty
    have hend := (resetFrom_drained hempty).symm.trans h
    rw [modify_modify, modify_modify] at hend
    exact (Option.some.inj hend).symm

theorem Clear.congr {n : Nat} (hdata : ∀ x ∈ l, SameData (s.timer x) (r.timer x))
    (hqueue : ∀ x ∈ l, r.queueOf x = s.queueOf x) (h : s.Clear l n) : r.Clear l n := by
  intro l₁ x l₂ hl hinterval hmode hfull y hy hinterval' hq
  have hx : x ∈ l := hl ▸ List.mem_append_right _ List.mem_cons_self
  obtain ⟨hqx, hix, _, hmx⟩ := hdata x hx
  obtain ⟨hqy, hiy, hcy, _⟩ := hdata y hy
  rw [hix] at hinterval
  rw [hmx] at hmode
  rw [hqueue x hx] at hfull
  rw [hiy] at hinterval'
  rw [hqx, hqy] at hq
  have hcall : firstCall (r.timer y) = firstCall (s.timer y) := by
    rw [firstCall, firstCall, hcy]
  rw [hcall]
  exact h l₁ x l₂ hl hinterval hmode hfull y hy hinterval' hq

end Timers

namespace QueueHeap
open Timers

variable {h h' : QueueHeap} {l : List U32} {t q tick : U32} {bytes : Nat → U8} {fuel : Nat}

/-- The queue and the timer of `sleep` are ready when its loop begins, and the other timers are as
they were. -/
theorem sleepStart_sleeping (hl : h.timers.TwoWay l) (hdrained : h.timers.Drained l)
    (hstart : h.sleepStart fuel tick bytes = some (q, t, h')) (ht : t ∉ l)
    (hq : ∀ x ∈ l, (h.timers.timer x).q ≠ q) :
    Sleeping l t q tick h'.timers ∧
      ∀ x ∈ l, SameData (h.timers.timer x) (h'.timers.timer x) ∧
        h'.timers.queueOf x = h.timers.queueOf x := by
  obtain ⟨h₁, timers, hmake, halloc, hreset, _⟩ := sleepStart_cases hstart
  obtain ⟨_, _, buf, hqueue⟩ := q8Make_cases hmake
  have hl₁ : h₁.timers.TwoWay l := by
    rw [hqueue]
    exact hl.setQueue ..
  obtain ⟨htwo, _, hqueues, hnew, hothers⟩ := timerAlloc_twoWay hl₁ ht halloc
  have hown : timers.queue q = q8Init buf (timerQueueSize + 1) 0 := by
    rw [hqueues, hqueue, setQueue_self]
  have hempty : q8Empty (timers.queueOf t) = true := by
    rw [queueOf, hnew.1]
    change q8Empty (timers.queue q) = true
    rw [hown]
    rfl
  have hdone := timerReset_empty hempty hreset
  have hqueue' : h'.timers.queue = timers.queue := by
    rw [hdone]
    rfl
  have hother : ∀ x ∈ l, SameData (h.timers.timer x) (h'.timers.timer x) ∧
      h'.timers.queueOf x = h.timers.queueOf x := by
    intro x hx
    have hxt : x ≠ t := fun heq => ht (heq ▸ hx)
    have hdata : SameData (h.timers.timer x) (h'.timers.timer x) := by
      have hdata := hothers x hxt
      rw [hqueue, setQueue_timer] at hdata
      rw [hdone, modify_of_ne _ hxt]
      exact hdata
    refine ⟨hdata, ?_⟩
    rw [queueOf, queueOf, hdata.1, hqueue', hqueues, hqueue]
    exact Function.update_of_ne (hq x hx) ..
  refine ⟨⟨?_, ?_, ?_, ?_, ?_, ?_⟩, hother⟩
  · rw [hdone]
    apply TwoWay.chain
    apply htwo.modify
    exact fun _ => ⟨rfl, rfl⟩
  · rw [hdone, modify_self]
    exact ⟨hnew.1, hnew.2.1, hnew.2.1, hnew.2.2.2⟩
  · rw [hqueue', hown]
    rfl
  · rw [hqueue', hown]
    rfl
  · intro x hx
    rw [(hother x hx).1.1]
    exact hq x hx
  · intro x hx hmode
    rw [(hother x hx).2]
    exact hdrained x hx ((hother x hx).1.2.2.2.symm.trans hmode)

/-- The loop of `sleep` ends within `max tick 1` ticks exactly if `tick` is not 0 and none of the
ticks ends at a timer in front. -/
theorem sleep_wakes_iff (hl : h.timers.TwoWay l) (hdrained : h.timers.Drained l)
    (hstart : h.sleepStart fuel tick bytes = some (q, t, h')) (ht : t ∉ l)
    (hq : ∀ x ∈ l, (h.timers.timer x).q ≠ q) :
    (∃ fuel' timers, h'.timers.sleepLoop fuel' q (max tick.toNat 1) = some timers) ↔
      tick ≠ 0 ∧ h.timers.Clear l tick.toNat := by
  obtain ⟨hsleeping, hother⟩ := sleepStart_sleeping hl hdrained hstart ht hq
  rw [sleepLoop_iff hsleeping.chain]
  by_cases htick : tick = 0
  · subst htick
    refine iff_of_false ?_ fun hs => hs.1 rfl
    rintro ⟨j, _, hfilled⟩
    rw [(hsleeping.parked j).2, hsleeping.empty] at hfilled
    cases hfilled
  · have hpos : max tick.toNat 1 = tick.toNat := Nat.max_eq_left (toNat_pos htick)
    rw [hpos, hsleeping.wakes_iff htick, hsleeping.clear_iff htick, and_iff_right htick]
    constructor
    · refine Clear.congr (fun x hx => ?_) fun x hx => (hother x hx).2.symm
      obtain ⟨hq, hi, hc, hm⟩ := (hother x hx).1
      exact ⟨hq.symm, hi.symm, hc.symm, hm.symm⟩
    · exact Clear.congr (fun x hx => (hother x hx).1) fun x hx => (hother x hx).2

def heapWith (timers : Timers) : Option QueueHeap :=
  match bareKernel.initVmalloc vmallocStart vmallocInitEnd kernelPdt with
  | .error _ => none
  | .ok k => some ⟨k, timers, fun _ => 0⟩

theorem heapWith_timers {timers : Timers} (hheap : heapWith timers = some h) :
    h.timers = timers := by
  unfold heapWith at hheap
  split at hheap
  · cases hheap
  · cases hheap
    rfl

theorem heapWith_sleepStart (timers : Timers) (tick : U32)
    (hblocks : (heapWith timers).bind (fun h => (h.sleepStart vmemMaxUnits tick fun _ => 0).map
      fun r => (r.1, r.2.1)) = some (0x3000000, 0x3001000)) :
    ∃ h h', heapWith timers = some h ∧
      h.sleepStart vmemMaxUnits tick (fun _ => 0) = some (0x3000000, 0x3001000, h') := by
  obtain ⟨h, hheap, hblocks⟩ := Option.bind_eq_some_iff.mp hblocks
  obtain ⟨⟨q, t, h'⟩, hstart, heq⟩ := Option.map_eq_some_iff.mp hblocks
  obtain ⟨hq, ht⟩ := Prod.mk.inj heq
  exact ⟨h, h', hheap, hq ▸ ht ▸ hstart⟩

def oneshotTimers : Timers := twoTimers (q8Init (fun _ => 0) 32 0)

theorem clear_oneshotTimers : oneshotTimers.Clear [0x1000, 0x2000, 0x3000] 1 := by
  intro l₁ x l₂ hl hinterval hmode _ y hy _ hq
  have hx : x ∈ [0x1000, 0x2000, 0x3000] := hl ▸ List.mem_append_right _ List.mem_cons_self
  refine ⟨firstCall_pos _, fun hmem => ?_⟩
  simp only [List.mem_cons, List.not_mem_nil, or_false] at hx hy
  rcases hx with rfl | rfl | rfl
  · exact absurd rfl hinterval
  · rcases hy with rfl | rfl | rfl
    · exact absurd hq (by decide)
    · have hnodup : (l₁ ++ 0x2000 :: l₂).Nodup := hl ▸ (by decide)
      exact absurd hmem (notMem_front hnodup)
    · exact absurd hq (by decide)
  · exact absurd hmode (by decide)

/-- A sleep of one tick ends in front of the undrained timer, and one of two ticks does not. -/
theorem sleep_wakes_iff_two :
    (∃ h q t h', heapWith oneshotTimers = some h ∧
      h.sleepStart vmemMaxUnits 1 (fun _ => 0) = some (q, t, h') ∧
      ∃ fuel timers, h'.timers.sleepLoop fuel q 1 = some timers) ∧
    ∃ h q t h', heapWith oneshotTimers = some h ∧
      h.sleepStart vmemMaxUnits 2 (fun _ => 0) = some (q, t, h') ∧
      ¬ ∃ fuel timers, h'.timers.sleepLoop fuel q 2 = some timers := by
  have hl : oneshotTimers.TwoWay [0x1000, 0x2000, 0x3000] :=
    ⟨some 0x3000, ⟨rfl, rfl, rfl, rfl⟩, rfl, rfl, rfl, rfl⟩
  have hdrained : oneshotTimers.Drained [0x1000, 0x2000, 0x3000] := by
    intro x hx _
    simp only [List.mem_cons, List.not_mem_nil, or_false] at hx
    rcases hx with rfl | rfl | rfl <;> rfl
  have hq : ∀ x ∈ [0x1000, 0x2000, 0x3000], (oneshotTimers.timer x).q ≠ 0x3000000 := by
    intro x hx
    simp only [List.mem_cons, List.not_mem_nil, or_false] at hx
    rcases hx with rfl | rfl | rfl <;> decide
  constructor
  · obtain ⟨h, h', hheap, hstart⟩ := heapWith_sleepStart oneshotTimers 1 (by decide +kernel)
    have htimers := heapWith_timers hheap
    rw [← htimers] at hl hdrained hq
    have hiff := sleep_wakes_iff hl hdrained hstart (by decide) hq
    rw [htimers] at hiff
    exact ⟨h, _, _, h', hheap, hstart, hiff.mpr ⟨by decide, clear_oneshotTimers⟩⟩
  · obtain ⟨h, h', hheap, hstart⟩ := heapWith_sleepStart oneshotTimers 2 (by decide +kernel)
    have htimers := heapWith_timers hheap
    rw [← htimers] at hl hdrained hq
    have hiff := sleep_wakes_iff hl hdrained hstart (by decide) hq
    rw [htimers] at hiff
    refine ⟨h, _, _, h', hheap, hstart, fun hwakes => ?_⟩
    have hcall := (hiff.mp hwakes).2 [0x1000] 0x2000 [0x3000] rfl (by decide) rfl rfl 0x2000
      (by decide) (by decide) rfl
    exact absurd hcall.1 (by decide)

/-- After `sleep(0)` no number of ticks ends the loop, with no timer but the dummy in the list. -/
theorem sleep_zero_hangs : ∃ h q t h', heapWith noTimers = some h ∧ h.timers.TwoWay [0] ∧
    h.timers.Drained [0] ∧ h.sleepStart vmemMaxUnits 0 (fun _ => 0) = some (q, t, h') ∧
    t ∉ [(0 : U32)] ∧ (∀ x ∈ [0], (h.timers.timer x).q ≠ q) ∧
      ¬ ∃ fuel ticks timers, h'.timers.sleepLoop fuel q ticks = some timers := by
  obtain ⟨h, h', hheap, hstart⟩ := heapWith_sleepStart noTimers 0 (by decide +kernel)
  have htimers := heapWith_timers hheap
  have hl : h.timers.TwoWay [0] := htimers ▸ ⟨some 0, ⟨rfl, rfl⟩, rfl, rfl⟩
  have hdrained : h.timers.Drained [0] := by
    intro x _ _
    rw [htimers]
    rfl
  have hq : ∀ x ∈ [0], (h.timers.timer x).q ≠ 0x3000000 := by
    intro x _
    rw [htimers]
    exact (by decide : (0 : U32) ≠ 0x3000000)
  have ht : (0x3001000 : U32) ∉ [(0 : U32)] := by decide
  obtain ⟨hsleeping, _⟩ := sleepStart_sleeping hl hdrained hstart ht hq
  refine ⟨h, _, _, h', hheap, hl, hdrained, hstart, ht, hq, ?_⟩
  rintro ⟨fuel, ticks, timers, hloop⟩
  obtain ⟨j, _, hfilled⟩ := sleepLoop_wakes hsleeping.chain hloop
  rw [(hsleeping.parked j).2, hsleeping.empty] at hfilled
  cases hfilled

end QueueHeap

end Uroboros
