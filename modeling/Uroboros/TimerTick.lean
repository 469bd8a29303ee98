import Uroboros.Timer

/-!
# One tick

On a list that ends, `timer_tick` takes the timers in order up to the first that
stops it. What it does to a timer depends on the others only through whether one
in front stops it.
-/

set_option autoImplicit false

namespace Uroboros

namespace Timers

variable {s s₁ s₂ : Timers} {t x : U32} {l l₁ l₂ : List U32}

def Chain (s : Timers) (l : List U32) : Prop :=
  Seg (fun p => (s.timer p).next) (some s.head) l none

theorem Chain.congr (h : s.Chain l) (hhead : s₁.head = s.head)
    (hnext : ∀ x, (s₁.timer x).next = (s.timer x).next) : s₁.Chain l := by
  unfold Chain
  rw [hhead]
  exact Seg.congr h fun x _ => hnext x

def Ticks (s r : Timers) : Prop := ∃ fuel, s.timerTick fuel = some r

/-- At `t` the tick ends: it is an enabled ONESHOT timer whose queue holds data. -/
def Stops (s : Timers) (t : U32) : Prop := (s.timer t).interval ≠ 0 ∧ s.Blocked t

instance (s : Timers) (t : U32) : Decidable (s.Stops t) := inferInstanceAs (Decidable (_ ∧ _))

def tickOne (s : Timers) (t : U32) : Timers :=
  if (s.timer t).interval = 0 then s else if s.Blocked t then s.restart t else s.countDown t

def tickList : List U32 → Timers → Timers
  | [], s => s
  | t :: l, s => if s.Stops t then s.tickOne t else tickList l (s.tickOne t)

@[simp] theorem modify_queue (s : Timers) (t : U32) (f : Timer → Timer) :
    (s.modify t f).queue = s.queue := rfl

theorem modify_self (s : Timers) (t : U32) (f : Timer → Timer) :
    (s.modify t f).timer t = f (s.timer t) := Function.update_self ..

theorem modify_of_ne (f : Timer → Timer) (h : x ≠ t) : (s.modify t f).timer x = s.timer x :=
  Function.update_of_ne h ..

theorem modify_field {α : Type} {f : Timer → Timer} (g : Timer → α) (hf : ∀ a, g (f a) = g a)
    (x : U32) : g ((s.modify t f).timer x) = g (s.timer x) := by
  by_cases hx : x = t
  · rw [hx, modify_self]
    exact hf _
  · rw [modify_of_ne f hx]

/-- Of the timers `l` the counts may differ, and what their queues hold; nothing else does. -/
structure Frame (l : List U32) (s s' : Timers) : Prop where
  head : s'.head = s.head
  fields : ∀ x, ∃ count, s'.timer x = { s.timer x with count }
  timer : ∀ x, x ∉ l → s'.timer x = s.timer x
  queue : ∀ q, (∀ x ∈ l, (s.timer x).q ≠ q) → s'.queue q = s.queue q

theorem Frame.refl (l : List U32) (s : Timers) : Frame l s s :=
  ⟨rfl, fun x => ⟨(s.timer x).count, rfl⟩, fun _ _ => rfl, fun _ _ => rfl⟩

theorem Frame.next {s' : Timers} (h : Frame l s s') (x : U32) :
    (s'.timer x).next = (s.timer x).next := by
  obtain ⟨count, heq⟩ := h.fields x
  rw [heq]

theorem Frame.chain {s' : Timers} (h : Frame l₁ s s') (hchain : s.Chain l) : s'.Chain l :=
  hchain.congr h.head h.next

theorem Frame.q {s' : Timers} (h : Frame l s s') (x : U32) :
    (s'.timer x).q = (s.timer x).q := by
  obtain ⟨count, heq⟩ := h.fields x
  rw [heq]

theorem Frame.interval {s' : Timers} (h : Frame l s s') (x : U32) :
    (s'.timer x).interval = (s.timer x).interval := by
  obtain ⟨count, heq⟩ := h.fields x
  rw [heq]

theorem Frame.mode {s' : Timers} (h : Frame l s s') (x : U32) :
    (s'.timer x).mode = (s.timer x).mode := by
  obtain ⟨count, heq⟩ := h.fields x
  rw [heq]

theorem Frame.trans {s' s'' : Timers} (h₁ : Frame l₁ s s') (h₂ : Frame l₂ s' s'')
    (hsub₁ : l₁ ⊆ l) (hsub₂ : l₂ ⊆ l) : Frame l s s'' := by
  refine ⟨h₂.head.trans h₁.head, ?_, ?_, ?_⟩
  · intro x
    obtain ⟨c₁, heq₁⟩ := h₁.fields x
    obtain ⟨c₂, heq₂⟩ := h₂.fields x
    exact ⟨c₂, by rw [heq₂, heq₁]⟩
  · intro x hx
    rw [h₂.timer x fun hm => hx (hsub₂ hm), h₁.timer x fun hm => hx (hsub₁ hm)]
  · intro q hq
    rw [h₂.queue q, h₁.queue q fun x hx => hq x (hsub₁ hx)]
    intro x hx
    rw [h₁.q]
    exact hq x (hsub₂ hx)

theorem Frame.mono {s' : Timers} (h : Frame l₁ s s') (hsub : l₁ ⊆ l) : Frame l s s' :=
  ⟨h.head, h.fields, fun x hx => h.timer x fun hm => hx (hsub hm),
    fun q hq => h.queue q fun x hx => hq x (hsub hx)⟩

theorem frame_setCount (f : Timer → U32) :
    Frame [t] s (s.modify t fun r => { r with count := f r }) := by
  refine ⟨rfl, ?_, ?_, fun _ _ => rfl⟩
  · intro x
    by_cases hx : x = t
    · subst hx
      exact ⟨_, modify_self ..⟩
    · exact ⟨(s.timer x).count, modify_of_ne _ hx⟩
  · intro x hx
    exact modify_of_ne _ fun heq => hx (List.mem_singleton.mpr heq)

theorem frame_setQueue (queue : Queue8) : Frame [t] s (s.setQueue (s.timer t).q queue) := by
  refine ⟨rfl, fun x => ⟨(s.timer x).count, rfl⟩, fun _ _ => rfl, ?_⟩
  intro q hq
  exact Function.update_of_ne (hq t List.mem_cons_self).symm ..

theorem frame_tickOne (s : Timers) (t : U32) : Frame [t] s (s.tickOne t) := by
  have hsub := List.Subset.refl [t]
  unfold tickOne
  split
  · exact Frame.refl ..
  · split
    · exact frame_setCount _
    · unfold countDown
      dsimp only
      split
      · refine (frame_setCount fun r => r.count - 1).trans ?_ hsub hsub
        exact (frame_setQueue _).trans (frame_setCount fun r => r.interval) hsub hsub
      · exact frame_setCount _

theorem frame_tickList (l : List U32) (s : Timers) : Frame l s (tickList l s) := by
  induction l generalizing s with
  | nil => exact Frame.refl ..
  | cons t l ih =>
    have hone : [t] ⊆ t :: l := List.cons_subset_cons t (List.nil_subset l)
    unfold tickList
    split
    · exact (frame_tickOne s t).trans (Frame.refl l _) hone (List.subset_cons_self t l)
    · exact (frame_tickOne s t).trans (ih _) hone (List.subset_cons_self t l)

theorem tickFrom_chain {fuel : Nat} {a : Option U32}
    (h : Seg (fun p => (s.timer p).next) a l none) (hfuel : l.length ≤ fuel) :
    tickFrom fuel s a = some (tickList l s) := by
  induction l generalizing s a fuel with
  | nil =>
    have ha : a = none := h
    subst ha
    cases fuel <;> rfl
  | cons t l ih =>
    obtain ⟨ha, h⟩ := h
    subst ha
    obtain ⟨fuel, rfl⟩ := Nat.exists_eq_succ_of_ne_zero (Nat.ne_zero_of_lt hfuel)
    have hlen : l.length ≤ fuel := Nat.le_of_succ_le_succ hfuel
    have hframe := frame_tickOne s t
    rw [tickFrom, tickList]
    by_cases hzero : (s.timer t).interval = 0
    · have hstops : ¬ s.Stops t := fun hs => hs.1 hzero
      rw [if_pos hzero, if_neg hstops, tickOne, if_pos hzero]
      exact ih h hlen
    · by_cases hblocked : s.Blocked t
      · rw [if_neg hzero, if_pos hblocked, if_pos ⟨hzero, hblocked⟩, tickOne, if_neg hzero,
          if_pos hblocked]
      · have hstops : ¬ s.Stops t := fun hs => hblocked hs.2
        have hone : s.tickOne t = s.countDown t := by
          rw [tickOne, if_neg hzero, if_neg hblocked]
        rw [if_neg hzero, if_neg hblocked, if_neg hstops, hone]
        rw [hone] at hframe
        dsimp only
        rw [hframe.next]
        refine ih ?_ hlen
        exact h.congr fun x _ => hframe.next x

theorem tickFrom_le {fuel fuel' : Nat} {a : Option U32} {r : Timers}
    (h : tickFrom fuel s a = some r) (hle : fuel ≤ fuel') : tickFrom fuel' s a = some r := by
  induction fuel generalizing s a fuel' with
  | zero =>
    cases a with
    | none => cases fuel' <;> exact h
    | some t => cases h
  | succ fuel ih =>
    cases a with
    | none => cases fuel' <;> exact h
    | some t =>
      obtain ⟨fuel', rfl⟩ := Nat.exists_eq_succ_of_ne_zero (show fuel' ≠ 0 by omega)
      have hle' : fuel ≤ fuel' := Nat.le_of_succ_le_succ hle
      rw [tickFrom] at h ⊢
      split
      · rename_i hzero
        rw [if_pos hzero] at h
        exact ih h hle'
      · rename_i hzero
        rw [if_neg hzero] at h
        split
        · rename_i hblocked
          rwa [if_pos hblocked] at h
        · rename_i hblocked
          rw [if_neg hblocked] at h
          exact ih h hle'

/-- On a list that ends the tick returns, in one state. -/
theorem ticks_iff {r : Timers} (h : s.Chain l) : s.Ticks r ↔ r = tickList l s := by
  have htick : s.timerTick l.length = some (tickList l s) := tickFrom_chain h (Nat.le_refl _)
  constructor
  · rintro ⟨fuel, hfuel⟩
    have h1 := tickFrom_le hfuel (Nat.le_max_left fuel l.length)
    have h2 := tickFrom_le htick (Nat.le_max_right fuel l.length)
    exact Option.some.inj (h1.symm.trans h2)
  · intro heq
    exact ⟨l.length, heq ▸ htick⟩

/-- Following `next` inside `c` never ends, and no timer of `c` stops the tick. -/
structure Endless (s : Timers) (c : List U32) : Prop where
  closed : ∀ x ∈ c, ∃ y ∈ c, (s.timer x).next = some y
  pass : ∀ x ∈ c, (s.timer x).interval = 0 ∨ (s.timer x).mode ≠ timerModeOneshot

theorem Endless.frame {c : List U32} (h : s.Endless c) (hframe : Frame l s s₁) :
    s₁.Endless c := by
  constructor
  · intro x hx
    rw [hframe.next]
    exact h.closed x hx
  · intro x hx
    obtain ⟨count, heq⟩ := hframe.fields x
    rw [heq]
    exact h.pass x hx

theorem tickFrom_pass {fuel : Nat} (ht : ¬ s.Stops t) :
    tickFrom (fuel + 1) s (some t) = tickFrom fuel (s.tickOne t) (s.timer t).next := by
  rw [tickFrom, tickOne]
  split
  · rfl
  · rename_i hzero
    have hblocked : ¬ s.Blocked t := fun hb => ht ⟨hzero, hb⟩
    have hnext := (frame_tickOne s t).next t
    rw [tickOne, if_neg hzero, if_neg hblocked] at hnext
    rw [if_neg hblocked, if_neg hblocked]
    dsimp only
    rw [hnext]

/-- A tick that reaches such timers does not return. -/
theorem Endless.tickFrom {c : List U32} (h : s.Endless c) (ht : t ∈ c) (fuel : Nat) :
    tickFrom fuel s (some t) = none := by
  induction fuel generalizing s t with
  | zero => rfl
  | succ fuel ih =>
    have hpass : ¬ s.Stops t := by
      intro hstops
      rcases h.pass t ht with hzero | hmode
      · exact hstops.1 hzero
      · exact hmode hstops.2.1
    obtain ⟨y, hy, hnext⟩ := h.closed t ht
    rw [tickFrom_pass hpass, hnext]
    exact ih (h.frame (frame_tickOne s t)) hy

def DistinctQueues (s : Timers) (l : List U32) : Prop :=
  l.Pairwise fun x y => (s.timer x).q ≠ (s.timer y).q

def Agree (s s' : Timers) (t : U32) : Prop :=
  s'.timer t = s.timer t ∧ s'.queueOf t = s.queueOf t

theorem Frame.agree {s' : Timers} (h : Frame l s s') (ht : t ∉ l)
    (hq : ∀ x ∈ l, (s.timer x).q ≠ (s.timer t).q) : Agree s s' t := by
  refine ⟨h.timer t ht, ?_⟩
  unfold queueOf
  rw [h.timer t ht]
  exact h.queue _ hq

theorem Agree.stops_iff {s' : Timers} (h : Agree s s' t) : s'.Stops t ↔ s.Stops t := by
  unfold Stops Blocked
  rw [h.1, h.2]

theorem Agree.refl (s : Timers) (t : U32) : Agree s s t := ⟨rfl, rfl⟩

theorem Agree.symm {s' : Timers} (h : Agree s s' t) : Agree s' s t := ⟨h.1.symm, h.2.symm⟩

theorem Agree.trans {s' s'' : Timers} (h₁ : Agree s s' t) (h₂ : Agree s' s'' t) :
    Agree s s'' t :=
  ⟨h₂.1.trans h₁.1, h₂.2.trans h₁.2⟩

theorem Agree.congr {s' r r' : Timers} (h : Agree s s' t) (h' : Agree r r' t) :
    Agree s' r' t ↔ Agree s r t :=
  ⟨fun hs => h.trans (hs.trans h'.symm), fun hs => h.symm.trans (hs.trans h')⟩

def tickAlone (r : Timer) (queue : Queue8) : Timer × Queue8 :=
  if r.interval = 0 then (r, queue)
  else if r.mode = timerModeOneshot ∧ ¬ q8Empty queue then ({ r with count := r.interval }, queue)
  else if r.count - 1 = 0 then ({ r with count := r.interval }, q8In queue 1)
  else ({ r with count := r.count - 1 }, queue)

theorem tickOne_alone (s : Timers) (t : U32) :
    ((s.tickOne t).timer t, (s.tickOne t).queueOf t) = tickAlone (s.timer t) (s.queueOf t) := by
  unfold tickOne tickAlone
  split
  · rfl
  · by_cases hblocked : s.Blocked t
    · rw [if_pos hblocked, if_pos (show _ ∧ _ from hblocked)]
      simp [restart, queueOf, modify]
    · rw [if_neg hblocked, if_neg (show ¬ (_ ∧ _) from hblocked)]
      simp only [countDown, modify_self]
      split
      · simp [queueOf, modify, setQueue]
      · simp [queueOf, modify]

theorem Agree.tickOne {s' : Timers} (h : Agree s s' t) :
    Agree (s.tickOne t) (s'.tickOne t) t := by
  have heq := tickOne_alone s' t
  rw [h.1, h.2, ← tickOne_alone s t] at heq
  exact Prod.mk.inj heq

/-- The tick of a list acts on a timer of it alone, unless a timer in front stops it. -/
theorem tickList_agree (hnodup : (l₁ ++ t :: l₂).Nodup) (hq : s.DistinctQueues (l₁ ++ t :: l₂)) :
    Agree (if ∃ x ∈ l₁, s.Stops x then s else s.tickOne t) (tickList (l₁ ++ t :: l₂) s) t := by
  induction l₁ generalizing s with
  | nil =>
    rw [List.nil_append] at hnodup hq ⊢
    rw [if_neg (by simp), tickList]
    split
    · exact Agree.refl ..
    · apply (frame_tickList l₂ _).agree (List.nodup_cons.mp hnodup).1
      intro x hx
      rw [(frame_tickOne s t).q, (frame_tickOne s t).q]
      exact ((List.pairwise_cons.mp hq).1 x hx).symm
  | cons x l₁ ih =>
    rw [List.cons_append] at hnodup hq ⊢
    obtain ⟨hx, hnodup⟩ := List.nodup_cons.mp hnodup
    obtain ⟨hqx, hq⟩ := List.pairwise_cons.mp hq
    have hframe := frame_tickOne s x
    have hother : ∀ y ∈ l₁ ++ t :: l₂, Agree s (s.tickOne x) y := by
      intro y hy
      apply hframe.agree
      · intro hm
        rw [List.mem_singleton.mp hm] at hy
        exact hx hy
      · intro z hz
        rw [List.mem_singleton.mp hz]
        exact hqx y hy
    have ht := hother t (List.mem_append_right _ List.mem_cons_self)
    rw [tickList]
    by_cases hstops : s.Stops x
    · rw [if_pos hstops, if_pos ⟨x, List.mem_cons_self, hstops⟩]
      exact ht
    · have hq' : (s.tickOne x).DistinctQueues (l₁ ++ t :: l₂) := by
        refine List.Pairwise.imp ?_ hq
        intro y z hyz
        rwa [hframe.q, hframe.q]
      have hfront : (∃ y ∈ x :: l₁, s.Stops y) ↔ ∃ y ∈ l₁, (s.tickOne x).Stops y := by
        rw [List.exists_mem_cons_iff, or_iff_right hstops]
        refine exists_congr fun y => and_congr_right fun hy => ?_
        exact (hother y (List.mem_append_left _ hy)).stops_iff.symm
      rw [if_neg hstops]
      refine Agree.trans ?_ (ih hnodup hq')
      by_cases hany : ∃ y ∈ l₁, (s.tickOne x).Stops y
      · rw [if_pos hany, if_pos (hfront.mpr hany)]
        exact ht
      · rw [if_neg hany, if_neg (mt hfront.mp hany)]
        exact ht.tickOne

def Steady (s : Timers) (t : U32) : Prop :=
  (s.timer t).interval = 0 ∨ s.Blocked t ∧ (s.timer t).count = (s.timer t).interval

instance (s : Timers) (t : U32) : Decidable (s.Steady t) := inferInstanceAs (Decidable (_ ∨ _))

theorem q8In_ne {q : Queue8} (h : q.Valid) (data : U8) : q8In q data ≠ q := by
  intro heq
  unfold q8In at heq
  split at heq
  · have hdrop : q.drop + 1 = q.drop := congrArg Queue8.drop heq
    bv_omega
  · rename_i hfull
    have htail : (q.tail + 1) % q.size = q.tail := congrArg Queue8.tail heq
    have hlt : q.tail.toNat < q.size.toNat := h.tail_lt
    have hsize := q.size.isLt
    have hnat := congrArg BitVec.toNat htail
    rw [BitVec.toNat_umod, BitVec.toNat_add, Nat.mod_eq_of_lt (a := _ + _) (by
      change q.tail.toNat + 1 < 2 ^ 32
      omega)] at hnat
    change (q.tail.toNat + 1) % q.size.toNat = q.tail.toNat at hnat
    -- only in a buffer of one byte does the next index stay, and that buffer is full
    have hone : q.size.toNat = 1 := by
      by_cases hend : q.tail.toNat + 1 = q.size.toNat
      · rw [hend, Nat.mod_self] at hnat
        omega
      · rw [Nat.mod_eq_of_lt (by omega)] at hnat
        omega
    have hhead : q.head.toNat < q.size.toNat := h.head_lt
    have hsame : q.tail = q.head := by
      apply BitVec.eq_of_toNat_eq
      omega
    apply hfull
    rw [q8Full, htail, hsame]
    exact BEq.rfl

theorem tickAlone_fixed_iff {r : Timer} {queue : Queue8} (hvalid : queue.Valid) :
    tickAlone r queue = (r, queue) ↔ r.interval = 0 ∨
      (r.mode = timerModeOneshot ∧ ¬ q8Empty queue) ∧ r.count = r.interval := by
  have hcount : ∀ count, ({ r with count } : Timer) = r ↔ count = r.count := by
    intro count
    cases r
    simp
  unfold tickAlone
  split
  · rename_i hzero
    simp [hzero]
  · rename_i hzero
    split
    · rename_i hblocked
      rw [Prod.mk.injEq, hcount]
      exact ⟨fun h => .inr ⟨hblocked, h.1.symm⟩, fun h => ⟨(h.resolve_left hzero).2.symm, rfl⟩⟩
    · rename_i hblocked
      have hright : ¬ (r.interval = 0 ∨
          (r.mode = timerModeOneshot ∧ ¬ q8Empty queue) ∧ r.count = r.interval) := by
        simp only [hzero, hblocked, false_and, or_self, not_false_eq_true]
      rw [iff_false_right hright]
      intro heq
      split at heq
      · exact q8In_ne hvalid 1 (congrArg Prod.snd heq)
      · have hsame := (hcount _).mp (congrArg Prod.fst heq)
        bv_omega

theorem tickOne_agree_iff (hvalid : (s.queueOf t).Valid) :
    Agree s (s.tickOne t) t ↔ s.Steady t := by
  rw [Agree, ← Prod.mk.injEq, tickOne_alone, tickAlone_fixed_iff hvalid]
  rfl

def Advances (s r : Timers) (t : U32) : Prop := Agree (s.countDown t) r t

/-- One tick changes `t` alike in two states that agree on it exactly when it is reached in both or
in neither, or nothing is to change; and it advances an active timer exactly when none in front
stops it. -/
theorem tick_independent_iff (hchain₁ : s₁.Chain (l₁ ++ t :: l₂))
    (hchain₂ : s₂.Chain (l₁ ++ t :: l₂)) (hq₁ : s₁.DistinctQueues (l₁ ++ t :: l₂))
    (hq₂ : s₂.DistinctQueues (l₁ ++ t :: l₂)) (hvalid : (s₁.queueOf t).Valid)
    (hagree : Agree s₁ s₂ t) : ∃ r₁ r₂, s₁.Ticks r₁ ∧ s₂.Ticks r₂ ∧
      (Agree r₁ r₂ t ↔
        ((∃ x ∈ l₁, s₁.Stops x) ↔ ∃ x ∈ l₁, s₂.Stops x) ∨ s₁.Steady t) ∧
      ((s₁.timer t).interval ≠ 0 ∧ ¬ s₁.Blocked t →
        (s₁.Advances r₁ t ↔ ¬ ∃ x ∈ l₁, s₁.Stops x)) := by
  have h₁ := tickList_agree hchain₁.nodup hq₁
  have h₂ := tickList_agree hchain₂.nodup hq₂
  refine ⟨_, _, (ticks_iff hchain₁).mpr rfl, (ticks_iff hchain₂).mpr rfl, ?_, ?_⟩
  · have hsteady := tickOne_agree_iff hvalid
    rw [h₁.congr h₂]
    split <;> split <;> rename_i hfront₁ hfront₂
    · simp only [hfront₁, hfront₂, iff_self, true_or, hagree]
    · simp only [hfront₁, hfront₂, iff_false, not_true_eq_false, false_or]
      rw [(Agree.refl s₁ t).congr hagree.tickOne]
      exact hsteady
    · simp only [hfront₁, hfront₂, iff_true, false_or]
      rw [(Agree.refl (s₁.tickOne t) t).congr hagree, ← hsteady]
      exact ⟨Agree.symm, Agree.symm⟩
    · simp only [hfront₁, hfront₂, iff_self, true_or, hagree.tickOne]
  · rintro ⟨hzero, hblocked⟩
    have hone : s₁.tickOne t = s₁.countDown t := by
      rw [tickOne, if_neg hzero, if_neg hblocked]
    rw [Advances, (Agree.refl _ t).congr h₁]
    split <;> rename_i hfront
    · have hsteady := mt (tickOne_agree_iff hvalid).mp
        (fun h => h.elim hzero fun hb => hblocked hb.1)
      rw [hone] at hsteady
      simp only [hfront, not_true_eq_false, iff_false]
      exact fun h => hsteady h.symm
    · rw [hone]
      exact ⟨fun _ => hfront, fun _ => Agree.refl ..⟩

/-- A ONESHOT timer with the queue `queue` in front of one that counts from five. -/
def twoTimers (queue : Queue8) : Timers where
  timer t :=
    if t = 0x1000 then ⟨some 0x2000, none, 0, 0, 0, 0⟩
    else if t = 0x2000 then ⟨some 0x3000, some 0x1000, 0xa000, 1, 1, timerModeOneshot⟩
    else ⟨none, some 0x2000, 0xb000, 5, 5, timerModeContinues⟩
  queue q := if q = 0xa000 then queue else q8Init (fun _ => 0) 32 0
  head := 0x1000

theorem chain_twoTimers (queue : Queue8) :
    (twoTimers queue).Chain ([0x1000, 0x2000] ++ 0x3000 :: []) :=
  ⟨rfl, rfl, rfl, rfl⟩

theorem distinctQueues_twoTimers (queue : Queue8) :
    (twoTimers queue).DistinctQueues ([0x1000, 0x2000] ++ 0x3000 :: []) := by
  unfold DistinctQueues
  simp [twoTimers]

theorem not_stops_twoTimers {queue : Queue8} (h : q8Empty queue = true) :
    ¬ ∃ x ∈ [0x1000, 0x2000], (twoTimers queue).Stops x := by
  simp [Stops, Blocked, queueOf, twoTimers, h]

/-- The front timer's queue is empty in both states, with another default value. -/
theorem tick_independent_iff_empty : ∃ r₁ r₂,
    (twoTimers (q8Init (fun _ => 0) 32 0)).Ticks r₁ ∧
    (twoTimers (q8Init (fun _ => 0) 32 0xff)).Ticks r₂ ∧ Agree r₁ r₂ 0x3000 := by
  obtain ⟨r₁, r₂, h₁, h₂, hiff, _⟩ := tick_independent_iff
    (chain_twoTimers (q8Init (fun _ => 0) 32 0)) (chain_twoTimers (q8Init (fun _ => 0) 32 0xff))
    (distinctQueues_twoTimers _) (distinctQueues_twoTimers _) (q8Init_valid (by decide) _ _)
    ⟨rfl, rfl⟩
  exact ⟨r₁, r₂, h₁, h₂, hiff.mpr
    (.inl (iff_of_false (not_stops_twoTimers rfl) (not_stops_twoTimers rfl)))⟩

/-- A byte in the queue of a ONESHOT timer stops the timer behind it. -/
theorem tick_stalls : ¬ ∀ (s₁ s₂ : Timers) (l₁ l₂ : List U32) (t : U32),
    s₁.Chain (l₁ ++ t :: l₂) → s₂.Chain (l₁ ++ t :: l₂) → s₁.DistinctQueues (l₁ ++ t :: l₂) →
    s₂.DistinctQueues (l₁ ++ t :: l₂) → (s₁.queueOf t).Valid → Agree s₁ s₂ t →
    ∀ r₁ r₂, s₁.Ticks r₁ → s₂.Ticks r₂ → Agree r₁ r₂ t := by
  intro h
  have hchain := chain_twoTimers (q8Init (fun _ => 0) 32 0)
  have hchain' := chain_twoTimers (q8In (q8Init (fun _ => 0) 32 0) 1)
  obtain ⟨htimer, _⟩ := h _ _ _ _ _ hchain hchain' (distinctQueues_twoTimers _)
    (distinctQueues_twoTimers _) (q8Init_valid (by decide) _ _) ⟨rfl, rfl⟩ _ _
    ((ticks_iff hchain).mpr rfl) ((ticks_iff hchain').mpr rfl)
  exact absurd htimer (by decide +kernel)

end Timers

end Uroboros
