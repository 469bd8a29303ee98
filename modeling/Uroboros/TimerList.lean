import Uroboros.TimerTick
import Uroboros.VMallocSteps

/-!
# The timer list

`timer_alloc` and `timer_free` on a list whose links agree both ways. The tick and
`timer_reset` turn no link.
-/

set_option autoImplicit false

namespace Uroboros

namespace Timers

variable {s r : Timers} {t x y : U32} {l l₁ l₂ : List U32} {fuel : Nat} {k k' : Kernel}
  {q interval : U32} {mode : U8}

def TwoWay (s : Timers) (l : List U32) : Prop :=
  ∃ b, DList (fun p => (s.timer p).next) (fun p => (s.timer p).prev) (some s.head) l b

theorem TwoWay.chain (h : s.TwoWay l) : s.Chain l := by
  obtain ⟨b, h⟩ := h
  exact h.forward

theorem TwoWay.nodup (h : s.TwoWay l) : l.Nodup := h.chain.nodup

/-- Only the links of a timer may differ. -/
def SameData (a b : Timer) : Prop :=
  b.q = a.q ∧ b.interval = a.interval ∧ b.count = a.count ∧ b.mode = a.mode

theorem SameData.refl (a : Timer) : SameData a a := ⟨rfl, rfl, rfl, rfl⟩

theorem SameData.trans {a b c : Timer} (h₁ : SameData a b) (h₂ : SameData b c) : SameData a c :=
  ⟨h₂.1.trans h₁.1, h₂.2.1.trans h₁.2.1, h₂.2.2.1.trans h₁.2.2.1, h₂.2.2.2.trans h₁.2.2.2⟩

theorem modify_timer (s : Timers) (t : U32) (f : Timer → Timer) (x : U32) :
    (s.modify t f).timer x = if x = t then f (s.timer t) else s.timer x := by
  by_cases hx : x = t
  · rw [if_pos hx, hx, modify_self]
  · rw [if_neg hx, modify_of_ne f hx]

section SetLinks
variable (s t x)
variable (v : Option U32)

@[simp] theorem setNext_next :
    ((s.setNext t v).timer x).next = if x = t then v else (s.timer x).next := by
  rw [setNext, modify_timer]
  split <;> rfl

@[simp] theorem setNext_prev : ((s.setNext t v).timer x).prev = (s.timer x).prev := by
  rw [setNext, modify_timer]
  split
  · rename_i hx
    rw [hx]
  · rfl

@[simp] theorem setPrev_prev :
    ((s.setPrev t v).timer x).prev = if x = t then v else (s.timer x).prev := by
  rw [setPrev, modify_timer]
  split <;> rfl

@[simp] theorem setPrev_next : ((s.setPrev t v).timer x).next = (s.timer x).next := by
  rw [setPrev, modify_timer]
  split
  · rename_i hx
    rw [hx]
  · rfl

theorem setNext_sameData : SameData (s.timer x) ((s.setNext t v).timer x) := by
  rw [setNext, modify_timer]
  split
  · rename_i hx
    exact hx ▸ ⟨rfl, rfl, rfl, rfl⟩
  · exact SameData.refl _

theorem setPrev_sameData : SameData (s.timer x) ((s.setPrev t v).timer x) := by
  rw [setPrev, modify_timer]
  split
  · rename_i hx
    exact hx ▸ ⟨rfl, rfl, rfl, rfl⟩
  · exact SameData.refl _

end SetLinks

theorem TwoWay.congr (h : s.TwoWay l) (hhead : r.head = s.head)
    (hnext : ∀ x, (r.timer x).next = (s.timer x).next)
    (hprev : ∀ x, (r.timer x).prev = (s.timer x).prev) : r.TwoWay l := by
  obtain ⟨b, h⟩ := h
  refine ⟨b, ?_⟩
  rw [hhead]
  exact h.congr (fun x _ => hnext x) (fun x _ => hprev x)

@[simp] theorem setQueue_timer (s : Timers) (q : U32) (queue : Queue8) :
    (s.setQueue q queue).timer = s.timer := rfl

theorem setQueue_self (s : Timers) (q : U32) (queue : Queue8) :
    (s.setQueue q queue).queue q = queue := Function.update_self ..

theorem TwoWay.setQueue (h : s.TwoWay l) (q : U32) (queue : Queue8) :
    (s.setQueue q queue).TwoWay l :=
  h.congr rfl (fun _ => rfl) (fun _ => rfl)

theorem TwoWay.modify (h : s.TwoWay l) {f : Timer → Timer}
    (hf : ∀ a, (f a).next = a.next ∧ (f a).prev = a.prev) : (s.modify t f).TwoWay l :=
  h.congr rfl (modify_field Timer.next fun a => (hf a).1)
    (modify_field Timer.prev fun a => (hf a).2)

theorem TwoWay.resetNext (h : s.TwoWay l) (point : Option Reset) :
    (s.resetNext t point).2.TwoWay l := by
  unfold Timers.resetNext
  split
  · dsimp only
    apply h.modify
    exact fun a => ⟨rfl, rfl⟩
  · dsimp only
    apply h.modify
    exact fun a => ⟨rfl, rfl⟩
  · split
    · dsimp only
      apply h.modify
      exact fun a => ⟨rfl, rfl⟩
    · exact h.setQueue ..

theorem resetNext_head (point : Option Reset) : (s.resetNext t point).2.head = s.head := by
  unfold resetNext
  split
  · rfl
  · rfl
  · split <;> rfl

theorem Frame.prev (h : Frame l s r) (x : U32) : (r.timer x).prev = (s.timer x).prev := by
  obtain ⟨count, heq⟩ := h.fields x
  rw [heq]

theorem Frame.twoWay (h : Frame l₁ s r) (hl : s.TwoWay l) : r.TwoWay l :=
  hl.congr h.head h.next h.prev

theorem timerInit_cases (h : s.timerInit fuel k = some (t, k', r)) : ∃ k₁ dummy,
    k.kvmalloc fuel sizeofTimerCtl = .ok (t, k₁) ∧
      k₁.kvmalloc fuel sizeofTimer = .ok (dummy, k') ∧
      r = { s with head := dummy }.modify dummy fun _ => ⟨none, none, 0, 0, 0, 0⟩ := by
  obtain ⟨⟨ctl, k₁⟩, hctl, h⟩ := Option.bind_eq_some_iff.mp h
  obtain ⟨⟨dummy, k₂⟩, hdummy, h⟩ := Option.bind_eq_some_iff.mp h
  cases h
  exact ⟨k₁, dummy, ok_of_toOption hctl, ok_of_toOption hdummy, rfl⟩

theorem twoWay_init (s : Timers) (t : U32) :
    ({ s with head := t }.modify t fun _ => ⟨none, none, 0, 0, 0, 0⟩).TwoWay [t] := by
  refine ⟨some t, ⟨rfl, ?_⟩, rfl, ?_⟩
  · exact congrArg Timer.next (modify_self ..)
  · exact congrArg Timer.prev (modify_self ..)

theorem q8Make_cases {size : U32} {defaultValue : U8} {bytes : Nat → U8}
    (h : s.q8Make fuel k size defaultValue bytes = some (t, k', r)) :
    k.kvmalloc fuel (sizeofQueue8 + size + 1) = .ok (t, k') ∧
      ∃ buf, r = s.setQueue t (q8Init buf (size + 1) defaultValue) := by
  obtain ⟨⟨mem, k₁⟩, hmem, h⟩ := Option.bind_eq_some_iff.mp h
  cases h
  exact ⟨ok_of_toOption hmem, _, rfl⟩

theorem lastFrom_eq {a : U32} (h : Seg (fun p => (s.timer p).next) (some a) (l ++ [x]) none)
    (hlast : s.lastFrom fuel a = some y) : y = x := by
  induction fuel generalizing a l with
  | zero => cases hlast
  | succ fuel ih =>
    rw [lastFrom] at hlast
    cases l with
    | nil =>
      obtain ⟨ha, hx⟩ := h
      cases ha
      have hend : (s.timer x).next = none := hx.eq_of_nil
      rw [hend] at hlast
      exact (Option.some.inj hlast).symm
    | cons z l =>
      obtain ⟨ha, h⟩ := h
      cases ha
      replace h : Seg (fun p => (s.timer p).next) (s.timer a).next (l ++ [x]) none := h
      cases hnext : (s.timer a).next with
      | none =>
        rw [hnext] at h
        exact absurd h.eq_nil_of_none (by simp)
      | some next =>
        rw [hnext] at h hlast
        exact ih h hlast

theorem timerAlloc_cases (h : s.timerAlloc fuel k q interval mode = some (t, k', r)) :
    ∃ last, s.lastFrom fuel s.head = some last ∧ k.kvmalloc fuel sizeofTimer = .ok (t, k') ∧
      r = (s.modify t fun _ => ⟨none, some last, q, interval, interval, mode⟩).setNext last
        (some t) := by
  obtain ⟨last, hlast, h⟩ := Option.bind_eq_some_iff.mp h
  obtain ⟨⟨t', k₁⟩, hret, h⟩ := Option.bind_eq_some_iff.mp h
  cases h
  exact ⟨last, hlast, ok_of_toOption hret, rfl⟩

theorem timerAlloc_spec (hl : s.TwoWay (l ++ [x])) (ht : t ∉ l ++ [x])
    (h : s.timerAlloc fuel k q interval mode = some (t, k', r)) :
    r.TwoWay (l ++ [x, t]) ∧ r.head = s.head ∧ r.queue = s.queue ∧
      SameData ⟨none, none, q, interval, interval, mode⟩ (r.timer t) ∧
      ∀ y, y ≠ t → SameData (s.timer y) (r.timer y) := by
  obtain ⟨last, hlast, _, rfl⟩ := timerAlloc_cases h
  have hlx := lastFrom_eq hl.chain hlast
  subst last
  have hmem : ∀ z ∈ l ++ [x], z ≠ t := fun z hz heq => ht (heq ▸ hz)
  have htx : t ≠ x := (hmem x (List.mem_append_right _ List.mem_cons_self)).symm
  refine ⟨?_, rfl, rfl, ?_, ?_⟩
  · obtain ⟨b, hd⟩ := hl
    refine ⟨some t, hd.append ?_ ?_ ?_ ?_ ?_⟩
    · rw [setNext_next, if_pos rfl]
    · rw [setNext_next, if_neg htx, modify_self]
    · rw [setNext_prev, modify_self]
    · intro z hz
      have hzx : z ≠ x := by
        intro heq
        subst z
        exact notMem_front hd.nodup hz
      rw [setNext_next, if_neg hzx, modify_of_ne _ (hmem z (List.mem_append_left _ hz))]
    · intro z hz
      rw [setNext_prev, modify_of_ne _ (hmem z hz)]
  · refine SameData.trans ?_ (setNext_sameData ..)
    rw [modify_self]
    exact ⟨rfl, rfl, rfl, rfl⟩
  · intro y hy
    refine SameData.trans ?_ (setNext_sameData ..)
    rw [modify_of_ne _ hy]
    exact SameData.refl _

theorem timerAlloc_twoWay (hl : s.TwoWay l) (ht : t ∉ l)
    (h : s.timerAlloc fuel k q interval mode = some (t, k', r)) :
    r.TwoWay (l ++ [t]) ∧ r.head = s.head ∧ r.queue = s.queue ∧
      SameData ⟨none, none, q, interval, interval, mode⟩ (r.timer t) ∧
      ∀ y, y ≠ t → SameData (s.timer y) (r.timer y) := by
  rcases List.eq_nil_or_concat l with rfl | ⟨l₀, x, rfl⟩
  · cases hl.chain
  · rw [List.concat_eq_append] at hl ht ⊢
    rw [List.append_assoc, List.singleton_append]
    exact timerAlloc_spec hl ht h

theorem timerFree_cases (h : s.timerFree fuel k t = some (k', r)) :
    s.unlink t = some r ∧ k.kvfree fuel t = .ok k' := by
  obtain ⟨u, hunlink, h⟩ := Option.bind_eq_some_iff.mp h
  obtain ⟨k₁, hret, h⟩ := Option.bind_eq_some_iff.mp h
  cases h
  exact ⟨hunlink, ok_of_toOption hret⟩

theorem unlink_last (h : s.TwoWay (l ++ [x, t])) :
    ∃ r, s.unlink t = some r ∧ r.TwoWay (l ++ [x]) ∧ r.head = s.head ∧
      r.queue = s.queue ∧ ∀ y, SameData (s.timer y) (r.timer y) := by
  obtain ⟨b, hd⟩ := h
  have hprev : (s.timer t).prev = some x := hd.prev_of_middle
  have hnext : (s.timer t).next = none := by
    have hsplit : l ++ [x, t] = (l ++ [x]) ++ t :: [] := by simp
    have hf := hd.forward
    rw [hsplit] at hf
    exact (Seg.append_cons_iff.mp hf).2
  refine ⟨s.setNext x none, by simp [unlink, hnext, hprev], ⟨some x, ?_⟩, rfl, rfl,
    fun y => setNext_sameData ..⟩
  apply hd.remove_last
  · rw [setNext_next, if_pos rfl]
  · intro z hz
    have hzx : z ≠ x := by
      intro heq
      subst z
      exact notMem_front hd.nodup hz
    rw [setNext_next, if_neg hzx]
  · intro z _
    exact setNext_prev ..

theorem unlink_middle (h : s.TwoWay (l₁ ++ x :: t :: y :: l₂)) :
    ∃ r, s.unlink t = some r ∧ r.TwoWay (l₁ ++ x :: y :: l₂) ∧ r.head = s.head ∧
      r.queue = s.queue ∧ ∀ z, SameData (s.timer z) (r.timer z) := by
  obtain ⟨b, hd⟩ := h
  have hprev : (s.timer t).prev = some x := hd.prev_of_middle
  have hnext : (s.timer t).next = some y := by
    have hsplit : l₁ ++ x :: t :: y :: l₂ = (l₁ ++ [x]) ++ t :: y :: l₂ := by simp
    have hf := hd.forward
    rw [hsplit] at hf
    exact hf.next_of_cons_cons
  obtain ⟨hx, hrest⟩ := List.nodup_cons.mp (List.nodup_middle.mp hd.nodup)
  have hrest := (List.nodup_cons.mp (List.nodup_middle.mp hrest)).2
  obtain ⟨hy, _⟩ := List.nodup_cons.mp (List.nodup_middle.mp hrest)
  refine ⟨(s.setNext x (some y)).setPrev y (some x), ?_, ⟨b, ?_⟩, rfl, rfl, ?_⟩
  · simp [unlink, hnext, hprev]
  · apply hd.remove_middle
    · rw [setPrev_next, setNext_next, if_pos rfl, hnext]
    · rw [setPrev_prev, if_pos rfl, hprev]
    · intro w hw
      have hwx : w ≠ x := by
        intro heq
        subst w
        rcases List.mem_append.mp hw with hw | hw
        · exact hx (List.mem_append_left _ hw)
        · exact hx (List.mem_append_right _ (List.mem_cons_of_mem _ hw))
      rw [setPrev_next, setNext_next, if_neg hwx]
    · intro w hw
      have hwy : w ≠ y := by
        intro heq
        subst w
        rcases List.mem_append.mp hw with hw | hw
        · exact hy (List.mem_append_left _ hw)
        · rcases List.mem_cons.mp hw with heq | hw
          · exact hx (heq ▸ List.mem_append_right _ (List.mem_cons_of_mem _ List.mem_cons_self))
          · exact hy (List.mem_append_right _ hw)
      rw [setPrev_prev, if_neg hwy, setNext_prev]
  · intro z
    exact (setNext_sameData ..).trans (setPrev_sameData ..)

theorem unlink_spec (h : s.TwoWay (l₁ ++ x :: t :: l₂)) :
    ∃ r, s.unlink t = some r ∧ r.TwoWay (l₁ ++ x :: l₂) ∧ r.head = s.head ∧
      r.queue = s.queue ∧ ∀ y, SameData (s.timer y) (r.timer y) := by
  cases l₂ with
  | nil => exact unlink_last h
  | cons y l₂ => exact unlink_middle h

/-- Any timer but the dummy can be unlinked. -/
theorem unlink_twoWay (h : s.TwoWay (x :: l₁ ++ t :: l₂)) :
    ∃ r, s.unlink t = some r ∧ r.TwoWay (x :: l₁ ++ l₂) ∧ r.head = s.head ∧
      r.queue = s.queue ∧ ∀ y, SameData (s.timer y) (r.timer y) := by
  obtain ⟨l₀, z, heq⟩ : ∃ l₀ z, x :: l₁ = l₀ ++ [z] := by
    rcases List.eq_nil_or_concat (x :: l₁) with hnil | ⟨l₀, z, hz⟩
    · cases hnil
    · exact ⟨l₀, z, hz.trans List.concat_eq_append⟩
  rw [heq, List.append_assoc, List.singleton_append] at h ⊢
  exact unlink_spec h

theorem unlink_erase (h : s.TwoWay (x :: l)) (ht : t ∈ l) :
    ∃ r, s.unlink t = some r ∧ r.TwoWay (x :: l.erase t) ∧ r.head = s.head ∧
      r.queue = s.queue ∧ ∀ y, SameData (s.timer y) (r.timer y) := by
  obtain ⟨l₁, l₂, _, heq, herase⟩ := List.exists_erase_eq ht
  rw [herase]
  rw [heq] at h
  exact unlink_twoWay h

end Timers

end Uroboros
