import Uroboros.Lib.Ring
import Uroboros.Mtask

/-!
# The order in which the scheduler selects

Where the scan stands, and which slot `cpu->proc` points to, says how often a slot
was selected since another one was. When only the slot of `cpu->proc` is runnable
the scan passes it for ever.
-/

set_option autoImplicit false

namespace Uroboros

open Ring

namespace Cpu

@[simp] theorem procAlloc_proc (cpu : Cpu) : cpu.procAlloc.2.proc = cpu.proc := by
  unfold procAlloc
  split <;> rfl

end Cpu

namespace Multitask

variable {s s' : Multitask} {a b i : Slot} {op : MtaskOp}

def selected : Multitask × MtaskOp × Multitask → Option Slot
  | (s, .schedPass, _) => if s.cpu.Selectable s.cursor then some s.cursor else none
  | _ => none

def Ready (s : Multitask) (i : Slot) : Prop :=
  (s.mode = .task ∧ s.cpu.proc = some i) ∨ s.cpu.status i = .runnable

instance (s : Multitask) (i : Slot) : Decidable (s.Ready i) :=
  inferInstanceAs (Decidable (_ ∨ _))

theorem ktaskKill_cases {p : Slot} (h : s.ktaskKill p = some s') :
    s' = s ∨ s.ktaskExit = some s' ∨
      s' = (s.setStatus p .noalloc).kvfree (s.cpu.stack p) := by
  unfold ktaskKill at h
  split at h
  · exact .inl (Option.some.inj h).symm
  · split at h
    · exact .inr (.inl h)
    · exact .inr (.inr (Option.some.inj h).symm)

theorem schedPass_selected (h : s.cpu.Selectable s.cursor) :
    s.schedPass.cursor = s.cursor + 1 ∧ s.schedPass.cpu.proc = some s.cursor ∧
      s.schedPass.mode = .task := by
  simp [schedPass, setStatus, h]

theorem schedPass_passed (h : ¬ s.cpu.Selectable s.cursor) :
    s.schedPass = { s with cursor := s.cursor + 1 } := by
  simp [schedPass, h]

/-- Only the scan moves its index and stores to `cpu->proc`. -/
theorem step_scan (h : Step s op s') : op = .schedPass ∧ s.mode = .scheduler ∧ s' = s.schedPass ∨
    op ≠ .schedPass ∧ s'.cursor = s.cursor ∧ s'.cpu.proc = s.cpu.proc := by
  cases op with
  | procAlloc =>
    obtain ⟨_, hs⟩ := Option.ite_none_right_eq_some.mp h
    cases hs
    exact .inr ⟨by simp, rfl, Cpu.procAlloc_proc s.cpu⟩
  | ktaskInit p stack =>
    obtain ⟨_, hs⟩ := Option.ite_none_right_eq_some.mp h
    cases hs
    exact .inr ⟨by simp, rfl, rfl⟩
  | utaskInit p stack =>
    obtain ⟨_, hs⟩ := Option.ite_none_right_eq_some.mp h
    cases hs
    exact .inr ⟨by simp, rfl, rfl⟩
  | startMtask =>
    obtain ⟨_, hs⟩ := Option.ite_none_right_eq_some.mp h
    cases hs
    exact .inr ⟨by simp, rfl, rfl⟩
  | schedPass =>
    obtain ⟨hmode, hs⟩ := Option.ite_none_right_eq_some.mp h
    exact .inl ⟨rfl, hmode, (Option.some.inj hs).symm⟩
  | schedHandler =>
    obtain ⟨_, hs⟩ := Option.ite_none_right_eq_some.mp h
    obtain ⟨p, _, hs⟩ := Option.map_eq_some_iff.mp hs
    cases hs
    exact .inr ⟨by simp, rfl, rfl⟩
  | ktaskExit =>
    obtain ⟨_, hs⟩ := Option.ite_none_right_eq_some.mp h
    obtain ⟨p, _, hs⟩ := Option.map_eq_some_iff.mp hs
    cases hs
    exact .inr ⟨by simp, rfl, rfl⟩
  | ktaskKill p =>
    obtain ⟨_, hs⟩ := Option.ite_none_right_eq_some.mp h
    refine .inr ⟨by simp, ?_⟩
    rcases ktaskKill_cases hs with heq | hs | heq
    · subst heq
      exact ⟨rfl, rfl⟩
    · obtain ⟨p, _, hs⟩ := Option.map_eq_some_iff.mp hs
      cases hs
      exact ⟨rfl, rfl⟩
    · subst heq
      exact ⟨rfl, rfl⟩

/-- Since `a` was selected, `n` counts the selections of `b`. -/
def Since (a b : Slot) (s : Multitask) (n : Nat) : Prop :=
  (dist a s.cursor ≤ dist a b ∧ n = 0 ∧ s.cpu.proc ≠ some b) ∨
    (dist a b < dist a s.cursor ∧ n = 1 ∧ s.cpu.proc ≠ some a)

theorem selected_eq_some_iff {x : Multitask × MtaskOp × Multitask} : selected x = some i ↔
    x.2.1 = .schedPass ∧ x.1.cursor = i ∧ x.1.cpu.Selectable x.1.cursor := by
  obtain ⟨s, op, s'⟩ := x
  cases op <;> simp [selected, and_comm]

theorem ready_of_scheduler (h : s.Ready i) (hmode : s.mode = .scheduler) :
    s.cpu.status i = .runnable := by
  rcases h with ⟨htask, _⟩ | hrunnable
  · rw [hmode] at htask
    cases htask
  · exact hrunnable

theorem Since.start {x : Multitask × MtaskOp × Multitask} (hab : a ≠ b)
    (hstep : Step x.1 x.2.1 x.2.2) (hx : selected x = some a) : Since a b x.2.2 0 := by
  obtain ⟨hop, rfl, hselect⟩ := selected_eq_some_iff.mp hx
  rcases step_scan hstep with ⟨_, _, hs⟩ | ⟨hne, _⟩
  · obtain ⟨hcursor, hproc, _⟩ := schedPass_selected hselect
    rw [hs]
    refine .inl ⟨?_, rfl, ?_⟩
    · rw [hcursor, dist_start]
      exact Nat.zero_le _
    · rw [hproc]
      exact fun heq => hab (Option.some.inj heq)
  · exact absurd hop hne

/-- The scan cannot pass `a`, nor `b` before it has selected it. -/
theorem Since.step {x : Multitask × MtaskOp × Multitask} {n : Nat} (hab : a ≠ b)
    (h : Since a b x.1 n) (hstep : Step x.1 x.2.1 x.2.2) (ha : x.1.Ready a) (hb : x.1.Ready b)
    (hx : selected x ≠ some a) :
    Since a b x.2.2 (n + if selected x = some b then 1 else 0) := by
  rcases step_scan hstep with ⟨hop, hmode, hs⟩ | ⟨hop, hcursor, hproc⟩
  · have hselect : ∀ i, x.1.cursor = i → x.1.cpu.status i = .runnable → x.1.cpu.proc ≠ some i →
        selected x = some i := by
      intro i hi hstatus hproc
      subst hi
      exact selected_eq_some_iff.mpr ⟨hop, rfl, hstatus, hproc⟩
    have hne : x.1.cursor ≠ a := by
      intro hi
      rcases h with ⟨hle, _⟩ | ⟨_, _, hproc⟩
      · have hback := dist_add_one_eq_iff.mpr hi
        have hlt := dist_lt a b
        have hb' := dist_add_one_eq_iff.mp (show dist a b + 1 = processCount by omega)
        exact hab hb'.symm
      · exact hx (hselect a hi (ready_of_scheduler ha hmode) hproc)
    have hdist : dist a (x.1.cursor + 1) = dist a x.1.cursor + 1 := by
      apply dist_succ_of_lt
      have hlt := dist_lt a x.1.cursor
      have hback := mt dist_add_one_eq_iff.mp hne
      omega
    rw [hs]
    by_cases hi : x.1.cursor = b
    · rcases h with ⟨_, hn, hproc⟩ | ⟨hlt, _⟩
      · have hsel := hselect b hi (ready_of_scheduler hb hmode) hproc
        obtain ⟨hcursor, hproc', _⟩ :=
          schedPass_selected (selected_eq_some_iff.mp hsel).2.2
        rw [if_pos hsel]
        refine .inr ⟨?_, by omega, ?_⟩
        · rw [hcursor, hdist, hi]
          exact Nat.lt_succ_self _
        · rw [hproc', hi]
          exact fun heq => hab (Option.some.inj heq).symm
      · rw [hi] at hlt
        exact absurd hlt (Nat.lt_irrefl _)
    · have hsel : selected x ≠ some b := fun heq => hi (selected_eq_some_iff.mp heq).2.1
      have hcursor : x.1.schedPass.cursor = x.1.cursor + 1 := by
        by_cases hs : x.1.cpu.Selectable x.1.cursor
        · exact (schedPass_selected hs).1
        · rw [schedPass_passed hs]
      have hproc : ∀ i, x.1.cursor ≠ i → x.1.cpu.proc ≠ some i →
          x.1.schedPass.cpu.proc ≠ some i := by
        intro i hi hold
        by_cases hs : x.1.cpu.Selectable x.1.cursor
        · rw [(schedPass_selected hs).2.1]
          exact fun heq => hi (Option.some.inj heq)
        · rwa [schedPass_passed hs]
      have hb' : dist a x.1.cursor ≠ dist a b := fun heq => hi (dist_inj heq)
      rw [if_neg hsel]
      rcases h with ⟨hle, hn, hold⟩ | ⟨hlt, hn, hold⟩
      · refine .inl ⟨?_, hn, hproc b hi hold⟩
        rw [hcursor, hdist]
        omega
      · refine .inr ⟨?_, hn, hproc a hne hold⟩
        rw [hcursor, hdist]
        omega
  · have hsel : selected x ≠ some b := fun heq => hop (selected_eq_some_iff.mp heq).1
    rw [if_neg hsel]
    unfold Since
    rw [hcursor, hproc]
    exact h

theorem since_run {s t : Multitask} {tr : List (Multitask × MtaskOp × Multitask)} (hab : a ≠ b)
    (hrun : Run Step s tr t) (h : Since a b s 0) (hnext : ∀ z ∈ tr, selected z ≠ some a)
    (hready : ∀ z ∈ tr, z.1.Ready a ∧ z.1.Ready b) :
    Since a b t ((tr.filterMap selected).count b) := by
  induction hrun with
  | nil => exact h
  | @snoc t u tr op run step ih =>
    have hmem : ∀ z ∈ tr, z ∈ tr ++ [(t, op, u)] := fun z => List.mem_append_left _
    have hlast : (t, op, u) ∈ tr ++ [(t, op, u)] := List.mem_append_right _ List.mem_cons_self
    have hcount : ((tr ++ [(t, op, u)]).filterMap selected).count b =
        (tr.filterMap selected).count b + if selected (t, op, u) = some b then 1 else 0 := by
      rw [List.filterMap_append, List.count_append]
      congr 1
      cases hsel : selected (t, op, u) with
      | none => simp [hsel]
      | some i => simp [hsel, List.count_singleton]
    rw [hcount]
    have hbefore := ih (fun z hz => hnext z (hmem z hz)) (fun z hz => hready z (hmem z hz))
    obtain ⟨ha, hb⟩ := hready _ hlast
    exact hbefore.step (x := (t, op, u)) hab step ha hb (hnext _ hlast)

/-- Between two selections of `a` that follow each other, `b` is selected once. -/
theorem selected_once {s u : Multitask} {x y : Multitask × MtaskOp × Multitask}
    {tr₁ tr₂ tr₃ : List (Multitask × MtaskOp × Multitask)} (hab : a ≠ b)
    (hrun : Run Step s (tr₁ ++ x :: tr₂ ++ y :: tr₃) u) (hx : selected x = some a)
    (hy : selected y = some a) (hnext : ∀ z ∈ tr₂, selected z ≠ some a)
    (hready : ∀ z ∈ tr₂ ++ [y], z.1.Ready a ∧ z.1.Ready b) :
    (tr₂.filterMap selected).count b = 1 := by
  obtain ⟨r, hrun, hrest⟩ := Run.of_append hrun
  obtain ⟨q, _, hrun⟩ := Run.of_append hrun
  obtain ⟨_, hstep, hrun⟩ := Run.of_cons hrun
  obtain ⟨hr, _, _⟩ := Run.of_cons hrest
  subst hr
  have hsince := since_run hab hrun (Since.start hab hstep hx) hnext
    (fun z hz => hready z (List.mem_append_left _ hz))
  obtain ⟨_, hcursor, _⟩ := selected_eq_some_iff.mp hy
  -- the scan has come round to `a`, and so has passed `b`
  have hback := dist_add_one_eq_iff.mpr hcursor
  rcases hsince with ⟨hle, _⟩ | ⟨_, hn, _⟩
  · have hlt := dist_lt a b
    have hb := dist_add_one_eq_iff.mp (show dist a b + 1 = processCount by omega)
    exact absurd hb.symm hab
  · exact hn

/-- Two tasks that take turns. -/
theorem selected_once_two : ∃ (x y : Multitask × MtaskOp × Multitask)
    (tr : List (Multitask × MtaskOp × Multitask)), selected x = some 1 ∧ selected y = some 1 ∧
    tr.length = 17 ∧ (tr.filterMap selected).count (2 : Slot) = 1 := by
  let s : Multitask := {
    cpu := ⟨none, 0, fun i => if i = 1 ∨ i = 2 then .runnable else .noalloc, fun _ => 0⟩
    mode := .scheduler
    cursor := 1
    allocated := ∅
    doubleFree := false
    pending := fun _ => false }
  have hfirst : Step s .schedPass s.schedPass := rfl
  have hexec : (Run.exec (Run.ofStep step)
      ([.schedHandler, .schedPass, .schedHandler] ++ List.replicate 14 .schedPass)
      s.schedPass).map (fun r => (r.1.length, decide (∀ z ∈ r.1, selected z ≠ some 1 ∧
        z.1.Ready 1 ∧ z.1.Ready 2), r.2.mode, selected (r.2, .schedPass, r.2.schedPass),
        decide (r.2.Ready 1 ∧ r.2.Ready 2))) = some (17, true, .scheduler, some 1, true) := by
    decide +kernel
  obtain ⟨⟨tr, t⟩, hrun, heq⟩ := Option.map_eq_some_iff.mp hexec
  simp only [Prod.mk.injEq, decide_eq_true_eq] at heq
  obtain ⟨hlen, hall, hmode, hlast, hready⟩ := heq
  have hstep : Step t .schedPass t.schedPass := if_pos hmode
  have hx : selected (s, .schedPass, s.schedPass) = some 1 := by decide +kernel
  have hrun' : Run Step s ([] ++ _ :: tr ++ [(t, .schedPass, _)]) _ :=
    ((Run.exec_run Run.ofStep_sound hrun).snoc hstep).cons hfirst
  refine ⟨_, _, tr, hx, hlast, hlen, selected_once (by decide) hrun' hx hlast
    (fun z hz => (hall z hz).1) ?_⟩
  intro z hz
  rcases List.mem_append.mp hz with hz | hz
  · exact (hall z hz).2
  · rw [List.mem_singleton.mp hz]
    exact hready

/-- Passes of the loop, `n` at most, until one switches to a process. -/
def passes : Nat → Multitask → Multitask
  | 0, s => s
  | n + 1, s => if s.mode = .scheduler then s.schedPass.passes n else s

/-- One sweep of the loop selects a runnable slot. -/
def SweepSelects (s : Multitask) : Prop :=
  ∃ i, s.cpu.status i = .runnable ∧ (s.passes processCount).mode = .task ∧
    (s.passes processCount).cpu.proc = some i

def NeverSpins (s : Multitask) : Prop :=
  s.mode = .scheduler → (∃ i, s.cpu.status i = .runnable) → s.SweepSelects

theorem passes_of_task (h : s.mode = .task) (n : Nat) : s.passes n = s := by
  cases n with
  | zero => rfl
  | succ n =>
    unfold passes
    rw [if_neg (by simp [h])]

theorem passes_succ (h : s.mode = .scheduler) (n : Nat) :
    s.passes (n + 1) = s.schedPass.passes n := by
  rw [passes, if_pos h]

/-- A slot that can be selected is at most one turn ahead. -/
theorem passes_select {n : Nat} (hmode : s.mode = .scheduler) (hi : s.cpu.Selectable i)
    (hn : (i - s.cursor).val < n) : ∃ j, s.cpu.status j = .runnable ∧
      (s.passes n).mode = .task ∧ (s.passes n).cpu.proc = some j := by
  induction n generalizing s with
  | zero => exact absurd hn (Nat.not_lt_zero _)
  | succ n ih =>
    rw [passes_succ hmode]
    by_cases hselect : s.cpu.Selectable s.cursor
    · obtain ⟨_, hproc, htask⟩ := schedPass_selected hselect
      rw [passes_of_task htask]
      exact ⟨s.cursor, hselect.1, htask, hproc⟩
    · have hne : i - s.cursor ≠ 0 := by
        intro heq
        rw [sub_eq_zero.mp heq] at hi
        exact hselect hi
      have hnear : i - (s.cursor + 1) = i - s.cursor - 1 := sub_add_eq_sub_sub _ _ _
      rw [schedPass_passed hselect]
      apply ih (s := { s with cursor := s.cursor + 1 }) hmode hi
      rw [hnear, Fin.val_sub_one_of_ne_zero hne]
      have hpos : (i - s.cursor).val ≠ 0 := fun heq => hne (Fin.ext heq)
      omega

theorem passes_idle (hmode : s.mode = .scheduler) (h : ∀ i, ¬ s.cpu.Selectable i) (n : Nat) :
    (s.passes n).mode = .scheduler := by
  induction n generalizing s with
  | zero => exact hmode
  | succ n ih =>
    rw [passes_succ hmode, schedPass_passed (h s.cursor)]
    exact ih hmode h

theorem neverSpins_iff : s.NeverSpins ↔
    (s.mode = .scheduler → (∃ i, s.cpu.status i = .runnable) → ∃ i, s.cpu.Selectable i) := by
  constructor
  · intro h hmode hrunnable
    obtain ⟨_, _, htask, _⟩ := h hmode hrunnable
    apply Classical.byContradiction
    intro hnone
    rw [passes_idle hmode (not_exists.mp hnone)] at htask
    cases htask
  · intro h hmode hrunnable
    obtain ⟨i, hi⟩ := h hmode hrunnable
    exact passes_select hmode hi (i - s.cursor).isLt

theorem step_scheduler (h : Step s op s') (hmode : s'.mode = .scheduler) :
    (op = .schedPass ∧ s.mode = .scheduler ∧ s'.cpu = s.cpu) ∨
    (op = .startMtask ∧ s'.cpu = s.cpu) ∨
    (op = .schedHandler ∧ ∃ p, s.cpu.proc = some p ∧ s'.cpu = s.cpu.setStatus p .runnable) ∨
    ((op = .ktaskExit ∨ ∃ p, op = .ktaskKill p) ∧
      ∃ p, s.cpu.proc = some p ∧ s'.cpu = s.cpu.setStatus p .noalloc) := by
  cases op with
  | procAlloc =>
    obtain ⟨⟨hne, _⟩, hs⟩ := Option.ite_none_right_eq_some.mp h
    cases hs
    exact absurd hmode hne
  | ktaskInit p stack =>
    obtain ⟨⟨hne, _⟩, hs⟩ := Option.ite_none_right_eq_some.mp h
    cases hs
    exact absurd hmode hne
  | utaskInit p stack =>
    obtain ⟨⟨hne, _⟩, hs⟩ := Option.ite_none_right_eq_some.mp h
    cases hs
    exact absurd hmode hne
  | startMtask =>
    obtain ⟨_, hs⟩ := Option.ite_none_right_eq_some.mp h
    cases hs
    exact .inr (.inl ⟨rfl, rfl⟩)
  | schedPass =>
    obtain ⟨hsched, hs⟩ := Option.ite_none_right_eq_some.mp h
    cases hs
    by_cases hselect : s.cpu.Selectable s.cursor
    · rw [(schedPass_selected hselect).2.2] at hmode
      cases hmode
    · rw [schedPass_passed hselect]
      exact .inl ⟨rfl, hsched, rfl⟩
  | schedHandler =>
    obtain ⟨_, hs⟩ := Option.ite_none_right_eq_some.mp h
    obtain ⟨p, hp, hs⟩ := Option.map_eq_some_iff.mp hs
    cases hs
    exact .inr (.inr (.inl ⟨rfl, p, hp, rfl⟩))
  | ktaskExit =>
    obtain ⟨_, hs⟩ := Option.ite_none_right_eq_some.mp h
    obtain ⟨p, hp, hs⟩ := Option.map_eq_some_iff.mp hs
    cases hs
    exact .inr (.inr (.inr ⟨.inl rfl, p, hp, rfl⟩))
  | ktaskKill p =>
    obtain ⟨hne, hs⟩ := Option.ite_none_right_eq_some.mp h
    rcases ktaskKill_cases hs with heq | hs | heq
    · subst heq
      exact absurd hmode hne
    · obtain ⟨q, hq, hs⟩ := Option.map_eq_some_iff.mp hs
      cases hs
      exact .inr (.inr (.inr ⟨.inr ⟨p, rfl⟩, q, hq, rfl⟩))
    · subst heq
      exact absurd hmode hne

/-- When the step gives control to the scheduler while a slot is runnable, one other than that of
`cpu->proc` is. -/
def LeavesOther (s : Multitask) : MtaskOp → Prop
  | .schedHandler => ∃ i, s.cpu.Selectable i
  | .startMtask => (∃ i, s.cpu.status i = .runnable) → ∃ i, s.cpu.Selectable i
  | _ => True

instance (s : Multitask) : ∀ op, Decidable (s.LeavesOther op)
  | .schedHandler => inferInstanceAs (Decidable (∃ _, _))
  | .startMtask => inferInstanceAs (Decidable (_ → _))
  | .procAlloc | .ktaskInit .. | .utaskInit .. | .schedPass | .ktaskExit | .ktaskKill _ =>
    isTrue trivial

theorem setStatus_selectable {p : Slot} (hp : s.cpu.proc = some p) (t : ProcessStatus) :
    (s.cpu.setStatus p t).Selectable i ↔ s.cpu.Selectable i := by
  unfold Cpu.Selectable
  rw [Cpu.setStatus_status, Cpu.setStatus_proc, hp]
  constructor
  · intro h
    have hip : i ≠ p := fun heq => h.2 (congrArg some heq.symm)
    rwa [if_neg hip] at h
  · intro h
    have hip : i ≠ p := fun heq => h.2 (congrArg some heq.symm)
    rwa [if_neg hip]

theorem NeverSpins.step (h : s.NeverSpins) (hother : s.LeavesOther op) (hstep : Step s op s') :
    s'.NeverSpins := by
  rw [neverSpins_iff] at h ⊢
  intro hmode hrunnable
  rcases step_scheduler hstep hmode with ⟨_, hsched, hcpu⟩ | ⟨rfl, hcpu⟩ | ⟨rfl, p, hp, hcpu⟩ |
    ⟨_, p, hp, hcpu⟩
  · rw [hcpu] at hrunnable ⊢
    exact h hsched hrunnable
  · rw [hcpu] at hrunnable ⊢
    exact hother hrunnable
  · obtain ⟨i, hi⟩ := hother
    rw [hcpu]
    exact ⟨i, (setStatus_selectable hp _).mpr hi⟩
  · -- the slot of `cpu->proc` is not runnable any more
    rw [hcpu] at hrunnable ⊢
    obtain ⟨i, hi⟩ := hrunnable
    obtain ⟨hip, _⟩ := Cpu.of_setStatus hi (by simp)
    refine ⟨i, hi, ?_⟩
    rw [Cpu.setStatus_proc, hp]
    exact fun heq => hip (Option.some.inj heq).symm

theorem not_neverSpins_step (hother : ¬ s.LeavesOther op) (hstep : Step s op s') :
    ¬ s'.NeverSpins := by
  rw [neverSpins_iff]
  intro h
  cases op with
  | startMtask =>
    obtain ⟨_, hs⟩ := Option.ite_none_right_eq_some.mp hstep
    cases hs
    exact hother fun hrunnable => h rfl hrunnable
  | schedHandler =>
    obtain ⟨_, hs⟩ := Option.ite_none_right_eq_some.mp hstep
    obtain ⟨p, hp, hs⟩ := Option.map_eq_some_iff.mp hs
    cases hs
    obtain ⟨i, hi⟩ := h rfl ⟨p, by simp [setStatus]⟩
    exact hother ⟨i, (setStatus_selectable hp _).mp hi⟩
  | _ => exact hother trivial

/-- The scheduler never spins exactly in the runs that leave it a slot other than that of
`cpu->proc`. -/
theorem neverSpins_iff_guarded (cpu : Cpu) (stack : U32) {s : Multitask}
    {tr : List (Multitask × MtaskOp × Multitask)} (hrun : Run Step (initMtask cpu stack) tr s) :
    ((initMtask cpu stack).NeverSpins ∧ ∀ x ∈ tr, x.2.2.NeverSpins) ↔
      Run.Guarded LeavesOther tr := by
  refine hrun.forall_iff_guarded ?_ (fun _ _ _ h hother hstep => h.step hother hstep)
    (fun _ h => h) (fun _ _ _ _ hother hstep => not_neverSpins_step hother hstep)
  intro hmode
  cases hmode

/-- Two tasks that the timer interrupts in turn. -/
theorem neverSpins_iff_guarded_two : ∃ tr s,
    Run Step (initMtask ⟨none, 0, fun _ => .noalloc, fun _ => 0⟩ 0x3000000) tr s ∧
      tr.length = 10 ∧ ∀ x ∈ tr, x.2.2.NeverSpins := by
  have hexec : (Run.exec (Run.ofStep step)
      [.procAlloc, .ktaskInit 1 0x3001000, .procAlloc, .utaskInit 2 0x3002000, .startMtask,
        .schedPass, .schedPass, .schedHandler, .schedPass, .schedHandler]
      (initMtask ⟨none, 0, fun _ => .noalloc, fun _ => 0⟩ 0x3000000)).map
      (fun r => (r.1.length, decide (Run.Guarded LeavesOther r.1))) = some (10, true) := by
    decide +kernel
  obtain ⟨⟨tr, s⟩, hrun, heq⟩ := Option.map_eq_some_iff.mp hexec
  obtain ⟨hlen, hguard⟩ := Prod.mk.inj heq
  have hrun' := Run.exec_run Run.ofStep_sound hrun
  exact ⟨tr, s, hrun', hlen,
    ((neverSpins_iff_guarded _ _ hrun').mpr (of_decide_eq_true hguard)).2⟩

/-- Of two tasks the first kills the second; the next timer interrupt leaves no slot to select. -/
theorem spins_after_kill : ¬ ∀ tr s,
    Run Step (initMtask ⟨none, 0, fun _ => .noalloc, fun _ => 0⟩ 0x3000000) tr s →
      s.NeverSpins := by
  have hexec : (Run.exec (Run.ofStep step)
      [.procAlloc, .ktaskInit 1 0x3001000, .procAlloc, .utaskInit 2 0x3002000, .startMtask,
        .schedPass, .schedPass, .ktaskKill 2, .schedHandler]
      (initMtask ⟨none, 0, fun _ => .noalloc, fun _ => 0⟩ 0x3000000)).map
      (fun r => (r.2.mode, r.2.cpu.status 1, decide (∀ i, ¬ r.2.cpu.Selectable i))) =
        some (.scheduler, .runnable, true) := by
    decide +kernel
  obtain ⟨⟨tr, s⟩, hrun, heq⟩ := Option.map_eq_some_iff.mp hexec
  simp only [Prod.mk.injEq, decide_eq_true_eq] at heq
  obtain ⟨hmode, hrunnable, hnone⟩ := heq
  intro h
  have hspins := h tr s (Run.exec_run Run.ofStep_sound hrun)
  obtain ⟨i, hi⟩ := neverSpins_iff.mp hspins hmode ⟨1, hrunnable⟩
  exact hnone i hi

end Multitask

end Uroboros
