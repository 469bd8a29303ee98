import Uroboros.Mtask

/-!
# Runs of the scheduler's operations

Two invariants: which slot is running, and, where `kvmalloc` returns blocks that are not
in use, which slots own the stack blocks that are allocated.
-/

set_option autoImplicit false

namespace Uroboros

def ProcessStatus.OwnsStack (status : ProcessStatus) : Prop :=
  status = .runnable ∨ status = .running ∨ status = .nosched

namespace Cpu

/-- The stack blocks of the slots that own one are `blocks`, a different one each. -/
structure Owns (cpu : Cpu) (blocks : Finset U32) : Prop where
  mem_iff : ∀ a, a ∈ blocks ↔ ∃ i, (cpu.status i).OwnsStack ∧ cpu.stack i = a
  distinct : ∀ i j, (cpu.status i).OwnsStack → (cpu.status j).OwnsStack →
    cpu.stack i = cpu.stack j → i = j

variable {cpu cpu' : Cpu} {blocks : Finset U32} {p : Slot} {stack : U32}

theorem Owns.congr (h : cpu.Owns blocks)
    (hstatus : ∀ i, (cpu'.status i).OwnsStack ↔ (cpu.status i).OwnsStack)
    (hstack : cpu'.stack = cpu.stack) : cpu'.Owns blocks := by
  constructor
  · intro a
    simp only [hstatus, hstack]
    exact h.mem_iff a
  · intro i j hi hj
    rw [hstack]
    exact h.distinct i j ((hstatus i).mp hi) ((hstatus j).mp hj)

theorem Owns.insert (h : cpu.Owns blocks) (hp : ¬ (cpu.status p).OwnsStack)
    (hfresh : stack ∉ blocks) (hown : (cpu'.status p).OwnsStack) (hstack : cpu'.stack p = stack)
    (hrest : ∀ i, i ≠ p → cpu'.status i = cpu.status i ∧ cpu'.stack i = cpu.stack i) :
    cpu'.Owns (insert stack blocks) := by
  have hold : ∀ i, (cpu.status i).OwnsStack → cpu.stack i ≠ stack := by
    intro i hi heq
    exact hfresh ((h.mem_iff stack).mpr ⟨i, hi, heq⟩)
  have hcases : ∀ i, (cpu'.status i).OwnsStack →
      i = p ∨ i ≠ p ∧ (cpu.status i).OwnsStack ∧ cpu'.stack i = cpu.stack i := by
    intro i hi
    by_cases hip : i = p
    · exact .inl hip
    · rw [(hrest i hip).1] at hi
      exact .inr ⟨hip, hi, (hrest i hip).2⟩
  constructor
  · intro a
    rw [Finset.mem_insert, h.mem_iff]
    constructor
    · rintro (rfl | ⟨i, hi, rfl⟩)
      · exact ⟨p, hown, hstack⟩
      · have hip : i ≠ p := fun heq => hp (heq ▸ hi)
        exact ⟨i, by rw [(hrest i hip).1]; exact hi, (hrest i hip).2⟩
    · rintro ⟨i, hi, rfl⟩
      rcases hcases i hi with rfl | ⟨_, hi', heq⟩
      · exact .inl hstack
      · exact .inr ⟨i, hi', heq.symm⟩
  · intro i j hi hj heq
    rcases hcases i hi with rfl | ⟨hip, hi', hsi⟩
    · rcases hcases j hj with rfl | ⟨hjp, hj', hsj⟩
      · rfl
      · exact absurd (hsj.symm.trans (heq.symm.trans hstack)) (hold j hj')
    · rcases hcases j hj with rfl | ⟨hjp, hj', hsj⟩
      · exact absurd (hsi.symm.trans (heq.trans hstack)) (hold i hi')
      · exact h.distinct i j hi' hj' (hsi.symm.trans (heq.trans hsj))

theorem Owns.erase (h : cpu.Owns blocks) (hp : (cpu.status p).OwnsStack)
    (hgone : ¬ (cpu'.status p).OwnsStack) (hrest : ∀ i, i ≠ p → cpu'.status i = cpu.status i)
    (hstack : cpu'.stack = cpu.stack) : cpu'.Owns (blocks.erase (cpu.stack p)) := by
  have hcases : ∀ i, (cpu'.status i).OwnsStack → i ≠ p ∧ (cpu.status i).OwnsStack := by
    intro i hi
    have hip : i ≠ p := fun heq => hgone (heq ▸ hi)
    exact ⟨hip, hrest i hip ▸ hi⟩
  constructor
  · intro a
    rw [Finset.mem_erase, h.mem_iff, hstack]
    constructor
    · rintro ⟨hne, i, hi, rfl⟩
      have hip : i ≠ p := fun heq => hne (heq ▸ rfl)
      exact ⟨i, by rw [hrest i hip]; exact hi, rfl⟩
    · rintro ⟨i, hi, rfl⟩
      obtain ⟨hip, hi'⟩ := hcases i hi
      exact ⟨fun heq => hip (h.distinct i p hi' hp heq), i, hi', rfl⟩
  · intro i j hi hj
    rw [hstack]
    exact h.distinct i j (hcases i hi).2 (hcases j hj).2

end Cpu

namespace Multitask

variable {s s' : Multitask} {p : Slot} {stack : U32} {op : MtaskOp}

/-- Which slot runs, and what the scheduler's slot and the returned ones are. -/
structure Roles (s : Multitask) : Prop where
  task : s.mode = .task → ∃ p, s.cpu.proc = some p ∧ ∀ i, s.cpu.status i = .running ↔ i = p
  idle : s.mode ≠ .task → ∀ i, s.cpu.status i ≠ .running
  sched : s.cpu.status s.cpu.schedProc = .nosched
  pending : ∀ i, s.pending i = true → s.cpu.status i = .init

theorem Roles.sched_update (h : s.Roles) {t : ProcessStatus} (hsched : s.cpu.status p ≠ .nosched)
    (hschedProc : s'.cpu.schedProc = s.cpu.schedProc)
    (hstatus : ∀ i, s'.cpu.status i = if i = p then t else s.cpu.status i) :
    s'.cpu.status s'.cpu.schedProc = .nosched := by
  have hne : s.cpu.schedProc ≠ p := fun heq => hsched (heq ▸ h.sched)
  rw [hschedProc, hstatus, if_neg hne]
  exact h.sched

/-- Slot `p`, neither running nor the scheduler's, changes its status, and is not running after. -/
theorem Roles.update (h : s.Roles) {t : ProcessStatus} (hp : s.cpu.status p ≠ .running)
    (hsched : s.cpu.status p ≠ .nosched) (hnew : t ≠ .running) (hmode : s'.mode = s.mode)
    (hproc : s'.cpu.proc = s.cpu.proc) (hschedProc : s'.cpu.schedProc = s.cpu.schedProc)
    (hstatus : ∀ i, s'.cpu.status i = if i = p then t else s.cpu.status i)
    (hpending : ∀ i, s'.pending i = true →
      i = p ∧ t = .init ∨ i ≠ p ∧ s.pending i = true) : s'.Roles := by
  have hrun : ∀ i, s'.cpu.status i = .running ↔ s.cpu.status i = .running := by
    intro i
    rw [hstatus]
    split
    · subst i
      simp only [hp, hnew]
    · rfl
  constructor
  · intro hm
    obtain ⟨q, hq, hq'⟩ := h.task (hmode ▸ hm)
    exact ⟨q, hproc.trans hq, fun i => (hrun i).trans (hq' i)⟩
  · intro hm i
    exact mt (hrun i).mp (h.idle (hmode ▸ hm) i)
  · exact h.sched_update hsched hschedProc hstatus
  · intro i hi
    rw [hstatus]
    rcases hpending i hi with ⟨rfl, rfl⟩ | ⟨hip, hi'⟩
    · rw [if_pos rfl]
    · rw [if_neg hip]
      exact h.pending i hi'

/-- No slot runs after slot `p` changes its status and the scheduler runs. -/
theorem Roles.leave (h : s.Roles) {t : ProcessStatus} (hnew : t ≠ .running)
    (hrun : ∀ i, s.cpu.status i = .running → i = p) (hsched : s.cpu.status p ≠ .nosched)
    (hinit : s.cpu.status p ≠ .init) (hmode : s'.mode = .scheduler)
    (hschedProc : s'.cpu.schedProc = s.cpu.schedProc)
    (hstatus : ∀ i, s'.cpu.status i = if i = p then t else s.cpu.status i)
    (hpending : s'.pending = s.pending) : s'.Roles := by
  constructor
  · intro hm
    rw [hmode] at hm
    cases hm
  · intro _ i
    rw [hstatus]
    split
    · exact hnew
    · rename_i hip
      exact mt (hrun i) hip
  · exact h.sched_update hsched hschedProc hstatus
  · intro i hi
    rw [hpending] at hi
    have hi' := h.pending i hi
    have hip : i ≠ p := fun heq => hinit (heq ▸ hi')
    rw [hstatus, if_neg hip]
    exact hi'

/-- The blocks allocated are the stacks of the slots that own one, and none was freed twice. -/
structure Owned (s : Multitask) : Prop where
  owns : s.cpu.Owns s.allocated
  once : s.doubleFree = false

theorem procAlloc_eq (hfree : ∃ i, s.cpu.status i = .noalloc) :
    ∃ p, s.cpu.status p = .noalloc ∧ s.procAlloc.2 = { s with
      cpu := s.cpu.setStatus p .init
      pending := Function.update s.pending p true } := by
  obtain ⟨p, hp, heq⟩ := Cpu.procAlloc_cases hfree
  refine ⟨p, hp, ?_⟩
  simp only [Multitask.procAlloc, heq]

theorem Roles.procAlloc (h : s.Roles) (hfree : ∃ i, s.cpu.status i = .noalloc) :
    s.procAlloc.2.Roles := by
  obtain ⟨p, hp, hs⟩ := procAlloc_eq hfree
  rw [hs]
  refine h.update (p := p) (by simp [hp]) (by simp [hp]) (by decide) rfl rfl rfl
    (Cpu.setStatus_status _ _ · .init) ?_
  intro i hi
  dsimp only at hi
  by_cases hip : i = p
  · exact .inl ⟨hip, rfl⟩
  · rw [Function.update_of_ne hip] at hi
    exact .inr ⟨hip, hi⟩

theorem Owned.procAlloc (ho : s.Owned) (hfree : ∃ i, s.cpu.status i = .noalloc) :
    s.procAlloc.2.Owned := by
  obtain ⟨p, hp, hs⟩ := procAlloc_eq hfree
  rw [hs]
  refine ⟨ho.owns.congr ?_ rfl, ho.once⟩
  intro i
  rw [Cpu.setStatus_status]
  split
  · subst i
    simp [ProcessStatus.OwnsStack, hp]
  · rfl

theorem taskInit_status (s : Multitask) (p : Slot) (stack : U32) (i : Slot) :
    (s.taskInit p stack).cpu.status i = if i = p then .runnable else s.cpu.status i :=
  Cpu.setStatus_status ..

theorem Roles.taskInit (h : s.Roles) (hpending : s.pending p = true) :
    (s.taskInit p stack).Roles := by
  have hp := h.pending p hpending
  refine h.update (p := p) (by simp [hp]) (by simp [hp]) (by decide) rfl rfl rfl
    (taskInit_status s p stack) ?_
  intro i hi
  have hip : i ≠ p := by
    intro heq
    simp [Multitask.taskInit, Multitask.setStatus, heq] at hi
  refine .inr ⟨hip, ?_⟩
  simpa [Multitask.taskInit, Multitask.setStatus, hip] using hi

theorem Owned.taskInit (ho : s.Owned) (h : s.Roles) (hpending : s.pending p = true)
    (hfresh : stack ∉ s.allocated) : (s.taskInit p stack).Owned := by
  have hp := h.pending p hpending
  refine ⟨?_, ho.once⟩
  apply ho.owns.insert (p := p) (by simp [ProcessStatus.OwnsStack, hp]) hfresh
  · rw [taskInit_status, if_pos rfl]
    exact .inl rfl
  · exact Function.update_self ..
  · intro i hi
    refine ⟨?_, Function.update_of_ne hi ..⟩
    rw [taskInit_status, if_neg hi]

theorem Roles.schedPass (h : s.Roles) (hmode : s.mode = .scheduler) : s.schedPass.Roles := by
  have hidle := h.idle (by simp [hmode])
  unfold Multitask.schedPass
  dsimp only
  split
  · rename_i hselect
    obtain ⟨hrunnable, _⟩ := hselect
    have hstatus := fun i => Cpu.setStatus_status
      { s.cpu with proc := some s.cursor } s.cursor i .running
    refine ⟨?_, ?_, ?_, ?_⟩
    · intro _
      refine ⟨s.cursor, rfl, fun i => ?_⟩
      rw [Multitask.setStatus, hstatus]
      split
      · simp [*]
      · simp [*]
    · intro hm
      exact absurd rfl hm
    · have hne : s.cpu.schedProc ≠ s.cursor := by
        intro heq
        have hsched := h.sched
        rw [heq, hrunnable] at hsched
        cases hsched
      exact (hstatus _).trans (if_neg hne ▸ h.sched)
    · intro i hi
      have hi' := h.pending i hi
      have hne : i ≠ s.cursor := by
        intro heq
        rw [heq, hrunnable] at hi'
        cases hi'
      exact (hstatus i).trans (if_neg hne ▸ hi')
  · exact ⟨h.task, h.idle, h.sched, h.pending⟩

theorem Owned.schedPass (ho : s.Owned) : s.schedPass.Owned := by
  unfold Multitask.schedPass
  dsimp only
  split
  · rename_i hselect
    refine ⟨ho.owns.congr ?_ rfl, ho.once⟩
    intro i
    rw [Multitask.setStatus, Cpu.setStatus_status]
    split
    · subst i
      simp [ProcessStatus.OwnsStack, hselect.1]
    · rfl
  · exact ⟨ho.owns, ho.once⟩

theorem schedHandler_eq (h : s.Roles) (hmode : s.mode = .task) (hs : s.schedHandler = some s') :
    ∃ p, s.cpu.proc = some p ∧ (∀ i, s.cpu.status i = .running ↔ i = p) ∧
      s' = { s.setStatus p .runnable with mode := .scheduler } := by
  obtain ⟨p, hp, hrun⟩ := h.task hmode
  simp only [Multitask.schedHandler, hp, Option.map_some, Option.some.injEq] at hs
  exact ⟨p, hp, hrun, hs.symm⟩

theorem Roles.schedHandler (h : s.Roles) (hmode : s.mode = .task)
    (hs : s.schedHandler = some s') : s'.Roles := by
  obtain ⟨p, -, hrun, rfl⟩ := schedHandler_eq h hmode hs
  have hrunning := (hrun p).mpr rfl
  exact h.leave (p := p) (t := .runnable) (by decide) (fun i => (hrun i).mp) (by simp [hrunning])
    (by simp [hrunning]) rfl rfl (Cpu.setStatus_status _ _ · _) rfl

theorem Owned.schedHandler (ho : s.Owned) (h : s.Roles) (hmode : s.mode = .task)
    (hs : s.schedHandler = some s') : s'.Owned := by
  obtain ⟨p, -, hrun, rfl⟩ := schedHandler_eq h hmode hs
  have hrunning := (hrun p).mpr rfl
  refine ⟨ho.owns.congr ?_ rfl, ho.once⟩
  intro i
  rw [Multitask.setStatus, Cpu.setStatus_status]
  split
  · subst i
    simp [ProcessStatus.OwnsStack, hrunning]
  · rfl

theorem Owned.free (ho : s.Owned) (hp : (s.cpu.status p).OwnsStack) :
    ((s.setStatus p .noalloc).kvfree (s.cpu.stack p)).Owned := by
  constructor
  · apply ho.owns.erase hp
    · exact fun hown => by simp [kvfree, setStatus, ProcessStatus.OwnsStack] at hown
    · intro i hi
      exact (Cpu.setStatus_status ..).trans (if_neg hi)
    · rfl
  · have hmem : s.cpu.stack p ∈ s.allocated := (ho.owns.mem_iff _).mpr ⟨p, hp, rfl⟩
    simp [kvfree, setStatus, ho.once, hmem]

theorem ktaskKill_ends (h : s.Roles) (hs : s.ktaskKill p = some s') :
    s' = s ∨
    ((s.cpu.status p = .running ∨ s.cpu.status p = .runnable) ∧ s.cpu.proc = some p ∧
      (∀ i, s.cpu.status i = .running → i = p) ∧ s.ktaskExit = some s') ∨
    (s.cpu.status p = .runnable ∧
      s' = (s.setStatus p .noalloc).kvfree (s.cpu.stack p)) := by
  unfold Multitask.ktaskKill at hs
  split at hs
  · exact .inl (Option.some.inj hs).symm
  · rename_i hlive
    have hstatus : s.cpu.status p = .running ∨ s.cpu.status p = .runnable := by
      by_cases heq : s.cpu.status p = .running
      · exact .inl heq
      · exact .inr (Classical.not_not.mp fun hne => hlive ⟨heq, hne⟩)
    have hrun : ∀ i, s.cpu.status i = .running → s.cpu.proc = some i := by
      intro i hi
      have hmode : s.mode = .task := Classical.not_not.mp fun hm => h.idle hm i hi
      obtain ⟨q, hq, hq'⟩ := h.task hmode
      exact hq.trans (congrArg some ((hq' i).mp hi).symm)
    split at hs
    · rename_i hproc
      refine .inr (.inl ⟨hstatus, hproc, ?_, hs⟩)
      intro i hi
      exact Option.some.inj ((hrun i hi).symm.trans hproc)
    · rename_i hproc
      exact .inr (.inr ⟨hstatus.resolve_left fun hp => hproc (hrun p hp),
        (Option.some.inj hs).symm⟩)

theorem ktaskExit_eq (hproc : s.cpu.proc = some p) (hs : s.ktaskExit = some s') :
    s' = { (s.setStatus p .noalloc).kvfree (s.cpu.stack p) with mode := .scheduler } := by
  simp only [Multitask.ktaskExit, hproc, Option.map_some, Option.some.injEq] at hs
  exact hs.symm

theorem Roles.ktaskExit (h : s.Roles) (hproc : s.cpu.proc = some p)
    (hstatus : s.cpu.status p = .running ∨ s.cpu.status p = .runnable)
    (hrun : ∀ i, s.cpu.status i = .running → i = p) (hs : s.ktaskExit = some s') : s'.Roles := by
  have hother : s.cpu.status p ≠ .nosched ∧ s.cpu.status p ≠ .init := by
    rcases hstatus with heq | heq <;> simp [heq]
  cases ktaskExit_eq hproc hs
  exact h.leave (p := p) (t := .noalloc) (by decide) hrun hother.1 hother.2 rfl rfl
    (Cpu.setStatus_status _ _ · _) rfl

theorem Owned.ktaskExit (ho : s.Owned) (hproc : s.cpu.proc = some p)
    (hstatus : s.cpu.status p = .running ∨ s.cpu.status p = .runnable)
    (hs : s.ktaskExit = some s') : s'.Owned := by
  have howns : (s.cpu.status p).OwnsStack := hstatus.elim (fun heq => .inr (.inl heq)) .inl
  cases ktaskExit_eq hproc hs
  exact ⟨(ho.free howns).owns, (ho.free howns).once⟩

theorem Roles.ktaskKill (h : s.Roles) (hs : s.ktaskKill p = some s') : s'.Roles := by
  rcases ktaskKill_ends h hs with rfl | ⟨hstatus, hproc, hrun, hexit⟩ | ⟨hrunnable, rfl⟩
  · exact h
  · exact h.ktaskExit hproc hstatus hrun hexit
  · refine h.update (p := p) (t := .noalloc) (by simp [hrunnable]) (by simp [hrunnable]) (by decide)
      rfl rfl rfl (Cpu.setStatus_status _ _ · _) ?_
    intro i hi
    have hip : i ≠ p := by
      intro heq
      have hinit := h.pending i hi
      rw [heq, hrunnable] at hinit
      cases hinit
    exact .inr ⟨hip, hi⟩

theorem Owned.ktaskKill (ho : s.Owned) (h : s.Roles) (hs : s.ktaskKill p = some s') : s'.Owned := by
  rcases ktaskKill_ends h hs with rfl | ⟨hstatus, hproc, -, hexit⟩ | ⟨hrunnable, rfl⟩
  · exact ho
  · exact ho.ktaskExit hproc hstatus hexit
  · exact ho.free (.inl hrunnable)

theorem initMtask_status (cpu : Cpu) (stack : U32) (i : Slot) :
    (initMtask cpu stack).cpu.status i = if i = 0 then .nosched else .noalloc := by
  have hscan : (ForLoop.scan fun _ : Slot => ProcessStatus.noalloc == .noalloc) = some 0 := by
    decide
  simp only [initMtask, initSchedProc, Multitask.procAlloc, Cpu.procAlloc, hscan,
    Multitask.ktaskInit, Multitask.taskInit, Multitask.setStatus, Cpu.setStatus_status]
  split
  · rfl
  · simp [*]

theorem initMtask_rest (cpu : Cpu) (stack : U32) :
    (initMtask cpu stack).mode = .main ∧ (initMtask cpu stack).cpu.proc = cpu.proc ∧
      (initMtask cpu stack).cpu.schedProc = 0 ∧ (initMtask cpu stack).cpu.stack 0 = stack ∧
      (initMtask cpu stack).allocated = {stack} ∧ (initMtask cpu stack).doubleFree = false ∧
      ∀ i, (initMtask cpu stack).pending i = false := by
  have hscan : (ForLoop.scan fun _ : Slot => ProcessStatus.noalloc == .noalloc) = some 0 := by
    decide
  simp only [initMtask, initSchedProc, Multitask.procAlloc, Cpu.procAlloc, hscan,
    Multitask.ktaskInit, Multitask.taskInit, Multitask.setStatus]
  simp [Function.update_apply]

theorem roles_initMtask (cpu : Cpu) (stack : U32) : (initMtask cpu stack).Roles := by
  have hstatus := initMtask_status cpu stack
  obtain ⟨hmode, _, hsched, _, _, _, hpending⟩ := initMtask_rest cpu stack
  refine ⟨?_, ?_, ?_, ?_⟩
  · intro hm
    rw [hmode] at hm
    cases hm
  · intro _ i
    rw [hstatus]
    split <;> decide
  · rw [hsched, hstatus, if_pos rfl]
  · intro i hi
    rw [hpending] at hi
    cases hi

theorem owned_initMtask (cpu : Cpu) (stack : U32) : (initMtask cpu stack).Owned := by
  obtain ⟨_, _, _, hstack, hallocated, honce, _⟩ := initMtask_rest cpu stack
  have howns : ∀ i, ((initMtask cpu stack).cpu.status i).OwnsStack ↔ i = 0 := by
    intro i
    rw [initMtask_status]
    split <;> simp_all [ProcessStatus.OwnsStack]
  refine ⟨⟨?_, ?_⟩, honce⟩
  · intro a
    simp [howns, hstack, hallocated, eq_comm]
  · intro i j hi hj _
    rw [(howns i).mp hi, (howns j).mp hj]

/-- `cpu->proc` and the scheduler's slot across a step. -/
theorem step_proc (hstep : Step s op s') : s'.cpu.schedProc = s.cpu.schedProc ∧
    (s'.cpu.proc = s.cpu.proc ∨
      s'.cpu.proc = some s.cursor ∧ s.cpu.status s.cursor = .runnable) := by
  cases op with
  | procAlloc =>
    obtain ⟨⟨_, hfree⟩, hs⟩ := Option.ite_none_right_eq_some.mp hstep
    obtain ⟨p, _, heq⟩ := procAlloc_eq hfree
    rw [← Option.some.inj hs, heq]
    exact ⟨rfl, .inl rfl⟩
  | ktaskInit p stack =>
    obtain ⟨_, hs⟩ := Option.ite_none_right_eq_some.mp hstep
    cases hs
    exact ⟨rfl, .inl rfl⟩
  | utaskInit p stack =>
    obtain ⟨_, hs⟩ := Option.ite_none_right_eq_some.mp hstep
    cases hs
    exact ⟨rfl, .inl rfl⟩
  | startMtask =>
    obtain ⟨_, hs⟩ := Option.ite_none_right_eq_some.mp hstep
    cases hs
    exact ⟨rfl, .inl rfl⟩
  | schedPass =>
    obtain ⟨_, hs⟩ := Option.ite_none_right_eq_some.mp hstep
    cases hs
    unfold Multitask.schedPass
    dsimp only
    split
    · rename_i hselect
      exact ⟨rfl, .inr ⟨rfl, hselect.1⟩⟩
    · exact ⟨rfl, .inl rfl⟩
  | schedHandler =>
    obtain ⟨_, hs⟩ := Option.ite_none_right_eq_some.mp hstep
    obtain ⟨p, _, rfl⟩ := Option.map_eq_some_iff.mp hs
    exact ⟨rfl, .inl rfl⟩
  | ktaskExit =>
    obtain ⟨_, hs⟩ := Option.ite_none_right_eq_some.mp hstep
    obtain ⟨p, _, rfl⟩ := Option.map_eq_some_iff.mp hs
    exact ⟨rfl, .inl rfl⟩
  | ktaskKill p =>
    obtain ⟨_, hs⟩ := Option.ite_none_right_eq_some.mp hstep
    unfold Multitask.ktaskKill at hs
    split at hs
    · cases hs
      exact ⟨rfl, .inl rfl⟩
    · split at hs
      · obtain ⟨q, _, rfl⟩ := Option.map_eq_some_iff.mp hs
        exact ⟨rfl, .inl rfl⟩
      · cases hs
        exact ⟨rfl, .inl rfl⟩

theorem Roles.step (h : s.Roles) (hstep : Step s op s') : s'.Roles := by
  cases op with
  | procAlloc =>
    obtain ⟨⟨_, hfree⟩, hs⟩ := Option.ite_none_right_eq_some.mp hstep
    cases hs
    exact h.procAlloc hfree
  | ktaskInit p stack =>
    obtain ⟨⟨_, hpending⟩, hs⟩ := Option.ite_none_right_eq_some.mp hstep
    cases hs
    exact h.taskInit hpending
  | utaskInit p stack =>
    obtain ⟨⟨_, hpending⟩, hs⟩ := Option.ite_none_right_eq_some.mp hstep
    cases hs
    exact h.taskInit hpending
  | startMtask =>
    obtain ⟨hmain, hs⟩ := Option.ite_none_right_eq_some.mp hstep
    cases hs
    exact ⟨nofun, fun _ => h.idle (by simp [hmain]), h.sched, h.pending⟩
  | schedPass =>
    obtain ⟨hmode, hs⟩ := Option.ite_none_right_eq_some.mp hstep
    cases hs
    exact h.schedPass hmode
  | schedHandler =>
    obtain ⟨hmode, hs⟩ := Option.ite_none_right_eq_some.mp hstep
    exact h.schedHandler hmode hs
  | ktaskExit =>
    obtain ⟨hmode, hs⟩ := Option.ite_none_right_eq_some.mp hstep
    obtain ⟨p, hp, hrun⟩ := h.task hmode
    exact h.ktaskExit hp (.inl ((hrun p).mpr rfl)) (fun i => (hrun i).mp) hs
  | ktaskKill p =>
    obtain ⟨_, hs⟩ := Option.ite_none_right_eq_some.mp hstep
    exact h.ktaskKill hs

theorem Owned.step (ho : s.Owned) (h : s.Roles) (hfresh : s.FreshBlock op)
    (hstep : Step s op s') : s'.Owned := by
  cases op with
  | procAlloc =>
    obtain ⟨⟨_, hfree⟩, hs⟩ := Option.ite_none_right_eq_some.mp hstep
    cases hs
    exact ho.procAlloc hfree
  | ktaskInit p stack =>
    obtain ⟨⟨_, hpending⟩, hs⟩ := Option.ite_none_right_eq_some.mp hstep
    cases hs
    exact ho.taskInit h hpending hfresh
  | utaskInit p stack =>
    obtain ⟨⟨_, hpending⟩, hs⟩ := Option.ite_none_right_eq_some.mp hstep
    cases hs
    exact ho.taskInit h hpending hfresh
  | startMtask =>
    obtain ⟨_, hs⟩ := Option.ite_none_right_eq_some.mp hstep
    cases hs
    exact ⟨ho.owns, ho.once⟩
  | schedPass =>
    obtain ⟨_, hs⟩ := Option.ite_none_right_eq_some.mp hstep
    cases hs
    exact ho.schedPass
  | schedHandler =>
    obtain ⟨hmode, hs⟩ := Option.ite_none_right_eq_some.mp hstep
    exact ho.schedHandler h hmode hs
  | ktaskExit =>
    obtain ⟨hmode, hs⟩ := Option.ite_none_right_eq_some.mp hstep
    obtain ⟨p, hp, hrun⟩ := h.task hmode
    exact ho.ktaskExit hp (.inl ((hrun p).mpr rfl)) hs
  | ktaskKill p =>
    obtain ⟨_, hs⟩ := Option.ite_none_right_eq_some.mp hstep
    exact ho.ktaskKill h hs

/-- One slot runs while a task does, none while the scheduler does, and the scheduler's slot is
never run or pointed to. -/
structure SingleRunning (s : Multitask) : Prop where
  task : s.mode = .task → ∃ p, s.cpu.proc = some p ∧ ∀ i, s.cpu.status i = .running ↔ i = p
  scheduler : s.mode = .scheduler → ∀ i, s.cpu.status i ≠ .running
  nosched : s.cpu.status s.cpu.schedProc = .nosched
  notProc : s.cpu.proc ≠ some s.cpu.schedProc

/-- `init_mtask` does not store `cpu->proc`: the property holds in every run exactly when the block
that `kvmalloc` returned does not already point to the first slot. -/
theorem single_running_iff (cpu : Cpu) (stack : U32) :
    (∀ tr s, Run Step (initMtask cpu stack) tr s → s.SingleRunning) ↔ cpu.proc ≠ some 0 := by
  obtain ⟨_, hproc, hsched, _⟩ := initMtask_rest cpu stack
  constructor
  · intro h
    have hstart := (h [] _ (.nil _)).notProc
    rwa [hproc, hsched] at hstart
  · intro hne tr s hrun
    have hinv : s.Roles ∧ s.cpu.proc ≠ some s.cpu.schedProc := by
      refine hrun.invariant (I := fun s => s.Roles ∧ s.cpu.proc ≠ some s.cpu.schedProc)
        (C := fun _ _ => True) ⟨roles_initMtask cpu stack, ?_⟩ ?_ (fun _ _ => trivial)
      · rwa [hproc, hsched]
      · rintro t op u ⟨ht, hnot⟩ _ hstep
        obtain ⟨hsched', hproc'⟩ := step_proc hstep
        refine ⟨ht.step hstep, ?_⟩
        rw [hsched']
        rcases hproc' with heq | ⟨heq, hrunnable⟩
        · rwa [heq]
        · -- the selected slot is runnable, the scheduler's is not
          rw [heq]
          intro hcursor
          have hnosched := ht.sched
          rw [← Option.some.inj hcursor, hrunnable] at hnosched
          cases hnosched
    obtain ⟨hinv, hnot⟩ := hinv
    exact ⟨hinv.task, fun hm => hinv.idle (by simp [hm]), hinv.sched, hnot⟩

/-- With a block of `cpu` that points to the first slot, the scheduler's slot is `cpu->proc` right
after `init_mtask`. -/
theorem single_running_stale : ¬ ∀ tr s,
    Run Step (initMtask ⟨some 0, 0, fun _ => .noalloc, fun _ => 0⟩ 0x3000000) tr s →
      s.SingleRunning := by
  intro h
  obtain ⟨_, hproc, hsched, _⟩ :=
    initMtask_rest ⟨some 0, 0, fun _ => .noalloc, fun _ => 0⟩ 0x3000000
  have hstart := (h [] _ (.nil _)).notProc
  rw [hproc, hsched] at hstart
  exact hstart rfl

/-- The stack blocks allocated are those of the slots that own one, a different one each, and none
was freed twice. -/
structure StacksOwned (s : Multitask) : Prop where
  mem_iff : ∀ a, a ∈ s.allocated ↔ ∃ i, (s.cpu.status i = .runnable ∨ s.cpu.status i = .running ∨
    s.cpu.status i = .nosched) ∧ s.cpu.stack i = a
  distinct : ∀ i j, (s.cpu.status i).OwnsStack → (s.cpu.status j).OwnsStack →
    s.cpu.stack i = s.cpu.stack j → i = j
  once : s.doubleFree = false

theorem stacks_owned (cpu : Cpu) (stack : U32) {tr : List (Multitask × MtaskOp × Multitask)}
    {s : Multitask} (hrun : Run Step (initMtask cpu stack) tr s)
    (hfresh : Run.Guarded FreshBlock tr) : s.StacksOwned := by
  have hinv : s.Roles ∧ s.Owned := hrun.invariant (I := fun s => s.Roles ∧ s.Owned)
    ⟨roles_initMtask cpu stack, owned_initMtask cpu stack⟩
    (fun _ _ _ h hfresh hstep => ⟨h.1.step hstep, h.2.step h.1 hfresh hstep⟩) hfresh
  exact ⟨hinv.2.owns.mem_iff, hinv.2.owns.distinct, hinv.2.once⟩

/-- Two tasks, the first of which kills the second and exits. -/
theorem stacks_owned_all_ended : ∃ tr s,
    Run Step (initMtask ⟨none, 0, fun _ => .noalloc, fun _ => 0⟩ 0x3000000) tr s ∧
      tr.length = 9 ∧ s.allocated = {0x3000000} ∧ s.StacksOwned := by
  have hexec : (Run.exec (Run.ofStep step)
      [.procAlloc, .ktaskInit 1 0x3001000, .procAlloc, .utaskInit 2 0x3002000, .startMtask,
        .schedPass, .schedPass, .ktaskKill 2, .ktaskExit]
      (initMtask ⟨none, 0, fun _ => .noalloc, fun _ => 0⟩ 0x3000000)).map
      (fun r => (r.1.length, r.2.allocated, decide (Run.Guarded FreshBlock r.1))) =
        some (9, {0x3000000}, true) := by
    decide +kernel
  obtain ⟨⟨tr, s⟩, hrun, heq⟩ := Option.map_eq_some_iff.mp hexec
  simp only [Prod.mk.injEq, decide_eq_true_eq] at heq
  obtain ⟨hlen, hallocated, hfresh⟩ := heq
  have hrun' := Run.exec_run Run.ofStep_sound hrun
  exact ⟨tr, s, hrun', hlen, hallocated, stacks_owned _ _ hrun' hfresh⟩

end Multitask

end Uroboros
