import Uroboros.MtaskInterrupt

/-!
# Exited processes stay off the processor

The invariant of the statement machine, for runs in which the timer interrupts
tasks only, and not between the end of `ktask_exit` and the next process, and in
which `proc_alloc` is called with a free slot.
-/

set_option autoImplicit false

namespace Uroboros

/-- The slot that the code at `pc` is about to initialise. -/
@[simp] def Pc.held : Pc → Option Slot
  | .allocated p => some p
  | .allocRestore p _ => some p
  | .kinitCli p _ => some p
  | .kinitFill p _ => some p
  | .uinitFill p => some p
  | .uinitStatus p => some p
  | _ => none

/-- Where the timer may interrupt a task. -/
@[simp] def Pc.Interruptible : Pc → Prop
  | .body => True
  | .allocated _ => True
  | .exitCli _ => True
  | .killCli _ _ => True
  | .allocCli _ => True
  | .kinitCli _ _ => True
  | .uinitFill _ => True
  | .uinitStatus _ => True
  | _ => False

/-- What `Main` runs. -/
@[simp] def Pc.OfMain : Pc → Prop
  | .body => True
  | .allocated _ => True
  | .allocCli saved => saved = false
  | .allocScan saved => saved = false
  | .allocRestore _ saved => saved = false
  | .kinitCli _ saved => saved = false
  | .kinitFill _ saved => saved = false
  | .kinitRestore saved => saved = false
  | .uinitFill _ => True
  | .uinitStatus _ => True
  | _ => False

def Context.Ready (c : Context) : Prop :=
  c.mode = .task ∧ c.pc.Interruptible ∧ c.iflag = some true

namespace Machine

variable {s s' : Machine} {p : Slot}

/-- What holds at `pc` while a task runs and `cpu->proc` is `p`. -/
@[simp] def TaskPc (s : Machine) (p : Slot) : Pc → Prop
  | .body => s.cpu.status p = .running
  | .allocated _ => s.cpu.status p = .running
  | .exitCli _ => s.cpu.status p = .running
  | .killCli _ _ => s.cpu.status p = .running
  | .allocCli _ => s.cpu.status p = .running
  | .kinitCli _ _ => s.cpu.status p = .running
  | .uinitFill _ => s.cpu.status p = .running
  | .uinitStatus _ => s.cpu.status p = .running
  | .exitStatus _ => s.cpu.status p = .running ∧ s.iflag = false
  | .exitKvfree _ => s.cpu.status p = .noalloc ∧ s.iflag = false
  | .exitRestore _ => s.cpu.status p = .noalloc ∧ s.iflag = false
  | .exitSwitch => s.cpu.status p = .noalloc
  | .killTest _ _ => s.cpu.status p = .running ∧ s.iflag = false
  | .killCompare q _ => s.cpu.status p = .running ∧ s.iflag = false ∧
      (s.cpu.status q = .running ∨ s.cpu.status q = .runnable)
  | .killStatus q _ => s.cpu.status p = .running ∧ s.iflag = false ∧ q ≠ p ∧
      (s.cpu.status q = .running ∨ s.cpu.status q = .runnable)
  | .killKvfree _ _ => s.cpu.status p = .running ∧ s.iflag = false
  | .killRestore _ => s.cpu.status p = .running ∧ s.iflag = false
  | .allocScan _ => s.cpu.status p = .running ∧ s.iflag = false
  | .allocRestore _ _ => s.cpu.status p = .running ∧ s.iflag = false
  | .kinitFill _ _ => s.cpu.status p = .running ∧ s.iflag = false
  | .kinitRestore _ => s.cpu.status p = .running ∧ s.iflag = false
  | _ => False

/-- What holds at `pc` while the scheduler runs. -/
@[simp] def SchedPc (s : Machine) : Pc → Prop
  | .schedTest _ => True
  | .schedProc i => s.cpu.status i = .runnable
  | .schedStatus i => s.cpu.status i = .runnable ∧ s.cpu.proc = some i
  | .schedSwitch i => s.cpu.status i = .running ∧ s.cpu.proc = some i ∧ (s.context i).Ready
  | _ => False

def PcOk (s : Machine) : Prop :=
  match s.mode with
  | .main => s.iflag = false ∧ s.pc.OfMain
  | .task => ∃ p, s.cpu.proc = some p ∧ s.TaskPc p s.pc
  | .scheduler => s.SchedPc s.pc

/-- `pc` is where an owner of a slot goes on: the code that runs (`none`), or a process that
waits. -/
def At (s : Machine) (owner : Option Slot) (pc : Pc) : Prop :=
  match owner with
  | none => s.mode ≠ .scheduler ∧ s.pc = pc
  | some i => (s.cpu.status i = .runnable ∨ s.pc = .schedSwitch i) ∧ (s.context i).pc = pc

/-- Each slot in the state INIT is initialised by at most one owner. -/
structure HeldOk (s : Machine) : Prop where
  init : ∀ o pc h, s.At o pc → pc.held = some h → s.cpu.status h = .init
  once : ∀ o o' pc pc' h, s.At o pc → s.At o' pc' → pc.held = some h → pc'.held = some h → o = o'
  filled : ∀ o h, s.At o (.uinitStatus h) → s.context h = entryContext

structure SlotsOk (s : Machine) : Prop where
  nosched : s.cpu.status s.cpu.schedProc = .nosched
  runnable : ∀ i, s.cpu.status i = .runnable → (s.context i).Ready
  live : ∀ i, s.cpu.status i = .runnable ∨ s.cpu.status i = .running → s.phase i = .live
  notExited : ∀ i, s.cpu.status i = .init → s.phase i ≠ .exited

structure Inv (s : Machine) : Prop extends SlotsOk s where
  schedContext : s.mode ≠ .scheduler →
    ∃ i iflag, s.context s.cpu.schedProc = ⟨.scheduler, .schedTest i, iflag⟩
  pcOk : s.PcOk
  held : s.HeldOk

/-- The condition on a run. -/
def ExitUninterrupted (s : Machine) : MachineEvent → Prop
  | .timer => s.mode = .task ∧ s.pc ≠ .exitSwitch
  | .call _ => True
  | .statement => ∀ saved, s.pc = .allocScan saved → ∃ i, s.cpu.status i = .noalloc

theorem SlotsOk.update (h : s.SlotsOk) {t : ProcessStatus} (hcpu : s'.cpu = s.cpu.setStatus p t)
    (hp : s.cpu.status p ≠ .nosched)
    (hcontext : ∀ i, i ≠ p → s'.context i = s.context i)
    (hphase : ∀ i, i ≠ p → s'.phase i = s.phase i)
    (hrunnable : t = .runnable → (s'.context p).Ready)
    (hlive : t = .runnable ∨ t = .running → s'.phase p = .live)
    (hexited : t = .init → s'.phase p ≠ .exited) : s'.SlotsOk := by
  have hstatus : ∀ i, s'.cpu.status i = if i = p then t else s.cpu.status i := by
    intro i
    rw [hcpu, Cpu.setStatus_status]
  constructor
  · have hne : s.cpu.schedProc ≠ p := by
      intro heq
      rw [← heq] at hp
      exact hp h.nosched
    rw [hstatus, hcpu, Cpu.setStatus_schedProc, if_neg hne]
    exact h.nosched
  · intro i hi
    rw [hstatus] at hi
    by_cases hip : i = p
    · rw [if_pos hip] at hi
      rw [hip]
      exact hrunnable hi
    · rw [if_neg hip] at hi
      rw [hcontext i hip]
      exact h.runnable i hi
  · intro i hi
    rw [hstatus] at hi
    by_cases hip : i = p
    · rw [if_pos hip] at hi
      rw [hip]
      exact hlive hi
    · rw [if_neg hip] at hi
      rw [hphase i hip]
      exact h.live i hi
  · intro i hi
    rw [hstatus] at hi
    by_cases hip : i = p
    · rw [if_pos hip] at hi
      rw [hip]
      exact hexited hi
    · rw [if_neg hip] at hi
      rw [hphase i hip]
      exact h.notExited i hi

/-- A step that frees nothing held and lets no owner gain a slot. `f` names the owner before. -/
theorem HeldOk.move (h : s.HeldOk) (f : Option Slot → Option Slot)
    (hat : ∀ o pc x, pc.held = some x → s'.At o pc → s.At (f o) pc)
    (hinj : ∀ o o' pc pc' x, pc.held = some x → pc'.held = some x → s'.At o pc → s'.At o' pc' →
      f o = f o' → o = o')
    (hinit : ∀ o pc x, pc.held = some x → s'.At o pc → s.cpu.status x = .init →
      s'.cpu.status x = .init ∧ s'.context x = s.context x) : s'.HeldOk := by
  constructor
  · intro o pc x ho hx
    exact (hinit o pc x hx ho (h.init _ _ _ (hat o pc x hx ho) hx)).1
  · intro o o' pc pc' x ho ho' hx hx'
    apply hinj o o' pc pc' x hx hx' ho ho'
    exact h.once _ _ _ _ _ (hat o pc x hx ho) (hat o' pc' x hx' ho') hx hx'
  · intro o x ho
    have hbefore := hat o _ x rfl ho
    rw [(hinit o _ x rfl ho (h.init _ _ _ hbefore rfl)).2]
    exact h.filled _ _ hbefore

theorem HeldOk.keep (h : s.HeldOk) (hwait : ∀ i pc, s'.At (some i) pc → pc.held ≠ none →
      s.At (some i) pc)
    (hkept : ∀ i pc x, s.At (some i) pc → pc.held = some x →
      s'.cpu.status x = .init ∧ s'.context x = s.context x)
    (hown : ∀ pc x, s'.At none pc → pc.held = some x → s'.cpu.status x = .init ∧
      (pc = .uinitStatus x → s'.context x = entryContext) ∧
      ∀ i pc', s.At (some i) pc' → pc'.held ≠ some x) : s'.HeldOk := by
  have hwait' : ∀ i pc x, s'.At (some i) pc → pc.held = some x → s.At (some i) pc := by
    intro i pc x hi hx
    apply hwait i pc hi
    rw [hx]
    simp
  constructor
  · intro o pc x ho hx
    cases o with
    | none => exact (hown pc x ho hx).1
    | some i => exact (hkept i pc x (hwait' i pc x ho hx) hx).1
  · intro o o' pc pc' x ho ho' hx hx'
    cases o with
    | none =>
      cases o' with
      | none => rfl
      | some j => exact absurd hx' ((hown pc x ho hx).2.2 j pc' (hwait' j pc' x ho' hx'))
    | some i =>
      cases o' with
      | none => exact absurd hx ((hown pc' x ho' hx').2.2 i pc (hwait' i pc x ho hx))
      | some j =>
        exact h.once _ _ _ _ x (hwait' i pc x ho hx) (hwait' j pc' x ho' hx') hx hx'
  · intro o x ho
    cases o with
    | none => exact (hown _ x ho rfl).2.1 rfl
    | some i =>
      have hi := hwait' i _ x ho rfl
      rw [(hkept i _ x hi rfl).2]
      exact h.filled _ _ hi

theorem HeldOk.keep_waiting (h : s.HeldOk) (hstatus : s'.cpu.status = s.cpu.status)
    (hcontext : s'.context = s.context) (hswitch : ∀ i, s'.pc ≠ .schedSwitch i)
    (hown : ∀ pc x, s'.At none pc → pc.held = some x → s.cpu.status x = .init ∧
      (pc = .uinitStatus x → s.context x = entryContext) ∧
      ∀ i pc', s.At (some i) pc' → pc'.held ≠ some x) : s'.HeldOk := by
  apply h.keep
  · rintro i pc ⟨hrun, hpc⟩ _
    rw [hstatus] at hrun
    rw [hcontext] at hpc
    exact ⟨.inl (hrun.resolve_right (hswitch i)), hpc⟩
  · intro i pc x hi hx
    rw [hstatus, hcontext]
    exact ⟨h.init _ _ _ hi hx, rfl⟩
  · rw [hstatus, hcontext]
    exact hown

/-- What the running code holds, no process that waits does. -/
theorem HeldOk.ne_of_waits (h : s.HeldOk) (hown : s.At none s.pc) (hp : s.pc.held = some p)
    {i x : Slot} {pc : Pc} (hi : s.At (some i) pc) (hx : pc.held = some x) : x ≠ p := by
  intro heq
  rw [heq] at hx
  cases h.once _ _ _ _ p hown hi hp hx

theorem Inv.mode_ne (h : s.Inv) (hsched : ¬ s.SchedPc s.pc) : s.mode ≠ .scheduler := by
  intro hmode
  have hok := h.pcOk
  simp only [PcOk, hmode] at hok
  exact hsched hok

theorem PcOk.move (h : s.PcOk) (hsched : ¬ s.SchedPc s.pc) (hmode : s'.mode = s.mode)
    (hproc : s'.cpu.proc = s.cpu.proc)
    (hmain : s.mode = .main → s.pc.OfMain → s.iflag = false → s'.pc.OfMain ∧ s'.iflag = false)
    (htask : ∀ p, s.cpu.proc = some p → s.TaskPc p s.pc → s'.TaskPc p s'.pc) : s'.PcOk := by
  unfold PcOk at h ⊢
  rw [hmode, hproc]
  cases hm : s.mode with
  | main =>
    simp only [hm] at h ⊢
    exact (hmain hm h.2 h.1).symm
  | task =>
    simp only [hm] at h ⊢
    obtain ⟨p, hp, hpc⟩ := h
    exact ⟨p, hp, htask p hp hpc⟩
  | scheduler =>
    simp only [hm] at h
    exact absurd h hsched

theorem Inv.goOn (h : s.Inv) {pc : Pc} {iflag : Bool} (hsched : ¬ s.SchedPc s.pc)
    (hmain : s.mode = .main → s.pc.OfMain → s.iflag = false → pc.OfMain ∧ iflag = false)
    (htask : ∀ p, s.cpu.proc = some p → s.TaskPc p s.pc →
      ({ s with pc, iflag } : Machine).TaskPc p pc)
    (hheld : ∀ x, pc.held = some x → s.pc.held = some x)
    (hswitch : ∀ i, pc ≠ .schedSwitch i)
    (hfilled : ∀ x, pc = .uinitStatus x → s.context x = entryContext) :
    ({ s with pc, iflag } : Machine).Inv := by
  have hmode := h.mode_ne hsched
  have hown : s.At none s.pc := ⟨hmode, rfl⟩
  have hok : ({ s with pc, iflag } : Machine).PcOk := h.pcOk.move hsched rfl rfl hmain htask
  refine ⟨⟨h.nosched, h.runnable, h.live, h.notExited⟩, h.schedContext, hok, ?_⟩
  refine h.held.keep_waiting rfl rfl hswitch ?_
  intro pc' x ho hx
  rw [← ho.2] at hx ⊢
  have hx' := hheld x hx
  refine ⟨h.held.init _ _ _ hown hx', hfilled x, ?_⟩
  intro i pc' hi hi'
  exact h.held.ne_of_waits hown hx' hi hi' rfl

theorem Inv.free (h : s.Inv) {q : Slot} {pc : Pc}
    (hq : s.cpu.status q = .running ∨ s.cpu.status q = .runnable)
    (hok : ((s.setStatus q .noalloc).goto pc).PcOk) (hheld : pc.held = none)
    (hswitch : ∀ i, pc ≠ .schedSwitch i) : ((s.setStatus q .noalloc).goto pc).Inv := by
  have hother : s.cpu.status q ≠ .nosched ∧ s.cpu.status q ≠ .init := by
    rcases hq with hq | hq <;> simp [hq]
  have hslots : ((s.setStatus q .noalloc).goto pc).SlotsOk := by
    apply h.toSlotsOk.update rfl hother.1
    · intro _ _
      rfl
    · intro _ _
      rfl
    all_goals simp
  refine ⟨hslots, h.schedContext, hok, ?_⟩
  apply h.held.keep
  · intro i pc' hi _
    have hrun := hi.1.resolve_right (hswitch i)
    exact ⟨.inl (Cpu.of_setStatus hrun (by simp)).2, hi.2⟩
  · intro i pc' x hi hx
    have hinit := h.held.init _ _ _ hi hx
    have hxq : x ≠ q := Cpu.ne_of_status hinit rfl hother.2.symm
    exact ⟨(Cpu.setStatus_status s.cpu q x .noalloc).trans (by rw [if_neg hxq, hinit]), rfl⟩
  · intro pc' x ho hx
    rw [← ho.2] at hx
    cases hheld.symm.trans hx

theorem Inv.exited (h : s.Inv) {q : Slot} {pc : Pc} (hq : s.cpu.status q = .noalloc)
    (hok : ((s.setPhase q .exited).goto pc).PcOk) (hheld : pc.held = none)
    (hswitch : ∀ i, pc ≠ .schedSwitch i) : ((s.setPhase q .exited).goto pc).Inv := by
  have hslots : ((s.setPhase q .exited).goto pc).SlotsOk := by
    apply h.toSlotsOk.update (p := q) (t := .noalloc)
    · have hsame : Function.update s.cpu.status q .noalloc = s.cpu.status := by
        rw [← hq]
        exact Function.update_eq_self _ _
      simp only [goto, setPhase, Cpu.setStatus, hsame]
    · simp [hq]
    · intro _ _
      rfl
    · intro i hi
      exact Function.update_of_ne hi _ _
    all_goals simp
  refine ⟨hslots, h.schedContext, hok, ?_⟩
  refine h.held.keep_waiting rfl rfl hswitch ?_
  intro pc' x ho hx
  rw [← ho.2] at hx
  cases hheld.symm.trans hx

theorem Inv.alloc (h : s.Inv) (hsched : ¬ s.SchedPc s.pc) {p : Slot} {saved : Bool}
    (hp : s.cpu.status p = .noalloc) {phase : Slot → Phase} (hself : phase p ≠ .exited)
    (hphase : ∀ i, i ≠ p → phase i = s.phase i)
    (hs' : s' = { s with cpu := s.cpu.setStatus p .init, phase, pc := .allocRestore p saved })
    (hok : s'.PcOk) : s'.Inv := by
  have hslots : s'.SlotsOk := by
    rw [hs']
    apply h.toSlotsOk.update (p := p) (t := .init) rfl
    · simp [hp]
    · intro _ _
      rfl
    · exact hphase
    · simp
    · simp
    · intro _
      exact hself
  have hfree : ∀ i pc x, s.At (some i) pc → pc.held = some x → x ≠ p := by
    intro i pc x hi hx
    exact Cpu.ne_of_status (h.held.init _ _ _ hi hx) hp (by simp)
  refine ⟨hslots, ?_, hok, ?_⟩
  · intro _
    rw [hs']
    exact h.schedContext (h.mode_ne hsched)
  · apply h.held.keep
    · intro i pc hi _
      rw [hs'] at hi
      have hrun := hi.1.resolve_right (by simp)
      exact ⟨.inl (Cpu.of_setStatus hrun (by simp)).2, hi.2⟩
    · intro i pc x hi hx
      have hinit := h.held.init _ _ _ hi hx
      rw [hs']
      exact ⟨by rw [Cpu.setStatus_status, if_neg (hfree i pc x hi hx), hinit], rfl⟩
    · intro pc x ho hx
      rw [hs'] at ho
      rw [← ho.2] at hx ⊢
      have heq : p = x := Option.some.inj hx
      rw [← heq, hs']
      refine ⟨by simp, (by simp), ?_⟩
      intro i pc hi hx
      exact hfree i pc p hi hx rfl

theorem Inv.fill (h : s.Inv) (hsched : ¬ s.SchedPc s.pc) {p : Slot} (hp : s.pc.held = some p) :
    (s.fillProcess p).Inv := by
  have hmode := h.mode_ne hsched
  have hown : s.At none s.pc := ⟨hmode, rfl⟩
  have hinit := h.held.init _ _ _ hown hp
  have hcontext : ∀ i, i ≠ p → (s.fillProcess p).context i = s.context i := by
    intro i hi
    exact Function.update_of_ne hi _ _
  have hrunnable : ∀ i, s.cpu.status i = .runnable → i ≠ p := by
    intro i hi
    exact Cpu.ne_of_status hi hinit (by simp)
  refine ⟨⟨h.nosched, ?_, h.live, h.notExited⟩, ?_, ?_, ?_⟩
  · intro i hi
    rw [hcontext i (hrunnable i hi)]
    exact h.runnable i hi
  · intro _
    obtain ⟨i, iflag, hi⟩ := h.schedContext hmode
    exact ⟨i, iflag, (hcontext _ (Cpu.ne_of_status h.nosched hinit (by simp))).trans hi⟩
  · have hpc' : (s.fillProcess p).pc = s.pc := rfl
    refine PcOk.move h.pcOk hsched rfl rfl (fun _ hmain hiflag => ⟨hmain, hiflag⟩) fun q _ hq => ?_
    rw [hpc']
    cases hpc : s.pc <;> simp only [hpc, TaskPc] at hq ⊢ <;> exact hq
  · apply h.held.keep
    · intro i pc hi _
      have hrun : s.cpu.status i = .runnable := by
        refine hi.1.resolve_right fun hpc => ?_
        have hpc' : s.pc = .schedSwitch i := hpc
        rw [hpc'] at hp
        cases hp
      exact ⟨.inl hrun, (hcontext i (hrunnable i hrun)) ▸ hi.2⟩
    · intro i pc x hi hx
      have hxp := h.held.ne_of_waits hown hp hi hx
      exact ⟨h.held.init _ _ _ hi hx, hcontext x hxp⟩
    · intro pc x ho hx
      have hpc : s.pc = pc := ho.2
      rw [← hpc] at hx
      have heq : p = x := Option.some.inj (hp.symm.trans hx)
      rw [← heq]
      refine ⟨hinit, fun _ => Function.update_self p _ _, ?_⟩
      intro i pc hi hx
      exact h.held.ne_of_waits hown hp hi hx rfl

theorem setRunnable_eq {p : Slot} (hp : s.phase p ≠ .exited) :
    s.setRunnable p = (s.setStatus p .runnable).setPhase p .live := by
  unfold setRunnable
  cases hphase : s.phase p with
  | exited => exact absurd hphase hp
  | returned =>
    simp only [setStatus, hphase]
    rfl
  | live =>
    have hsame : Function.update s.phase p .live = s.phase := by
      rw [← hphase]
      exact Function.update_eq_self _ _
    simp only [setStatus, setPhase, hphase, hsame]
    rfl

theorem TaskPc.running_of_held {pc : Pc} {q : Slot} (h : s.TaskPc q pc)
    (hp : pc.held = some p) : s.cpu.status q = .running := by
  cases pc <;> simp_all [TaskPc, Pc.held]

theorem Inv.ready (h : s.Inv) (hsched : ¬ s.SchedPc s.pc) {p : Slot} {pc : Pc}
    (hp : s.pc.held = some p) (hentry : s.context p = entryContext)
    (hmain : s.pc.OfMain → pc.OfMain)
    (htask : ∀ q, s.TaskPc q s.pc → ((s.setRunnable p).goto pc).cpu.status q = .running →
      ((s.setRunnable p).goto pc).TaskPc q pc)
    (hheld : pc.held = none) (hswitch : ∀ i, pc ≠ .schedSwitch i) :
    ((s.setRunnable p).goto pc).Inv := by
  have hmode := h.mode_ne hsched
  have hown : s.At none s.pc := ⟨hmode, rfl⟩
  have hinit := h.held.init _ _ _ hown hp
  rw [setRunnable_eq (h.notExited p hinit)] at htask ⊢
  have hok : (((s.setStatus p .runnable).setPhase p .live).goto pc).PcOk := by
    refine PcOk.move h.pcOk hsched rfl rfl (fun _ hpc hiflag => ⟨hmain hpc, hiflag⟩) ?_
    intro q _ hq
    have hrunning := hq.running_of_held hp
    have hne : q ≠ p := by
      rintro rfl
      cases hrunning.symm.trans hinit
    exact htask q hq (by simp [goto, setPhase, setStatus, hne, hrunning])
  have hslots : (((s.setStatus p .runnable).setPhase p .live).goto pc).SlotsOk := by
    apply h.toSlotsOk.update (p := p) (t := .runnable) rfl
    · simp [hinit]
    · intro _ _
      rfl
    · intro i hi
      exact Function.update_of_ne hi _ _
    · intro _
      have hcontext : ((s.setStatus p .runnable).setPhase p .live).context p = entryContext :=
        hentry
      rw [goto, hcontext]
      exact ⟨rfl, trivial, rfl⟩
    · intro _
      exact Function.update_self p _ _
    · simp
  refine ⟨hslots, fun _ => h.schedContext hmode, hok, ?_⟩
  apply h.held.keep
  · intro i pc' hi hx
    have hrun := hi.1.resolve_right (hswitch i)
    have hpc : (s.context i).pc = pc' := hi.2
    have hip : i ≠ p := by
      intro heq
      rw [heq, hentry] at hpc
      rw [← hpc] at hx
      exact hx rfl
    rw [goto, setPhase, setStatus, Cpu.setStatus_status, if_neg hip] at hrun
    exact ⟨.inl hrun, hpc⟩
  · intro i pc' x hi hx
    have hxp := h.held.ne_of_waits hown hp hi hx
    have hxinit := h.held.init _ _ _ hi hx
    exact ⟨(Cpu.setStatus_status s.cpu p x .runnable).trans (by rw [if_neg hxp, hxinit]), rfl⟩
  · intro pc' x ho hx
    rw [← ho.2] at hx
    cases hheld.symm.trans hx

theorem TaskPc.interruptible {pc : Pc} (h : s.TaskPc p pc) (hiflag : s.iflag = true)
    (hpc : pc ≠ .exitSwitch) : pc.Interruptible ∧ s.cpu.status p = .running := by
  cases pc <;> simp_all [TaskPc, Pc.Interruptible]

theorem taskPc_of_interruptible {pc : Pc} (hpc : pc.Interruptible)
    (hp : s.cpu.status p = .running) : s.TaskPc p pc := by
  cases pc <;> simp_all [TaskPc, Pc.Interruptible]

theorem Inv.leave (h : s.Inv) (hmode : s.mode ≠ .scheduler) {context : Slot → Context}
    (hcontext : ∀ i, s.cpu.status i ≠ .noalloc → context i = s.context i) :
    (({ s with context } : Machine).resume s.cpu.schedProc).Inv := by
  obtain ⟨k, iflag, hk⟩ := h.schedContext hmode
  have hsp := (hcontext s.cpu.schedProc (by simp [h.nosched])).trans hk
  have hs' : ({ s with context } : Machine).resume s.cpu.schedProc =
      { s with context, mode := .scheduler, pc := .schedTest k, iflag := iflag.getD s.iflag } := by
    simp only [resume, hsp]
  rw [hs']
  refine ⟨⟨h.nosched, ?_, h.live, h.notExited⟩, fun hne => absurd rfl hne, trivial, ?_⟩
  · intro i hi
    have hready := h.runnable i hi
    rw [← hcontext i (by simp [show s.cpu.status i = .runnable from hi])] at hready
    exact hready
  · apply h.held.keep
    · intro i pc hi _
      have hrun' : s.cpu.status i = .runnable := hi.1.resolve_right (by simp)
      have hpc' : (context i).pc = pc := hi.2
      rw [hcontext i (by simp [hrun'])] at hpc'
      exact ⟨.inl hrun', hpc'⟩
    · intro i pc x hi hx
      have hinit := h.held.init _ _ _ hi hx
      exact ⟨hinit, hcontext x (by simp [hinit])⟩
    · intro pc x ho
      exact absurd rfl ho.1

theorem Inv.preempt (h : s.Inv) (hmode : s.mode = .task) {p : Slot}
    (hp : s.cpu.status p = .running) (hpc : s.pc.Interruptible) :
    (({ s with iflag := false }.setStatus p .runnable).contextSwitch p s.cpu.schedProc s.pc
      (some true)).Inv := by
  have hmode' : s.mode ≠ .scheduler := by
    rw [hmode]
    decide
  obtain ⟨k, iflag, hk⟩ := h.schedContext hmode'
  have hne : s.cpu.schedProc ≠ p := Cpu.ne_of_status h.nosched hp (by simp)
  generalize hs' : ({ s with iflag := false }.setStatus p .runnable).contextSwitch p
    s.cpu.schedProc s.pc (some true) = s'
  have hcpu : s'.cpu = s.cpu.setStatus p .runnable := by
    rw [← hs']
    rfl
  have hcontext : ∀ i, s'.context i = if i = p then ⟨.task, s.pc, some true⟩ else s.context i := by
    intro i
    rw [← hs']
    simp only [contextSwitch, resume, setStatus, Function.update_apply, hmode]
  have hs'mode : s'.mode = .scheduler ∧ s'.pc = .schedTest k := by
    rw [← hs']
    simp only [contextSwitch, resume, setStatus, Function.update_of_ne hne, hk, and_self]
  have hphase : s'.phase = s.phase := by
    rw [← hs']
    rfl
  have hslots : s'.SlotsOk := by
    apply h.toSlotsOk.update hcpu
    · simp [hp]
    · intro i hi
      rw [hcontext, if_neg hi]
    · intro i _
      rw [hphase]
    · intro _
      rw [hcontext, if_pos rfl]
      exact ⟨rfl, hpc, rfl⟩
    · intro _
      rw [hphase]
      exact h.live p (.inr hp)
    · simp
  refine ⟨hslots, fun hne => absurd hs'mode.1 hne, ?_, ?_⟩
  · simp only [PcOk, hs'mode, SchedPc]
  · have hwaits : ∀ o pc, s'.At o pc → ∃ i, o = some i ∧ (if i = p then s.pc = pc else
        s.At (some i) pc) := by
      intro o pc ho
      cases o with
      | none => exact absurd hs'mode.1 ho.1
      | some i =>
        obtain ⟨hrun, hpc'⟩ := ho
        refine ⟨i, rfl, ?_⟩
        rw [hcontext] at hpc'
        have hrun' := hrun.resolve_right (by rw [hs'mode.2]; simp)
        split
        · rename_i hip
          rw [if_pos hip] at hpc'
          exact hpc'
        · rename_i hip
          rw [if_neg hip] at hpc'
          rw [hcpu, Cpu.setStatus_status, if_neg hip] at hrun'
          exact ⟨.inl hrun', hpc'⟩
    -- The process that is preempted was the code that ran.
    apply h.held.move fun o => if o = some p then none else o
    · intro o pc x _ ho
      obtain ⟨i, rfl, hi⟩ := hwaits o pc ho
      by_cases hip : i = p
      · rw [if_pos hip] at hi
        rw [hip, if_pos rfl]
        exact ⟨hmode', hi⟩
      · rw [if_neg hip] at hi
        rw [if_neg (fun heq => hip (Option.some.inj heq))]
        exact hi
    · intro o o' pc pc' x _ _ ho ho' heq
      obtain ⟨i, rfl, _⟩ := hwaits o pc ho
      obtain ⟨j, rfl, _⟩ := hwaits o' pc' ho'
      by_cases hip : i = p <;> by_cases hjp : j = p <;> simp_all
    · intro o pc x _ _ hx
      have hxp : x ≠ p := Cpu.ne_of_status hx hp (by simp)
      rw [hcpu, Cpu.setStatus_status, if_neg hxp, hcontext, if_neg hxp]
      exact ⟨hx, rfl⟩

theorem Inv.select (h : s.Inv) (hmode : s.mode = .scheduler) {proc : Option Slot} {pc : Pc}
    (hok : ({ s with cpu := { s.cpu with proc }, pc } : Machine).PcOk)
    (hswitch : ∀ i, pc ≠ .schedSwitch i) :
    ({ s with cpu := { s.cpu with proc }, pc } : Machine).Inv := by
  refine ⟨⟨h.nosched, h.runnable, h.live, h.notExited⟩, fun hne => absurd hmode hne, hok, ?_⟩
  refine h.held.keep_waiting rfl rfl hswitch ?_
  intro pc' x ho
  exact absurd hmode ho.1

theorem Inv.markRunning (h : s.Inv) (hmode : s.mode = .scheduler) {i : Slot}
    (hi : s.cpu.status i = .runnable) (hproc : s.cpu.proc = some i) :
    ((s.setStatus i .running).goto (.schedSwitch i)).Inv := by
  have hslots : ((s.setStatus i .running).goto (.schedSwitch i)).SlotsOk := by
    apply h.toSlotsOk.update (p := i) (t := .running) rfl
    · simp [hi]
    · intro _ _
      rfl
    · intro _ _
      rfl
    · simp
    · intro _
      exact h.live i (.inl hi)
    · simp
  refine ⟨hslots, fun hne => absurd hmode hne, ?_, ?_⟩
  · simp only [PcOk, goto, setStatus, hmode]
    exact ⟨by simp, hproc, h.runnable i hi⟩
  · apply h.held.keep
    · intro j pc hj _
      refine ⟨.inl ?_, hj.2⟩
      by_cases hji : j = i
      · rw [hji]
        exact hi
      · have hrun := hj.1.resolve_right fun heq => hji (Pc.schedSwitch.inj heq).symm
        exact (Cpu.of_setStatus hrun (by simp)).2
    · intro j pc x hj hx
      have hinit := h.held.init _ _ _ hj hx
      have hxi : x ≠ i := Cpu.ne_of_status hinit hi (by simp)
      exact ⟨(Cpu.setStatus_status s.cpu i x .running).trans (by rw [if_neg hxi, hinit]), rfl⟩
    · intro pc x ho
      exact absurd hmode ho.1

/-- The scheduler switches to the process `i`: the code that runs is the process that waited. -/
theorem Inv.dispatch (h : s.Inv) (hmode : s.mode = .scheduler) {i : Slot}
    (hpc : s.pc = .schedSwitch i) :
    (s.contextSwitch s.cpu.schedProc i (.schedTest (i + 1)) none).Inv := by
  have hok := h.pcOk
  simp only [PcOk, hmode, hpc, SchedPc] at hok
  obtain ⟨hrunning, hproc, hready⟩ := hok
  have hne : i ≠ s.cpu.schedProc := Cpu.ne_of_status hrunning h.nosched (by simp)
  generalize hs' : s.contextSwitch s.cpu.schedProc i (.schedTest (i + 1)) none = s'
  have hcpu : s'.cpu = s.cpu := by
    rw [← hs']
    rfl
  have hphase : s'.phase = s.phase := by
    rw [← hs']
    rfl
  have hcontext : ∀ j, s'.context j = if j = s.cpu.schedProc then
      ⟨.scheduler, .schedTest (i + 1), none⟩ else s.context j := by
    intro j
    rw [← hs']
    simp only [contextSwitch, resume, Function.update_apply, hmode]
  have hs'pc : s'.mode = .task ∧ s'.pc = (s.context i).pc := by
    rw [← hs']
    simp only [contextSwitch, resume, Function.update_of_ne hne, hready.1, and_self]
  have hcontextNe : ∀ j, s.cpu.status j ≠ .nosched → s'.context j = s.context j := by
    intro j hj
    rw [hcontext, if_neg]
    rintro rfl
    exact hj h.nosched
  refine ⟨⟨?_, ?_, ?_, ?_⟩, ?_, ?_, ?_⟩
  · rw [hcpu]
    exact h.nosched
  · intro j hj
    rw [hcpu] at hj
    rw [hcontextNe j (by simp [hj])]
    exact h.runnable j hj
  · rw [hcpu, hphase]
    exact h.live
  · rw [hcpu, hphase]
    exact h.notExited
  · intro _
    exact ⟨i + 1, none, by rw [hcpu, hcontext, if_pos rfl]⟩
  · simp only [PcOk, hs'pc.1]
    refine ⟨i, by rw [hcpu]; exact hproc, ?_⟩
    rw [hs'pc.2]
    exact taskPc_of_interruptible hready.2.1 (by rw [hcpu]; exact hrunning)
  · have hwaits : ∀ j pc, s'.At (some j) pc → j ≠ i ∧ s.At (some j) pc := by
      rintro j pc ⟨hrun, hpc'⟩
      have hnot : ∀ k, s'.pc ≠ .schedSwitch k := by
        intro k heq
        rw [hs'pc.2] at heq
        have hint := hready.2.1
        rw [heq] at hint
        exact hint
      have hrun' := hrun.resolve_right (hnot j)
      rw [hcpu] at hrun'
      rw [hcontextNe j (by simp [hrun'])] at hpc'
      refine ⟨?_, .inl hrun', hpc'⟩
      rintro rfl
      cases hrunning.symm.trans hrun'
    apply h.held.move fun o => o.getD i
    · intro o pc x _ ho
      cases o with
      | none => exact ⟨.inr hpc, hs'pc.2 ▸ ho.2⟩
      | some j => exact (hwaits j pc ho).2
    · intro o o' pc pc' x _ _ ho ho' heq
      cases o with
      | none =>
        cases o' with
        | none => rfl
        | some j => exact absurd (Option.some.inj heq).symm (hwaits j pc' ho').1
      | some j =>
        cases o' with
        | none => exact absurd (Option.some.inj heq) (hwaits j pc ho).1
        | some k => exact heq
    · intro o pc x _ _ hx
      rw [hcpu, hcontextNe x (by simp [hx])]
      exact ⟨hx, rfl⟩

theorem Inv.task (h : s.Inv) (hsched : ¬ s.SchedPc s.pc) (hmain : ¬ s.pc.OfMain) :
    s.mode = .task ∧ ∃ p, s.cpu.proc = some p ∧ s.TaskPc p s.pc := by
  have hok := h.pcOk
  unfold PcOk at hok
  cases hm : s.mode with
  | main =>
    simp only [hm] at hok
    exact absurd hok.2 hmain
  | task =>
    simp only [hm] at hok
    exact ⟨rfl, hok⟩
  | scheduler =>
    simp only [hm] at hok
    exact absurd hok hsched

theorem Inv.scheduler (h : s.Inv) (hmain : ¬ s.pc.OfMain) (htask : ∀ p, ¬ s.TaskPc p s.pc) :
    s.mode = .scheduler ∧ s.SchedPc s.pc := by
  have hok := h.pcOk
  unfold PcOk at hok
  cases hm : s.mode with
  | main =>
    simp only [hm] at hok
    exact absurd hok.2 hmain
  | task =>
    simp only [hm] at hok
    obtain ⟨p, _, hp⟩ := hok
    exact absurd hp (htask p)
  | scheduler =>
    simp only [hm] at hok
    exact ⟨rfl, hok⟩

theorem Inv.timer (h : s.Inv) (hmode : s.mode = .task) (hpc : s.pc ≠ .exitSwitch)
    (hstep : s.timer = some s') : s'.Inv := by
  unfold Machine.timer at hstep
  split at hstep
  · rename_i hiflag
    have hok := h.pcOk
    simp only [PcOk, hmode] at hok
    obtain ⟨p, hp, htask⟩ := hok
    rw [hp] at hstep
    obtain ⟨hint, hrunning⟩ := htask.interruptible hiflag hpc
    cases hstep
    exact h.preempt hmode hrunning hint
  · cases hstep

theorem Inv.callStep (h : s.Inv) {c : Call} (hstep : s.callStep c = some s') : s'.Inv := by
  cases c with
  | ktaskExit | ktaskKill p | setIntFlag iflag =>
    simp only [Machine.callStep] at hstep
    split at hstep <;> cases hstep
    rename_i hmode hpc
    apply h.goOn <;> simp [hmode, hpc]
  | procAlloc | ktaskInit | utaskInit =>
    simp only [Machine.callStep] at hstep
    split at hstep <;> cases hstep
    rename_i hpc
    apply h.goOn <;> simp [hpc]
  | startMtask =>
    simp only [Machine.callStep] at hstep
    split at hstep <;> cases hstep
    rename_i hmode hpc
    exact h.leave (by simp [hmode]) fun _ _ => rfl

theorem Inv.allocScan (h : s.Inv) {saved : Bool} (hpc : s.pc = .allocScan saved)
    (hfree : ∃ i, s.cpu.status i = .noalloc) (hstep : s.statement = some s') : s'.Inv := by
  obtain ⟨p, hp, halloc⟩ := Cpu.procAlloc_cases hfree
  have hsched : ¬ s.SchedPc s.pc := by
    simp [hpc]
  have hok : ∀ phase, ({ s with
      cpu := s.cpu.setStatus p .init
      phase
      pc := .allocRestore p saved } : Machine).PcOk := by
    intro phase
    refine PcOk.move h.pcOk hsched rfl rfl ?_ ?_
    · simp +contextual [hpc]
    · intro q _ hq
      rw [hpc] at hq
      have hne : q ≠ p := Cpu.ne_of_status hq.1 hp (by simp)
      simpa [hne] using hq
  simp only [Machine.statement, hpc, halloc, Option.some.injEq] at hstep
  split at hstep
  · subst hstep
    apply h.alloc hsched hp _ _ rfl (hok _)
    · simp [setPhase]
    · intro i hi
      exact Function.update_of_ne hi _ _
  · rename_i hphase
    subst hstep
    exact h.alloc hsched hp hphase (fun _ _ => rfl) rfl (hok _)

theorem Inv.statement (h : s.Inv)
    (hfree : ∀ saved, s.pc = .allocScan saved → ∃ i, s.cpu.status i = .noalloc)
    (hstep : s.statement = some s') : s'.Inv := by
  cases hpc : s.pc with
  | body | allocated p | exited => simp [Machine.statement, hpc] at hstep
  | exitCli saved | exitRestore saved | killRestore saved | allocCli saved | kinitRestore saved
  | killCli p saved | killKvfree p saved | allocRestore p saved | kinitCli p saved =>
    simp only [Machine.statement, goto, hpc, Option.some.injEq] at hstep
    subst hstep
    apply h.goOn <;> simp +contextual [hpc]
  | allocScan saved => exact h.allocScan hpc (hfree saved hpc) hstep
  | exitStatus saved =>
    obtain ⟨hmode, p, hp, htask⟩ := h.task (by simp [hpc]) (by simp [hpc])
    simp only [Machine.statement, hpc, hp, Option.map_some, Option.some.injEq] at hstep
    subst hstep
    rw [hpc] at htask
    refine h.free (.inl htask.1) ?_ rfl (by simp)
    simp only [PcOk, goto, setStatus, hmode]
    exact ⟨p, hp, by simp [htask.2]⟩
  | exitKvfree saved =>
    obtain ⟨hmode, p, hp, htask⟩ := h.task (by simp [hpc]) (by simp [hpc])
    simp only [Machine.statement, hpc, hp, Option.map_some, Option.some.injEq] at hstep
    subst hstep
    rw [hpc] at htask
    refine h.exited htask.1 ?_ rfl (by simp)
    simp only [PcOk, goto, setPhase, hmode]
    exact ⟨p, hp, htask⟩
  | exitSwitch =>
    obtain ⟨hmode, p, hp, htask⟩ := h.task (by simp [hpc]) (by simp [hpc])
    simp only [Machine.statement, hpc, hp, Option.map_some, Option.some.injEq] at hstep
    subst hstep
    rw [hpc] at htask
    refine h.leave (by simp [hmode]) fun i hi => Function.update_of_ne ?_ _ _
    intro heq
    exact hi (heq ▸ htask)
  | killTest q saved =>
    simp only [Machine.statement, hpc] at hstep
    split at hstep
    · cases hstep
      apply h.goOn <;> simp [hpc]
    · rename_i htest
      have hq : s.cpu.status q = .running ∨ s.cpu.status q = .runnable := by
        by_contra hne
        exact htest (not_or.mp hne)
      cases hstep
      apply h.goOn <;> simp [hpc, hq]
  | killCompare q saved =>
    obtain ⟨hmode, p, hp, htask⟩ := h.task (by simp [hpc]) (by simp [hpc])
    simp only [Machine.statement, hpc] at hstep
    split at hstep
    · cases hstep
      apply h.goOn <;> simp +contextual [hpc]
    · rename_i hne
      have hq : ∀ p, s.cpu.proc = some p → q ≠ p := by
        intro p hp heq
        exact hne (heq ▸ hp)
      cases hstep
      apply h.goOn <;> simp +contextual [hpc, hq]
  | killStatus q saved =>
    obtain ⟨hmode, p, hp, htask⟩ := h.task (by simp [hpc]) (by simp [hpc])
    simp only [Machine.statement, hpc, Option.some.injEq] at hstep
    subst hstep
    rw [hpc] at htask
    obtain ⟨hrunning, hiflag, hne, hq⟩ := htask
    refine h.free hq ?_ rfl (by simp)
    simp only [PcOk, goto, setStatus, hmode]
    exact ⟨p, hp, by simp [hne.symm, hrunning, hiflag]⟩
  | kinitFill p saved =>
    simp only [Machine.statement, hpc, Option.some.injEq] at hstep
    subst hstep
    have hsched : ¬ s.SchedPc s.pc := by
      simp [hpc]
    have hp : s.pc.held = some p := by
      rw [hpc]
      rfl
    have hinv := h.fill hsched hp
    have hentry : (s.fillProcess p).context p = entryContext := Function.update_self p _ _
    apply hinv.ready _ hp hentry
    all_goals simp +contextual [fillProcess, hpc, goto]
  | uinitFill p =>
    simp only [Machine.statement, hpc, Option.some.injEq] at hstep
    subst hstep
    have hp : s.pc.held = some p := by
      rw [hpc]
      rfl
    have hinv := h.fill (by simp [hpc]) hp
    apply hinv.goOn <;> simp [fillProcess, hpc]
  | uinitStatus p =>
    simp only [Machine.statement, hpc, Option.some.injEq] at hstep
    subst hstep
    have hsched : ¬ s.SchedPc s.pc := by
      simp [hpc]
    have hp : s.pc.held = some p := by
      rw [hpc]
      rfl
    have hentry := h.held.filled none p ⟨h.mode_ne hsched, hpc⟩
    apply h.ready hsched hp hentry
    all_goals simp +contextual [hpc, goto]
  | schedTest i =>
    obtain ⟨hmode, _⟩ := h.scheduler (by simp [hpc]) (by simp [hpc])
    simp only [Machine.statement, hpc] at hstep
    split at hstep
    · rename_i htest
      cases hstep
      refine h.select hmode ?_ (by simp)
      simp only [PcOk, hmode]
      exact htest.1
    · cases hstep
      refine h.select hmode ?_ (by simp)
      simp only [PcOk, hmode]
      trivial
  | schedProc i =>
    obtain ⟨hmode, hsched⟩ := h.scheduler (by simp [hpc]) (by simp [hpc])
    simp only [Machine.statement, hpc, Option.some.injEq] at hstep
    subst hstep
    rw [hpc] at hsched
    refine h.select hmode ?_ (by simp)
    simp only [PcOk, hmode]
    exact ⟨hsched, rfl⟩
  | schedStatus i =>
    obtain ⟨hmode, hsched⟩ := h.scheduler (by simp [hpc]) (by simp [hpc])
    simp only [Machine.statement, hpc, Option.some.injEq] at hstep
    subst hstep
    rw [hpc] at hsched
    exact h.markRunning hmode hsched.1 hsched.2
  | schedSwitch i =>
    obtain ⟨hmode, _⟩ := h.scheduler (by simp [hpc]) (by simp [hpc])
    simp only [Machine.statement, hpc, Option.some.injEq] at hstep
    subst hstep
    exact h.dispatch hmode hpc

theorem inv_start (cpu : Cpu) (context : Slot → Context) : (start cpu context).Inv := by
  have hstatus : ∀ i, (start cpu context).cpu.status i = .nosched ∨
      (start cpu context).cpu.status i = .noalloc := by
    intro i
    simp only [start]
    split
    · exact .inl rfl
    · exact .inr rfl
  have hpc : ∀ i, (start cpu context).pc ≠ .schedSwitch i := by
    simp [start]
  refine ⟨⟨rfl, ?_, ?_, ?_⟩, ?_, ⟨rfl, trivial⟩, ?_⟩
  · intro i hi
    simpa [hi] using hstatus i
  · intro i _
    rfl
  · intro i _
    simp [start]
  · intro _
    exact ⟨0, some false, by simp [start]⟩
  · have hnone : ∀ o pc x, (start cpu context).At o pc → pc.held ≠ some x := by
      intro o pc x ho hx
      cases o with
      | none =>
        rw [← ho.2] at hx
        cases hx
      | some i =>
        have hi := ho.1.resolve_right (hpc i)
        simpa [hi] using hstatus i
    constructor
    · intro o pc x ho hx
      exact absurd hx (hnone o pc x ho)
    · intro o o' pc pc' x ho _ hx _
      exact absurd hx (hnone o pc x ho)
    · intro o x ho
      exact absurd rfl (hnone o _ x ho)

theorem inv_step (h : s.Inv) {e : MachineEvent} (guard : s.ExitUninterrupted e)
    (hstep : Step s e s') : s'.Inv := by
  cases e with
  | timer => exact h.timer guard.1 guard.2 hstep
  | call c => exact h.callStep hstep
  | statement => exact h.statement guard hstep

theorem no_resurrection {cpu : Cpu} {context : Slot → Context}
    {tr : List (Machine × MachineEvent × Machine)} (hrun : Run Step (start cpu context) tr s)
    (hguard : Run.Guarded ExitUninterrupted tr) : s.NoResurrection := by
  have hinv := hrun.invariant (I := Inv) (inv_start cpu context)
    (fun _ _ _ h hC hstep => inv_step h hC hstep) hguard
  intro p hp
  constructor
  · intro hrunnable
    exact hp (hinv.live p (.inl hrunnable))
  · intro hrunning
    exact hp (hinv.live p (.inr hrunning))

instance (s : Machine) (e : MachineEvent) : Decidable (s.ExitUninterrupted e) :=
  match e with
  | .timer => inferInstanceAs (Decidable (_ ∧ _))
  | .call _ => .isTrue trivial
  | .statement => inferInstanceAs
    (Decidable (∀ saved, s.pc = .allocScan saved → ∃ i, s.cpu.status i = .noalloc))

def spawn : List MachineEvent :=
  [.call .procAlloc, .statement, .statement, .statement,
    .call .ktaskInit, .statement, .statement, .statement]

def emptyStart : Machine := start ⟨none, 0, fun _ => .noalloc, fun _ => 0⟩ fun _ => entryContext

/-- The first of two tasks exits, and the second one takes its slot. -/
theorem no_resurrection_returned : ∃ tr s, Run Step emptyStart tr s ∧ s.phase 1 = .returned ∧
    s.cpu.status 1 = .init ∧ s.NoResurrection := by
  have hexec : (Run.exec (Run.ofStep step) (spawn ++ spawn ++
      .call .startMtask :: List.replicate 5 .statement ++
      .timer :: List.replicate 4 .statement ++
      .timer :: List.replicate 18 .statement ++
      .call .ktaskExit :: List.replicate 9 .statement ++
      .call .procAlloc :: List.replicate 2 .statement) emptyStart).map
      (fun r => (decide (Run.Guarded ExitUninterrupted r.1), r.2.phase 1, r.2.cpu.status 1)) =
      some (true, .returned, .init) := by
    decide +kernel
  obtain ⟨⟨tr, s⟩, hrun, heq⟩ := Option.map_eq_some_iff.mp hexec
  simp only [Prod.mk.injEq] at heq
  obtain ⟨hguard, hphase, hstatus⟩ := heq
  have hrun' := Run.exec_run Run.ofStep_sound hrun
  exact ⟨tr, s, hrun', hphase, hstatus, no_resurrection hrun' (of_decide_eq_true hguard)⟩

/-- The timer between the last two statements of `ktask_exit`. -/
theorem no_resurrection_interrupted : ∃ tr s, Run Step emptyStart tr s ∧ ¬ s.NoResurrection := by
  have hexec : (Run.exec (Run.ofStep step) (spawn ++
      .call .startMtask :: List.replicate 5 .statement ++
      .call .ktaskExit :: List.replicate 4 .statement ++ [.timer]) emptyStart).map
      (fun r => (r.2.phase 1, r.2.cpu.status 1)) = some (.exited, .runnable) := by
    decide +kernel
  obtain ⟨⟨tr, s⟩, hrun, heq⟩ := Option.map_eq_some_iff.mp hexec
  simp only [Prod.mk.injEq] at heq
  refine ⟨tr, s, Run.exec_run Run.ofStep_sound hrun, fun h => ?_⟩
  exact (h 1 (by simp [heq.1])).1 heq.2

end Machine

end Uroboros
