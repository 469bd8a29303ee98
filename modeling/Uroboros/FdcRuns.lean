import Uroboros.Fdc

/-!
# The floppy driver and the controller

What each function of the driver does beside the controller: it comes to an end in
every interleaving, and always with the same outcome.
-/

set_option autoImplicit false

namespace Uroboros

open Driver Floppy Geometry ByteMemory

namespace Platform

variable {hw : Hardware} {s : Platform} {d : Device}

def withFdc (s : Platform) (c : Controller) : Platform :=
  { s with device := { s.device with fdc := c } }

structure Idle (s : Platform) : Prop where
  mode : s.device.fdc.PromptPs2
  irq : s.device.irq = false
  phase : s.device.fdc.phase = .command []

theorem Idle.waiting (h : s.Idle) : s.Waiting := ⟨h.mode, h.irq, .inl ⟨[], h.phase⟩⟩

theorem Idle.congr {t : Platform} (h : s.Idle) (hfdc : t.device.fdc = s.device.fdc)
    (hirq : t.device.irq = s.device.irq) : t.Idle := by
  obtain ⟨hmode, hs, hphase⟩ := h
  rw [← hfdc] at hmode hphase
  exact ⟨hmode, hirq.trans hs, hphase⟩

theorem env_iff_tick (hirq : s.device.irq = false) (htick : tick hw s.device = some d)
    (t : Platform) : Env hw s t ↔ t = { s with device := d } := by
  constructor
  · rintro (⟨d', hd'⟩ | h)
    · rw [Option.some.inj (hd'.symm.trans htick)]
    · cases hirq.symm.trans h
  · rintro rfl
    exact .tick s d htick

theorem env_iff_interrupt (hirq : s.device.irq = true) (hmode : s.device.fdc.PromptPs2)
    (htick : tick hw s.device = none) (t : Platform) : Env hw s t ↔ t = s.intHandlerFdc := by
  constructor
  · rintro (⟨d', hd'⟩ | _)
    · exact absurd (hd'.symm.trans htick) (Option.some_ne_none d')
    · rfl
  · rintro rfl
    exact .interrupt s hirq (Controller.connected_of_ps2 hmode.2)

/-- A command that is over in one tick: the interrupt arrives, and `waitFdcIntr` returns. -/
theorem gives_waitFdcIntr_once (hirq : s.device.irq = false) (hintr : s.fdcIntr = false)
    (htick : tick hw s.device = some d) (hd : d.irq = true)
    (hlast : ({ s with device := { d with irq := false }, fdcIntr := true } : Platform).Waiting) :
    Gives (Env hw) waitFdcIntr s () { s with device := { d with irq := false }, fdcIntr := true } := by
  let t : Nat → Platform := fun i =>
    if i = 0 then s else if i = 1 then { s with device := d }
    else { s with device := { d with irq := false }, fdcIntr := true }
  have hstop : tick hw d = none := by
    have hphase := hlast.phase
    unfold tick
    rcases hphase with ⟨bytes, hphase⟩ | ⟨bytes, hphase⟩ | hphase <;>
      · change d.fdc.phase = _ at hphase
        rw [hphase]
  apply Gives.await t 2
  · intro i hi u
    match i, hi with
    | 0, _ => exact env_iff_tick hirq htick u
    | 1, _ => exact env_iff_interrupt (s := { s with device := d }) hd hlast.mode hstop u
  · intro i hi
    match i, hi with
    | 0, _ => exact hintr
    | 1, _ => exact hintr
  · exact hlast.quiet
  · rfl

theorem gives_ioOut8 {port : BitVec 16} {v : U8} {t : Platform} (hs : s.Waiting)
    (hout : s.out port v = t) (ht : t.Waiting) : Gives (Env hw) (ioOut8 port v) s () t := by
  subst t
  exact Gives.act hs.quiet ht.quiet

theorem gives_setFdcIntr (hs : s.Waiting) (b : Bool) :
    Gives (Env hw) (setFdcIntr b) s () { s with fdcIntr := b } :=
  Gives.act hs.quiet (show ({ s with fdcIntr := b } : Platform).Waiting from
    ⟨hs.mode, hs.irq, hs.phase⟩).quiet

/-- The test of `check_fdc_data_ready`. -/
def statusReady (direction msr : U8) : Bool :=
  msr &&& fdcMsrRqm != 0 && msr &&& fdcMsrDio == direction

theorem gives_checkFdcDataReady_status (hs : s.Waiting) (direction : U8) :
    Gives (Env hw) (checkFdcDataReady direction) s (statusReady direction s.device.fdc.status) s := by
  have hread : Gives (Env hw) (ioIn8 ioPortFdcMsr) s s.device.fdc.status s :=
    Gives.ask hs.quiet hs.quiet
  exact hread.bind (Gives.done hs.quiet)

/-- Is the controller between two bytes of a command, or before the first? -/
def accepts : Phase → Bool
  | .command _ => true
  | _ => false

theorem gives_checkFdcDataReady (hs : s.Waiting) :
    Gives (Env hw) (checkFdcDataReady fdcMsrDioWrite) s (accepts s.device.fdc.phase) s := by
  have hready : statusReady fdcMsrDioWrite s.device.fdc.status = accepts s.device.fdc.phase := by
    unfold Controller.status
    rcases hs.phase with ⟨_ | ⟨_, _⟩, hphase⟩ | ⟨bytes, hphase⟩ | hphase <;> rw [hphase]
    · exact (by decide : statusReady fdcMsrDioWrite 0x80 = true)
    · exact (by decide : statusReady fdcMsrDioWrite 0x90 = true)
    · exact (by decide : statusReady fdcMsrDioWrite 0xD0 = false)
    · exact (by decide : statusReady fdcMsrDioWrite 0x00 = false)
  rw [← hready]
  exact gives_checkFdcDataReady_status hs fdcMsrDioWrite

/-- What `fdc_motor_on` leaves in the output register. -/
def dorOn (drive old : U8) : U8 := if drive = 0 then 0x1C else if drive = 1 then 0x2D else old

def dorOff (drive old : U8) : U8 := if drive = 0 then 0x0C else if drive = 1 then 0x0D else old

def withDor (s : Platform) (v : U8) : Platform := s.withFdc { s.device.fdc with dor := v }

theorem gives_ioOut8_then {α : Type} {port : BitVec 16} {v : U8} {t u : Platform} {k : Unit → Io α}
    {a : α} (hs : s.Waiting) (hout : s.out port v = t) (hk : Gives (Env hw) (k ()) t a u) :
    Gives (Env hw) (ioOut8 port v >>= k) s a u := by
  subst t
  exact Ends.act hs.quiet hk

theorem gives_ioOut8_dor (hs : s.Idle) {v : U8} (hv : v.getLsbD 2 = true) :
    Gives (Env hw) (ioOut8 ioPortFdcDor v) s () (s.withDor v) := by
  have hout : s.out ioPortFdcDor v = s.withDor v := by
    change s.withFdc (s.device.fdc.outDor v) = _
    have hreset : s.device.fdc.phase ≠ .reset := by
      rw [hs.phase]
      exact nofun
    rw [Controller.outDor, if_pos hv, if_neg hreset]
    rfl
  exact gives_ioOut8 hs.waiting hout ⟨hs.mode, hs.irq, .inl ⟨[], hs.phase⟩⟩

theorem gives_fdcMotorOn (hs : s.Idle) (drive : U8) :
    Gives (Env hw) (fdcMotorOn drive) s () (s.withDor (dorOn drive s.device.fdc.dor)) := by
  unfold fdcMotorOn dorOn
  split
  · exact gives_ioOut8_dor hs (by decide)
  · split
    · exact gives_ioOut8_dor hs (by decide)
    · exact Gives.done hs.waiting.quiet

theorem gives_fdcMotorOff (hs : s.Idle) (drive : U8) :
    Gives (Env hw) (fdcMotorOff drive) s () (s.withDor (dorOff drive s.device.fdc.dor)) := by
  unfold fdcMotorOff dorOff
  split
  · exact gives_ioOut8_dor hs (by decide)
  · split
    · exact gives_ioOut8_dor hs (by decide)
    · exact Gives.done hs.waiting.quiet

def toData (bytes : List U8) : List (BitVec 16 × U8) := bytes.map fun b => (ioPortFdcData, b)

theorem out_data_of_lt {bytes : List U8} {v : U8} (hmode : s.device.fdc.PromptPs2)
    (hphase : s.device.fdc.phase = .command bytes)
    (hlt : (bytes ++ [v]).length < Controller.commandLength ((bytes ++ [v]).getD 0 0)) :
    s.out ioPortFdcData v = s.withFdc { s.device.fdc with phase := .command (bytes ++ [v]) } := by
  change s.withFdc (s.device.fdc.outData v) = _
  rw [Controller.outData, hphase]
  dsimp only
  rw [if_neg (Nat.not_le.mpr hlt), Controller.goOn_of_prompt hmode.1]

theorem out_data_of_le {bytes : List U8} {v : U8} (hphase : s.device.fdc.phase = .command bytes)
    (hle : Controller.commandLength ((bytes ++ [v]).getD 0 0) ≤ (bytes ++ [v]).length) :
    s.out ioPortFdcData v = s.withFdc (s.device.fdc.start (bytes ++ [v])) := by
  change s.withFdc (s.device.fdc.outData v) = _
  rw [Controller.outData, hphase]
  dsimp only
  rw [if_pos hle]

theorem waitsFor_params {op : U8} {ps qs : List U8} (hmode : s.device.fdc.PromptPs2)
    (hirq : s.device.irq = false) (hphase : s.device.fdc.phase = .command (op :: ps))
    (hlen : (ps ++ qs).length + 1 < Controller.commandLength op) :
    s.WaitsFor (toData qs) ∧ (toData qs).foldl (fun t x => t.out x.1 x.2) s =
      s.withFdc { s.device.fdc with phase := .command (op :: (ps ++ qs)) } := by
  have hwaiting : s.Waiting := ⟨hmode, hirq, .inl ⟨_, hphase⟩⟩
  induction qs generalizing s ps with
  | nil =>
    refine ⟨hwaiting, ?_⟩
    rw [List.append_nil, ← hphase]
    rfl
  | cons q qs ih =>
    have hsplit : ps ++ q :: qs = ps ++ [q] ++ qs := by rw [List.append_assoc, List.singleton_append]
    rw [hsplit] at hlen ⊢
    have hout : s.out ioPortFdcData q =
        s.withFdc { s.device.fdc with phase := .command (op :: (ps ++ [q])) } := by
      apply out_data_of_lt hmode hphase
      rw [List.length_append] at hlen
      rw [List.cons_append, List.length_cons, List.getD_cons_zero]
      omega
    obtain ⟨hwaits, hfold⟩ := @ih (s.out ioPortFdcData q) (ps ++ [q]) (by rw [hout]; exact hmode)
      (by rw [hout]; exact hirq) (by rw [hout]; rfl) hlen
      (by rw [hout]; exact ⟨hmode, hirq, .inl ⟨_, rfl⟩⟩)
    refine ⟨⟨hwaiting, hwaits⟩, ?_⟩
    change (toData qs).foldl _ (s.out ioPortFdcData q) = _
    rw [hfold, hout]
    rfl

/-- A command up to its last byte. -/
theorem waitsFor_bytes {op : U8} {ps : List U8} (hs : s.Idle)
    (hlen : ps.length + 1 < Controller.commandLength op) :
    s.WaitsFor (toData (op :: ps)) ∧ (toData (op :: ps)).foldl (fun t x => t.out x.1 x.2) s =
      s.withFdc { s.device.fdc with phase := .command (op :: ps) } := by
  have hout : s.out ioPortFdcData op = s.withFdc { s.device.fdc with phase := .command [op] } := by
    apply out_data_of_lt hs.mode hs.phase
    rw [List.nil_append, List.getD_cons_zero, List.length_singleton]
    omega
  obtain ⟨hwaits, hfold⟩ := @waitsFor_params (s.out ioPortFdcData op) op [] ps
    (by rw [hout]; exact hs.mode) (by rw [hout]; exact hs.irq) (by rw [hout]; rfl) hlen
  refine ⟨⟨hs.waiting, hwaits⟩, ?_⟩
  change (toData ps).foldl _ (s.out ioPortFdcData op) = _
  rw [hfold, hout]
  rfl

theorem start_specify {c : Controller} (hc : c.prompt = true) (a b : U8) :
    c.start [0x03, a, b] = { c with timing := (a, b), phase := .command [] } := by
  unfold Controller.start
  rw [List.getD_cons_zero, if_pos (by decide)]
  exact Controller.goOn_of_prompt (c := { c with timing := (a, b) }) hc _

theorem start_configure {c : Controller} (hc : c.prompt = true) :
    c.start [0x13, 0x00, 0x61, 0x00] = { c with autoSeek := true, phase := .command [] } := by
  unfold Controller.start
  rw [List.getD_cons_zero, if_neg (by decide), if_pos (by decide)]
  exact Controller.goOn_of_prompt (c := { c with autoSeek := true }) hc _

theorem start_recalibrate (c : Controller) (drive : U8) :
    c.start [0x07, drive] = { c with phase := .execution [0x07, drive] 0 } := by
  unfold Controller.start
  rw [List.getD_cons_zero, if_neg (by decide), if_neg (by decide), if_pos (by decide)]

theorem start_readData (c : Controller) (bytes : List U8) :
    c.start (0x46 :: bytes) = { c with phase := .execution (0x46 :: bytes) 0 } := by
  unfold Controller.start
  rw [List.getD_cons_zero, if_neg (by decide), if_neg (by decide), if_pos (by decide)]

def command (bytes : List U8) (last : U8) : Io U8 := do
  let ready ← checkFdcDataReady fdcMsrDioWrite
  if ready = false then pure fdcErrorNotReady
  else
    outs (toData bytes)
    ioOut8 ioPortFdcData last
    pure fdcOk

theorem gives_command {op last : U8} {ps : List U8} {c : Controller} (hs : s.Idle)
    (hlen : ps.length + 2 = Controller.commandLength op)
    (hc : ∀ phase, Controller.start { s.device.fdc with phase } (op :: (ps ++ [last])) = c)
    (hmode : c.PromptPs2) (hphase : c.phase = .command []) :
    Gives (Env hw) (command (op :: ps) last) s fdcOk (s.withFdc c) := by
  apply (gives_checkFdcDataReady hs.waiting).bind
  rw [hs.phase, accepts, if_neg Bool.true_eq_false.mp]
  have hshort : ps.length + 1 < Controller.commandLength op := by omega
  obtain ⟨hwaits, hfold⟩ := waitsFor_bytes hs hshort
  apply (gives_outs hwaits).bind
  rw [hfold]
  have hlast : (s.withFdc { s.device.fdc with phase := .command (op :: ps) }).out ioPortFdcData last =
      s.withFdc c := by
    rw [out_data_of_le rfl]
    · exact congrArg s.withFdc (hc _)
    · rw [List.cons_append, List.getD_cons_zero, List.length_cons, List.length_append,
        List.length_singleton]
      omega
  have hbefore : (s.withFdc { s.device.fdc with phase := .command (op :: ps) }).Waiting :=
    ⟨hs.mode, hs.irq, .inl ⟨_, rfl⟩⟩
  have hafter : (s.withFdc c).Idle := ⟨hmode, hs.irq, hphase⟩
  exact (gives_ioOut8 hbefore hlast hafter.waiting).bind (Gives.done hafter.waiting.quiet)

theorem gives_fdcCmdSpecify (hs : s.Idle) (stepRate headUnloadTime headLoadTime dma : U8) :
    Gives (Env hw) (fdcCmdSpecify stepRate headUnloadTime headLoadTime dma) s fdcOk
      (s.withFdc { s.device.fdc with
        timing := ((stepRate <<< 4) ||| headUnloadTime, (headLoadTime <<< 1) ||| dma) }) := by
  have hprog : fdcCmdSpecify stepRate headUnloadTime headLoadTime dma =
      command [0x03, (stepRate <<< 4) ||| headUnloadTime] ((headLoadTime <<< 1) ||| dma) := rfl
  rw [hprog]
  refine gives_command hs rfl ?_ hs.mode hs.phase
  intro phase
  rw [List.singleton_append, start_specify (by exact hs.mode.1), ← hs.phase]

theorem gives_fdcEnableAutoSeek (hs : s.Idle) :
    Gives (Env hw) fdcEnableAutoSeek s fdcOk
      (s.withFdc { s.device.fdc with autoSeek := true }) := by
  have hprog : fdcEnableAutoSeek = command [0x13, 0x00, 0x61] 0x00 := rfl
  rw [hprog]
  refine gives_command hs rfl ?_ hs.mode hs.phase
  intro phase
  rw [List.cons_append, List.singleton_append, start_configure (by exact hs.mode.1), ← hs.phase]

def fetching : List U8 → Phase
  | [] => .command []
  | b :: rest => .result (b :: rest)

theorem gives_ioIn8_data {b : U8} {rest : List U8} (hmode : s.device.fdc.PromptPs2)
    (hirq : s.device.irq = false) (hphase : s.device.fdc.phase = .result (b :: rest)) :
    Gives (Env hw) (ioIn8 ioPortFdcData) s b
      (s.withFdc { s.device.fdc with phase := fetching rest }) := by
  have hin : s.device.fdc.inData = (b, { s.device.fdc with phase := fetching rest }) := by
    rw [Controller.inData, hphase]
    cases rest <;> exact congrArg (Prod.mk b) (Controller.goOn_of_prompt hmode.1 _)
  have hbefore : s.Waiting := ⟨hmode, hirq, .inr (.inl ⟨_, hphase⟩)⟩
  have hafter : (s.withFdc s.device.fdc.inData.2).Waiting := by
    rw [hin]
    cases rest with
    | nil => exact ⟨hmode, hirq, .inl ⟨_, rfl⟩⟩
    | cons _ _ => exact ⟨hmode, hirq, .inr (.inl ⟨_, rfl⟩)⟩
  have hread : Gives (Env hw) (ioIn8 ioPortFdcData) s s.device.fdc.inData.1
      (s.withFdc s.device.fdc.inData.2) := Gives.ask hbefore.quiet hafter.quiet
  rwa [hin] at hread

theorem gives_fdcReadStatus {bytes : List U8} (hmode : s.device.fdc.PromptPs2)
    (hirq : s.device.irq = false) (hphase : s.device.fdc.phase = fetching bytes) :
    Gives (Env hw) (fdcReadStatus bytes.length) s bytes
      (s.withFdc { s.device.fdc with phase := .command [] }) := by
  induction bytes generalizing s with
  | nil =>
    have hsame : s.withFdc { s.device.fdc with phase := .command [] } = s := by
      rw [show Phase.command [] = s.device.fdc.phase from hphase.symm]
      rfl
    rw [hsame]
    exact Gives.done (Idle.waiting ⟨hmode, hirq, hphase⟩).quiet
  | cons b rest ih =>
    apply (gives_ioIn8_data hmode hirq hphase).bind
    refine (@ih (s.withFdc { s.device.fdc with phase := fetching rest }) hmode hirq rfl).bind ?_
    have hlast : (s.withFdc { s.device.fdc with phase := .command [] }).Idle := ⟨hmode, hirq, rfl⟩
    exact Gives.done hlast.waiting.quiet

theorem gives_fdcCmdSenseInterruptStatus {st0 pcn : U8} {rest : List (U8 × U8)} (hs : s.Idle)
    (hsense : s.device.fdc.sense = (st0, pcn) :: rest) :
    Gives (Env hw) fdcCmdSenseInterruptStatus s [st0, pcn]
      (s.withFdc { s.device.fdc with sense := rest }) := by
  have hout : s.out ioPortFdcData cmdSenseInterruptStatus =
      s.withFdc { s.device.fdc with sense := rest, phase := .result [st0, pcn] } := by
    rw [out_data_of_le hs.phase (by decide), List.nil_append]
    apply congrArg s.withFdc
    unfold Controller.start
    rw [List.getD_cons_zero, if_neg (by decide), if_neg (by decide), if_neg (by decide),
      if_pos (by decide), hsense]
    exact Controller.goOn_of_prompt (c := { s.device.fdc with sense := rest }) hs.mode.1 _
  apply (gives_ioOut8 hs.waiting hout ⟨hs.mode, hs.irq, .inr (.inl ⟨_, rfl⟩)⟩).bind
  have hread := @gives_fdcReadStatus hw
    (s.withFdc { s.device.fdc with sense := rest, phase := .result [st0, pcn] }) [st0, pcn] hs.mode
    hs.irq rfl
  have hlast : ({ s.device.fdc with sense := rest, phase := .command [] } : Controller) =
      { s.device.fdc with sense := rest } := by
    rw [← hs.phase]
  change Gives _ _ _ _ (s.withFdc { s.device.fdc with sense := rest, phase := .command [] }) at hread
  rwa [hlast] at hread

structure Motor (s : Platform) (drive : U8) : Prop where
  motor : s.device.fdc.motor drive = true
  unit : drive &&& 3 = drive

def atTrack0 (s : Platform) (drive : U8) : Platform :=
  s.withFdc { s.device.fdc with cylinder := Function.update s.device.fdc.cylinder drive 0 }

theorem recalibrateFailed_eq_false {drive : U8} (h : drive &&& 3 = drive) {st0 : U8}
    (hst0 : st0 = 0x20 ∨ st0 = 0x70) : recalibrateFailed drive (st0 ||| drive) = false := by
  have hall : ∀ d : U8, d &&& 3 = d → recalibrateFailed d (0x20 ||| d) = false ∧
      recalibrateFailed d (0x70 ||| d) = false := by decide
  rcases hst0 with rfl | rfl
  · exact (hall drive h).1
  · exact (hall drive h).2

def executing (s : Platform) (bytes : List U8) : Platform :=
  s.withFdc { s.device.fdc with phase := .execution bytes 0 }

/-- The driver takes a drive that is not there for recalibrated. -/
theorem gives_fdcCmdRecalibrate {drive : U8} (hs : s.Idle) (hmotor : s.Motor drive)
    (hintr : s.fdcIntr = false) (hsense : s.device.fdc.sense = []) :
    Gives (Env hw) (fdcCmdRecalibrate drive) s fdcOk (s.atTrack0 drive) := by
  apply (gives_checkFdcDataReady hs.waiting).bind
  rw [hs.phase, accepts, if_neg Bool.true_eq_false.mp]
  apply gives_ioOut8_then hs.waiting (out_data_of_lt hs.mode hs.phase (by decide))
  have hcommand : (s.withFdc { s.device.fdc with phase := .command [0x07] }).Waiting :=
    ⟨hs.mode, hs.irq, .inl ⟨_, rfl⟩⟩
  have hstart : (s.withFdc { s.device.fdc with phase := .command [0x07] }).out ioPortFdcData drive =
      s.executing [0x07, drive] := by
    have hlen : Controller.commandLength ([0x07, drive].getD 0 0) ≤ 2 := by
      rw [List.getD_cons_zero]
      decide
    exact (out_data_of_le rfl hlen).trans (congrArg s.withFdc (start_recalibrate _ _))
  apply gives_ioOut8_then hcommand hstart
  have hirq : (s.executing [0x07, drive]).device.irq = false := hs.irq
  have hunit : (ReadCommand.ofBytes [0x07, drive]).drive = drive := hmotor.unit
  have htick := @tick_recalibrate hw (s.executing [0x07, drive]).device [0x07, drive] 0 rfl
    (by rw [hunit]; exact hmotor.motor) (by decide : (0x07 : U8) &&& 0x1F = 0x07)
  rw [hunit] at htick
  apply (gives_waitFdcIntr_once hirq hintr htick rfl ⟨hs.mode, rfl, .inl ⟨[], rfl⟩⟩).bind
  refine (gives_setFdcIntr ?_ false).bind ?_
  · exact ⟨hs.mode, rfl, .inl ⟨[], rfl⟩⟩
  refine (gives_fdcCmdSenseInterruptStatus ?_ (congrArg (· ++ _) hsense)).bind ?_
  · exact ⟨hs.mode, rfl, rfl⟩
  have hst0 : (if (hw.disk drive).isSome then 0x20 else 0x70 : U8) = 0x20 ∨
      (if (hw.disk drive).isSome then 0x20 else 0x70 : U8) = 0x70 := by
    split
    · exact .inl rfl
    · exact .inr rfl
  rw [List.getD_cons_zero, recalibrateFailed_eq_false hmotor.unit hst0,
    if_neg Bool.false_ne_true]
  refine Gives.done_of_eq ?_ ?_
  · exact Waiting.quiet ⟨hs.mode, rfl, .inl ⟨[], rfl⟩⟩
  obtain ⟨⟨⟨_, _, _, _, _, _, _, _, _, _⟩, _, _, _⟩, _, _, _, _⟩ := s
  obtain ⟨-, hirq, hphase⟩ := hs
  cases hirq
  cases hphase
  cases hintr
  cases hsense
  rfl

theorem gives_senses (hs : s.Idle) {n : Nat} (hn : n ≤ s.device.fdc.sense.length) :
    Gives (Env hw) (Prog.times (fun _ => do
      let _ ← fdcCmdSenseInterruptStatus
      pure ()) n) s ()
      (s.withFdc { s.device.fdc with sense := s.device.fdc.sense.drop n }) := by
  induction n with
  | zero => exact Gives.done hs.waiting.quiet
  | succ n ih =>
    apply (ih (Nat.le_of_succ_le hn)).bind
    have hidle : (s.withFdc { s.device.fdc with sense := s.device.fdc.sense.drop n }).Idle :=
      ⟨hs.mode, hs.irq, hs.phase⟩
    apply (gives_fdcCmdSenseInterruptStatus hidle (List.drop_eq_getElem_cons hn)).bind
    have hlast : (s.withFdc { s.device.fdc with sense := s.device.fdc.sense.drop (n + 1) }).Idle :=
      ⟨hs.mode, hs.irq, hs.phase⟩
    exact Gives.done hlast.waiting.quiet

theorem dorOn_zero (old : U8) : dorOn 0 old = 0x1C := if_pos rfl

theorem dorOn_one (old : U8) : dorOn 1 old = 0x2D := by
  rw [dorOn, if_neg (by decide), if_pos rfl]

theorem dorOff_zero (old : U8) : dorOff 0 old = 0x0C := if_pos rfl

theorem dorOff_one (old : U8) : dorOff 1 old = 0x0D := by
  rw [dorOff, if_neg (by decide), if_pos rfl]

theorem dorOff_eq {i : U8} (h : i = 0 ∨ i = 1) (x y : U8) : dorOff i x = dorOff i y := by
  rcases h with rfl | rfl
  · rw [dorOff_zero, dorOff_zero]
  · rw [dorOff_one, dorOff_one]

theorem motor_withDor_dorOn {i : U8} (h : i = 0 ∨ i = 1) (old : U8) :
    (s.withDor (dorOn i old)).Motor i := by
  rcases h with rfl | rfl
  · have hbit : (0x1C : U8).getLsbD (4 + (0 : U8).toNat) = true := by decide
    rw [dorOn_zero]
    exact ⟨hbit, rfl⟩
  · have hbit : (0x2D : U8).getLsbD (4 + (1 : U8).toNat) = true := by decide
    rw [dorOn_one]
    exact ⟨hbit, rfl⟩

theorem gives_recalibrateDrives {i : U8} {rest : List U8} {a : U8} {t : Platform} (hs : s.Idle)
    (hunit : i = 0 ∨ i = 1) (hintr : s.fdcIntr = false) (hsense : s.device.fdc.sense = [])
    (hrest : Gives (Env hw) (recalibrateDrives rest)
      ((s.atTrack0 i).withDor (dorOff i s.device.fdc.dor)) a t) :
    Gives (Env hw) (recalibrateDrives (i :: rest)) s a t := by
  have hon : (s.withDor (dorOn i s.device.fdc.dor)).Idle := ⟨hs.mode, hs.irq, hs.phase⟩
  apply (gives_fdcMotorOn hs i).bind
  apply (gives_fdcCmdRecalibrate hon (motor_withDor_dorOn hunit _) hintr hsense).bind
  rw [if_neg (not_not.mpr rfl)]
  have hat : ((s.withDor (dorOn i s.device.fdc.dor)).atTrack0 i).Idle := ⟨hs.mode, hs.irq, hs.phase⟩
  apply (gives_fdcMotorOff hat i).bind
  rw [dorOff_eq hunit _ s.device.fdc.dor]
  exact hrest

/-- The loop of `init_fdc`. -/
theorem gives_recalibrateBoth (hs : s.Idle) (hintr : s.fdcIntr = false)
    (hsense : s.device.fdc.sense = []) :
    Gives (Env hw) (recalibrateDrives [0, 1]) s fdcOk
      (((s.atTrack0 0).withDor 0x0C).atTrack0 1 |>.withDor 0x0D) := by
  have hfirst : ((s.atTrack0 0).withDor (dorOff 0 s.device.fdc.dor)).Idle :=
    ⟨hs.mode, hs.irq, hs.phase⟩
  apply gives_recalibrateDrives hs (.inl rfl) hintr hsense
  apply gives_recalibrateDrives hfirst (.inr rfl) hintr hsense
  refine Gives.done_of_eq ?_ ?_
  · exact Waiting.quiet ⟨hs.mode, hs.irq, .inl ⟨[], hs.phase⟩⟩
  · rw [dorOff_zero, dorOff_one]

theorem out_dor_reset (s : Platform) : s.out ioPortFdcDor 0x00 =
    s.withFdc { s.device.fdc with dor := 0x00, phase := .reset, autoSeek := false } := by
  change s.withFdc (s.device.fdc.outDor 0x00) = _
  rw [Controller.outDor, if_neg (by decide)]

theorem out_dor_release (hphase : s.device.fdc.phase = .reset) : s.out ioPortFdcDor fdcDorReset =
    s.withFdc { s.device.fdc with dor := fdcDorReset, phase := .leavesReset } := by
  change s.withFdc (s.device.fdc.outDor fdcDorReset) = _
  rw [Controller.outDor, if_pos (by decide), if_pos hphase]

def initialized (s : Platform) : Platform :=
  { s.withFdc { s.device.fdc with
      dor := 0x0D
      rate := 0x00
      phase := .command []
      sense := []
      cylinder := Function.update (Function.update s.device.fdc.cylinder 0 0) 1 0
      timing := (0xFF, 0x1E)
      autoSeek := true } with fdcIntr := false }

/-- `init_fdc` behind the reset. -/
def configureFdc : Io U8 := do
  Prog.times (fun _ => do
    let _ ← fdcCmdSenseInterruptStatus
    pure ()) 4
  ioOut8 ioPortFdcCcr fdcCcr500k
  let _ ← fdcCmdSpecify cmdSpecifyParamStepRate cmdSpecifyParamHeadUnloadTime
    cmdSpecifyParamHeadLoadTime cmdSpecifyParamDmaEnable
  let _ ← fdcEnableAutoSeek
  recalibrateDrives [0, 1]

theorem gives_configureFdc (hs : s.Idle) (hintr : s.fdcIntr = false)
    (hsense : s.device.fdc.sense.length = 4) :
    Gives (Env hw) configureFdc s fdcOk s.initialized := by
  have hsenses := @gives_senses hw s hs 4 (Nat.le_of_eq hsense.symm)
  rw [List.drop_eq_nil_of_le (Nat.le_of_eq hsense)] at hsenses
  apply hsenses.bind
  refine gives_ioOut8_then ?_ rfl ?_
  · exact ⟨hs.mode, hs.irq, .inl ⟨[], hs.phase⟩⟩
  refine (gives_fdcCmdSpecify ?_ _ _ _ _).bind ?_
  · exact ⟨hs.mode, hs.irq, hs.phase⟩
  refine (gives_fdcEnableAutoSeek ?_).bind ?_
  · exact ⟨hs.mode, hs.irq, hs.phase⟩
  refine (gives_recalibrateBoth ?_ ?_ ?_).of_eq ?_
  · exact ⟨hs.mode, hs.irq, hs.phase⟩
  · exact hintr
  · rfl
  have hphase := hs.phase
  clear hsenses
  obtain ⟨⟨⟨_, _, _, _, _, _, _, _, _, _⟩, _, _, _⟩, _, _, _, _⟩ := s
  cases hphase
  cases hintr
  rfl

/-- Whatever was in the flag and in the registers, `init_fdc` succeeds. -/
theorem gives_initFdc (hs : s.Waiting) (hready : accepts s.device.fdc.phase = true) :
    Gives (Env hw) initFdc s fdcOk s.initialized := by
  have hflag : ({ s with fdcIntr := false } : Platform).Waiting := ⟨hs.mode, hs.irq, hs.phase⟩
  apply (gives_setFdcIntr hs false).bind
  apply (gives_checkFdcDataReady hflag).bind
  rw [hready, if_neg Bool.true_eq_false.mp]
  apply gives_ioOut8_then hflag (out_dor_reset _)
  refine gives_ioOut8_then ?_ (out_dor_release rfl) ?_
  · exact ⟨hs.mode, hs.irq, .inr (.inr rfl)⟩
  -- the interrupt at the end of the reset
  refine (gives_waitFdcIntr_once ?_ rfl rfl rfl ?_).bind ?_
  · exact hs.irq
  · exact ⟨hs.mode, rfl, .inl ⟨[], rfl⟩⟩
  refine (gives_setFdcIntr ?_ false).bind ?_
  · exact ⟨hs.mode, rfl, .inl ⟨[], rfl⟩⟩
  refine (gives_configureFdc ?_ rfl rfl).of_eq ?_
  · exact ⟨hs.mode, rfl, rfl⟩
  have hirq := hs.irq
  obtain ⟨⟨_, _, _, _⟩, _, _, _, _⟩ := s
  cases hirq
  rfl

/-- While results are left to fetch, or in reset, it fails and sends nothing. -/
theorem gives_initFdc_notReady (hs : s.Waiting) (hready : accepts s.device.fdc.phase = false) :
    Gives (Env hw) initFdc s fdcErrorNotReady
      { s with fdcIntr := false, serial := s.serial ++ notReadyText } := by
  have hflag : ({ s with fdcIntr := false } : Platform).Waiting := ⟨hs.mode, hs.irq, hs.phase⟩
  have hlast : ({ s with fdcIntr := false, serial := s.serial ++ notReadyText } :
      Platform).Waiting := ⟨hs.mode, hs.irq, hs.phase⟩
  apply (gives_setFdcIntr hs false).bind
  apply (gives_checkFdcDataReady hflag).bind
  rw [hready, if_pos rfl]
  refine (Gives.act hflag.quiet ?_).bind (Gives.done ?_)
  · exact hlast.quiet
  · exact hlast.quiet

/-- `init_fdc` comes to an end in every interleaving, whatever a reset, an old interrupt or a command
sent halfway has left behind. -/
theorem initFdc_outcome (hs : s.Waiting) : Total (Env hw) initFdc s fun r t =>
    if accepts s.device.fdc.phase then r = fdcOk ∧ t = s.initialized
    else r = fdcErrorNotReady ∧
      t = { s with fdcIntr := false, serial := s.serial ++ notReadyText } := by
  apply Ends.total
  by_cases hready : accepts s.device.fdc.phase = true
  · apply Ends.mono (gives_initFdc hs hready)
    intro r t h
    rwa [if_pos hready]
  · apply Ends.mono (gives_initFdc_notReady hs (Bool.eq_false_of_not_eq_true hready))
    intro r t h
    rwa [if_neg hready]

/-- The controller as the boot leaves it: it waits for a command. -/
def fdcAtBoot : Platform where
  device := {
    fdc := ⟨true, true, 0x0C, 0, .command [], [], fun _ => 5, (0, 0), false, false⟩
    dma := ⟨false, 0, 0, 0, 0, 0, 0, true, false⟩
    mem := fun _ => 0
    irq := false }
  fdcIntr := true
  buf := ⟨0, fun _ => 0⟩
  wild := false
  serial := []

theorem fdcAtBoot_idle : fdcAtBoot.Idle := ⟨⟨rfl, rfl⟩, rfl, rfl⟩

theorem initFdc_outcome_atBoot : Total (Env ⟨fun _ => none, true⟩) initFdc fdcAtBoot fun r t =>
    if accepts fdcAtBoot.device.fdc.phase then r = fdcOk ∧ t = fdcAtBoot.initialized
    else r = fdcErrorNotReady ∧
      t = { fdcAtBoot with fdcIntr := false, serial := fdcAtBoot.serial ++ notReadyText } :=
  initFdc_outcome fdcAtBoot_idle.waiting

end Platform

end Uroboros
