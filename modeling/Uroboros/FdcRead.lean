import Uroboros.FdcRuns
import Uroboros.PageStore

/-!
# Reading sectors

`fdc_cmd_read_data` beside the controller, and the loop of `task_fdc` over the disk.
-/

set_option autoImplicit false

namespace Uroboros

open Driver Floppy Geometry ByteMemory

def written (mem : Mem) (a : Nat) (data : Nat → U8) (n : Nat) : Mem := fun x =>
  if a ≤ x.toNat ∧ x.toNat < a + n then data (x.toNat - a) else mem x

theorem written_zero (mem : Mem) (a : Nat) (data : Nat → U8) : written mem a data 0 = mem := by
  funext x
  exact if_neg (fun h => by omega)

theorem store8_written {mem : Mem} {a n : Nat} {data : Nat → U8} {x : U32} (hx : x.toNat = a + n) :
    store8 (written mem a data n) x (data n) = written mem a data (n + 1) := by
  funext y
  by_cases hy : y = x
  · subst y
    rw [store8_same, written, if_pos (by omega), hx, Nat.add_sub_cancel_left]
  · have hne : y.toNat ≠ a + n := fun h => hy (BitVec.eq_of_toNat_eq (h.trans hx.symm))
    rw [store8_ne _ _ hy, written, written]
    by_cases hin : a ≤ y.toNat ∧ y.toNat < a + n
    · rw [if_pos hin, if_pos (by omega)]
    · rw [if_neg hin, if_neg (by omega)]

namespace Platform

variable {hw : Hardware} {s : Platform} {drive cylinder head sector : U8} {phyAddr : BitVec 16}

def readBytes (drive cylinder head sector : U8) : List U8 :=
  [0x46, drive, cylinder, head, sector, 0x02, 18, 27, 0xFF]

def sectorFound (hw : Hardware) (drive cylinder head sector : U8) : Option (Nat → U8) :=
  if hw.checksHead ∧ head.toNat ≠ (drive >>> 2 &&& 1).toNat then none
  else if 18 < sector.toNat then none
  else (hw.disk drive).bind fun disk => disk ⟨cylinder.toNat, head.toNat, sector.toNat⟩

theorem source_readBytes {c : Controller} (hseek : c.autoSeek = true) (hunit : drive &&& 3 = drive)
    {i : Nat} (hi : i < 512) :
    (ReadCommand.ofBytes (readBytes drive cylinder head sector)).source hw c i =
      sectorFound hw drive cylinder head sector := by
  have hdiv : i / 512 = 0 := Nat.div_eq_of_lt hi
  have hplace : (ReadCommand.ofBytes (readBytes drive cylinder head sector)).place i =
      ⟨cylinder.toNat, head.toNat, sector.toNat⟩ := by
    change (⟨cylinder.toNat, head.toNat, sector.toNat + i / 512⟩ : Place) = _
    rw [hdiv, Nat.add_zero]
  have hdrive : (ReadCommand.ofBytes (readBytes drive cylinder head sector)).drive = drive := hunit
  unfold ReadCommand.source sectorFound
  rw [hplace, hdrive, if_neg (fun h : ¬ c.autoSeek = true ∧ _ => h.1 hseek)]
  rfl

/-- The device when `i` bytes have arrived. -/
def transferring (s : Platform) (drive cylinder head sector : U8) (phyAddr : BitVec 16)
    (data : Nat → U8) (i : Nat) : Device where
  fdc := { s.device.fdc with
    phase := .execution (readBytes drive cylinder head sector) i
    cylinder := if i = 0 then s.device.fdc.cylinder
      else Function.update s.device.fdc.cylinder drive cylinder }
  dma := { readChannel (phyAddr.setWidth 32) 511 with
    curAddr := phyAddr + BitVec.ofNat 16 i
    curCount := BitVec.ofNat 16 (511 - i) }
  mem := written s.device.mem phyAddr.toNat data i
  irq := false

theorem tick_readBytes (d : Device) {i : Nat} (hmotor : d.fdc.motor drive = true)
    (hunit : drive &&& 3 = drive)
    (hphase : d.fdc.phase = .execution (readBytes drive cylinder head sector) i) :
    tick hw d = d.readByte hw (readBytes drive cylinder head sector) i := by
  have hdrive : (ReadCommand.ofBytes (readBytes drive cylinder head sector)).drive = drive := hunit
  have hop : (ReadCommand.ofBytes (readBytes drive cylinder head sector)).op &&& 0x1F ≠ 0x07 :=
    (by decide : (0x46 : U8) &&& 0x1F ≠ 0x07)
  apply tick_readByte hphase _ hop
  rw [hdrive]
  exact hmotor

/-- What `fdc_cmd_read_data` relies on. -/
structure Readable (s : Platform) (drive : U8) (phyAddr : BitVec 16) : Prop where
  drive : drive = 0 ∨ drive = 1
  autoSeek : s.device.fdc.autoSeek = true
  flipFlop : s.device.dma.flipFlop = false
  room : phyAddr.toNat + 512 ≤ 65536

theorem Readable.unit (h : s.Readable drive phyAddr) : drive &&& 3 = drive := by
  rcases h.drive with rfl | rfl <;> rfl

section Found

variable {data : Nat → U8} {i : Nat}

theorem toNat_addr (hphys : phyAddr.toNat + 512 ≤ 65536) (hi : i < 512) :
    (transferring s drive cylinder head sector phyAddr data i).dma.addr.toNat =
      phyAddr.toNat + i := by
  have hpage : (((phyAddr.setWidth 32 >>> 16) &&& 0xFF).setWidth 8 : U8) = 0 := by
    have hlt := phyAddr.isLt
    apply BitVec.eq_of_toNat_eq
    rw [BitVec.toNat_setWidth, BitVec.toNat_and, BitVec.toNat_ushiftRight,
      BitVec.toNat_setWidth_of_le (by omega), Nat.shiftRight_eq_div_pow, Nat.div_eq_of_lt hlt,
      Nat.zero_and]
    rfl
  change ((0 : U8) ++ (((phyAddr.setWidth 32 >>> 16) &&& 0xFF).setWidth 8 : U8) ++
    (phyAddr + BitVec.ofNat 16 i)).toNat = _
  rw [hpage, BitVec.toNat_append, Nat.shiftLeft_eq]
  have hsum : (phyAddr + BitVec.ofNat 16 i).toNat = phyAddr.toNat + i := by
    rw [BitVec.toNat_add, BitVec.toNat_ofNat, Nat.mod_eq_of_lt (show i < 2 ^ 16 by omega),
      Nat.mod_eq_of_lt (by omega)]
  rw [hsum]
  exact Nat.zero_or _

theorem grants_transferring (hmode : s.device.fdc.PromptPs2) :
    let d := transferring s drive cylinder head sector phyAddr data i
    (d.fdc.connected && d.dma.grants) = true := by
  intro d
  have hconnected : d.fdc.connected = true := Controller.connected_of_ps2 hmode.2
  rw [hconnected]
  exact (by decide : (true && (!false && !false && ((0x56 : U8) >>> 2) &&& 3 == 1)) = true)

theorem transfer_transferring (hunit : drive &&& 3 = drive)
    (hphys : phyAddr.toNat + 512 ≤ 65536) (hi : i < 512) :
    let d := transferring s drive cylinder head sector phyAddr data i
    d.transfer (ReadCommand.ofBytes (readBytes drive cylinder head sector)) i data =
      { d with
        fdc := { d.fdc with cylinder := Function.update s.device.fdc.cylinder drive cylinder }
        dma := d.dma.advance
        mem := written s.device.mem phyAddr.toNat data (i + 1) } := by
  intro d
  have hdrive : (ReadCommand.ofBytes (readBytes drive cylinder head sector)).drive = drive := hunit
  have hmod : i % (ReadCommand.ofBytes (readBytes drive cylinder head sector)).sectorSize = i :=
    Nat.mod_eq_of_lt hi
  have hupdate : Function.update d.fdc.cylinder drive cylinder =
      Function.update s.device.fdc.cylinder drive cylinder := by
    change Function.update (if i = 0 then s.device.fdc.cylinder
      else Function.update s.device.fdc.cylinder drive cylinder) drive cylinder = _
    split
    · rfl
    · exact Function.update_idem ..
  rw [Device.transfer, hdrive, hmod, show (ReadCommand.ofBytes
    (readBytes drive cylinder head sector)).cylinder = cylinder from rfl, hupdate]
  exact congrArg (fun mem => ({ d with
    fdc := { d.fdc with cylinder := Function.update s.device.fdc.cylinder drive cylinder }
    dma := d.dma.advance
    mem } : Device)) (store8_written (toNat_addr hphys hi))

theorem tick_transferring (h : s.Readable drive phyAddr) (hmode : s.device.fdc.PromptPs2)
    (hmotor : s.device.fdc.motor drive = true)
    (hfound : sectorFound hw drive cylinder head sector = some data) (hi : i < 511) :
    tick hw (transferring s drive cylinder head sector phyAddr data i) =
      some (transferring s drive cylinder head sector phyAddr data (i + 1)) := by
  have hcount : BitVec.ofNat 16 (511 - i) ≠ 0 := by
    intro hzero
    have hnat := congrArg BitVec.toNat hzero
    rw [BitVec.toNat_ofNat, Nat.mod_eq_of_lt (by omega)] at hnat
    change 511 - i = 0 at hnat
    omega
  have hsource := @source_readBytes hw drive cylinder head sector
    (transferring s drive cylinder head sector phyAddr data i).fdc h.autoSeek h.unit i (by omega)
  rw [hfound] at hsource
  have hread : tick hw (transferring s drive cylinder head sector phyAddr data i) = _ :=
    (tick_readBytes (transferring s drive cylinder head sector phyAddr data i) hmotor h.unit
      rfl).trans (readByte_of_ne hsource (grants_transferring hmode) hcount)
  have hup : (transferring s drive cylinder head sector phyAddr data i).dma.mode.getLsbD 5 = false :=
    (by decide : (0x56 : U8).getLsbD 5 = false)
  have haddr : phyAddr + BitVec.ofNat 16 i + 1 = phyAddr + BitVec.ofNat 16 (i + 1) := by
    rw [BitVec.ofNat_add, BitVec.add_assoc]
    rfl
  have hleft : BitVec.ofNat 16 (511 - i) - 1 = BitVec.ofNat 16 (511 - (i + 1)) := by
    rw [show 511 - i = 511 - (i + 1) + 1 by omega, BitVec.ofNat_add]
    exact BitVec.add_sub_cancel ..
  rw [hread, transfer_transferring h.unit h.room (by omega), Channel.advance_of_ne hcount hup,
    transferring, transferring, ← haddr, ← hleft, if_neg (Nat.succ_ne_zero i)]

/-- The device after the last byte; the channel is set up for the same transfer again. -/
def transferred (s : Platform) (drive cylinder head sector : U8) (phyAddr : BitVec 16)
    (data : Nat → U8) : Device where
  fdc := { s.device.fdc with
    phase := .result ((ReadCommand.ofBytes (readBytes drive cylinder head sector)).result 0 0)
    cylinder := Function.update s.device.fdc.cylinder drive cylinder }
  dma := readChannel (phyAddr.setWidth 32) 511
  mem := written s.device.mem phyAddr.toNat data 512
  irq := true

theorem tick_last (h : s.Readable drive phyAddr) (hmode : s.device.fdc.PromptPs2)
    (hmotor : s.device.fdc.motor drive = true)
    (hfound : sectorFound hw drive cylinder head sector = some data) :
    tick hw (transferring s drive cylinder head sector phyAddr data 511) =
      some (transferred s drive cylinder head sector phyAddr data) := by
  have hsource := @source_readBytes hw drive cylinder head sector
    (transferring s drive cylinder head sector phyAddr data 511).fdc h.autoSeek h.unit 511
    (by decide)
  rw [hfound] at hsource
  have hread : tick hw (transferring s drive cylinder head sector phyAddr data 511) = _ :=
    (tick_readBytes (transferring s drive cylinder head sector phyAddr data 511) hmotor h.unit
      rfl).trans (readByte_of_eq hsource (grants_transferring hmode) rfl)
  have hauto : (transferring s drive cylinder head sector phyAddr data 511).dma.mode.getLsbD 4 =
      true := (by decide : (0x56 : U8).getLsbD 4 = true)
  rw [hread, transfer_transferring h.unit h.room (by decide), Channel.advance_of_eq rfl hauto]
  rfl

theorem gives_waitFdcIntr_transfer (h : s.Readable drive phyAddr)
    (hmode : s.device.fdc.PromptPs2) (hmotor : s.device.fdc.motor drive = true)
    (hintr : s.fdcIntr = false)
    (hfound : sectorFound hw drive cylinder head sector = some data) :
    Gives (Env hw) waitFdcIntr
      { s with device := transferring s drive cylinder head sector phyAddr data 0 } ()
      { s with
        device := { transferred s drive cylinder head sector phyAddr data with irq := false }
        fdcIntr := true } := by
  let t : Nat → Platform := fun i =>
    if i ≤ 511 then { s with device := transferring s drive cylinder head sector phyAddr data i }
    else if i = 512 then { s with device := transferred s drive cylinder head sector phyAddr data }
    else { s with
      device := { transferred s drive cylinder head sector phyAddr data with irq := false }
      fdcIntr := true }
  have hbytes : ∀ i ≤ 511, t i =
      { s with device := transferring s drive cylinder head sector phyAddr data i } :=
    fun i hi => if_pos hi
  have hresult : t 512 =
      { s with device := transferred s drive cylinder head sector phyAddr data } := rfl
  have hlast : t 513 = { s with
      device := { transferred s drive cylinder head sector phyAddr data with irq := false }
      fdcIntr := true } := rfl
  have hrun : Gives (Env hw) (.await fdcIntr (.done ()) : Io Unit) (t 0) () (t 513) := by
    apply Gives.await
    · intro i hi u
      rcases Nat.lt_trichotomy i 511 with hlt | rfl | hgt
      · rw [hbytes i (by omega), hbytes (i + 1) hlt]
        exact env_iff_tick rfl (tick_transferring h hmode hmotor hfound hlt) u
      · rw [hbytes 511 (Nat.le_refl _), hresult]
        exact env_iff_tick rfl (tick_last h hmode hmotor hfound) u
      · have heq : i = 512 := by omega
        subst i
        rw [hresult, hlast]
        exact env_iff_interrupt (s := { s with
          device := transferred s drive cylinder head sector phyAddr data }) rfl hmode rfl u
    · intro i hi
      rcases Nat.lt_or_ge 511 i with hgt | hle
      · have heq : i = 512 := by omega
        subst i
        exact hintr
      · rw [hbytes i hle]
        exact hintr
    · rw [hlast]
      exact Waiting.quiet ⟨hmode, rfl, .inr (.inl ⟨_, rfl⟩)⟩
    · rfl
  rwa [hbytes 0 (by decide), hlast] at hrun

end Found

/-- The end of `fdc_cmd_read_data`, whatever the result bytes say. -/
def readTail (drive : U8) : Io U8 := do
  setFdcIntr false
  let _ ← fdcReadStatus 7
  fdcMotorOff drive
  pure fdcOk

theorem gives_readTail {bytes : List U8} (hmode : s.device.fdc.PromptPs2)
    (hirq : s.device.irq = false)
    (hphase : s.device.fdc.phase = .result bytes) (hlen : bytes.length = 7) :
    Gives (Env hw) (readTail drive) s fdcOk
      { s.withFdc { s.device.fdc with
          phase := .command []
          dor := dorOff drive s.device.fdc.dor } with fdcIntr := false } := by
  have hfetch : fetching bytes = .result bytes := by
    cases bytes with
    | nil => cases hlen
    | cons _ _ => rfl
  refine (gives_setFdcIntr ?_ false).bind ?_
  · exact ⟨hmode, hirq, .inr (.inl ⟨_, hphase⟩)⟩
  rw [← hlen]
  apply (@gives_fdcReadStatus hw { s with fdcIntr := false } bytes hmode hirq
    (hphase.trans hfetch.symm)).bind
  refine (gives_fdcMotorOff ?_ drive).bind ?_
  · exact ⟨hmode, hirq, rfl⟩
  exact Gives.done (Waiting.quiet ⟨hmode, hirq, .inl ⟨[], rfl⟩⟩)

/-- The state that `fdc_cmd_read_data` leaves; without a sector it leaves memory as it was. -/
def afterRead (s : Platform) (hw : Hardware) (drive : U8) (phyAddr : BitVec 16)
    (cylinder head sector : U8) : Platform :=
  let found := sectorFound hw drive cylinder head sector
  { s with
    device := {
      fdc := { s.device.fdc with
        dor := dorOff drive s.device.fdc.dor
        phase := .command []
        cylinder := if found.isSome then Function.update s.device.fdc.cylinder drive cylinder
          else s.device.fdc.cylinder }
      dma := readChannel (phyAddr.setWidth 32) 511
      mem := match found with
        | none => s.device.mem
        | some data => written s.device.mem phyAddr.toNat data 512
      irq := false }
    fdcIntr := false }

def readStart (s : Platform) (drive : U8) (phyAddr : BitVec 16) : Platform :=
  { (s.withDma (readChannel (phyAddr.setWidth 32) 511)).withDor
      (dorOn drive s.device.fdc.dor) with fdcIntr := false }

theorem readable_readStart (h : s.Readable drive phyAddr) :
    (readStart s drive phyAddr).Readable drive phyAddr :=
  ⟨h.drive, h.autoSeek, rfl, h.room⟩

theorem executing_readStart (hs : s.Idle) (data : Nat → U8) :
    (readStart s drive phyAddr).executing (readBytes drive cylinder head sector) =
      { readStart s drive phyAddr with
        device := transferring (readStart s drive phyAddr) drive cylinder head sector phyAddr
          data 0 } := by
  have haddr : phyAddr + BitVec.ofNat 16 0 = (phyAddr.setWidth 32).setWidth 16 := by
    rw [BitVec.setWidth_setWidth_of_le phyAddr (by decide), BitVec.setWidth_eq]
    exact BitVec.add_zero phyAddr
  have hirq : (readStart s drive phyAddr).device.irq = false := hs.irq
  rw [transferring, written_zero, haddr, ← hirq]
  rfl

theorem gives_fdcCmdReadData (hs : s.Idle) (h : s.Readable drive phyAddr) :
    Gives (Env hw) (fdcCmdReadData drive phyAddr cylinder head sector) s fdcOk
      (s.afterRead hw drive phyAddr cylinder head sector) := by
  have hprog : fdcCmdReadData drive phyAddr cylinder head sector = (do
      dmaInitForFdRead 2 (phyAddr.setWidth 32) 511
      fdcMotorOn drive
      setFdcIntr false
      outs (toData [0x46, drive, cylinder, head, sector, 0x02, 18, 27])
      ioOut8 ioPortFdcData 0xFF
      waitFdcIntr
      readTail drive) := rfl
  have hstart : (readStart s drive phyAddr).Idle := ⟨hs.mode, hs.irq, hs.phase⟩
  have hmotor : (readStart s drive phyAddr).device.fdc.motor drive = true :=
    (@motor_withDor_dorOn s drive h.drive s.device.fdc.dor).motor
  rw [hprog]
  apply (gives_dmaInitForFdRead hs.waiting h.flipFlop _ _).bind
  refine (gives_fdcMotorOn ?_ drive).bind ?_
  · exact ⟨hs.mode, hs.irq, hs.phase⟩
  refine (gives_setFdcIntr ?_ false).bind ?_
  · exact ⟨hs.mode, hs.irq, .inl ⟨_, hs.phase⟩⟩
  obtain ⟨hwaits, hfold⟩ := @waitsFor_bytes (readStart s drive phyAddr) 0x46
    [drive, cylinder, head, sector, 0x02, 18, 27] hstart
    (by decide : 7 + 1 < Controller.commandLength 0x46)
  refine (gives_outs hwaits).bind ?_
  rw [hfold]
  have hexec : ((readStart s drive phyAddr).withFdc { (readStart s drive phyAddr).device.fdc with
      phase := .command [0x46, drive, cylinder, head, sector, 0x02, 18, 27] }).out ioPortFdcData 0xFF =
        (readStart s drive phyAddr).executing (readBytes drive cylinder head sector) :=
    (@out_data_of_le _ [0x46, drive, cylinder, head, sector, 0x02, 18, 27] 0xFF rfl
      (show Controller.commandLength 0x46 ≤ 9 by decide)).trans
      (congrArg (readStart s drive phyAddr).withFdc (start_readData _ _))
  refine gives_ioOut8_then ?_ hexec ?_
  · exact ⟨hs.mode, hs.irq, .inl ⟨_, rfl⟩⟩
  unfold afterRead
  cases hfound : sectorFound hw drive cylinder head sector with
  | none =>
    have hsource := @source_readBytes hw drive cylinder head sector
      ((readStart s drive phyAddr).executing (readBytes drive cylinder head sector)).device.fdc
      h.autoSeek h.unit 0 (by decide)
    rw [hfound] at hsource
    have htick : tick hw ((readStart s drive phyAddr).executing
        (readBytes drive cylinder head sector)).device = _ :=
      (tick_readBytes ((readStart s drive phyAddr).executing
        (readBytes drive cylinder head sector)).device hmotor h.unit rfl).trans
        (readByte_of_none hsource)
    refine (gives_waitFdcIntr_once ?_ rfl htick rfl ?_).bind ?_
    · exact hs.irq
    · exact ⟨hs.mode, rfl, .inr (.inl ⟨_, rfl⟩)⟩
    refine Gives.of_eq (gives_readTail hs.mode rfl rfl rfl) ?_
    rw [dorOff_eq h.drive s.device.fdc.dor (dorOn drive s.device.fdc.dor)]
    rfl
  | some data =>
    rw [executing_readStart hs data]
    apply (gives_waitFdcIntr_transfer (readable_readStart h) hs.mode hmotor rfl hfound).bind
    refine Gives.of_eq (gives_readTail hs.mode rfl rfl rfl) ?_
    rw [dorOff_eq h.drive s.device.fdc.dor (dorOn drive s.device.fdc.dor)]
    rfl

end Platform

/-- `map_memory_4k((PDE *)KERNEL_PDT, FD_BUFFER_V, FD_BUFFER_P)`. -/
def mapFdBuffer : Io Unit :=
  .act (fun s => { s with device := { s.device with
    mem := mapMemory4k s.device.mem kernelPdt fdBufferV fdBufferP } }) (.done ())

/-- What the processor reads at `FD_BUFFER_V + i`. -/
def Platform.fdBufferByte (s : Platform) (i : Nat) : Option U8 :=
  (walk s.device.mem kernelPdt (fdBufferV + BitVec.ofNat 32 i)).map s.device.mem

/-- `memcpy(buf + cnt, (uint8_t *)FD_BUFFER_V, 512)`. -/
def copySector (cnt : U32) : Io Unit :=
  .act (fun s => { s with
    buf := { s.buf with
      data := fun i => if cnt.toNat ≤ i ∧ i < cnt.toNat + 512
        then (s.fdBufferByte (i - cnt.toNat)).getD 0 else s.buf.data i }
    wild := s.wild || decide (s.buf.size < cnt.toNat + 512) ||
      (List.range 512).any fun i => (s.fdBufferByte i).isNone }) (.done ())

/-- The pass of the innermost loop; sectors count from 1. -/
def taskFdcPass (c h s : Nat) (cnt : U32) : Io U32 := do
  let _ ← fdcCmdReadData fdDrive1 (fdBufferP.setWidth 16) (BitVec.ofNat 8 c) (BitVec.ofNat 8 h)
    (BitVec.ofNat 8 s)
  copySector cnt
  pure (cnt + BitVec.ofNat 32 fdSectorSize)

def fdSize : Nat := fdSectorSize * fdCylinders * fdHeads * fdSectors

/-- `task_fdc` up to the end of its loops; `report` is the text about the result of `init_fdc`, and
`kvmalloc` gives `buf`. -/
def taskFdc (report : U8 → List U8) (kvmalloc : Nat → Platform → Platform) : Io U32 := do
  let result ← initFdc
  serialPutstr (report result)
  Prog.act (kvmalloc fdSize) (.done ())
  mapFdBuffer
  Prog.fold (fun c => Prog.fold (fun h => Prog.fold (fun i => taskFdcPass c h (i + 1))
    fdSectors) fdHeads) fdCylinders 0

def fdFormat : Format := ⟨fdHeads, fdSectors, by decide, by decide⟩

/-- `calc_chs` of `fdc.c`. -/
def calcChs (lba : U32) : BitVec 16 × BitVec 16 × BitVec 16 :=
  ((lba / (2 * 18)).setWidth 16, ((lba / 18) % 2).setWidth 16, ((lba % 18) + 1).setWidth 16)

/-- The entries of `FD_BUFFER_V` lead to `FD_BUFFER_P`. -/
structure Window (mem : Mem) : Prop where
  pde : load32 mem (pdeAddr fdBufferV) = presentEntry (ptAddr fdBufferV)
  pte : load32 mem (pteAddr fdBufferV) = presentEntry fdBufferP

theorem window_mapMemory4k (mem : Mem) :
    Window (mapMemory4k mem kernelPdt fdBufferV fdBufferP) := by
  constructor
  · rw [load_pde_mapMemory4k, if_pos rfl]
  · rw [load_pte_mapMemory4k, if_pos rfl]

theorem Window.congr {mem mem' : Mem} (h : Window mem) (agree : ∀ x, InTables x → mem x = mem' x) :
    Window mem' :=
  ⟨(load_pde_congr agree _).symm.trans h.pde, (load_pte_congr agree _).symm.trans h.pte⟩

theorem Window.written {mem : Mem} (h : Window mem) {a n : Nat} (ha : a + n ≤ 0x500000)
    (data : Nat → U8) : Window (written mem a data n) := by
  apply h.congr
  rintro x ⟨hlo, -⟩
  exact (if_neg (fun hx => by omega)).symm

theorem Window.walk {mem : Mem} (h : Window mem) {i : Nat} (hi : i < 4096) :
    walk mem kernelPdt (fdBufferV + BitVec.ofNat 32 i) = some (fdBufferP + BitVec.ofNat 32 i) := by
  have hbase : fdBufferV.toNat = 0xB01000 := rfl
  have haddr : (fdBufferV + BitVec.ofNat 32 i).toNat = 0xB01000 + i := by bv_omega
  have hpage : pageNumber (fdBufferV + BitVec.ofNat 32 i) = pageNumber fdBufferV := by
    apply BitVec.eq_of_toNat_eq
    rw [toNat_pageNumber, toNat_pageNumber, haddr, hbase]
    omega
  have hpde := pdeAddr_congr hpage
  have hpte := (pteAddr_eq_iff _ _).mpr hpage
  have hentry : presentEntry (ptAddr fdBufferV) &&& pdePtAddr = ptAddr fdBufferV :=
    (presentEntry_frame _).trans (ptAddr_frame _)
  have hpresent : presentEntry (ptAddr fdBufferV) &&& pdeP = 1 := presentEntry_present _
  have hcell : ptAddr fdBufferV + 4#32 * (((fdBufferV + BitVec.ofNat 32 i) >>> 12) &&& 0x3ff#32) =
      pteAddr fdBufferV := by
    rw [← ptAddr_congr hpde]
    exact hpte
  rw [walk_unfold, hpde, h.pde, hpresent, if_neg (by decide), hentry, hcell, h.pte,
    entryTarget_present]
  apply congrArg some
  apply BitVec.eq_of_toNat_eq
  rw [frameAddr_or_offset, haddr]
  unfold fdBufferP
  bv_omega

namespace Platform

variable {hw : Hardware} {s : Platform}

/-- What `task_fdc` relies on in `kvmalloc`: the block has the size that was asked for, and nothing
happens to the controller. -/
structure Allocates (kvmalloc : Nat → Platform → Platform) : Prop where
  size : ∀ n s, (kvmalloc n s).buf.size = n
  wild : ∀ n s, (kvmalloc n s).wild = s.wild
  fdc : ∀ n s, (kvmalloc n s).device.fdc = s.device.fdc
  dma : ∀ n s, (kvmalloc n s).device.dma = s.device.dma
  irq : ∀ n s, (kvmalloc n s).device.irq = s.device.irq

/-- The drive holds a disk, with all its sectors. -/
def Inserted (hw : Hardware) (disk : Place → Nat → U8) : Prop :=
  ∃ d, hw.disk fdDrive1 = some d ∧
    ∀ x, fdFormat.Valid x → x.cylinder < fdCylinders → d x = some (disk x)

/-- The sector that arrives for the sector number `k`: a controller that checks the head never
finds the second side, and the last sector of the first is copied again. -/
def arriving (hw : Hardware) (k : Nat) : Place :=
  let x := fdFormat.place k
  if hw.checksHead ∧ x.head ≠ 0 then ⟨x.cylinder, 0, fdSectors⟩ else x

structure Copied (hw : Hardware) (disk : Place → Nat → U8) (start : Platform) (k : Nat) (cnt : U32)
    (s : Platform) : Prop where
  idle : s.Idle
  autoSeek : s.device.fdc.autoSeek = true
  flipFlop : s.device.dma.flipFlop = false
  fault : s.device.fdc.fault = start.device.fdc.fault
  wild : s.wild = start.wild
  mapped : Window s.device.mem
  cnt : cnt = BitVec.ofNat 32 (k * fdSectorSize)
  window : 0 < k → ∀ i < fdSectorSize, s.device.mem (fdBufferP + BitVec.ofNat 32 i) =
    disk (arriving hw (k - 1)) i
  size : s.buf.size = fdSize
  buf : ∀ j < k, ∀ i < fdSectorSize, s.buf.data (j * fdSectorSize + i) = disk (arriving hw j) i

variable {disk : Place → Nat → U8} {start : Platform} {k : Nat} {cnt : U32}

theorem place_bounds (hk : k < fdCylinders * (fdHeads * fdSectors)) :
    fdFormat.Valid (fdFormat.place k) ∧ (fdFormat.place k).cylinder < fdCylinders :=
  ⟨fdFormat.place_valid k, Nat.div_lt_of_lt_mul (by rwa [Nat.mul_comm])⟩

theorem sectorFound_place (hdisk : Inserted hw disk) (hk : k < fdCylinders * (fdHeads * fdSectors)) :
    sectorFound hw fdDrive1 (BitVec.ofNat 8 (fdFormat.place k).cylinder)
      (BitVec.ofNat 8 (fdFormat.place k).head) (BitVec.ofNat 8 (fdFormat.place k).sector) =
        if hw.checksHead ∧ (fdFormat.place k).head ≠ 0 then none
        else some (disk (fdFormat.place k)) := by
  obtain ⟨d, hdrive, hsector⟩ := hdisk
  obtain ⟨hvalid, hcylinder⟩ := place_bounds hk
  have hbyte : ∀ n < 80, (BitVec.ofNat 8 n).toNat = n := by
    intro n hn
    rw [BitVec.toNat_ofNat, Nat.mod_eq_of_lt (by omega)]
  have hhead : (fdFormat.place k).head < 2 := hvalid.head
  have hlast : (fdFormat.place k).sector ≤ 18 := hvalid.sector
  have hzero : (fdDrive1 >>> 2 &&& 1).toNat = 0 := rfl
  rw [sectorFound, hbyte _ hcylinder, hbyte _ (by omega), hbyte _ (by omega), hzero,
    if_neg (by omega : ¬ 18 < (fdFormat.place k).sector), hdrive]
  split
  · rfl
  · exact hsector _ hvalid hcylinder

theorem arriving_pred (hcheck : hw.checksHead = true) (hhead : (fdFormat.place k).head ≠ 0) :
    0 < k ∧ arriving hw (k - 1) = arriving hw k := by
  change k / 18 % 2 ≠ 0 at hhead
  have hpos : 0 < k := by omega
  refine ⟨hpos, ?_⟩
  have hnow : arriving hw k = ⟨k / 36, 0, 18⟩ := if_pos ⟨hcheck, hhead⟩
  have hcylinder : (k - 1) / 36 = k / 36 := by omega
  rw [hnow, ← hcylinder]
  by_cases hbefore : (k - 1) / 18 % 2 = 0
  · have hsector : (k - 1) % 18 + 1 = 18 := by omega
    have hfirst : arriving hw (k - 1) = fdFormat.place (k - 1) := if_neg fun h => h.2 hbefore
    rw [hfirst]
    exact Place.ext rfl hbefore hsector
  · exact if_pos ⟨hcheck, hbefore⟩

/-- What stands at `FD_BUFFER_P` after the sector number `k` has been asked for. -/
theorem window_afterRead (hdisk : Inserted hw disk) (hk : k < fdCylinders * (fdHeads * fdSectors))
    (h : Copied hw disk start k cnt s) {i : Nat} (hi : i < fdSectorSize) :
    (s.afterRead hw fdDrive1 (fdBufferP.setWidth 16) (BitVec.ofNat 8 (fdFormat.place k).cylinder)
      (BitVec.ofNat 8 (fdFormat.place k).head) (BitVec.ofNat 8 (fdFormat.place k).sector)).device.mem
        (fdBufferP + BitVec.ofNat 32 i) = disk (arriving hw k) i := by
  have hi512 : i < 512 := hi
  unfold afterRead
  dsimp only
  rw [sectorFound_place hdisk hk]
  by_cases hside : hw.checksHead ∧ (fdFormat.place k).head ≠ 0
  · obtain ⟨hpos, hsame⟩ := arriving_pred hside.1 hside.2
    rw [if_pos hside, ← hsame]
    exact h.window hpos i hi
  · have hnow : arriving hw k = fdFormat.place k := if_neg hside
    have haddr : (fdBufferP + BitVec.ofNat 32 i).toNat = i := by
      unfold fdBufferP
      bv_omega
    have hbase : (fdBufferP.setWidth 16 : BitVec 16).toNat = 0 := rfl
    rw [if_neg hside, hnow]
    dsimp only
    rw [written, haddr, hbase, if_pos (by omega), Nat.sub_zero]

theorem mapped_afterRead (h : Window s.device.mem) (c hd i : U8) :
    Window (s.afterRead hw fdDrive1 (fdBufferP.setWidth 16) c hd i).device.mem := by
  have hbase : (fdBufferP.setWidth 16 : BitVec 16).toNat = 0 := rfl
  unfold afterRead
  dsimp only
  split
  · exact h
  · rw [hbase]
    exact h.written (by decide) _

def withSector (s : Platform) (cnt : U32) : Platform :=
  { s with
    buf := { s.buf with
      data := fun i => if cnt.toNat ≤ i ∧ i < cnt.toNat + 512
        then s.device.mem (fdBufferP + BitVec.ofNat 32 (i - cnt.toNat)) else s.buf.data i } }

theorem gives_copySector (hs : s.Waiting) (h : Window s.device.mem)
    (hroom : cnt.toNat + 512 ≤ s.buf.size) :
    Gives (Env hw) (copySector cnt) s () (s.withSector cnt) := by
  have hsrc : ∀ i < 512, s.fdBufferByte i =
      some (s.device.mem (fdBufferP + BitVec.ofNat 32 i)) := by
    intro i hi
    rw [fdBufferByte, h.walk (by omega), Option.map_some]
  have hmapped : ((List.range 512).any fun i => (s.fdBufferByte i).isNone) = false := by
    rw [List.any_eq_false]
    intro i hi
    rw [hsrc i (List.mem_range.mp hi), Option.isNone_some]
    exact Bool.false_ne_true
  have hdata : ∀ i, (if cnt.toNat ≤ i ∧ i < cnt.toNat + 512
      then (s.fdBufferByte (i - cnt.toNat)).getD 0 else s.buf.data i) =
        if cnt.toNat ≤ i ∧ i < cnt.toNat + 512
          then s.device.mem (fdBufferP + BitVec.ofNat 32 (i - cnt.toNat)) else s.buf.data i := by
    intro i
    split
    · rename_i hi
      rw [hsrc _ (by omega), Option.getD_some]
    · rfl
  refine (Gives.act hs.quiet ?_).of_eq ?_
  · exact Waiting.quiet ⟨hs.mode, hs.irq, hs.phase⟩
  · rw [hmapped, decide_eq_false (Nat.not_lt.mpr hroom), Bool.or_false, Bool.or_false]
    exact congrArg (fun data => ({ s with buf := { s.buf with data } } : Platform)) (funext hdata)

theorem gives_taskFdcPass (h : Copied hw disk start k cnt s)
    (hroom : cnt.toNat + 512 ≤ s.buf.size) (c hd i : Nat) :
    Gives (Env hw) (taskFdcPass c hd i cnt) s (cnt + 512)
      ((s.afterRead hw fdDrive1 (fdBufferP.setWidth 16) (BitVec.ofNat 8 c) (BitVec.ofNat 8 hd)
        (BitVec.ofNat 8 i)).withSector cnt) := by
  have hready : s.Readable fdDrive1 (fdBufferP.setWidth 16) :=
    ⟨.inr rfl, h.autoSeek, h.flipFlop, by decide⟩
  refine (gives_fdcCmdReadData h.idle hready).bind ?_
  refine (gives_copySector ?_ (mapped_afterRead h.mapped _ _ _) hroom).bind (Gives.done ?_)
  · exact ⟨h.idle.mode, rfl, .inl ⟨[], rfl⟩⟩
  · exact Waiting.quiet ⟨h.idle.mode, rfl, .inl ⟨[], rfl⟩⟩

theorem Copied.pass (hdisk : Inserted hw disk) (hk : k < fdCylinders * (fdHeads * fdSectors))
    (h : Copied hw disk start k cnt s) {c hd i : Nat} (hplace : fdFormat.place k = ⟨c, hd, i⟩) :
    Ends (Env hw) (fun d u => Copied hw disk start (k + 1) d u) (taskFdcPass c hd i cnt) s := by
  have hlimit : fdCylinders * (fdHeads * fdSectors) = 2880 := rfl
  have hsize : fdSectorSize = 512 := rfl
  have hwindow := fun i hi => @window_afterRead hw s disk start k cnt hdisk hk h i hi
  rw [hplace] at hwindow
  have hcnt : cnt.toNat = k * 512 := by
    rw [h.cnt, BitVec.toNat_ofNat, hsize, Nat.mod_eq_of_lt (by omega)]
  have hroom : cnt.toNat + 512 ≤ s.buf.size := by
    have htotal : fdSize = 1474560 := rfl
    rw [h.size]
    omega
  apply (gives_taskFdcPass h hroom c hd i).ends
  refine ⟨⟨h.idle.mode, rfl, rfl⟩, h.autoSeek, rfl, h.fault, h.wild,
    mapped_afterRead h.mapped _ _ _, ?_, fun _ => hwindow, h.size, ?_⟩
  · rw [h.cnt, Nat.succ_mul, BitVec.ofNat_add]
    rfl
  · intro j hj i hi
    unfold withSector
    dsimp only
    rcases Nat.lt_succ_iff_lt_or_eq.mp hj with hlt | rfl
    · have hbefore : j * fdSectorSize + i < cnt.toNat := by
        rw [hsize] at hi ⊢
        omega
      rw [if_neg (by omega)]
      exact h.buf j hlt i hi
    · have hhere : j * fdSectorSize + i = cnt.toNat + i := by rw [hsize, hcnt]
      rw [hhere, if_pos (by omega), Nat.add_sub_cancel_left]
      exact hwindow i hi

/-- The loops go through the sectors in the order of their numbers. -/
theorem place_of_loops {c hd i : Nat} (hh : hd < fdHeads) (hi : i < fdSectors) :
    fdFormat.place ((c * fdHeads + hd) * fdSectors + i) = ⟨c, hd, i + 1⟩ := by
  have hvalid : fdFormat.Valid ⟨c, hd, i + 1⟩ := ⟨hh, Nat.succ_pos i, hi⟩
  have hplace := Format.place_number hvalid
  rwa [Format.number, Nat.add_sub_cancel] at hplace

theorem Copied.track (hdisk : Inserted hw disk) {c hd : Nat} (hc : c < fdCylinders)
    (hh : hd < fdHeads) (h : Copied hw disk start ((c * fdHeads + hd) * fdSectors) cnt s) :
    Ends (Env hw) (fun d u => Copied hw disk start ((c * fdHeads + (hd + 1)) * fdSectors) d u)
      (Prog.fold (fun i => taskFdcPass c hd (i + 1)) fdSectors cnt) s := by
  rw [← Nat.add_assoc, Nat.succ_mul]
  apply Ends.fold (fun i => Copied hw disk start ((c * fdHeads + hd) * fdSectors + i))
    h.idle.waiting.quiet h
  intro i d t hi ht
  have hplace := @place_of_loops c hd i hh hi
  have hk : (c * fdHeads + hd) * fdSectors + i < fdCylinders * (fdHeads * fdSectors) := by
    unfold fdHeads fdSectors fdCylinders at *
    omega
  exact ht.pass hdisk hk hplace

theorem Copied.cylinder (hdisk : Inserted hw disk) {c : Nat} (hc : c < fdCylinders)
    (h : Copied hw disk start (c * (fdHeads * fdSectors)) cnt s) :
    Ends (Env hw) (fun d u => Copied hw disk start ((c + 1) * (fdHeads * fdSectors)) d u)
      (Prog.fold (fun hd => Prog.fold (fun i => taskFdcPass c hd (i + 1)) fdSectors) fdHeads cnt)
      s := by
  rw [← Nat.mul_assoc] at h
  rw [← Nat.mul_assoc, Nat.succ_mul c]
  apply Ends.fold (fun hd => Copied hw disk start ((c * fdHeads + hd) * fdSectors))
    h.idle.waiting.quiet h
  intro hd d t hh ht
  exact ht.track hdisk hc hh

theorem Copied.loops (hdisk : Inserted hw disk) (h : Copied hw disk start 0 cnt s) :
    Ends (Env hw) (fun d u => Copied hw disk start (fdCylinders * (fdHeads * fdSectors)) d u)
      (Prog.fold (fun c => Prog.fold (fun hd => Prog.fold (fun i => taskFdcPass c hd (i + 1))
        fdSectors) fdHeads) fdCylinders cnt) s := by
  rw [← Nat.zero_mul (fdHeads * fdSectors)] at h
  apply Ends.fold (fun c => Copied hw disk start (c * (fdHeads * fdSectors)))
    h.idle.waiting.quiet h
  intro c d t hc ht
  exact ht.cylinder hdisk hc

/-- In every interleaving `fdc_cmd_read_data` comes to an end and reports success. The sector has
arrived if the controller finds it; else memory is as it was. -/
theorem fdcCmdReadData_outcome (hs : s.Idle) {drive : U8} {phyAddr : BitVec 16}
    (h : s.Readable drive phyAddr) (cylinder head sector : U8) :
    Total (Env hw) (fdcCmdReadData drive phyAddr cylinder head sector) s fun r t =>
      r = fdcOk ∧ t = s.afterRead hw drive phyAddr cylinder head sector :=
  (gives_fdcCmdReadData hs h).total

def secondDrive (checksHead : Bool) : Hardware where
  disk drive :=
    if drive = fdDrive1 then some fun x => some fun _ => BitVec.ofNat 8 (fdFormat.number x)
    else none
  checksHead := checksHead

theorem inserted_secondDrive (checksHead : Bool) :
    Inserted (secondDrive checksHead) fun x _ => BitVec.ofNat 8 (fdFormat.number x) :=
  ⟨fun x => some fun _ => BitVec.ofNat 8 (fdFormat.number x), rfl, fun _ _ _ => rfl⟩

theorem fdcCmdReadData_outcome_secondDrive :
    Total (Env (secondDrive true)) (fdcCmdReadData 1 0 0 1 1) fdcAtBoot.initialized fun r t =>
      r = fdcOk ∧ t = fdcAtBoot.initialized.afterRead (secondDrive true) 1 0 0 1 1 :=
  fdcCmdReadData_outcome ⟨⟨rfl, rfl⟩, rfl, rfl⟩ ⟨.inr rfl, rfl, rfl, by decide⟩ 0 1 1

theorem reaches_outs {l : List (BitVec 16 × U8)} {k : Unit → Io U8} {c : Io U8 × Platform}
    (h : Relation.ReflTransGen (Driver.Step (Env hw))
      (k (), l.foldl (fun t x => t.out x.1 x.2) s) c) :
    Relation.ReflTransGen (Driver.Step (Env hw)) (outs l >>= k, s) c := by
  induction l generalizing s with
  | nil => exact h
  | cons x l ih => exact .head (.act _ _ _) (ih h)

/-- `fdc_cmd_read_data` does not ask whether the controller is ready for a byte: one that is not
prompt can get the second byte of the command out of turn. -/
theorem fdcCmdReadData_outOfTurn {drive cylinder head sector : U8} {phyAddr : BitVec 16}
    (hphase : s.device.fdc.phase = .command []) (hslow : s.device.fdc.prompt = false)
    (hdrive : drive = 0 ∨ drive = 1) :
    ∃ c, Relation.ReflTransGen (Driver.Step (Env hw))
      (fdcCmdReadData drive phyAddr cylinder head sector, s) c ∧ c.2.device.fdc.fault = true := by
  have hprog : fdcCmdReadData drive phyAddr cylinder head sector = (do
      outs (readSetup (phyAddr.setWidth 32) 511)
      fdcMotorOn drive
      setFdcIntr false
      outs (toData [0x46, drive])
      outs (toData [cylinder, head, sector, 0x02, 18, 27, 0xFF])
      waitFdcIntr
      readTail drive) := rfl
  obtain ⟨⟨⟨_, _, _, _, _, _, _, _, _, _⟩, _, _, _⟩, _, _, _, _⟩ := s
  cases hphase
  cases hslow
  rw [hprog]
  rcases hdrive with rfl | rfl <;>
    exact ⟨_, reaches_outs (.head (.act _ _ _) (.head (.act _ _ _) (reaches_outs .refl))), rfl⟩

def chsPlace (x : BitVec 16 × BitVec 16 × BitVec 16) : Place :=
  ⟨x.1.toNat, x.2.1.toNat, x.2.2.toNat⟩

theorem chsPlace_calcChs {lba : U32} (h : lba.toNat < fdCylinders * (fdHeads * fdSectors)) :
    chsPlace (calcChs lba) = fdFormat.place lba.toNat := by
  have hlimit : fdCylinders * (fdHeads * fdSectors) = 2880 := rfl
  have hlba : lba.toNat < 2880 := by rwa [hlimit] at h
  apply Place.ext
  · change ((lba / (2 * 18)).setWidth 16).toNat = lba.toNat / 36
    rw [BitVec.toNat_setWidth, BitVec.toNat_udiv]
    change lba.toNat / 36 % 65536 = _
    omega
  · change (((lba / 18) % 2).setWidth 16).toNat = lba.toNat / 18 % 2
    rw [BitVec.toNat_setWidth, BitVec.toNat_umod, BitVec.toNat_udiv]
    change lba.toNat / 18 % 2 % 65536 = _
    omega
  · change (((lba % 18) + 1).setWidth 16).toNat = lba.toNat % 18 + 1
    rw [BitVec.toNat_setWidth, BitVec.toNat_add, BitVec.toNat_umod]
    change (lba.toNat % 18 + 1) % 4294967296 % 65536 = _
    omega

/-- What `task_fdc` has of the place `x`: a controller that checks the head never finds the second
side, since the unit byte names the first, and the buffer keeps the last sector of that. -/
def seen (hw : Hardware) (x : Place) : Place :=
  if hw.checksHead ∧ x.head ≠ 0 then ⟨x.cylinder, 0, fdSectors⟩ else x

/-- `task_fdc` comes to the end of its loops in every interleaving, with the whole disk in its block
in the order of `calc_chs`, and never writes behind the block. -/
theorem taskFdc_reads (hs : s.Idle) (hflip : s.device.dma.flipFlop = false)
    (hdisk : Inserted hw disk) {kvmalloc : Nat → Platform → Platform} (hmalloc : Allocates kvmalloc)
    (report : U8 → List U8) :
    Total (Env hw) (taskFdc report kvmalloc) s fun cnt t =>
      cnt = 1474560 ∧ t.buf.size = 1474560 ∧ t.wild = s.wild ∧
      t.device.fdc.fault = s.device.fdc.fault ∧
      ∀ lba : U32, lba.toNat < fdCylinders * (fdHeads * fdSectors) → ∀ i < fdSectorSize,
        t.buf.data (lba.toNat * fdSectorSize + i) = disk (seen hw (chsPlace (calcChs lba))) i := by
  apply Ends.total
  apply Ends.bind
  apply (gives_initFdc hs.waiting (congrArg accepts hs.phase)).ends
  have hinit : s.initialized.Idle := ⟨hs.mode, hs.irq, rfl⟩
  have hprint : ({ s.initialized with serial := s.initialized.serial ++ report fdcOk } :
      Platform).Idle := hinit.congr rfl rfl
  apply Ends.bind
  apply (show Gives (Env hw) (serialPutstr (report fdcOk)) s.initialized ()
    { s.initialized with serial := s.initialized.serial ++ report fdcOk } from
      Gives.act hinit.waiting.quiet hprint.waiting.quiet).ends
  generalize hprinted : ({ s.initialized with
    serial := s.initialized.serial ++ report fdcOk } : Platform) = p at hprint ⊢
  have hblock : (kvmalloc fdSize p).Idle := hprint.congr (hmalloc.fdc _ _) (hmalloc.irq _ _)
  apply Ends.act hprint.waiting.quiet
  generalize hallocated : kvmalloc fdSize p = q at hblock ⊢
  have hmapped : ({ q with device := { q.device with
      mem := mapMemory4k q.device.mem kernelPdt fdBufferV fdBufferP } } : Platform).Idle :=
    hblock.congr rfl rfl
  apply Ends.act hblock.waiting.quiet
  have hfdc : q.device.fdc = s.initialized.device.fdc := by
    rw [← hallocated, hmalloc.fdc, ← hprinted]
  have hdma : q.device.dma = s.device.dma := by
    rw [← hallocated, hmalloc.dma, ← hprinted]
    rfl
  have hwild : q.wild = s.wild := by
    rw [← hallocated, hmalloc.wild, ← hprinted]
    rfl
  have hsize : q.buf.size = fdSize := by rw [← hallocated, hmalloc.size]
  have hstart : Copied hw disk s 0 0 { q with device := { q.device with
      mem := mapMemory4k q.device.mem kernelPdt fdBufferV fdBufferP } } :=
    ⟨hmapped, congrArg Controller.autoSeek hfdc, (congrArg Channel.flipFlop hdma).trans hflip,
      (congrArg Controller.fault hfdc :), hwild, window_mapMemory4k _, rfl,
      fun h => absurd h (Nat.lt_irrefl 0), hsize, fun j hj => absurd hj (Nat.not_lt_zero j)⟩
  apply (hstart.loops hdisk).mono
  intro cnt t ht
  refine ⟨ht.cnt, ht.size, ht.wild, ht.fault, ?_⟩
  intro lba hlba i hi
  rw [chsPlace_calcChs hlba]
  exact ht.buf _ hlba i hi

def zeroBlock (n : Nat) (s : Platform) : Platform := { s with buf := ⟨n, fun _ => 0⟩ }

theorem taskFdc_reads_secondDrive :
    Total (Env (secondDrive true)) (taskFdc (fun _ => []) zeroBlock) fdcAtBoot fun cnt t =>
      cnt = 1474560 ∧ t.buf.size = 1474560 ∧ t.wild = fdcAtBoot.wild ∧
      t.device.fdc.fault = fdcAtBoot.device.fdc.fault ∧
      ∀ lba : U32, lba.toNat < fdCylinders * (fdHeads * fdSectors) → ∀ i < fdSectorSize,
        t.buf.data (lba.toNat * fdSectorSize + i) =
          BitVec.ofNat 8 (fdFormat.number (seen (secondDrive true) (chsPlace (calcChs lba)))) :=
  have hmalloc : Allocates zeroBlock :=
    ⟨fun _ _ => rfl, fun _ _ => rfl, fun _ _ => rfl, fun _ _ => rfl, fun _ _ => rfl⟩
  taskFdc_reads fdcAtBoot_idle rfl (inserted_secondDrive true) hmalloc _

end Platform

end Uroboros
