import Uroboros.Dma

/-!
# The floppy driver

`fdc.c` as programs beside the controller, and what each of them does: it comes to an
end in every interleaving, and always with the same outcome.
-/

set_option autoImplicit false

namespace Uroboros

open Driver Floppy Geometry

-- Constants of `fdc.h`; `cmd…` stands for `FDC_CMD_…`.
def ioPortFdcDor : BitVec 16 := 0x3F2
def fdcDorDrive0 : U8 := 0x00
def fdcDorDrive1 : U8 := 0x01
def fdcDorReset : U8 := 0x04
def fdcDorDma : U8 := 0x08
def fdcDorMotor0 : U8 := 0x10
def fdcDorMotor1 : U8 := 0x20

def ioPortFdcMsr : BitVec 16 := 0x3F4
def fdcMsrDio : U8 := 0x40
def fdcMsrRqm : U8 := 0x80
def fdcMsrDioWrite : U8 := 0x00

def ioPortFdcCcr : BitVec 16 := 0x3F7
def fdcCcr500k : U8 := 0x00

def ioPortFdcData : BitVec 16 := 0x3F5

def cmdSenseInterruptStatus : U8 := 0x08
def cmdSpecify : U8 := 0x03
def cmdRecalibrate : U8 := 0x07
def cmdReadData : U8 := 0x06
def cmdConfigure : U8 := 0x13

def cmdSpecifyParamDmaEnable : U8 := 0x00
def cmdSpecifyParamStepRate : U8 := 0x0f
def cmdSpecifyParamHeadUnloadTime : U8 := 0x0f
def cmdSpecifyParamHeadLoadTime : U8 := 0x0f

def cmdReadDataSectorSize512k : U8 := 0x02
def cmdReadDataGap3 : U8 := 27
def cmdReadDataDataLength : U8 := 0xFF

def cmdConfigureFifoThresholdDefault : U8 := 0x01
def cmdConfigureFifoDisable : U8 := 0x01 <<< 5
def cmdConfigureAutoSeek : U8 := 0x01 <<< 6

def fdcOk : U8 := 0x00
def fdcErrorNotReady : U8 := 0x01
def fdcErrorRecalibrate : U8 := 0x01

def fdSectors : Nat := 18
def fdHeads : Nat := 2
def fdCylinders : Nat := 80
def fdSectorSize : Nat := 512

def fdDrive1 : U8 := 1

def fdcDmaChannel : U8 := 2

def serialPutstr (str : List U8) : Io Unit :=
  .act (fun s => { s with serial := s.serial ++ str }) (.done ())

def setFdcIntr (b : Bool) : Io Unit := .act (fun s => { s with fdcIntr := b }) (.done ())

/-- `while(!sys->fdc_intr);` -/
def waitFdcIntr : Io Unit := .await Platform.fdcIntr (.done ())

def checkFdcDataReady (direction : U8) : Io Bool := do
  let msr ← ioIn8 ioPortFdcMsr
  pure (msr &&& fdcMsrRqm != 0 && msr &&& fdcMsrDio == direction)

/-- The bytes read, in their order. -/
def fdcReadStatus : Nat → Io (List U8)
  | 0 => pure []
  | n + 1 => do
    let b ← ioIn8 ioPortFdcData
    let rest ← fdcReadStatus n
    pure (b :: rest)

def fdcMotorOn (drive : U8) : Io Unit :=
  if drive = 0 then
    ioOut8 ioPortFdcDor (fdcDorDrive0 ||| fdcDorMotor0 ||| fdcDorReset ||| fdcDorDma)
  else if drive = 1 then
    ioOut8 ioPortFdcDor (fdcDorDrive1 ||| fdcDorMotor1 ||| fdcDorReset ||| fdcDorDma)
  else pure ()

def fdcMotorOff (drive : U8) : Io Unit :=
  if drive = 0 then ioOut8 ioPortFdcDor (fdcDorDrive0 ||| fdcDorReset ||| fdcDorDma)
  else if drive = 1 then ioOut8 ioPortFdcDor (fdcDorDrive1 ||| fdcDorReset ||| fdcDorDma)
  else pure ()

def fdcCmdSenseInterruptStatus : Io (List U8) := do
  ioOut8 ioPortFdcData cmdSenseInterruptStatus
  fdcReadStatus 2

/-- The bits of `st0` that `fdc_cmd_recalibrate` checks: the drive, seek end, and two more. -/
def recalibrateFailed (drive st0 : U8) : Bool :=
  st0 &&& 0x03 != drive || st0.getLsbD 5 != true || st0 &&& 0x0c != 0

def fdcCmdRecalibrate (drive : U8) : Io U8 := do
  let ready ← checkFdcDataReady fdcMsrDioWrite
  if ready = false then pure fdcErrorNotReady
  else
    ioOut8 ioPortFdcData cmdRecalibrate
    ioOut8 ioPortFdcData drive
    waitFdcIntr
    setFdcIntr false
    let status ← fdcCmdSenseInterruptStatus
    if recalibrateFailed drive (status.getD 0 0) then pure fdcErrorRecalibrate else pure fdcOk

def fdcCmdSpecify (stepRate headUnloadTime headLoadTime dma : U8) : Io U8 := do
  let ready ← checkFdcDataReady fdcMsrDioWrite
  if ready = false then pure fdcErrorNotReady
  else
    ioOut8 ioPortFdcData cmdSpecify
    ioOut8 ioPortFdcData ((stepRate <<< 4) ||| headUnloadTime)
    ioOut8 ioPortFdcData ((headLoadTime <<< 1) ||| dma)
    pure fdcOk

def fdcEnableAutoSeek : Io U8 := do
  let ready ← checkFdcDataReady fdcMsrDioWrite
  if ready = false then pure fdcErrorNotReady
  else
    ioOut8 ioPortFdcData cmdConfigure
    ioOut8 ioPortFdcData 0x00
    ioOut8 ioPortFdcData (cmdConfigureAutoSeek ||| cmdConfigureFifoDisable |||
      cmdConfigureFifoThresholdDefault)
    ioOut8 ioPortFdcData 0x00
    pure fdcOk

/-- The loop of `init_fdc` over the drives. -/
def recalibrateDrives : List U8 → Io U8
  | [] => pure fdcOk
  | i :: rest => do
    fdcMotorOn i
    let result ← fdcCmdRecalibrate i
    if result ≠ fdcOk then pure result
    else
      fdcMotorOff i
      recalibrateDrives rest

def notReadyText : List U8 :=
  [0x46, 0x44, 0x43, 0x20, 0x69, 0x73, 0x20, 0x6e, 0x6f, 0x74, 0x20, 0x72, 0x65, 0x61, 0x64, 0x79,
    0x0a]

def initFdc : Io U8 := do
  setFdcIntr false
  let ready ← checkFdcDataReady fdcMsrDioWrite
  if ready = false then
    serialPutstr notReadyText
    pure fdcErrorNotReady
  else
    ioOut8 ioPortFdcDor 0x00
    ioOut8 ioPortFdcDor fdcDorReset
    waitFdcIntr
    setFdcIntr false
    Prog.times (fun _ => do
      let _ ← fdcCmdSenseInterruptStatus
      pure ()) 4
    ioOut8 ioPortFdcCcr fdcCcr500k
    let _ ← fdcCmdSpecify cmdSpecifyParamStepRate cmdSpecifyParamHeadUnloadTime
      cmdSpecifyParamHeadLoadTime cmdSpecifyParamDmaEnable
    let _ ← fdcEnableAutoSeek
    recalibrateDrives [0, 1]

def fdcCmdReadData (drive : U8) (phyAddr : BitVec 16) (cylinder head sector : U8) : Io U8 := do
  dmaInitForFdRead fdcDmaChannel (phyAddr.setWidth 32) (BitVec.ofNat 16 (fdSectorSize - 1))
  fdcMotorOn drive
  setFdcIntr false
  ioOut8 ioPortFdcData (cmdReadData ||| 0x40)
  ioOut8 ioPortFdcData drive
  ioOut8 ioPortFdcData cylinder
  ioOut8 ioPortFdcData head
  ioOut8 ioPortFdcData sector
  ioOut8 ioPortFdcData cmdReadDataSectorSize512k
  ioOut8 ioPortFdcData (BitVec.ofNat 8 fdSectors)
  ioOut8 ioPortFdcData cmdReadDataGap3
  ioOut8 ioPortFdcData cmdReadDataDataLength
  waitFdcIntr
  setFdcIntr false
  let _ ← fdcReadStatus 7
  fdcMotorOff drive
  pure fdcOk

end Uroboros
