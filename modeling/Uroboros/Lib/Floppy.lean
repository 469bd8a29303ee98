import Uroboros.Lib.ByteMemory
import Uroboros.Lib.Geometry

/-!
# A floppy controller with its DMA channel

The controller takes commands byte by byte, executes them on its own, raises its
interrupt and hands out result bytes; what it reads goes to memory through channel 2
of the DMA controller. Of both as much is here as reading sectors needs. `tick` is
what the controller does next on its own.
-/

set_option autoImplicit false

namespace Floppy

open ByteMemory Geometry

abbrev Byte := BitVec 8

/-- `flipFlop` says which half of an address or a count the next byte is. -/
structure Channel where
  flipFlop : Bool
  baseAddr : BitVec 16
  curAddr : BitVec 16
  baseCount : BitVec 16
  curCount : BitVec 16
  page : Byte
  mode : Byte
  masked : Bool
  disabled : Bool

namespace Channel

def half (flipFlop : Bool) (w : BitVec 16) (v : Byte) : BitVec 16 :=
  if flipFlop then v ++ w.extractLsb' 0 8 else w.extractLsb' 8 8 ++ v

def out (c : Channel) (port : BitVec 16) (v : Byte) : Channel :=
  if port = 0x04 then
    { c with
      baseAddr := half c.flipFlop c.baseAddr v
      curAddr := half c.flipFlop c.curAddr v
      flipFlop := !c.flipFlop }
  else if port = 0x05 then
    { c with
      baseCount := half c.flipFlop c.baseCount v
      curCount := half c.flipFlop c.curCount v
      flipFlop := !c.flipFlop }
  else if port = 0x08 then { c with disabled := v.getLsbD 2 }
  else if port = 0x0A then if v &&& 3 = 2 then { c with masked := v.getLsbD 2 } else c
  else if port = 0x0B then if v &&& 3 = 2 then { c with mode := v } else c
  else if port = 0x0C then { c with flipFlop := false }
  else if port = 0x0E then { c with masked := false }
  else if port = 0x81 then { c with page := v }
  else c

/-- The channel moves bytes from the device to memory. -/
def grants (c : Channel) : Bool := !c.disabled && !c.masked && (c.mode >>> 2) &&& 3 == 1

def addr (c : Channel) : BitVec 32 := (0 : Byte) ++ c.page ++ c.curAddr

/-- After a byte; the channel has reached its terminal count when the count wraps. -/
def advance (c : Channel) : Channel :=
  if c.curCount = 0 then
    if c.mode.getLsbD 4 then { c with curAddr := c.baseAddr, curCount := c.baseCount }
    else { c with curCount := c.curCount - 1, masked := true }
  else
    { c with
      curAddr := if c.mode.getLsbD 5 then c.curAddr - 1 else c.curAddr + 1
      curCount := c.curCount - 1 }

variable {c : Channel}

theorem advance_of_ne (hcount : c.curCount ≠ 0) (hup : c.mode.getLsbD 5 = false) :
    c.advance = { c with curAddr := c.curAddr + 1, curCount := c.curCount - 1 } := by
  rw [advance, if_neg hcount, hup, if_neg Bool.false_ne_true]

theorem advance_of_eq (hcount : c.curCount = 0) (hauto : c.mode.getLsbD 4 = true) :
    c.advance = { c with curAddr := c.baseAddr, curCount := c.baseCount } := by
  rw [advance, if_pos hcount, if_pos hauto]

end Channel

abbrev Disk := Place → Option (Nat → Byte)

/-- The drives; some controllers refuse a read whose head differs from the one in the unit byte. -/
structure Hardware where
  disk : Byte → Option Disk
  checksHead : Bool

/-- In `settles` the controller is not ready for a byte yet. -/
inductive Phase where
  | reset
  | leavesReset
  | command (bytes : List Byte)
  | execution (bytes : List Byte) (count : Nat)
  | result (bytes : List Byte)
  | settles (next : Phase)
  deriving DecidableEq

/-- `sense` holds the answers to the sense commands to come, `fault` is set when a byte comes or
goes in the wrong phase. A `prompt` controller is ready again as soon as it has taken or given a
byte. In the mode `ps2` its requests always reach the processor and the DMA controller, else `dor`
can cut them off. -/
structure Controller where
  prompt : Bool
  ps2 : Bool
  dor : Byte
  rate : Byte
  phase : Phase
  sense : List (Byte × Byte)
  cylinder : Byte → Byte
  timing : Byte × Byte
  autoSeek : Bool
  fault : Bool

structure Device where
  fdc : Controller
  dma : Channel
  mem : Mem
  irq : Bool

namespace Controller

def commandLength (op : Byte) : Nat :=
  if op &&& 0x1F = 0x03 then 3
  else if op &&& 0x1F = 0x06 then 9
  else if op &&& 0x1F = 0x07 then 2
  else if op &&& 0x1F = 0x13 then 4
  else 1

def goOn (c : Controller) (next : Phase) : Controller :=
  { c with phase := if c.prompt then next else .settles next }

def connected (c : Controller) : Bool := c.ps2 || c.dor.getLsbD 3

def start (c : Controller) (bytes : List Byte) : Controller :=
  let op := bytes.getD 0 0 &&& 0x1F
  if op = 0x03 then { c with timing := (bytes.getD 1 0, bytes.getD 2 0) }.goOn (.command [])
  else if op = 0x13 then
    { c with autoSeek := (bytes.getD 2 0).getLsbD 6 }.goOn (.command [])
  else if op = 0x06 ∨ op = 0x07 then { c with phase := .execution bytes 0 }
  else if op = 0x08 then
    match c.sense with
    | [] => c.goOn (.result [0x80])
    | (st0, pcn) :: rest => { c with sense := rest }.goOn (.result [st0, pcn])
  else c.goOn (.result [0x80])

def outData (c : Controller) (v : Byte) : Controller :=
  match c.phase with
  | .command bytes =>
    if commandLength ((bytes ++ [v]).getD 0 0) ≤ (bytes ++ [v]).length then c.start (bytes ++ [v])
    else c.goOn (.command (bytes ++ [v]))
  | _ => { c with fault := true }

def outDor (c : Controller) (v : Byte) : Controller :=
  if v.getLsbD 2 then
    { c with dor := v, phase := if c.phase = .reset then .leavesReset else c.phase }
  else { c with dor := v, phase := .reset, autoSeek := false }

def status (c : Controller) : Byte :=
  match c.phase with
  | .reset => 0
  | .leavesReset => 0
  | .command [] => 0x80
  | .command (_ :: _) => 0x90
  | .execution _ _ => 0x10
  | .result _ => 0xD0
  | .settles _ => 0x10

def inData (c : Controller) : Byte × Controller :=
  match c.phase with
  | .result [b] => (b, c.goOn (.command []))
  | .result (b :: b' :: rest) => (b, c.goOn (.result (b' :: rest)))
  | _ => (0xFF, { c with fault := true })

def motor (c : Controller) (drive : Byte) : Bool := c.dor.getLsbD (4 + drive.toNat)

/-- A controller that a driver need not ask between two bytes, and cannot cut off. -/
def PromptPs2 (c : Controller) : Prop := c.prompt = true ∧ c.ps2 = true

variable {c : Controller}

theorem goOn_of_prompt (h : c.prompt = true) (next : Phase) :
    c.goOn next = { c with phase := next } := by
  rw [goOn, if_pos h]

theorem connected_of_ps2 (h : c.ps2 = true) : c.connected = true := by
  rw [connected, h, Bool.true_or]

end Controller

namespace Device

def out (d : Device) (port : BitVec 16) (v : Byte) : Device :=
  if port = 0x3F2 then { d with fdc := d.fdc.outDor v }
  else if port = 0x3F5 then { d with fdc := d.fdc.outData v }
  else if port = 0x3F7 then { d with fdc := { d.fdc with rate := v } }
  else { d with dma := d.dma.out port v }

def read (d : Device) (port : BitVec 16) : Byte × Device :=
  if port = 0x3F4 then (d.fdc.status, d)
  else if port = 0x3F5 then (d.fdc.inData.1, { d with fdc := d.fdc.inData.2 })
  else (0xFF, d)

def finish (d : Device) (result : List Byte) : Device :=
  { d with fdc := { d.fdc with phase := .result result }, irq := true }

end Device

/-- The bytes of a read command: unit, cylinder, head, sector, size and last sector. -/
structure ReadCommand where
  op : Byte
  unit : Byte
  cylinder : Byte
  head : Byte
  sector : Byte
  size : Byte
  last : Byte
  gap : Byte
  length : Byte

namespace ReadCommand

def ofBytes (bytes : List Byte) : ReadCommand :=
  ⟨bytes.getD 0 0, bytes.getD 1 0, bytes.getD 2 0, bytes.getD 3 0, bytes.getD 4 0, bytes.getD 5 0,
    bytes.getD 6 0, bytes.getD 7 0, bytes.getD 8 0⟩

def drive (r : ReadCommand) : Byte := r.unit &&& 3

def sectorSize (r : ReadCommand) : Nat := 128 * 2 ^ r.size.toNat

def place (r : ReadCommand) (count : Nat) : Place :=
  ⟨r.cylinder.toNat, r.head.toNat, r.sector.toNat + count / r.sectorSize⟩

/-- The sector that the byte `count` of the transfer comes from. -/
def source (hw : Hardware) (c : Controller) (r : ReadCommand) (count : Nat) : Option (Nat → Byte) :=
  if hw.checksHead ∧ r.head.toNat ≠ (r.unit >>> 2 &&& 1).toNat then none
  else if ¬ c.autoSeek ∧ c.cylinder r.drive ≠ r.cylinder then none
  else if r.last.toNat < (r.place count).sector then none
  else (hw.disk r.drive).bind fun disk => disk (r.place count)

def result (r : ReadCommand) (st0 st1 : Byte) : List Byte :=
  [st0 ||| r.unit &&& 7, st1, 0, r.cylinder, r.head, r.sector, r.size]

end ReadCommand

namespace Device

def leaveReset (d : Device) : Device :=
  { d with
    fdc := { d.fdc with
      phase := .command []
      sense := [(0xC0, 0), (0xC1, 0), (0xC2, 0), (0xC3, 0)] }
    irq := true }

/-- The head is at track 0; a drive that is not there does not say so. -/
def recalibrate (hw : Hardware) (d : Device) (drive : Byte) : Device :=
  { d with
    fdc := { d.fdc with
      phase := .command []
      cylinder := Function.update d.fdc.cylinder drive 0
      sense := d.fdc.sense ++
        [((if (hw.disk drive).isSome then 0x20 else 0x70 : Byte) ||| drive, 0)] }
    irq := true }

/-- The next byte of a sector goes to memory. -/
def transfer (d : Device) (r : ReadCommand) (count : Nat) (data : Nat → Byte) : Device :=
  { d with
    dma := d.dma.advance
    mem := store8 d.mem d.dma.addr (data (count % r.sectorSize))
    fdc := { d.fdc with cylinder := Function.update d.fdc.cylinder r.drive r.cylinder } }

/-- A read command, at the byte `count`. -/
def readByte (hw : Hardware) (d : Device) (bytes : List Byte) (count : Nat) : Option Device :=
  let r := ReadCommand.ofBytes bytes
  match r.source hw d.fdc count with
  | none => some (d.finish (r.result 0x40 0x04))
  | some data =>
    if (d.fdc.connected && d.dma.grants) = false then none
    else if d.dma.curCount = 0 then some ((d.transfer r count data).finish (r.result 0 0))
    else
      let d' := d.transfer r count data
      some { d' with fdc := { d'.fdc with phase := .execution bytes (count + 1) } }

end Device

/-- What the controller does next, if anything: it comes out of reset, gets ready, moves a head to
track 0, or reads a byte. Without the motor it waits. -/
def tick (hw : Hardware) (d : Device) : Option Device :=
  match d.fdc.phase with
  | .leavesReset => some d.leaveReset
  | .settles next => some { d with fdc := { d.fdc with phase := next } }
  | .execution bytes count =>
    let r := ReadCommand.ofBytes bytes
    if d.fdc.motor r.drive = false then none
    else if r.op &&& 0x1F = 0x07 then some (d.recalibrate hw r.drive)
    else d.readByte hw bytes count
  | _ => none

variable {hw : Hardware} {d : Device} {bytes : List Byte} {count : Nat}

theorem tick_recalibrate (hphase : d.fdc.phase = .execution bytes count)
    (hmotor : d.fdc.motor (ReadCommand.ofBytes bytes).drive = true)
    (hop : (ReadCommand.ofBytes bytes).op &&& 0x1F = 0x07) :
    tick hw d = some (d.recalibrate hw (ReadCommand.ofBytes bytes).drive) := by
  rw [tick, hphase]
  dsimp only
  rw [hmotor, if_neg Bool.true_eq_false.mp, if_pos hop]

theorem tick_readByte (hphase : d.fdc.phase = .execution bytes count)
    (hmotor : d.fdc.motor (ReadCommand.ofBytes bytes).drive = true)
    (hop : (ReadCommand.ofBytes bytes).op &&& 0x1F ≠ 0x07) :
    tick hw d = d.readByte hw bytes count := by
  rw [tick, hphase]
  dsimp only
  rw [hmotor, if_neg Bool.true_eq_false.mp, if_neg hop]

theorem readByte_of_ne {data : Nat → Byte}
    (hsource : (ReadCommand.ofBytes bytes).source hw d.fdc count = some data)
    (hgrants : (d.fdc.connected && d.dma.grants) = true) (hcount : d.dma.curCount ≠ 0) :
    d.readByte hw bytes count = some
      { d.transfer (ReadCommand.ofBytes bytes) count data with
        fdc := { (d.transfer (ReadCommand.ofBytes bytes) count data).fdc with
          phase := .execution bytes (count + 1) } } := by
  rw [Device.readByte, hsource]
  dsimp only
  rw [hgrants, if_neg Bool.true_eq_false.mp, if_neg hcount]

theorem readByte_of_eq {data : Nat → Byte}
    (hsource : (ReadCommand.ofBytes bytes).source hw d.fdc count = some data)
    (hgrants : (d.fdc.connected && d.dma.grants) = true) (hcount : d.dma.curCount = 0) :
    d.readByte hw bytes count = some ((d.transfer (ReadCommand.ofBytes bytes) count data).finish
      ((ReadCommand.ofBytes bytes).result 0 0)) := by
  rw [Device.readByte, hsource]
  dsimp only
  rw [hgrants, if_neg Bool.true_eq_false.mp, if_pos hcount]

theorem readByte_of_none (hsource : (ReadCommand.ofBytes bytes).source hw d.fdc count = none) :
    d.readByte hw bytes count =
      some (d.finish ((ReadCommand.ofBytes bytes).result 0x40 0x04)) := by
  rw [Device.readByte, hsource]

end Floppy
