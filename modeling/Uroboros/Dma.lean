import Uroboros.Config
import Uroboros.Lib.Driver
import Uroboros.Lib.Floppy

/-!
# Port I/O and `dma.c`

Programs of the kernel beside the floppy controller. The controller and the interrupt
that it raises move between any two of their steps.
-/

set_option autoImplicit false

namespace Uroboros

open Driver Floppy

/-- A block of `kvmalloc`: memory of its own. -/
structure HeapBlock where
  size : Nat
  data : Nat → U8

/-- What the floppy driver works on: `sys->fdc_intr`, the block that `task_fdc` fills, and what
went out on the serial port. `wild` is set by an access outside the block or through a page that is
not mapped. -/
structure Platform where
  device : Device
  fdcIntr : Bool
  buf : HeapBlock
  wild : Bool
  serial : List U8

namespace Platform

/-- The branch of `int_handler` for IRQ 6. -/
def intHandlerFdc (s : Platform) : Platform :=
  { s with device := { s.device with irq := false }, fdcIntr := true }

inductive Env (hw : Hardware) : Platform → Platform → Prop where
  | tick (s : Platform) (d : Device) : tick hw s.device = some d → Env hw s { s with device := d }
  | interrupt (s : Platform) : s.device.irq = true → s.device.fdc.connected = true →
      Env hw s s.intHandlerFdc

structure Waiting (s : Platform) : Prop where
  mode : s.device.fdc.PromptPs2
  irq : s.device.irq = false
  phase : (∃ bytes, s.device.fdc.phase = .command bytes) ∨
    (∃ bytes, s.device.fdc.phase = .result bytes) ∨ s.device.fdc.phase = .reset

theorem Waiting.quiet {hw : Hardware} {s : Platform} (h : s.Waiting) : Quiet (Env hw) s := by
  intro t henv
  cases henv with
  | tick d hd =>
    unfold tick at hd
    rcases h.phase with ⟨bytes, hphase⟩ | ⟨bytes, hphase⟩ | hphase <;>
      · rw [hphase] at hd
        cases hd
  | interrupt hirq _ => cases hirq.symm.trans h.irq

end Platform

abbrev Io (α : Type) := Prog Platform U8 α

def ioOut8 (port : BitVec 16) (data : U8) : Io Unit :=
  .act (fun s => { s with device := s.device.out port data }) (.done ())

def ioIn8 (port : BitVec 16) : Io U8 :=
  .ask (fun s => ((s.device.read port).1, { s with device := (s.device.read port).2 })) .done

def dmacSlave : U8 := 0

def ioPortDmaCh2Addr : BitVec 16 := 0x04
def ioPortDmaCh2Count : BitVec 16 := 0x05
def ioPortDmaCh2Page : BitVec 16 := 0x81
def ioPortDmaSlaveCommand : BitVec 16 := 0x08
def ioPortDmaSlaveSingleChannelMask : BitVec 16 := 0x0A
def ioPortDmaSlaveMode : BitVec 16 := 0x0B
def ioPortDmaSlaveMaskReset : BitVec 16 := 0x0E

def dmaCommandCondEnable : U8 := 0x00 <<< 2

def dmaModeCh2 : U8 := 0x02
def dmaModeWrite : U8 := 0x01 <<< 2
def dmaModeAuto : U8 := 0x01 <<< 4
def dmaModeSingle : U8 := 0x01 <<< 6

def dmaMaskCh2 : U8 := 0x02
def dmaMaskDisable : U8 := 0x00 <<< 2

def dmaSetAddress (channel : U8) (phyAddr : BitVec 16) : Io Unit :=
  if channel = 2 then do
    ioOut8 ioPortDmaCh2Addr (phyAddr.setWidth 8)
    ioOut8 ioPortDmaCh2Addr ((phyAddr >>> 8).setWidth 8)
  else pure ()

def dmaSetCount (channel : U8) (count : BitVec 16) : Io Unit :=
  if channel = 2 then do
    ioOut8 ioPortDmaCh2Count (count.setWidth 8)
    ioOut8 ioPortDmaCh2Count ((count >>> 8).setWidth 8)
  else pure ()

def dmaSetMode (channel mode : U8) : Io Unit :=
  if channel = 2 then ioOut8 ioPortDmaSlaveMode mode else pure ()

def dmaSetCommand (dmac command : U8) : Io Unit :=
  if dmac = dmacSlave then ioOut8 ioPortDmaSlaveCommand command else pure ()

def dmaUnsetSingleMask (channel : U8) : Io Unit :=
  if channel = 2 then ioOut8 ioPortDmaSlaveSingleChannelMask (dmaMaskCh2 ||| dmaMaskDisable)
  else pure ()

def dmaClearAllMask : Io Unit := ioOut8 ioPortDmaSlaveMaskReset 0xFF

def dmaSetPage (channel page : U8) : Io Unit :=
  if channel = 2 then ioOut8 ioPortDmaCh2Page page else pure ()

def dmaInitForFdRead (channel : U8) (phyAddr : U32) (count : BitVec 16) : Io Unit := do
  dmaSetCommand dmacSlave dmaCommandCondEnable
  dmaClearAllMask
  dmaSetAddress channel (phyAddr.setWidth 16)
  dmaSetCount channel count
  dmaSetPage channel (((phyAddr >>> 16) &&& 0xFF).setWidth 8)
  dmaSetMode channel (dmaModeCh2 ||| dmaModeWrite ||| dmaModeSingle ||| dmaModeAuto)
  dmaUnsetSingleMask channel

def outs : List (BitVec 16 × U8) → Io Unit
  | [] => pure ()
  | (port, data) :: rest => do
    ioOut8 port data
    outs rest

namespace Platform

variable {hw : Hardware} {s : Platform}

def out (s : Platform) (port : BitVec 16) (data : U8) : Platform :=
  { s with device := s.device.out port data }

def withDma (s : Platform) (c : Channel) : Platform :=
  { s with device := { s.device with dma := c } }

def WaitsFor : Platform → List (BitVec 16 × U8) → Prop
  | s, [] => s.Waiting
  | s, (port, data) :: rest => s.Waiting ∧ WaitsFor (s.out port data) rest

theorem gives_outs {l : List (BitVec 16 × U8)} (h : s.WaitsFor l) :
    Gives (Env hw) (outs l) s () (l.foldl (fun t x => t.out x.1 x.2) s) := by
  induction l generalizing s with
  | nil => exact Gives.done h.quiet
  | cons x l ih => exact Ends.act h.1.quiet (ih h.2)

theorem Waiting.withDma (h : s.Waiting) (c : Channel) : (s.withDma c).Waiting :=
  ⟨h.mode, h.irq, h.phase⟩

abbrev IsDmaPort (port : BitVec 16) : Prop := port ≠ 0x3F2 ∧ port ≠ 0x3F5 ∧ port ≠ 0x3F7

theorem out_of_isDmaPort {port : BitVec 16} {data : U8} (h : IsDmaPort port) :
    s.out port data = s.withDma (s.device.dma.out port data) := by
  rw [out, Device.out, if_neg h.1, if_neg h.2.1, if_neg h.2.2]
  rfl

theorem gives_outs_dma {l : List (BitVec 16 × U8)} (hs : s.Waiting)
    (hports : ∀ port ∈ l.map Prod.fst, IsDmaPort port) :
    Gives (Env hw) (outs l) s ()
      (s.withDma (l.foldl (fun c x => c.out x.1 x.2) s.device.dma)) := by
  have hall : s.WaitsFor l ∧ l.foldl (fun t x => t.out x.1 x.2) s =
      s.withDma (l.foldl (fun c x => c.out x.1 x.2) s.device.dma) := by
    induction l generalizing s with
    | nil => exact ⟨hs, rfl⟩
    | cons x l ih =>
      rw [List.map_cons, List.forall_mem_cons] at hports
      have hout := @out_of_isDmaPort s x.1 x.2 hports.1
      obtain ⟨hwaits, hfold⟩ := ih (hs.withDma (s.device.dma.out x.1 x.2)) hports.2
      rw [← hout] at hwaits
      refine ⟨⟨hs, hwaits⟩, ?_⟩
      rw [List.foldl_cons, hout, hfold]
      rfl
  rw [← hall.2]
  exact gives_outs hall.1

def readChannel (phyAddr : U32) (count : BitVec 16) : Channel where
  flipFlop := false
  baseAddr := phyAddr.setWidth 16
  curAddr := phyAddr.setWidth 16
  baseCount := count
  curCount := count
  page := ((phyAddr >>> 16) &&& 0xFF).setWidth 8
  mode := 0x56
  masked := false
  disabled := false

theorem half_half (w v : BitVec 16) :
    Channel.half true (Channel.half false w (v.setWidth 8)) ((v >>> 8).setWidth 8) = v := by
  unfold Channel.half
  rw [if_pos rfl, if_neg Bool.false_ne_true]
  ext i hi
  rw [BitVec.getElem_append]
  by_cases h8 : i < 8
  · rw [dif_pos h8, BitVec.getElem_extractLsb', BitVec.getLsbD_append, Nat.zero_add, if_pos h8,
      BitVec.getLsbD_setWidth, decide_eq_true h8, Bool.true_and, BitVec.getLsbD_eq_getElem hi]
  · have hsub : 8 + (i - 8) = i := by omega
    rw [dif_neg h8, BitVec.getElem_setWidth, BitVec.getLsbD_ushiftRight, hsub,
      BitVec.getLsbD_eq_getElem hi]

def readSetup (phyAddr : U32) (count : BitVec 16) : List (BitVec 16 × U8) :=
  [(0x08, 0), (0x0E, 0xFF),
    (0x04, (phyAddr.setWidth 16).setWidth 8), (0x04, ((phyAddr.setWidth 16) >>> 8).setWidth 8),
    (0x05, count.setWidth 8), (0x05, (count >>> 8).setWidth 8),
    (0x81, ((phyAddr >>> 16) &&& 0xFF).setWidth 8), (0x0B, 0x56), (0x0A, 0x02)]

theorem foldl_readSetup {c : Channel} (hflip : c.flipFlop = false) (phyAddr : U32)
    (count : BitVec 16) : (readSetup phyAddr count).foldl (fun c x => c.out x.1 x.2) c =
      readChannel phyAddr count := by
  obtain ⟨_, _, _, _, _, _, _, _, _⟩ := c
  cases hflip
  change Channel.mk _ _ _ _ _ _ _ _ _ = _
  rw [readChannel]
  congr 1 <;> exact half_half _ _

/-- `dma_init_for_fd_read` does not reset the flip-flop: it relies on finding it low, and leaves it
low. -/
theorem gives_dmaInitForFdRead (hs : s.Waiting) (hflip : s.device.dma.flipFlop = false)
    (phyAddr : U32) (count : BitVec 16) :
    Gives (Env hw) (dmaInitForFdRead 2 phyAddr count) s ()
      (s.withDma (readChannel phyAddr count)) := by
  have hprog : dmaInitForFdRead 2 phyAddr count = outs (readSetup phyAddr count) := rfl
  have hports : ∀ port ∈ (readSetup phyAddr count).map Prod.fst, IsDmaPort port := by
    change ∀ port ∈ [(0x08 : BitVec 16), 0x0E, 0x04, 0x04, 0x05, 0x05, 0x81, 0x0B, 0x0A],
      IsDmaPort port
    simp [IsDmaPort]
  rw [hprog, ← foldl_readSetup hflip]
  exact gives_outs_dma hs hports

end Platform

end Uroboros
