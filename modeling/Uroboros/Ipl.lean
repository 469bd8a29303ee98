import Uroboros.Config
import Uroboros.Lib.ByteMemory
import Uroboros.Lib.ForLoop
import Uroboros.Lib.Geometry

/-!
# The boot sector

`ipl.s` reads 25 cylinders of the boot disk to `0x7e00`, a sector a call, and
jumps to the second stage among them. The BIOS is a parameter.
-/

set_option autoImplicit false

namespace Uroboros

open ByteMemory ForLoop Geometry

/-- Memory, the A20 gate and what the BIOS keeps for itself. -/
structure World (β : Type) where
  mem : Mem
  a20 : Bool
  bios : β

/-- The registers `int 0x13` reads. -/
structure DiskCall where
  ah : U8
  al : U8
  ch : U8
  cl : U8
  dh : U8
  dl : U8
  es : BitVec 16
  bx : BitVec 16

namespace DiskCall

/-- The upper bits of `cl` belong to the cylinder. -/
def place (c : DiskCall) : Place :=
  ⟨c.ch.toNat + 256 * (c.cl.toNat / 64), c.dh.toNat, c.cl.toNat % 64⟩

def buffer (c : DiskCall) : Nat := 16 * c.es.toNat + c.bx.toNat

end DiskCall

structure A20Answer where
  carry : Bool
  ah : U8
  al : U8

def A20Answer.failed (r : A20Answer) : Bool := r.carry || r.ah != 0

/-- The services the boot code calls. All of them keep the registers the code relies on. -/
structure Bios (β : Type) where
  /-- `int 0x10`, `ah = 0x0e` and `bx = 15`, with its `al` -/
  teletype : U8 → World β → World β
  /-- `int 0x10`, `ah = 0`, with its `al` -/
  videoMode : U8 → World β → World β
  /-- `int 0x13`, with the carry flag it returns -/
  disk : DiskCall → World β → Bool × World β
  /-- `int 0x15`, with its `ax` -/
  a20 : BitVec 16 → World β → A20Answer × World β

/-- A text without its closing zero. -/
def text (s : String) : List U8 := s.toList.map fun c => BitVec.ofNat 8 c.toNat

variable {β : Type}

def Bios.print (bios : Bios β) (msg : List U8) (w : World β) : World β :=
  msg.foldl (fun w c => bios.teletype c w) w

namespace Ipl

def readTracks : U8 := 25

def msg : List U8 :=
  text "\r\nIPL running!\r\nstart to copy 2nd stage bootloader to memory...\r\n\r\n"

def errMsg : List U8 := text "error"

structure State (β : Type) where
  es : BitVec 16
  ch : U8
  cl : U8
  dh : U8
  world : World β

inductive Target where
  | oslReadLoop | boot | error
  deriving DecidableEq

def State.call (s : State β) : DiskCall := ⟨0x2, 1, s.ch, s.cl, s.dh, 0, s.es, 0⟩

/-- The part behind `jc error`. -/
def advance (s : State β) : Target × State β :=
  let s := { s with es := s.es + 0x20, cl := s.cl + 1 }
  if s.cl ≤ 18 then (.oslReadLoop, s)
  else
    let s := { s with cl := 1, dh := s.dh + 1 }
    if s.dh < 2 then (.oslReadLoop, s)
    else
      let s := { s with dh := 0, ch := s.ch + 1 }
      if s.ch < readTracks then (.oslReadLoop, s) else (.boot, s)

/-- The pass from `osl_read_loop` to the next jump. -/
def oslReadLoop (bios : Bios β) (s : State β) : Target × State β :=
  let (carry, world) := bios.disk s.call s.world
  if carry then (.error, { s with world := world }) else advance { s with world := world }

/-- `load_osl` up to its jump. -/
def loadOsl (bios : Bios β) (fuel : Nat) (w : World β) : Option (Target × State β) :=
  doWhile (fun r => oslReadLoop bios r.2) (fun r => r.1 = .oslReadLoop) fuel
    (.oslReadLoop, ⟨0x07e0, 0, 1, 0, w⟩)

/-- From the boot sector to the jump to `0xc000`, or to `fin`. -/
def entry (bios : Bios β) (fuel : Nat) (w : World β) : Option (Target × State β) :=
  (loadOsl bios fuel (bios.print msg w)).map fun (target, s) =>
    (target, if target = .error then { s with world := bios.print errMsg s.world } else s)

end Ipl

def bootFormat : Format := ⟨2, 18, by decide, by decide⟩

def InLoaded (x : U32) : Prop := 0x7c00 ≤ x.toNat ∧ x.toNat < 0x78600

def Keeps (w w' : World β) : Prop := ∀ x, InLoaded x → w'.mem x = w.mem x

theorem Keeps.trans {w₁ w₂ w₃ : World β} (h₁ : Keeps w₁ w₂) (h₂ : Keeps w₂ w₃) : Keeps w₁ w₃ :=
  fun x hx => (h₂ x hx).trans (h₁ x hx)

/-- A request for one sector of a 1.44 MB disk. The buffer ends in the 64 KB it begins in, as the
transfer by DMA needs. -/
structure DiskCall.Readable (c : DiskCall) : Prop where
  function : c.ah = 2
  count : c.al = 1
  drive : c.dl = 0
  place : bootFormat.Valid c.place
  cylinder : c.place.cylinder < 80
  page : c.buffer % 65536 + 512 ≤ 65536
  conventional : c.buffer + 512 ≤ 0xA0000

namespace Bios

variable (bios : Bios β)

/-- The documented behaviour the loader relies on. Nothing is said of requests that are not
`Readable`, nor of the bytes the BIOS itself and its stack use. -/
structure Honest (disk : Nat → U8) : Prop where
  reads : ∀ c w, c.Readable → (bios.disk c w).1 = false → ∀ i < 512,
    (bios.disk c w).2.mem (BitVec.ofNat 32 (c.buffer + i)) =
      disk (512 * bootFormat.number c.place + i)
  disk_keeps : ∀ c w x, c.Readable → InLoaded x →
    x.toNat < c.buffer ∨ c.buffer + 512 ≤ x.toNat → (bios.disk c w).2.mem x = w.mem x
  teletype_keeps : ∀ c w, Keeps w (bios.teletype c w)
  teletype_a20 : ∀ c w, (bios.teletype c w).a20 = w.a20
  videoMode_keeps : ∀ v w, Keeps w (bios.videoMode v w)
  videoMode_a20 : ∀ v w, (bios.videoMode v w).a20 = w.a20
  a20_keeps : ∀ ax w, Keeps w (bios.a20 ax w).2
  enables : ∀ w, (bios.a20 0x2401 w).1.failed = false → (bios.a20 0x2401 w).2.a20 = true

variable {bios} {disk : Nat → U8}

theorem Honest.print_keeps (h : bios.Honest disk) (msg : List U8) (w : World β) :
    Keeps w (bios.print msg w) := by
  induction msg generalizing w with
  | nil => exact fun _ _ => rfl
  | cons c msg ih => exact (h.teletype_keeps c w).trans (ih (bios.teletype c w))

theorem Honest.print_a20 (h : bios.Honest disk) (msg : List U8) (w : World β) :
    (bios.print msg w).a20 = w.a20 := by
  induction msg generalizing w with
  | nil => rfl
  | cons c msg ih => exact (ih (bios.teletype c w)).trans (h.teletype_a20 c w)

end Bios

namespace Ipl

structure Counts (x : Place) (s : State β) : Prop where
  ch : s.ch = BitVec.ofNat 8 x.cylinder
  cl : s.cl = BitVec.ofNat 8 x.sector
  dh : s.dh = BitVec.ofNat 8 x.head

structure AtSector (disk : Nat → U8) (k : Nat) (s : State β) : Prop
    extends Counts (bootFormat.place k) s where
  es : s.es = BitVec.ofNat 16 (0x7e0 + 0x20 * k)
  loaded : ∀ i < 512 * k, s.world.mem (BitVec.ofNat 32 (0x7e00 + i)) = disk i

variable {bios : Bios β} {disk : Nat → U8} {k : Nat} {s : State β}

theorem AtSector.call_place (h : AtSector disk k s) (hk : k < 900) :
    s.call.place = bootFormat.place k := by
  have hcylinder : (bootFormat.place k).cylinder = k / 36 := rfl
  have hhead : (bootFormat.place k).head = k / 18 % 2 := rfl
  have hsector : (bootFormat.place k).sector = k % 18 + 1 := rfl
  unfold DiskCall.place State.call
  dsimp only
  rw [h.ch, h.cl, h.dh, BitVec.toNat_ofNat, BitVec.toNat_ofNat, BitVec.toNat_ofNat]
  apply Place.ext <;> dsimp only <;> omega

theorem AtSector.call_buffer (h : AtSector disk k s) (hk : k < 900) :
    s.call.buffer = 0x7e00 + 512 * k := by
  unfold DiskCall.buffer State.call
  dsimp only
  rw [h.es, BitVec.toNat_ofNat]
  change _ + 0 = _
  omega

/-- Every request of the loop is one that a BIOS answers, and no buffer crosses a 64 KB boundary. -/
theorem AtSector.call_readable (h : AtSector disk k s) (hk : k < 900) : s.call.Readable where
  function := rfl
  count := rfl
  drive := rfl
  place := by
    rw [h.call_place hk]
    exact bootFormat.place_valid k
  cylinder := by
    rw [h.call_place hk]
    change k / 36 < 80
    omega
  page := by
    rw [h.call_buffer hk]
    omega
  conventional := by
    rw [h.call_buffer hk]
    omega

theorem AtSector.loaded_succ (h : AtSector disk k s) (hk : k < 900) (hbios : bios.Honest disk)
    (hcarry : (bios.disk s.call s.world).1 = false) : ∀ i < 512 * (k + 1),
      (bios.disk s.call s.world).2.mem (BitVec.ofNat 32 (0x7e00 + i)) = disk i := by
  intro i hi
  have hcall := h.call_readable hk
  have haddr : (BitVec.ofNat 32 (0x7e00 + i)).toNat = 0x7e00 + i := by
    rw [BitVec.toNat_ofNat]
    omega
  by_cases hold : i < 512 * k
  · rw [hbios.disk_keeps _ _ _ hcall, h.loaded i hold]
    · unfold InLoaded
      omega
    · left
      rw [h.call_buffer hk, haddr]
      omega
  · have hread := hbios.reads _ s.world hcall hcarry (i - 512 * k) (by omega)
    rw [h.call_buffer hk, h.call_place hk, Format.number_place] at hread
    rwa [show 0x7e00 + 512 * k + (i - 512 * k) = 0x7e00 + i by omega,
      show 512 * k + (i - 512 * k) = i by omega] at hread

theorem Counts.advance {x : Place} (h : Counts x s) (hvalid : bootFormat.Valid x)
    (hcylinder : x.cylinder < 25) : Counts (bootFormat.next x) (advance s).2 ∧
      (advance s).1 = if (bootFormat.next x).cylinder < 25 then .oslReadLoop else .boot := by
  have hsector : x.sector ≤ 18 := hvalid.sector
  have hhead : x.head < 2 := hvalid.head
  have hcl : (BitVec.ofNat 8 x.sector + 1 ≤ 18) ↔ x.sector < bootFormat.sectors := by
    change _ ↔ x.sector < 18
    bv_omega
  have hdh : (BitVec.ofNat 8 x.head + 1 < 2) ↔ x.head + 1 < bootFormat.heads := by
    change _ ↔ x.head + 1 < 2
    bv_omega
  have hch : (BitVec.ofNat 8 x.cylinder + 1 < readTracks) ↔ x.cylinder + 1 < 25 := by
    unfold readTracks
    bv_omega
  have hsucc : ∀ n : Nat, BitVec.ofNat 8 n + 1 = BitVec.ofNat 8 (n + 1) :=
    fun n => (BitVec.ofNat_add n 1).symm
  unfold Ipl.advance Format.next
  dsimp only
  rw [h.cl, h.dh, h.ch]
  simp only [hcl, hdh, hch]
  by_cases hs : x.sector < bootFormat.sectors
  · rw [if_pos hs, if_pos hs, if_pos hcylinder]
    exact ⟨⟨rfl, hsucc _, rfl⟩, rfl⟩
  · rw [if_neg hs, if_neg hs]
    by_cases hh : x.head + 1 < bootFormat.heads
    · rw [if_pos hh, if_pos hh, if_pos hcylinder]
      exact ⟨⟨rfl, rfl, hsucc _⟩, rfl⟩
    · rw [if_neg hh, if_neg hh]
      dsimp only
      split
      · exact ⟨⟨hsucc _, rfl, rfl⟩, rfl⟩
      · exact ⟨⟨hsucc _, rfl, rfl⟩, rfl⟩

theorem advance_fixed (s : State β) :
    (advance s).2.es = s.es + 0x20 ∧ (advance s).2.world = s.world := by
  unfold advance
  dsimp only
  split
  · exact ⟨rfl, rfl⟩
  · split
    · exact ⟨rfl, rfl⟩
    · split <;> exact ⟨rfl, rfl⟩

def target (k : Nat) : Target := if k < 900 then .oslReadLoop else .boot

/-- A pass whose call fails ends the loop; another one moves on by one sector. -/
theorem AtSector.pass (h : AtSector disk k s) (hk : k < 900) (hbios : bios.Honest disk) :
    ((oslReadLoop bios s).1 = .error ∧
        bios.disk s.call s.world = (true, (oslReadLoop bios s).2.world)) ∨
      ((oslReadLoop bios s).1 = target (k + 1) ∧ AtSector disk (k + 1) (oslReadLoop bios s).2) := by
  have hloaded := h.loaded_succ hk hbios
  unfold oslReadLoop
  dsimp only
  cases hcarry : (bios.disk s.call s.world).1 with
  | true => exact Or.inl ⟨rfl, Prod.ext hcarry rfl⟩
  | false =>
    right
    have hcounts : Counts (bootFormat.place k) { s with world := (bios.disk s.call s.world).2 } :=
      ⟨h.ch, h.cl, h.dh⟩
    have hplace : (bootFormat.place k).cylinder < 25 := by
      change k / 36 < 25
      omega
    obtain ⟨hnext, htarget⟩ := hcounts.advance (bootFormat.place_valid k) hplace
    obtain ⟨hes, hworld⟩ := advance_fixed { s with world := (bios.disk s.call s.world).2 }
    rw [← Format.place_succ] at hnext htarget
    refine ⟨htarget.trans ?_, ⟨hnext, ?_, ?_⟩⟩
    · change (if (k + 1) / 36 < 25 then Target.oslReadLoop else .boot) = target (k + 1)
      unfold target
      congr 1
      apply propext
      omega
    · change (advance _).2.es = _
      rw [hes]
      change s.es + 0x20 = _
      rw [h.es]
      exact (BitVec.ofNat_add _ 0x20).symm
    · intro i hi
      change (advance _).2.world.mem _ = _
      rw [hworld]
      exact hloaded hcarry i hi

/-- The call for one of the sectors has failed and left `w`. -/
def ReadFailed (bios : Bios β) (disk : Nat → U8) (w : World β) : Prop :=
  ∃ k < 900, ∃ s, AtSector disk k s ∧ bios.disk s.call s.world = (true, w)

def Ended (bios : Bios β) (disk : Nat → U8) (r : Target × State β) : Prop :=
  r.1 = .error ∧ ReadFailed bios disk r.2.world ∨ r.1 = .boot ∧ AtSector disk 900 r.2

/-- The loop from sector `k` on, by what is left to read. -/
theorem AtSector.run (hbios : bios.Honest disk) {n : Nat} (hn : k + n + 1 = 900)
    (h : AtSector disk k s) (t : Target) : ∃ fuel r,
      doWhile (fun r => oslReadLoop bios r.2) (fun r => r.1 = .oslReadLoop) fuel (t, s) = some r ∧
        Ended bios disk r := by
  induction n generalizing k s t with
  | zero =>
    refine ⟨1, oslReadLoop bios s, ?_, ?_⟩
    all_goals rcases h.pass (by omega) hbios with ⟨herror, hfails⟩ | ⟨hboot, hlast⟩
    · simp [doWhile, herror]
    · simp [doWhile, hboot, target, hn]
    · exact Or.inl ⟨herror, k, by omega, s, h, hfails⟩
    · rw [target, if_neg (by omega)] at hboot
      rw [hn] at hlast
      exact Or.inr ⟨hboot, hlast⟩
  | succ n ih =>
    rcases h.pass (by omega) hbios with ⟨herror, hfails⟩ | ⟨hagain, hnext⟩
    · exact ⟨1, oslReadLoop bios s, by simp [doWhile, herror],
        Or.inl ⟨herror, k, by omega, s, h, hfails⟩⟩
    · rw [target, if_pos (by omega)] at hagain
      obtain ⟨fuel, r, hrun, hend⟩ := ih (by omega) hnext (oslReadLoop bios s).1
      refine ⟨fuel + 1, r, ?_, hend⟩
      rw [doWhile, if_pos (decide_eq_true hagain)]
      exact hrun

/-- The boot sector ends in its error loop only if a read fails; else the disk's first 900 sectors
stand in memory. -/
theorem entry_ends (hbios : bios.Honest disk) (w : World β) : ∃ fuel r,
    entry bios fuel w = some r ∧
      ((r.1 = .error ∧ ∃ w', ReadFailed bios disk w' ∧ r.2.world = bios.print errMsg w') ∨
        r.1 = .boot ∧ AtSector disk 900 r.2) := by
  have hstart : AtSector disk 0 ⟨0x07e0, 0, 1, 0, bios.print msg w⟩ :=
    ⟨⟨rfl, rfl, rfl⟩, rfl, fun i hi => absurd hi (Nat.not_lt_zero i)⟩
  obtain ⟨fuel, ⟨t, s⟩, hrun, hend⟩ := hstart.run hbios (n := 899) rfl .oslReadLoop
  refine ⟨fuel, _, by rw [entry, loadOsl, hrun, Option.map_some], ?_⟩
  rcases hend with ⟨herror, hfails⟩ | ⟨hboot, hlast⟩
  · refine Or.inl ⟨herror, s.world, hfails, ?_⟩
    dsimp only
    rw [if_pos herror]
  · have hne : t ≠ .error := by
      rw [show t = .boot from hboot]
      decide
    refine Or.inr ⟨hboot, ?_⟩
    dsimp only
    rwa [if_neg hne]

end Ipl

end Uroboros
