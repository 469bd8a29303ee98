import Uroboros.EnablePaging
import Uroboros.Ipl

/-!
# The second stage of the loader

`boot.s` switches the A20 gate on, enters protected mode, copies the kernel
behind itself to `0x100000` and jumps there. `kernel` is the address of its last
label, where the build appends the kernel.
-/

set_option autoImplicit false

namespace Uroboros

open ByteMemory ForLoop

variable {β : Type}

namespace BootLoader

def kernelSize : U32 := 1024 * 900

/-- The text, and the closing zero that is left in `al`. -/
def biosPutstr (bios : Bios β) (msg : List U8) (w : World β) : U8 × World β :=
  (0, bios.print msg w)

def msgA200 : List U8 := text "!BOOT! A20 Line\r\n"
def msgA201 : List U8 := text " BIOS support enable A20 by INT 15h.\r\n"
def msgA202 : List U8 := text " Success to get A20 status : "
def msgA203 : List U8 := text "Disable\r\n Try to enable A20 Line.\r\n"
def msgA204 : List U8 := text "Enable\r\n"
def msgGdt0 : List U8 := text "!BOOT! GDT initialize..."
def msgErrorA20 : List U8 := text "Failed to enable A20 Line."
def msg : List U8 := text "!BOOT! start 2nd stage bootloader\r\n"

/-- From `enable_a20` to `init_gdt`, or to `error_a20`. -/
def enableA20 (bios : Bios β) (w : World β) : Bool × World β :=
  let (_, w) := biosPutstr bios msgA200 w
  let (r, w) := bios.a20 0x2403 w
  if r.failed then (false, w)
  else
    let (_, w) := biosPutstr bios msgA201 w
    let (r, w) := bios.a20 0x2402 w
    if r.failed then (false, w)
    else
      -- the text overwrites the status that the test is after
      let (al, w) := biosPutstr bios msgA202 w
      if al = 1 then
        let (_, w) := biosPutstr bios msgA204 w
        (true, w)
      else
        let (_, w) := biosPutstr bios msgA203 w
        let (r, w) := bios.a20 0x2401 w
        (!r.failed, w)

/-- The address the memory sees. -/
def gate (a20 : Bool) (a : U32) : U32 := if a20 then a else a &&& 0xFFEFFFFF

def gatedLoad32 (a20 : Bool) (m : Mem) (a : U32) : U32 := load32 (fun x => m (gate a20 x)) a

def gatedStore32 (a20 : Bool) (m : Mem) (a w : U32) : Mem :=
  store8 (store8 (store8 (store8 m (gate a20 a) (w.extractLsb' 0 8))
    (gate a20 (a + 1)) (w.extractLsb' 8 8)) (gate a20 (a + 2)) (w.extractLsb' 16 8))
    (gate a20 (a + 3)) (w.extractLsb' 24 8)

structure Copying where
  esi : U32
  edi : U32
  ecx : U32
  mem : Mem

def memcpyPass (a20 : Bool) (s : Copying) : Copying where
  esi := s.esi + 4
  edi := s.edi + 4
  ecx := s.ecx - 1
  mem := gatedStore32 a20 s.mem s.edi (gatedLoad32 a20 s.mem s.esi)

def memcpyAgain (s : Copying) : Bool := s.ecx != 0

structure Handover (β : Type) where
  cr0 : U32
  esp : U32
  eip : U32
  world : World β

inductive Outcome (β : Type) where
  /-- the loop at `fin` -/
  | fin (w : World β)
  | kernel (h : Handover β)

/-- `ret` is the address behind `call memcpy`. Another return address would lead out of the code. -/
def entryProtectMode (fuel : Nat) (kernel ret cr0 : U32) (w : World β) : Option (Outcome β) :=
  let esp : U32 := 0x90000 - 4
  let mem := gatedStore32 w.a20 w.mem esp ret
  (doWhile (memcpyPass w.a20) memcpyAgain fuel ⟨kernel, 0x00100000, kernelSize / 4, mem⟩).bind
    fun c =>
      if gatedLoad32 w.a20 c.mem esp = ret then
        some (.kernel ⟨cr0, 0x00031000, 0x00100000, { w with mem := c.mem }⟩)
      else none

/-- `boot.s` from `boot` on. -/
def boot (bios : Bios β) (fuel : Nat) (kernel ret cr0 : U32) (w : World β) : Option (Outcome β) :=
  let (_, w) := biosPutstr bios msg w
  let (enabled, w) := enableA20 bios w
  if enabled then
    let (_, w) := biosPutstr bios msgGdt0 w
    let w := bios.videoMode 0x13 w
    entryProtectMode fuel kernel ret ((cr0 &&& 0x7fffffff) ||| 0x00000001) w
  else
    let (_, w) := biosPutstr bios msgErrorA20 w
    some (.fin w)

def loader (bios : Bios β) (reads words : Nat) (kernel ret cr0 : U32) (w : World β) :
    Option (Outcome β) :=
  (Ipl.entry bios reads w).bind fun (target, s) =>
    if target = .boot then boot bios words kernel ret cr0 s.world else some (.fin s.world)

section Gate

variable {bios : Bios β} {disk : Nat → U8}

theorem enableA20_eq (w : World β) : enableA20 bios w =
    let q := bios.a20 0x2403 (bios.print msgA200 w)
    let r := bios.a20 0x2402 (bios.print msgA201 q.2)
    let a := bios.a20 0x2401 (bios.print msgA203 (bios.print msgA202 r.2))
    if q.1.failed then (false, q.2)
    else if r.1.failed then (false, r.2)
    else (!a.1.failed, a.2) := rfl

/-- What `enable_a20` leaves of `w`: without a failing call the gate is on. -/
structure GateTried (bios : Bios β) (w : World β) (r : Bool × World β) : Prop where
  on : r.1 = true → r.2.a20 = true
  failed : r.1 = false → ∃ ax ∈ [0x2403, 0x2402, 0x2401], ∃ w', Keeps w w' ∧
    (bios.a20 ax w').1.failed = true ∧ (bios.a20 ax w').2 = r.2
  kept : Keeps w r.2

theorem enableA20_tried (hbios : bios.Honest disk) (w : World β) :
    GateTried bios w (enableA20 bios w) := by
  rw [enableA20_eq]
  extract_lets q r a
  have hprint₀ : Keeps w (bios.print msgA200 w) := hbios.print_keeps msgA200 w
  have hq : Keeps w q.2 := hprint₀.trans (hbios.a20_keeps 0x2403 _)
  have hprint₁ : Keeps w (bios.print msgA201 q.2) := hq.trans (hbios.print_keeps msgA201 q.2)
  have hr : Keeps w r.2 := hprint₁.trans (hbios.a20_keeps 0x2402 _)
  have hprint₂ : Keeps w (bios.print msgA203 (bios.print msgA202 r.2)) :=
    hr.trans ((hbios.print_keeps msgA202 r.2).trans (hbios.print_keeps msgA203 _))
  have ha : Keeps w a.2 := hprint₂.trans (hbios.a20_keeps 0x2401 _)
  by_cases hcheck : q.1.failed = true
  · rw [if_pos hcheck]
    exact ⟨fun h => Bool.noConfusion h, fun _ => ⟨_, by simp, _, hprint₀, hcheck, rfl⟩, hq⟩
  · rw [if_neg hcheck]
    by_cases hstatus : r.1.failed = true
    · rw [if_pos hstatus]
      exact ⟨fun h => Bool.noConfusion h, fun _ => ⟨_, by simp, _, hprint₁, hstatus, rfl⟩, hr⟩
    · rw [if_neg hstatus]
      refine ⟨fun h => ?_, fun h => ?_, ha⟩
      · have hdone : a.1.failed = false := by simpa using h
        exact hbios.enables _ hdone
      · have hnot : a.1.failed = true := by simpa using h
        exact ⟨_, by simp, _, hprint₂, hnot, rfl⟩

end Gate

section Copy

variable {kernel : U32} {mem : Mem}

theorem gatedLoad32_on (m : Mem) (a : U32) : gatedLoad32 true m a = load32 m a := rfl

theorem gatedStore32_on (m : Mem) (a w : U32) : gatedStore32 true m a w = store32 m a w := rfl

/-- After `k` passes with the gate on, `k` words of the kernel stand at `0x100000`. -/
theorem memcpyPass_iterate (hlast : kernel.toNat + 0xE1000 ≤ 0x100000) {k : Nat} (hk : k ≤ 230400) :
    (memcpyPass true)^[k] ⟨kernel, 0x00100000, kernelSize / 4, mem⟩ =
      ⟨kernel + BitVec.ofNat 32 (4 * k), 0x00100000 + BitVec.ofNat 32 (4 * k),
        BitVec.ofNat 32 (230400 - k),
        ByteMemory.overlay mem 0x00100000 (4 * k) fun i => mem (kernel + BitVec.ofNat 32 i)⟩ := by
  induction k with
  | zero =>
    rw [Nat.mul_zero, ByteMemory.overlay_zero, BitVec.add_zero, BitVec.add_zero]
    rfl
  | succ k ih =>
    have hcopy := @copyWord_overlay mem 0x00100000 (kernel + BitVec.ofNat 32 (4 * k)) (4 * k)
      (fun i => mem (kernel + BitVec.ofNat 32 i))
      (fun i _ => by rw [BitVec.add_assoc, BitVec.ofNat_add])
      ⟨by bv_omega, by bv_omega⟩ (by omega)
    have hnext : ∀ a : U32, a + BitVec.ofNat 32 (4 * k) + 4 = a + BitVec.ofNat 32 (4 * (k + 1)) := by
      intro a
      rw [Nat.mul_succ, BitVec.ofNat_add, BitVec.add_assoc]
      rfl
    have hcount : BitVec.ofNat 32 (230400 - k) - 1 = BitVec.ofNat 32 (230400 - (k + 1)) := by
      bv_omega
    rw [Function.iterate_succ_apply', ih (by omega), memcpyPass]
    dsimp only
    rw [gatedLoad32_on, gatedStore32_on, hcopy, hnext, hnext, hcount]
    rfl

theorem doWhile_memcpy (hlast : kernel.toNat + 0xE1000 ≤ 0x100000) : ∃ c : Copying,
    doWhile (memcpyPass true) memcpyAgain 230400 ⟨kernel, 0x00100000, kernelSize / 4, mem⟩ = some c ∧
      c.mem = ByteMemory.overlay mem 0x00100000 0xE1000 fun i => mem (kernel + BitVec.ofNat 32 i) := by
  refine ⟨_, doWhile_iterate ?_ ?_, ?_⟩
  · rw [memcpyPass_iterate hlast (Nat.le_refl _)]
    rfl
  · intro j hj
    rw [memcpyPass_iterate hlast (by omega), memcpyAgain, bne_iff_ne]
    bv_omega
  · rw [memcpyPass_iterate hlast (Nat.le_refl _)]

end Copy

section Run

variable {bios : Bios β} {disk : Nat → U8} {kernel ret cr0 : U32} {w : World β}

def Loaded (disk : Nat → U8) (w : World β) : Prop :=
  ∀ i < 512 * 900, w.mem (BitVec.ofNat 32 (0x7e00 + i)) = disk i

theorem Loaded.keeps {w' : World β} (h : Loaded disk w) (hkeeps : Keeps w w') : Loaded disk w' := by
  intro i hi
  rw [hkeeps, h i hi]
  unfold InLoaded
  bv_omega

/-- The kernel starts in protected mode with paging off and the gate on. Of its image only what lay
on the sectors read has arrived. -/
structure Started (disk : Nat → U8) (kernel cr0 : U32) (h : Handover β) : Prop where
  cr0 : h.cr0 = (cr0 &&& 0x7fffffff) ||| 1
  esp : h.esp = EnablePaging.orgStackBase
  eip : h.eip = kernelAddr
  a20 : h.world.a20 = true
  image : ∀ off, kernel.toNat + off < 0x78600 →
    h.world.mem (kernelAddr + BitVec.ofNat 32 off) = disk (kernel.toNat - 0x7e00 + off)

theorem entryProtectMode_starts (hloaded : Loaded disk w) (ha20 : w.a20 = true)
    (hfirst : 0xc000 ≤ kernel.toNat) (hlast : kernel.toNat ≤ 0x10005) : ∃ h : Handover β,
      entryProtectMode 230400 kernel ret ((cr0 &&& 0x7fffffff) ||| 1) w = some (.kernel h) ∧
        Started disk kernel cr0 h := by
  obtain ⟨c, hloop, hmem⟩ := @doWhile_memcpy kernel (store32 w.mem 0x8FFFC ret) (by omega)
  have hreturn : load32 c.mem 0x8FFFC = ret := by
    refine (load32_congr fun i hi => ?_).trans (load32_store32_same w.mem 0x8FFFC ret)
    rw [hmem]
    apply ByteMemory.overlay_of_le
    bv_omega
  refine ⟨⟨(cr0 &&& 0x7fffffff) ||| 1, 0x00031000, 0x00100000, { w with mem := c.mem }⟩, ?_, ?_⟩
  · unfold entryProtectMode
    dsimp only
    rw [ha20, gatedStore32_on, show (0x90000 - 4 : U32) = 0x8FFFC from rfl, hloop, Option.bind_some,
      gatedLoad32_on, if_pos hreturn]
  · refine ⟨rfl, rfl, rfl, ha20, fun off hoff => ?_⟩
    have haddr : kernel + BitVec.ofNat 32 off =
        BitVec.ofNat 32 (0x7e00 + (kernel.toNat - 0x7e00 + off)) := by
      bv_omega
    change c.mem (0x00100000 + BitVec.ofNat 32 off) = _
    rw [hmem, ByteMemory.overlay_apply (by omega) (by decide), store32_frame _ _ (by decide), haddr,
      hloaded _ (by omega)]
    left
    bv_omega

/-- One of the calls for the gate has failed and left `w`. -/
def A20Failed (bios : Bios β) (disk : Nat → U8) (w : World β) : Prop :=
  ∃ ax ∈ [0x2403, 0x2402, 0x2401], ∃ w', Loaded disk w' ∧
    (bios.a20 ax w').1.failed = true ∧ (bios.a20 ax w').2 = w

/-- The loop at `fin`, behind the call that failed and the text that says so. -/
inductive Failed (bios : Bios β) (disk : Nat → U8) : World β → Prop
  | read {w : World β} (h : Ipl.ReadFailed bios disk w) : Failed bios disk (bios.print Ipl.errMsg w)
  | a20 {w : World β} (h : A20Failed bios disk w) : Failed bios disk (bios.print msgErrorA20 w)

def Booted (bios : Bios β) (disk : Nat → U8) (kernel cr0 : U32) : Outcome β → Prop
  | .fin w => Failed bios disk w
  | .kernel h => Started disk kernel cr0 h

theorem boot_ends (hbios : bios.Honest disk) (hloaded : Loaded disk w)
    (hfirst : 0xc000 ≤ kernel.toNat) (hlast : kernel.toNat ≤ 0x10005) (ret : U32) : ∃ o,
      boot bios 230400 kernel ret cr0 w = some o ∧ Booted bios disk kernel cr0 o := by
  have hprint := hloaded.keeps (hbios.print_keeps msg w)
  have htried := enableA20_tried hbios (bios.print msg w)
  unfold boot biosPutstr
  dsimp only
  cases hon : (enableA20 bios (bios.print msg w)).1 with
  | false =>
    obtain ⟨ax, hax, w', hkeeps, hfailed, hleft⟩ := htried.failed hon
    exact ⟨_, rfl, Failed.a20 ⟨ax, hax, w', hprint.keeps hkeeps, hfailed, hleft⟩⟩
  | true =>
    have hscreen := (htried.kept.trans (hbios.print_keeps msgGdt0 _)).trans
      (hbios.videoMode_keeps 0x13 _)
    have ha20 : (bios.videoMode 0x13 (bios.print msgGdt0
        (enableA20 bios (bios.print msg w)).2)).a20 = true := by
      rw [hbios.videoMode_a20, hbios.print_a20, htried.on hon]
    obtain ⟨h, hstart, hstarted⟩ := @entryProtectMode_starts β disk kernel ret cr0 _
      (hprint.keeps hscreen) ha20 hfirst hlast
    exact ⟨.kernel h, hstart, hstarted⟩

theorem loader_ends (hbios : bios.Honest disk) (hfirst : 0xc000 ≤ kernel.toNat)
    (hlast : kernel.toNat ≤ 0x10005) (ret : U32) (w : World β) : ∃ reads o,
      loader bios reads 230400 kernel ret cr0 w = some o ∧ Booted bios disk kernel cr0 o := by
  obtain ⟨reads, ⟨t, s⟩, hentry, hended⟩ := Ipl.entry_ends hbios w
  rcases hended with ⟨herror, w', hfails, hworld⟩ | ⟨hboot, hat⟩
  · have hne : t ≠ .boot := by
      rw [show t = .error from herror]
      decide
    have hfin : Failed bios disk s.world := by
      rw [show s.world = bios.print Ipl.errMsg w' from hworld]
      exact Failed.read hfails
    refine ⟨reads, .fin s.world, ?_, hfin⟩
    rw [loader, hentry, Option.bind_some]
    exact if_neg hne
  · obtain ⟨o, hrun, hbooted⟩ := @boot_ends β bios disk kernel cr0 s.world hbios hat.loaded
      hfirst hlast ret
    refine ⟨reads, o, ?_, hbooted⟩
    rw [loader, hentry, Option.bind_some]
    exact (if_pos hboot).trans hrun

/-- The kernel has come from its first instruction to `enable_paging`. So far it has written to its
stack, and what `init_kernel_mem` and the loop behind it write. -/
def UpToCall (h : Handover β) (s : EnablePaging.State) : Prop :=
  ∃ newStackP m₀, (∀ x, 0x40000 ≤ x.toNat → m₀ x = h.world.mem x) ∧
    EnablePaging.AtCall h.cr0 newStackP m₀ s

/-- What the kernel fetches once paging is on is what the build put on the boot disk. -/
theorem startUp_runs_image (hbios : bios.Honest disk) (hfirst : 0xc000 ≤ kernel.toNat)
    (hlast : kernel.toNat ≤ 0x10005) (ret : U32) (w : World β) : ∃ reads words o,
      loader bios reads words kernel ret cr0 w = some o ∧ Booted bios disk kernel cr0 o ∧
        ∀ h s, o = .kernel h → UpToCall h s → ∃ fuel t, EnablePaging.enablePaging fuel s = some t ∧
          t.m.eip = s.m.top ∧ ∀ off, kernel.toNat + off < 0x78600 →
            virtualByte t.m.mem t.cr3 (kernelAddr + BitVec.ofNat 32 off) =
              some (disk (kernel.toNat - 0x7e00 + off)) := by
  obtain ⟨reads, o, hrun, hbooted⟩ := @loader_ends β bios disk kernel cr0 hbios hfirst hlast ret w
  refine ⟨reads, 230400, o, hrun, hbooted, ?_⟩
  rintro h s rfl ⟨newStackP, m₀, hsame, hcall⟩
  obtain ⟨eax, heq⟩ := hcall.enablePaging_eq
  refine ⟨_, _, heq, rfl, fun off hoff => ?_⟩
  have hkernel : kernelAddr.toNat = 0x100000 := rfl
  have hsize : Uroboros.kernelSize.toNat = 0x400000 := rfl
  have hinside : BitVec.ofNat 32 off < Uroboros.kernelSize := by bv_omega
  have hbyte := hcall.virtualByte_image hinside
  rw [hsame _ (by bv_omega), Started.image hbooted off hoff] at hbyte
  exact hbyte

end Run

def idealBios (disk : Nat → U8) : Bios Unit where
  teletype _ w := w
  videoMode _ w := w
  disk c w := (false, { w with
    mem := ByteMemory.overlay w.mem (BitVec.ofNat 32 c.buffer) 512
      fun i => disk (512 * bootFormat.number c.place + i) })
  a20 ax w := (⟨false, 0, if w.a20 then 1 else 0⟩, { w with a20 := w.a20 || ax == 0x2401 })

theorem idealBios_honest (disk : Nat → U8) : (idealBios disk).Honest disk where
  reads c w hc _ i hi := by
    have hroom := hc.conventional
    change ByteMemory.overlay w.mem (BitVec.ofNat 32 c.buffer) 512
      (fun i => disk (512 * bootFormat.number c.place + i)) (BitVec.ofNat 32 (c.buffer + i)) = _
    rw [BitVec.ofNat_add, ByteMemory.overlay_apply hi (by decide)]
  disk_keeps c w x hc hx hout := by
    have hroom := hc.conventional
    change ByteMemory.overlay w.mem (BitVec.ofNat 32 c.buffer) 512
      (fun i => disk (512 * bootFormat.number c.place + i)) x = w.mem x
    apply ByteMemory.overlay_of_le
    bv_omega
  teletype_keeps _ _ _ _ := rfl
  teletype_a20 _ _ := rfl
  videoMode_keeps _ _ _ _ := rfl
  videoMode_a20 _ _ := rfl
  a20_keeps _ _ _ _ := rfl
  enables w _ := Bool.or_true w.a20

def countingDisk (n : Nat) : U8 := BitVec.ofNat 8 n

theorem idealBios_ready (disk : Nat → U8) (w : World Unit) : ¬ Failed (idealBios disk) disk w := by
  rintro (⟨_, _, s, _, hcarry⟩ | ⟨ax, _, w', _, hfailed, _⟩)
  · exact Bool.false_ne_true (congrArg Prod.fst hcarry)
  · exact Bool.false_ne_true hfailed

/-- A disk that is read to its end, up to the call of `enable_paging` and behind it. -/
theorem startUp_runs_image_ideal : ∃ reads words h,
    loader (idealBios countingDisk) reads words 0xc400 0xc2f0 0x10 ⟨fun _ => 0, false, ()⟩ =
        some (.kernel h) ∧
      Started countingDisk 0xc400 0x10 h ∧
      UpToCall h (EnablePaging.callState h.cr0 h.world.mem) ∧
      ∃ fuel t, EnablePaging.enablePaging fuel (EnablePaging.callState h.cr0 h.world.mem) = some t ∧
        t.m.eip = 0x100040 ∧ ∀ off, (0xc400 : U32).toNat + off < 0x78600 →
          virtualByte t.m.mem t.cr3 (kernelAddr + BitVec.ofNat 32 off) =
            some (countingDisk ((0xc400 : U32).toNat - 0x7e00 + off)) := by
  obtain ⟨reads, words, o, hrun, hbooted, hpaged⟩ := @startUp_runs_image Unit
    (idealBios countingDisk) countingDisk 0xc400 0x10 (idealBios_honest countingDisk) (by decide)
    (by decide) 0xc2f0 ⟨fun _ => 0, false, ()⟩
  cases o with
  | fin w => exact absurd hbooted (idealBios_ready countingDisk w)
  | kernel h =>
    have hcall : UpToCall h (EnablePaging.callState h.cr0 h.world.mem) :=
      ⟨0, h.world.mem, fun _ _ => rfl, EnablePaging.callState_atCall h.cr0 h.world.mem⟩
    obtain ⟨fuel, t, hpaging, htop, hbytes⟩ := hpaged h _ rfl hcall
    refine ⟨reads, words, h, hrun, hbooted, hcall, fuel, t, hpaging, ?_, hbytes⟩
    rw [htop]
    exact EnablePaging.callState_top h.cr0 h.world.mem

end BootLoader

end Uroboros
