import Uroboros.Lib.Fifo
import Uroboros.Lib.Transducer
import Uroboros.Preemption

/-!
# The byte queue as a bounded list

Calls of `q8_in` and `q8_de` one after another, with no interrupt between their
statements. The ring of `q->size` cells behaves as a list of at most
`q->size - 1` bytes; one cell stays empty so that a full queue is not taken for an
empty one.
-/

set_option autoImplicit false

namespace Uroboros

inductive QueueCall where
  | q8In (data : U8)
  | q8De

/-- What a call returns, and the index into `q->buf` that it uses. -/
structure QueueAnswer where
  value : Option U8
  index : Option Nat

/-- A call; `none` is the division fault of `% q->size`. -/
def Queue8.call (q : Queue8) : QueueCall → Option (QueueAnswer × Queue8)
  | .q8In data =>
    if q.size = 0 then none
    else some (⟨none, if q8Full q then none else some q.tail.toNat⟩, q8In q data)
  | .q8De =>
    if q8Empty q then some (⟨some (q8De q).1, none⟩, (q8De q).2)
    else if q.size = 0 then none
    else some (⟨some (q8De q).1, some q.head.toNat⟩, (q8De q).2)

section Call
variable {q : Queue8}

theorem call_in (hsize : q.size ≠ 0) (data : U8) : q.call (.q8In data) =
    some (⟨none, if q8Full q then none else some q.tail.toNat⟩, q8In q data) := if_neg hsize

theorem call_de_empty (hempty : q8Empty q = true) :
    q.call .q8De = some (⟨some q.defaultValue, none⟩, q) := by
  rw [Queue8.call, if_pos hempty, q8De, if_pos hempty]

theorem call_de (hempty : ¬ q8Empty q = true) (hsize : q.size ≠ 0) :
    q.call .q8De = some (⟨some (q8De q).1, some q.head.toNat⟩, (q8De q).2) := by
  rw [Queue8.call, if_neg hempty, if_neg hsize]

end Call

/-- The queue as its callers see it. -/
structure FifoQueue where
  fifo : Fifo U8
  drop : U32
  defaultValue : U8

namespace FifoQueue

def empty (capacity : Nat) (defaultValue : U8) : FifoQueue := ⟨.empty capacity, 0, defaultValue⟩

def call (a : FifoQueue) : QueueCall → Option (Option U8 × FifoQueue)
  | .q8In data => some (none,
    if a.fifo.Full then { a with drop := a.drop + 1 } else { a with fifo := a.fifo.push data })
  | .q8De => some (some (a.fifo.items.head?.getD a.defaultValue), { a with fifo := a.fifo.pop })

end FifoQueue

/-- The cells from `head` on hold the items of `a`, and the others are free. -/
structure Queue8.Represents (q : Queue8) (a : FifoQueue) : Prop where
  valid : q.Valid
  size : q.size.toNat = a.fifo.capacity + 1
  cells : Ring.Holds q.size.toNat q.buf q.head.toNat a.fifo.items
  tail : q.tail.toNat = (q.head.toNat + a.fifo.items.length) % q.size.toNat
  drop : q.drop = a.drop
  defaultValue : q.defaultValue = a.defaultValue

variable {q : Queue8} {a : FifoQueue}

namespace Queue8.Represents

theorem length_lt (h : q.Represents a) : a.fifo.items.length < q.size.toNat := by
  have hroom := a.fifo.room
  rw [h.size]
  omega

theorem size_ne (h : q.Represents a) : q.size ≠ 0 := by
  have hpos := h.valid.size_pos
  bv_omega

theorem usage (h : q.Represents a) : (q8Usage q).toNat = a.fifo.items.length := by
  obtain ⟨hlt, htail⟩ := QueueSystem.q8Usage_spec h.valid
  exact Ring.offset_inj hlt h.length_lt (htail.symm.trans h.tail)

theorem contents (h : q.Represents a) : QueueSystem.contents q = a.fifo.items := by
  rw [QueueSystem.contents, h.usage]
  exact h.cells.read_eq

theorem empty_iff (h : q.Represents a) : q8Empty q = true ↔ a.fifo.items.length = 0 := by
  have hhead : q.head.toNat < q.size.toNat := h.valid.head_lt
  have htail := h.tail
  rw [q8Empty, beq_iff_eq, ← BitVec.toNat_inj, htail]
  constructor
  · intro heq
    apply Ring.offset_inj h.length_lt (Nat.lt_of_le_of_lt (Nat.zero_le _) hhead)
    rw [heq, Nat.add_zero, Nat.mod_eq_of_lt hhead]
  · intro hzero
    rw [hzero, Nat.add_zero, Nat.mod_eq_of_lt hhead]

/-- The queue is full one item before all cells are taken. -/
theorem full_iff (h : q.Represents a) : q8Full q = true ↔ a.fifo.Full := by
  have hhead : q.head.toNat < q.size.toNat := h.valid.head_lt
  have hsucc := Ring.succ_mod_eq_iff (i := q.head.toNat) h.length_lt
  rw [Nat.mod_eq_of_lt hhead] at hsucc
  rw [q8Full, beq_iff_eq, ← BitVec.toNat_inj, BitVec.toNat_umod,
    QueueSystem.toNat_succ h.valid.tail_lt, h.tail, hsucc, h.size, Fifo.Full]
  omega

end Queue8.Represents

theorem represents_init {bufSize : U32} (h : bufSize.toNat + 1 < 2 ^ 32) (buf : Nat → U8)
    (defaultValue : U8) :
    (q8Init buf bufSize defaultValue).Represents (.empty bufSize.toNat defaultValue) := by
  have hsize : (bufSize + 1).toNat = bufSize.toNat + 1 := by
    rw [BitVec.toNat_add]
    exact Nat.mod_eq_of_lt h
  have hne : bufSize + 1 ≠ 0 := by
    intro hzero
    rw [hzero] at hsize
    exact absurd hsize (Nat.succ_ne_zero _).symm
  exact ⟨q8Init_valid hne buf defaultValue, hsize, trivial, (Nat.zero_mod _).symm, rfl, rfl⟩

theorem represents_in (h : q.Represents a) (data : U8) (hfull : ¬ a.fifo.Full) :
    (q8In q data).Represents { a with fifo := a.fifo.push data } := by
  have hvalid := q8In_valid h.valid data
  have hitems := Fifo.push_items hfull data
  have hpush := h.cells.push (x := data) h.length_lt
  rw [← h.tail] at hpush
  rw [q8In_eq (mt h.full_iff.mp hfull)] at hvalid ⊢
  refine ⟨hvalid, ?_, ?_, ?_, h.drop, h.defaultValue⟩
  · rw [Fifo.push_capacity]
    exact h.size
  · rw [hitems]
    exact hpush
  · rw [hitems, BitVec.toNat_umod, QueueSystem.toNat_succ h.valid.tail_lt, h.tail, Nat.mod_add_mod,
      List.length_append, Nat.add_assoc]
    rfl

theorem represents_de (h : q.Represents a) {x : U8} {items : List U8}
    (hitems : a.fifo.items = x :: items) : ¬ q8Empty q = true ∧ (q8De q).1 = x ∧
      (q8De q).2.Represents { a with fifo := a.fifo.pop } := by
  have hhead : q.head.toNat < q.size.toNat := h.valid.head_lt
  have hnot : ¬ q8Empty q = true := by
    rw [h.empty_iff, hitems]
    exact Nat.succ_ne_zero _
  have hsucc : ((q.head + 1) % q.size).toNat = (q.head.toNat + 1) % q.size.toNat := by
    rw [BitVec.toNat_umod, QueueSystem.toNat_succ hhead]
  have hvalid := q8De_valid h.valid
  have hcells := h.cells
  have htail := h.tail
  rw [hitems] at hcells htail
  rw [q8De_eq hnot] at hvalid ⊢
  refine ⟨hnot, ?_, hvalid, h.size, ?_, ?_, h.drop, h.defaultValue⟩
  · rw [← hcells.1, Nat.mod_eq_of_lt hhead]
  · rw [Fifo.pop_items, hitems, hsucc]
    exact hcells.2.congr (Nat.mod_mod ..).symm
  · rw [Fifo.pop_items, hitems, hsucc, Nat.mod_add_mod, htail, List.length_cons, List.tail_cons,
      Nat.add_assoc, Nat.add_comm 1]

theorem call_simulates : Transducer.Simulates Queue8.call FifoQueue.call QueueAnswer.value id
    Queue8.Represents := by
  intro q a c h
  cases c with
  | q8In data =>
    refine ⟨_, _, _, _, call_in h.size_ne data, rfl, rfl, ?_⟩
    split
    · rename_i hfull
      rw [q8In, if_pos (h.full_iff.mpr hfull)]
      exact ⟨⟨h.valid.head_lt, h.valid.tail_lt⟩, h.size, h.cells, h.tail,
        congrArg (· + 1) h.drop, h.defaultValue⟩
    · rename_i hfull
      exact represents_in h data hfull
  | q8De =>
    cases hitems : a.fifo.items with
    | nil =>
      have hempty : q8Empty q = true := h.empty_iff.mpr (by rw [hitems]; rfl)
      refine ⟨_, _, _, _, call_de_empty hempty, rfl, ?_, ?_⟩
      · rw [hitems]
        exact congrArg some h.defaultValue
      · rw [Fifo.pop_of_nil hitems]
        exact h
    | cons x items =>
      obtain ⟨hnot, hx, hnext⟩ := represents_de h hitems
      refine ⟨_, _, _, _, call_de hnot h.size_ne, rfl, ?_, hnext⟩
      rw [hitems]
      exact congrArg some hx

/-- What the queue shows of itself is what the list shows. -/
structure Queue8.Shows (q : Queue8) (a : FifoQueue) : Prop where
  contents : QueueSystem.contents q = a.fifo.items
  usage : (q8Usage q).toNat = a.fifo.items.length
  empty : q8Empty q = true ↔ a.fifo.items.length = 0
  full : q8Full q = true ↔ a.fifo.items.length = q.size.toNat - 1
  drop : q.drop = a.drop

theorem Queue8.Represents.shows (h : q.Represents a) : q.Shows a := by
  refine ⟨h.contents, h.usage, h.empty_iff, ?_, h.drop⟩
  rw [h.full_iff, h.size]
  exact Iff.rfl

/-- After `q8_init` any calls return what a list of at most `q->size - 1` bytes returns, and leave
the queue with what is left on the list. `bytes` is the buffer; it and the record have different
addresses. -/
theorem q8_refines_fifo {bytes : List U8} {bufSize : U32} (hbuf : bufSize.toNat + 1 ≤ bytes.length)
    (hspace : sizeofQueue8.toNat + bytes.length ≤ 2 ^ 32) (defaultValue : U8)
    (calls : List QueueCall) :
    let q := q8Init (fun i => bytes.getD i 0) bufSize defaultValue
    let a := FifoQueue.empty (q.size.toNat - 1) defaultValue
    (Transducer.run Queue8.call calls q).1.length = calls.length ∧
      (Transducer.run Queue8.call calls q).1.map QueueAnswer.value =
        (Transducer.run FifoQueue.call calls a).1 ∧
      (Transducer.run Queue8.call calls q).2.Shows (Transducer.run FifoQueue.call calls a).2 := by
  intro q a
  have hlt : bufSize.toNat + 1 < 2 ^ 32 := by
    have hrecord : sizeofQueue8.toNat = 24 := rfl
    omega
  have hinit := represents_init hlt (fun i => bytes.getD i 0) defaultValue
  have hcapacity : q.size.toNat - 1 = bufSize.toNat := by
    rw [hinit.size]
    rfl
  obtain ⟨hlen, hvalues, hlast⟩ := call_simulates.run hinit calls
  rw [List.map_id] at hvalues
  refine ⟨hlen, ?_, ?_⟩
  · rw [show a = .empty bufSize.toNat defaultValue from congrArg (FifoQueue.empty · _) hcapacity]
    exact hvalues
  · rw [show a = .empty bufSize.toNat defaultValue from congrArg (FifoQueue.empty · _) hcapacity]
    exact hlast.shows

/-- Two bytes of room; the third is dropped, and the ring goes round. -/
theorem q8_refines_fifo_wraps : ∃ q calls,
    q = q8Init (fun i => ([0, 0, 0] : List U8).getD i 0) 2 0xff ∧
      calls = [.q8In 1, .q8In 2, .q8In 3, .q8De, .q8In 4, .q8De, .q8De, .q8De] ∧
      (Transducer.run Queue8.call calls q).1.map QueueAnswer.value =
        [none, none, none, some 1, none, some 2, some 4, some 0xff] ∧
      (Transducer.run Queue8.call calls q).2.drop = 1 := by
  refine ⟨_, _, rfl, rfl, ?_⟩
  obtain ⟨_, hvalues, hshows⟩ := q8_refines_fifo
    (show (2 : U32).toNat + 1 ≤ ([0, 0, 0] : List U8).length by decide) (by decide) 0xff
    [.q8In 1, .q8In 2, .q8In 3, .q8De, .q8In 4, .q8De, .q8De, .q8De]
  rw [hvalues, hshows.drop]
  constructor
  · decide +kernel
  · decide +kernel
/-- The bytes behind the record in the block that `q8_make` requests for a queue of `size` bytes:
`size + 1`, unless the request wraps. -/
def reservedBytes (size : U32) : Nat := (sizeofQueue8 + size + 1).toNat - sizeofQueue8.toNat

/-- How many `q8_in` of the calls find one of `capacity` places free, when `used` are taken. -/
def accepted (capacity : Nat) : List QueueCall → Nat → Nat
  | [], _ => 0
  | .q8In _ :: calls, used =>
    if used < capacity then accepted capacity calls (used + 1) + 1
    else accepted capacity calls used
  | .q8De :: calls, used => accepted capacity calls (used - 1)

def usedIndices (calls : List QueueCall) (q : Queue8) : List Nat :=
  (Transducer.run Queue8.call calls q).1.filterMap QueueAnswer.index

variable {c : QueueCall} {calls : List QueueCall} {w : QueueAnswer} {q' : Queue8}

theorem usedIndices_cons (h : q.call c = some (w, q')) :
    usedIndices (c :: calls) q = w.index.toList ++ usedIndices calls q' := by
  rw [usedIndices, Transducer.run_cons_some h, List.filterMap_cons]
  cases w.index with
  | none => rfl
  | some i => rfl

theorem usedIndices_fault (hsize : q.size = 0) (hempty : q8Empty q = true) :
    usedIndices calls q = [] := by
  induction calls with
  | nil => rfl
  | cons c calls ih =>
    cases c with
    | q8In data =>
      rw [usedIndices, Transducer.run_cons_none (if_pos hsize)]
      rfl
    | q8De =>
      rw [usedIndices_cons (call_de_empty hempty)]
      exact ih

theorem accepted_zero (used : Nat) : accepted 0 calls used = 0 := by
  induction calls generalizing used with
  | nil => rfl
  | cons c calls ih =>
    cases c with
    | q8In data => rw [accepted, if_neg (Nat.not_lt_zero used), ih]
    | q8De => rw [accepted, ih]

/-- Until the ring has gone round once, `tail` is the number of bytes accepted so far. -/
theorem usedIndices_inside_iff {n count : Nat} (h : q.Represents a) (hn : n < q.size.toNat)
    (hcount : count ≤ n) (htail : q.tail.toNat = count)
    (hhead : q.head.toNat + a.fifo.items.length = count) (calls : List QueueCall) :
    (∀ i ∈ usedIndices calls q, i < n) ↔
      count + accepted a.fifo.capacity calls a.fifo.items.length ≤ n := by
  induction calls generalizing q a count with
  | nil => exact iff_of_true (fun i hi => by cases hi) hcount
  | cons c calls ih =>
    cases c with
    | q8In data =>
      rw [usedIndices_cons (call_in h.size_ne data), accepted]
      by_cases hfull : a.fifo.Full
      · have hq : q8Full q = true := h.full_iff.mpr hfull
        rw [if_pos hq, q8In, if_pos hq, if_neg (Nat.not_lt.mpr (Nat.le_of_eq hfull.symm))]
        exact ih (a := { a with drop := a.drop + 1 }) ⟨⟨h.valid.head_lt, h.valid.tail_lt⟩, h.size,
          h.cells, h.tail, congrArg (· + 1) h.drop, h.defaultValue⟩ hn hcount htail hhead
      · have hq : ¬ q8Full q = true := mt h.full_iff.mp hfull
        have hroom : a.fifo.items.length < a.fifo.capacity :=
          Nat.lt_of_le_of_ne a.fifo.room hfull
        rw [if_neg hq, if_pos hroom, Option.toList_some, List.singleton_append,
          List.forall_mem_cons, htail]
        by_cases hlast : count = n
        · refine iff_of_false ?_ ?_
          · rintro ⟨hlt, _⟩
            omega
          · omega
        · have hlen := congrArg List.length (Fifo.push_items hfull data)
          rw [List.length_append, List.length_singleton] at hlen
          have htail' : (q8In q data).tail.toNat = count + 1 := by
            rw [q8In_eq hq, BitVec.toNat_umod, QueueSystem.toNat_succ h.valid.tail_lt, htail,
              Nat.mod_eq_of_lt (by omega)]
          have hhead' : (q8In q data).head.toNat + (a.fifo.push data).items.length = count + 1 := by
            rw [q8In_eq hq, hlen]
            dsimp only
            omega
          have hnext := ih (represents_in h data hfull) (by rw [q8In_size]; exact hn) (by omega)
            htail' hhead'
          rw [Fifo.push_capacity, hlen] at hnext
          rw [hnext, and_iff_right (by omega)]
          omega
    | q8De =>
      rw [accepted]
      cases hitems : a.fifo.items with
      | nil =>
        have hempty : q8Empty q = true := h.empty_iff.mpr (by rw [hitems]; rfl)
        rw [usedIndices_cons (call_de_empty hempty)]
        have hnext := ih h hn hcount htail hhead
        rw [hitems] at hnext
        exact hnext
      | cons x items =>
        obtain ⟨hnot, _, hrep⟩ := represents_de h hitems
        rw [hitems, List.length_cons] at hhead
        rw [usedIndices_cons (call_de hnot h.size_ne), Option.toList_some, List.singleton_append,
          List.forall_mem_cons, and_iff_right (by omega)]
        have htail' : (q8De q).2.tail.toNat = count := by
          rw [q8De_eq hnot]
          exact htail
        have hhead' : (q8De q).2.head.toNat + a.fifo.pop.items.length = count := by
          have hlt : q.head.toNat < q.size.toNat := h.valid.head_lt
          rw [q8De_eq hnot, Fifo.pop_items, hitems, BitVec.toNat_umod, QueueSystem.toNat_succ hlt,
            Nat.mod_eq_of_lt (by omega)]
          dsimp only [List.tail_cons]
          omega
        have hnext := ih hrep (by rw [q8De_size]; exact hn) hcount htail' hhead'
        rw [Fifo.pop_capacity, Fifo.pop_items, hitems, List.tail_cons] at hnext
        exact hnext

/-- The modulus of the ring is one more than the bytes behind the record, so that the calls stay
inside exactly as long as the last cell is not reached. -/
theorem q8Make_indices_inside_iff {s s' : Timers} {fuel : Nat} {k k' : Kernel} {size mem : U32}
    {defaultValue : U8} {bytes : Nat → U8}
    (h : s.q8Make fuel k size defaultValue bytes = some (mem, k', s')) (calls : List QueueCall) :
    (∀ i ∈ usedIndices calls (s'.queue mem), i < reservedBytes size) ↔
      accepted ((size + 2).toNat - 1) calls 0 ≤ reservedBytes size := by
  obtain ⟨_, buf, rfl⟩ := Timers.q8Make_cases h
  rw [Timers.setQueue_self]
  have htwo : size + 1 + 1 = size + 2 := by bv_omega
  by_cases hzero : size + 2 = 0
  · rw [usedIndices_fault (htwo.trans hzero) rfl, hzero]
    refine iff_of_true (fun i hi => by cases hi) ?_
    rw [show (0 : U32).toNat - 1 = 0 from rfl, accepted_zero]
    exact Nat.zero_le _
  · have hsize : (size + 1).toNat + 1 = (size + 2).toNat := by bv_omega
    have hreserved : reservedBytes size < (size + 2).toNat := by
      unfold reservedBytes sizeofQueue8
      bv_omega
    have hroom : (size + 1).toNat + 1 < 2 ^ 32 := by
      rw [hsize]
      exact (size + 2).isLt
    have hinit := represents_init hroom buf defaultValue
    have hinside := usedIndices_inside_iff hinit (n := reservedBytes size)
      (by rw [hinit.size]; exact Nat.lt_of_lt_of_eq hreserved hsize.symm)
      (show 0 ≤ reservedBytes size from Nat.zero_le _) rfl rfl calls
    rw [Nat.zero_add] at hinside
    rw [hinside, ← hsize]
    exact Iff.rfl

def madeQueue (size : U32) (calls : List QueueCall) :
    Option (Kernel × (U32 × Kernel × Timers) × List Nat) :=
  match bareKernel.initVmalloc vmallocStart vmallocInitEnd kernelPdt with
  | .error _ => none
  | .ok k => (noTimers.q8Make vmemMaxUnits k size 0xff fun _ => 0).map fun r =>
    (k, r, usedIndices calls (r.2.2.queue r.1))

theorem madeQueue_cases {size : U32} {calls : List QueueCall} {is : List Nat}
    (h : (madeQueue size calls).map (fun r => r.2.2) = some is) : ∃ k mem k' s',
      bareKernel.initVmalloc vmallocStart vmallocInitEnd kernelPdt = .ok k ∧
        noTimers.q8Make vmemMaxUnits k size 0xff (fun _ => 0) = some (mem, k', s') ∧
        usedIndices calls (s'.queue mem) = is := by
  obtain ⟨r, hmade, hindices⟩ := Option.map_eq_some_iff.mp h
  unfold madeQueue at hmade
  split at hmade
  · cases hmade
  · rename_i k hinit
    obtain ⟨⟨mem, k', s'⟩, hmake, heq⟩ := Option.map_eq_some_iff.mp hmade
    cases heq
    exact ⟨k, mem, k', s', hinit, hmake, hindices⟩

theorem q8Make_indices_inside_iff_two : ∃ k mem k' s',
    bareKernel.initVmalloc vmallocStart vmallocInitEnd kernelPdt = .ok k ∧
      noTimers.q8Make vmemMaxUnits k 2 0xff (fun _ => 0) = some (mem, k', s') ∧
      ∀ i ∈ usedIndices [.q8In 1, .q8In 2, .q8De, .q8In 3, .q8De] (s'.queue mem), i < 3 := by
  have hmade : (madeQueue 2 [.q8In 1, .q8In 2, .q8De, .q8In 3, .q8De]).map (fun r => r.2.2) =
      some [0, 1, 0, 2, 1] := by
    decide +kernel
  obtain ⟨k, mem, k', s', hinit, hmake, _⟩ := madeQueue_cases hmade
  exact ⟨k, mem, k', s', hinit, hmake, (q8Make_indices_inside_iff hmake _).mpr (by decide)⟩

/-- In a queue for one byte the third byte goes behind the buffer. -/
theorem q8Make_index_outside : ¬ ∀ (k k' : Kernel) (s s' : Timers) (fuel : Nat) (size mem : U32)
    (defaultValue : U8) (bytes : Nat → U8) (calls : List QueueCall),
    bareKernel.initVmalloc vmallocStart vmallocInitEnd kernelPdt = .ok k →
    s.q8Make fuel k size defaultValue bytes = some (mem, k', s') →
    ∀ i ∈ usedIndices calls (s'.queue mem), i < size.toNat + 1 := by
  intro h
  have hmade : (madeQueue 1 [.q8In 1, .q8De, .q8In 2, .q8De, .q8In 3]).map (fun r => r.2.2) =
      some [0, 0, 1, 1, 2] := by
    decide +kernel
  obtain ⟨k, mem, k', s', hinit, hmake, hindices⟩ := madeQueue_cases hmade
  have hlt := h k k' noTimers s' _ 1 mem _ _ _ hinit hmake 2 (by rw [hindices]; decide)
  exact absurd hlt (by decide)

end Uroboros
