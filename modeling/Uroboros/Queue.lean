import Uroboros.Config
import Uroboros.Lib.Ring
import Uroboros.Lib.Run

/-!
# The byte queue and its interrupt

`Queue8` of `queue.c`. `QueueSystem` runs it between the serial interrupt, whose
`q8_in` is one step, and a consumer whose `q8_empty` and `q8_de` are cut at each
access to memory. The ghost fields record what went in and out.
-/

set_option autoImplicit false

namespace Uroboros

/-- `buf i` is the byte at `q->buf + i`. -/
structure Queue8 where
  size : U32
  buf : Nat → U8
  head : U32
  tail : U32
  drop : U32
  defaultValue : U8

def q8Init (buf : Nat → U8) (bufSize : U32) (defaultValue : U8) : Queue8 :=
  { size := bufSize + 1, buf, head := 0, tail := 0, drop := 0, defaultValue }

def q8Empty (q : Queue8) : Bool := q.tail == q.head

def q8Full (q : Queue8) : Bool := (q.tail + 1) % q.size == q.head

def q8Usage (q : Queue8) : U32 :=
  if q.head ≤ q.tail then q.tail - q.head else (q.size - q.head) + q.tail

def q8In (q : Queue8) (data : U8) : Queue8 :=
  if q8Full q then { q with drop := q.drop + 1 } else
    let q := { q with buf := Function.update q.buf q.tail.toNat data }
    let q := { q with tail := q.tail + 1 }
    { q with tail := q.tail % q.size }

def q8De (q : Queue8) : U8 × Queue8 :=
  if q8Empty q then (q.defaultValue, q) else
    let data := q.buf q.head.toNat
    let q := { q with head := q.head + 1 }
    (data, { q with head := q.head % q.size })

theorem q8In_eq {q : Queue8} (h : ¬ q8Full q = true) (data : U8) : q8In q data =
    { q with
      buf := Function.update q.buf q.tail.toNat data
      tail := (q.tail + 1) % q.size } := if_neg h

theorem q8De_eq {q : Queue8} (h : ¬ q8Empty q = true) : q8De q =
    (q.buf q.head.toNat, { q with head := (q.head + 1) % q.size }) := if_neg h

theorem q8Empty_q8In (q : Queue8) (data : U8) :
    q8Empty (q8In q data) = (q8Empty q && q8Full q) := by
  cases hfull : q8Full q with
  | true => rw [q8In, if_pos hfull, q8Empty, q8Empty, Bool.and_true]
  | false =>
    rw [q8In_eq (ne_true_of_eq_false hfull), Bool.and_false]
    exact hfull

/-- A full queue stays full. -/
theorem q8Full_q8In {q : Queue8} (h : q8Full q = true) (data : U8) :
    q8Full (q8In q data) = true := by
  rw [q8In, if_pos h]
  exact h

/-- Both indices are inside the buffer: `q8_init` makes it so, and whole calls keep it. -/
structure Queue8.Valid (q : Queue8) : Prop where
  head_lt : q.head < q.size
  tail_lt : q.tail < q.size

theorem q8Init_valid {bufSize : U32} (h : bufSize + 1 ≠ 0) (buf : Nat → U8) (defaultValue : U8) :
    (q8Init buf bufSize defaultValue).Valid := by
  have hpos : 0 < bufSize + 1 := by bv_omega
  exact ⟨hpos, hpos⟩

theorem Queue8.Valid.size_pos {q : Queue8} (h : q.Valid) : 0 < q.size := by
  have hlt := h.head_lt
  bv_omega

theorem q8In_valid {q : Queue8} (h : q.Valid) (data : U8) : (q8In q data).Valid := by
  unfold q8In
  split
  · exact ⟨h.head_lt, h.tail_lt⟩
  · exact ⟨h.head_lt, BitVec.umod_lt _ h.size_pos⟩

theorem q8De_valid {q : Queue8} (h : q.Valid) : (q8De q).2.Valid := by
  unfold q8De
  split
  · exact h
  · exact ⟨BitVec.umod_lt _ h.size_pos, h.tail_lt⟩

@[simp] theorem q8In_size (q : Queue8) (data : U8) : (q8In q data).size = q.size := by
  unfold q8In
  split <;> rfl

@[simp] theorem q8De_size (q : Queue8) : (q8De q).2.size = q.size := by
  unfold q8De
  split <;> rfl

/-- What the consumer has done of the call it is in, and holds in registers. -/
inductive Consumer where
  | idle
  /-- `q8_empty` has read `tail`. -/
  | emptyTail (tail : U32)
  /-- `q8_de` has read `tail`. -/
  | deTail (tail : U32)
  /-- `q8_de` has read `head` and found the queue not empty. -/
  | deHead
  /-- `q8_de` has read `buf[head]`. -/
  | deData (data : U8)
  /-- `q8_de` has stored `head + 1`. -/
  | deStored (data : U8)

structure QueueSystem where
  q : Queue8
  consumer : Consumer
  /-- Bytes `q8_in` accepted. -/
  accepted : List U8
  /-- Bytes `q8_de` returned from the buffer. -/
  obtained : List U8
  /-- How often the consumer moved `head` on. -/
  released : Nat
  /-- Indices into `buf` that were read or written. -/
  accesses : List Nat
  /-- For each byte `q8_in` rejected, how many accepted ones were not released. -/
  waiting : List Nat

inductive QueueEvent where
  | produce (data : U8)
  | callEmpty
  | callDe
  | advance

namespace QueueSystem

def produce (s : QueueSystem) (data : U8) : QueueSystem :=
  if q8Full s.q then
    { s with q := q8In s.q data, waiting := s.waiting ++ [s.accepted.length - s.released] }
  else
    { s with
      q := q8In s.q data
      accepted := s.accepted ++ [data]
      accesses := s.accesses ++ [s.q.tail.toNat] }

/-- The next micro-step of the call that the consumer is in. -/
def advance (s : QueueSystem) : Option QueueSystem :=
  match s.consumer with
  | .idle => none
  | .emptyTail _ => some { s with consumer := .idle }
  | .deTail tail => some { s with consumer := if tail == s.q.head then .idle else .deHead }
  | .deHead => some { s with
      consumer := .deData (s.q.buf s.q.head.toNat)
      accesses := s.accesses ++ [s.q.head.toNat] }
  | .deData data => some { s with
      q := { s.q with head := s.q.head + 1 }
      consumer := .deStored data
      released := s.released + 1 }
  | .deStored data => some { s with
      q := { s.q with head := s.q.head % s.q.size }
      consumer := .idle
      obtained := s.obtained ++ [data] }

def step (s : QueueSystem) : QueueEvent → Option QueueSystem
  | .produce data => some (s.produce data)
  | .callEmpty =>
    match s.consumer with
    | .idle => some { s with consumer := .emptyTail s.q.tail }
    | _ => none
  | .callDe =>
    match s.consumer with
    | .idle => some { s with consumer := .deTail s.q.tail }
    | _ => none
  | .advance => s.advance

def Step (s : QueueSystem) (e : QueueEvent) (s' : QueueSystem) : Prop := s.step e = some s'

/-- Bytes accepted before and not yet released. -/
def contents (q : Queue8) : List U8 :=
  Ring.read q.size.toNat q.buf q.head.toNat (q8Usage q).toNat

def start (q : Queue8) : QueueSystem :=
  { q, consumer := .idle, accepted := contents q, obtained := [], released := 0,
    accesses := [], waiting := [] }

def inFlight : Consumer → List U8
  | .deStored data => [data]
  | _ => []

/-- What the consumer knows when position `pos` is the next to release and `pending` waits. -/
def ConsumerOk (n pos : Nat) (pending : List U8) (head : Nat) : Consumer → Prop
  | .idle => head = pos % n
  | .emptyTail _ => head = pos % n
  | .deTail tail => head = pos % n ∧ ∃ k ≤ pending.length, tail.toNat = (pos + k) % n
  | .deHead => head = pos % n ∧ pending ≠ []
  | .deData data => head = pos % n ∧ pending.head? = some data
  | .deStored _ => ∃ before, pos = before + 1 ∧ head = before % n + 1

theorem ConsumerOk.concat {n pos head : Nat} {pending : List U8} {c : Consumer}
    (h : ConsumerOk n pos pending head c) (data : U8) :
    ConsumerOk n pos (pending ++ [data]) head c := by
  cases c with
  | idle => exact h
  | emptyTail tail => exact h
  | deTail tail =>
    obtain ⟨hhead, k, hk, htail⟩ := h
    exact ⟨hhead, k, by simp; omega, htail⟩
  | deHead => exact ⟨h.1, by simp⟩
  | deData d =>
    obtain ⟨hhead, hd⟩ := h
    exact ⟨hhead, by rw [List.head?_append, hd]; rfl⟩
  | deStored d => exact h

/-- The cells from position `pos` on hold `pending`, the accepted bytes not yet released. -/
structure Pending (size : U32) (s : QueueSystem) (pos : Nat) (pending : List U8) : Prop where
  size_eq : s.q.size = size
  log : s.accepted = s.obtained ++ inFlight s.consumer ++ pending
  count : s.accepted.length = s.released + pending.length
  cells : Ring.Holds size.toNat s.q.buf pos pending
  room : pending.length < size.toNat
  tail : s.q.tail.toNat = (pos + pending.length) % size.toNat
  consumer : ConsumerOk size.toNat pos pending s.q.head.toNat s.consumer
  accesses : ∀ i ∈ s.accesses, i < size.toNat
  waiting : ∀ k ∈ s.waiting, k + 1 = size.toNat

/-- No byte arrives while `head` is stored out of range and `tail` is one before it. -/
def NoArrivalAtWrap (s : QueueSystem) : QueueEvent → Prop
  | .produce _ => ¬ (s.q.head = s.q.size ∧ s.q.tail + 1 = s.q.size)
  | _ => True

instance (s : QueueSystem) : (e : QueueEvent) → Decidable (NoArrivalAtWrap s e)
  | .produce _ => inferInstanceAs (Decidable (¬ (_ ∧ _)))
  | .callEmpty => isTrue trivial
  | .callDe => isTrue trivial
  | .advance => isTrue trivial

theorem toNat_succ {x size : U32} (h : x.toNat < size.toNat) : (x + 1).toNat = x.toNat + 1 := by
  have hsize := size.isLt
  rw [BitVec.toNat_add]
  exact Nat.mod_eq_of_lt (by simp; omega)

variable {size : U32} {s s' : QueueSystem} {pos : Nat} {pending : List U8}

namespace Pending

theorem pos_size (h : Pending size s pos pending) : 0 < size.toNat :=
  Nat.lt_of_le_of_lt (Nat.zero_le _) h.room

theorem tail_lt (h : Pending size s pos pending) : s.q.tail.toNat < size.toNat := by
  rw [h.tail]
  exact Nat.mod_lt _ h.pos_size

/-- `head` is the cell of the next position, or is stored out of range at a wrap. -/
theorem head_cases (h : Pending size s pos pending) :
    s.q.head.toNat = pos % size.toNat ∨
      s.q.head.toNat = size.toNat ∧ pos % size.toNat = 0 := by
  have hc := h.consumer
  cases hcons : s.consumer with
  | deStored data =>
    rw [hcons] at hc
    obtain ⟨before, rfl, hhead⟩ := hc
    have hlt := Nat.mod_lt before h.pos_size
    have hmod : (before + 1) % size.toNat = (before % size.toNat + 1) % size.toNat :=
      (Nat.mod_add_mod ..).symm
    rw [hhead, hmod]
    rcases Nat.lt_or_ge (before % size.toNat + 1) size.toNat with hin | hout
    · exact .inl (Nat.mod_eq_of_lt hin).symm
    · have heq : before % size.toNat + 1 = size.toNat := by omega
      rw [heq]
      exact .inr ⟨rfl, Nat.mod_self _⟩
  | _ => rw [hcons] at hc; first | exact .inl hc | exact .inl hc.1

theorem full_iff (h : Pending size s pos pending)
    (hguard : ¬ (s.q.head = s.q.size ∧ s.q.tail + 1 = s.q.size)) :
    q8Full s.q = true ↔ pending.length + 1 = size.toNat := by
  have htail := toNat_succ h.tail_lt
  have hfull : q8Full s.q = true ↔
      (s.q.tail.toNat + 1) % size.toNat = s.q.head.toNat := by
    rw [q8Full, beq_iff_eq, ← BitVec.toNat_inj, BitVec.toNat_umod, htail, h.size_eq]
  rw [hfull, h.tail]
  rcases h.head_cases with hhead | ⟨hhead, hpos⟩
  · rw [hhead]
    exact Ring.succ_mod_eq_iff h.room
  · rw [hhead]
    have hlt := Nat.mod_lt ((pos + pending.length) % size.toNat + 1) h.pos_size
    have hlen : (pos + pending.length) % size.toNat = pending.length := by
      rw [← Nat.mod_add_mod, hpos, Nat.zero_add, Nat.mod_eq_of_lt h.room]
    constructor
    · intro heq
      omega
    · intro heq
      refine absurd ⟨BitVec.eq_of_toNat_eq ?_, BitVec.eq_of_toNat_eq ?_⟩ hguard
      · rw [hhead, h.size_eq]
      · rw [htail, h.tail, hlen, heq, h.size_eq]

theorem produce (h : Pending size s pos pending) (data : U8)
    (hguard : ¬ (s.q.head = s.q.size ∧ s.q.tail + 1 = s.q.size)) :
    ∃ pending', Pending size (s.produce data) pos pending' := by
  have hiff := h.full_iff hguard
  have hcount := h.count
  cases hfull : q8Full s.q with
  | true =>
    have hlen := hiff.mp hfull
    refine ⟨pending, ?_⟩
    simp only [QueueSystem.produce, hfull, if_true, q8In]
    refine ⟨h.size_eq, h.log, h.count, h.cells, h.room, h.tail, h.consumer, h.accesses, ?_⟩
    intro k hk
    rcases List.mem_append.mp hk with hk | hk
    · exact h.waiting k hk
    · cases List.mem_singleton.mp hk
      omega
  | false =>
    have hlen : pending.length + 1 ≠ size.toNat := by
      intro heq
      rw [hiff.mpr heq] at hfull
      cases hfull
    have hroom := h.room
    have hlen' : (pending ++ [data]).length = pending.length + 1 := by simp
    refine ⟨pending ++ [data], ?_⟩
    simp only [QueueSystem.produce, hfull, Bool.false_eq_true, if_false, q8In]
    refine ⟨h.size_eq, ?_, ?_, ?_, ?_, ?_, h.consumer.concat data, ?_, h.waiting⟩
    · change s.accepted ++ [data] = _
      rw [h.log, List.append_assoc]
    · rw [hlen', List.length_append, hcount]
      rfl
    · have hpush := h.cells.push (x := data) h.room
      rwa [← h.tail] at hpush
    · omega
    · change ((s.q.tail + 1) % s.q.size).toNat = _
      rw [BitVec.toNat_umod, toNat_succ h.tail_lt, h.size_eq, h.tail, hlen', Nat.mod_add_mod,
        Nat.add_assoc]
    · intro i hi
      rcases List.mem_append.mp hi with hi | hi
      · exact h.accesses i hi
      · cases List.mem_singleton.mp hi
        exact h.tail_lt

theorem advance (h : Pending size s pos pending) (hs : s.advance = some s') :
    ∃ pos' pending', Pending size s' pos' pending' := by
  have hc := h.consumer
  have hlog := h.log
  have hpos := h.pos_size
  unfold QueueSystem.advance at hs
  cases hcons : s.consumer with
  | idle => simp [hcons] at hs
  | emptyTail tail =>
    simp only [hcons, Option.some.injEq] at hs hc hlog
    subst s'
    exact ⟨pos, pending, h.size_eq, hlog, h.count, h.cells, h.room, h.tail, hc, h.accesses,
      h.waiting⟩
  | deTail tail =>
    simp only [hcons, Option.some.injEq] at hs hc hlog
    obtain ⟨hhead, k, hk, htail⟩ := hc
    subst s'
    refine ⟨pos, pending, h.size_eq, ?_, h.count, h.cells, h.room, h.tail, ?_, h.accesses,
      h.waiting⟩
    · dsimp only
      split <;> exact hlog
    · dsimp only
      split
      · exact hhead
      · rename_i hne
        refine ⟨hhead, ?_⟩
        intro hnil
        subst pending
        have hk0 : k = 0 := by simpa using hk
        subst k
        have heq : tail = s.q.head := BitVec.eq_of_toNat_eq (htail.trans hhead.symm)
        simp [heq] at hne
  | deHead =>
    simp only [hcons, Option.some.injEq] at hs hc hlog
    obtain ⟨hhead, hne⟩ := hc
    subst s'
    refine ⟨pos, pending, h.size_eq, hlog, h.count, h.cells, h.room, h.tail, ⟨hhead, ?_⟩, ?_,
      h.waiting⟩
    · cases pending with
      | nil => exact absurd rfl hne
      | cons d rest =>
        have hcell := h.cells.1
        rw [hhead, hcell]
        rfl
    · intro i hi
      rcases List.mem_append.mp hi with hi | hi
      · exact h.accesses i hi
      · cases List.mem_singleton.mp hi
        rw [hhead]
        exact Nat.mod_lt _ hpos
  | deData data =>
    simp only [hcons, Option.some.injEq] at hs hc hlog
    obtain ⟨hhead, hd⟩ := hc
    obtain ⟨rest, rfl⟩ := List.head?_eq_some_iff.mp hd
    have hlt : s.q.head.toNat < size.toNat := by
      rw [hhead]
      exact Nat.mod_lt _ hpos
    have hcount := h.count
    have htail := h.tail
    have hroom := h.room
    rw [List.length_cons] at hcount htail hroom
    subst s'
    refine ⟨pos + 1, rest, h.size_eq, ?_, ?_, h.cells.2, by omega, ?_, ?_, h.accesses, h.waiting⟩
    · simpa [inFlight] using hlog
    · dsimp only
      omega
    · rw [htail]
      congr 1
      omega
    · exact ⟨pos, rfl, by rw [toNat_succ hlt, hhead]⟩
  | deStored data =>
    simp only [hcons, Option.some.injEq] at hs hc hlog
    obtain ⟨before, rfl, hhead⟩ := hc
    subst s'
    refine ⟨before + 1, pending, h.size_eq, ?_, h.count, h.cells, h.room, h.tail, ?_, h.accesses,
      h.waiting⟩
    · simpa [inFlight] using hlog
    · change (s.q.head % s.q.size).toNat = _
      rw [BitVec.toNat_umod, hhead, h.size_eq, Nat.mod_add_mod]

end Pending

theorem toNat_q8Usage {q : Queue8} (hq : q.Valid) : (q8Usage q).toNat =
    if q.head.toNat ≤ q.tail.toNat then q.tail.toNat - q.head.toNat
    else q.size.toNat - q.head.toNat + q.tail.toNat := by
  have hh : q.head.toNat < q.size.toNat := hq.head_lt
  have hs := q.size.isLt
  unfold q8Usage
  simp only [BitVec.le_def]
  split
  · rename_i hle
    exact BitVec.toNat_sub_of_le (BitVec.le_def.mpr hle)
  · bv_omega

theorem q8Usage_spec {q : Queue8} (hq : q.Valid) :
    (q8Usage q).toNat < q.size.toNat ∧
      q.tail.toNat = (q.head.toNat + (q8Usage q).toNat) % q.size.toNat := by
  have hh : q.head.toNat < q.size.toNat := hq.head_lt
  have ht : q.tail.toNat < q.size.toNat := hq.tail_lt
  rw [toNat_q8Usage hq]
  split
  · rename_i hle
    refine ⟨by omega, ?_⟩
    rw [Nat.add_sub_cancel' hle, Nat.mod_eq_of_lt ht]
  · refine ⟨by omega, ?_⟩
    rw [show q.head.toNat + (q.size.toNat - q.head.toNat + q.tail.toNat) =
      q.tail.toNat + q.size.toNat by omega, Nat.add_mod_right, Nat.mod_eq_of_lt ht]

theorem q8Usage_de {q : Queue8} (hq : q.Valid) (hne : q8Empty q = false) :
    (q8Usage (q8De q).2).toNat + 1 = (q8Usage q).toNat := by
  have hh : q.head.toNat < q.size.toNat := hq.head_lt
  have ht : q.tail.toNat < q.size.toNat := hq.tail_lt
  have hs := q.size.isLt
  have hdiff : q.tail.toNat ≠ q.head.toNat := by
    intro heq
    rw [q8Empty, BitVec.eq_of_toNat_eq heq, BEq.rfl] at hne
    cases hne
  have hhead : (q8De q).2.head.toNat = (q.head.toNat + 1) % q.size.toNat := by
    rw [q8De, hne]
    change ((q.head + 1) % q.size).toNat = _
    rw [BitVec.toNat_umod, toNat_succ hh]
  have htail : (q8De q).2.tail = q.tail := by
    rw [q8De, hne]
    rfl
  rw [toNat_q8Usage (q8De_valid hq), toNat_q8Usage hq, hhead, htail, q8De_size]
  -- the next cell is the following one, or the first
  by_cases hwrap : q.head.toNat + 1 = q.size.toNat
  · rw [hwrap, Nat.mod_self]
    split <;> split <;> omega
  · rw [Nat.mod_eq_of_lt (by omega)]
    split <;> split <;> omega

theorem pending_start {q : Queue8} (hq : q.Valid) :
    Pending q.size (start q) q.head.toNat (contents q) := by
  obtain ⟨hroom, htail⟩ := q8Usage_spec hq
  have hlen : (contents q).length = (q8Usage q).toNat := Ring.length_read
  refine ⟨rfl, rfl, by simp [start], Ring.holds_read, ?_, ?_, ?_, nofun, nofun⟩
  · rw [hlen]
    exact hroom
  · rw [hlen]
    exact htail
  · exact (Nat.mod_eq_of_lt hq.head_lt).symm

theorem pending_step (s : QueueSystem) (e : QueueEvent) (s' : QueueSystem)
    (h : ∃ pos pending, Pending size s pos pending) (hguard : NoArrivalAtWrap s e)
    (hstep : Step s e s') : ∃ pos pending, Pending size s' pos pending := by
  obtain ⟨pos, pending, h⟩ := h
  cases e with
  | produce data =>
    cases Option.some.inj hstep
    exact ⟨pos, h.produce data hguard⟩
  | advance => exact h.advance hstep
  | callEmpty =>
    have hc := h.consumer
    have hlog := h.log
    simp only [Step, step] at hstep
    split at hstep
    · rename_i hcons
      rw [hcons] at hc hlog
      cases hstep
      exact ⟨pos, pending, h.size_eq, hlog, h.count, h.cells, h.room, h.tail, hc, h.accesses,
        h.waiting⟩
    · cases hstep
  | callDe =>
    have hc := h.consumer
    have hlog := h.log
    simp only [Step, step] at hstep
    split at hstep
    · rename_i hcons
      rw [hcons] at hc hlog
      cases hstep
      exact ⟨pos, pending, h.size_eq, hlog, h.count, h.cells, h.room, h.tail,
        ⟨hc, pending.length, Nat.le_refl _, h.tail⟩, h.accesses, h.waiting⟩
    · cases hstep

/-- The consumer obtains the accepted bytes in order, the buffer is not left, and a byte is
rejected only where `size - 1` wait. -/
theorem receive_queue_safe {q : Queue8} (hq : q.Valid)
    {tr : List (QueueSystem × QueueEvent × QueueSystem)} {s : QueueSystem}
    (hrun : Run Step (start q) tr s) (hguard : Run.Guarded NoArrivalAtWrap tr) :
    s.obtained <+: s.accepted ∧ (∀ i ∈ s.accesses, i < q.size.toNat) ∧
      ∀ k ∈ s.waiting, k + 1 = q.size.toNat := by
  obtain ⟨pos, pending, h⟩ := hrun.invariant
    (I := fun s => ∃ pos pending, Pending q.size s pos pending)
    ⟨_, _, pending_start hq⟩ pending_step hguard
  refine ⟨?_, h.accesses, h.waiting⟩
  rw [h.log, List.append_assoc]
  exact List.prefix_append _ _

def smallQueue : Queue8 := q8Init (fun _ => 0) 1 0xff

/-- A byte that arrives in the window of the wrap, the queue not full. -/
theorem receive_queue_safe_small : ∃ tr s, Run Step (start smallQueue) tr s ∧
    s.obtained = [1#8, 2#8, 3#8] ∧ s.accepted = [1#8, 2#8, 3#8] ∧ s.waiting = [1] ∧
      s.obtained <+: s.accepted ∧ (∀ i ∈ s.accesses, i < smallQueue.size.toNat) ∧
      ∀ k ∈ s.waiting, k + 1 = smallQueue.size.toNat := by
  have hexec : (Run.exec (Run.ofStep step) [.produce 1, .produce 9, .callDe, .advance, .advance,
      .advance, .advance, .produce 2, .callDe, .advance, .advance, .advance, .produce 3, .advance,
      .callDe, .advance, .advance, .advance, .advance] (start smallQueue)).map
      (fun r => (decide (Run.Guarded NoArrivalAtWrap r.1), r.2.obtained, r.2.accepted,
        r.2.waiting)) = some (true, [1#8, 2#8, 3#8], [1#8, 2#8, 3#8], [1]) := by
    decide +kernel
  obtain ⟨⟨tr, s⟩, hrun, heq⟩ := Option.map_eq_some_iff.mp hexec
  simp only [Prod.mk.injEq] at heq
  obtain ⟨hguard, hobtained, haccepted, hwaiting⟩ := heq
  have hrun' := Run.exec_run Run.ofStep_sound hrun
  exact ⟨tr, s, hrun', hobtained, haccepted, hwaiting,
    receive_queue_safe (q8Init_valid (by decide) _ _) hrun' (of_decide_eq_true hguard)⟩

/-- The second cell is released at the wrap; two bytes arrive before `head` is reduced, and both
are lost. -/
theorem receive_queue_loses : ∃ tr s, Run Step (start smallQueue) tr s ∧
    ¬ s.obtained <+: s.accepted := by
  have hexec : (Run.exec (Run.ofStep step) [.produce 1, .callDe, .advance, .advance, .advance,
      .advance, .produce 2, .callDe, .advance, .advance, .advance, .produce 3, .produce 4, .advance,
      .produce 5, .callDe, .advance, .advance, .advance, .advance] (start smallQueue)).map
      (fun r => (r.2.obtained, r.2.accepted)) =
      some ([1#8, 2#8, 5#8], [1#8, 2#8, 3#8, 4#8, 5#8]) := by
    decide +kernel
  obtain ⟨⟨tr, s⟩, hrun, heq⟩ := Option.map_eq_some_iff.mp hexec
  simp only [Prod.mk.injEq] at heq
  refine ⟨tr, s, Run.exec_run Run.ofStep_sound hrun, ?_⟩
  rw [heq.1, heq.2]
  decide

end QueueSystem

end Uroboros
