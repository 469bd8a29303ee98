import Mathlib.Data.List.Nodup
import Mathlib.Logic.Function.Basic
import Mathlib.Logic.Relation

/-!
# Linked segments that tile an interval

`Seg next a l b` says that following `next` from `a` visits the nodes `l` and
arrives at `b`; `Tiles addr size s l e` that the nodes `l` lie end to end from
`s` to `e`. Both have rules for a new node behind `x` and for the removal of
the node behind `x`, stated for any maps that agree with the old ones elsewhere.
`DList` is a segment that a second map leads back through.
-/

set_option autoImplicit false

universe u
variable {α : Type u}

theorem notMem_front {x : α} {l₁ l₂ : List α} (h : (l₁ ++ x :: l₂).Nodup) : x ∉ l₁ :=
  fun hx => (List.nodup_append.mp h).2.2 x hx x List.mem_cons_self rfl

def Seg (next : α → Option α) : Option α → List α → Option α → Prop
  | a, [], b => a = b
  | a, x :: l, b => a = some x ∧ Seg next (next x) l b

def Tiles (addr size : α → Nat) : Nat → List α → Nat → Prop
  | s, [], e => s = e
  | s, x :: l, e => addr x = s ∧ Tiles addr size (s + size x) l e

namespace Seg
variable {next next' : α → Option α} {a b c : Option α} {l l₁ l₂ : List α} {x y : α}

theorem eq_of_nil (h : Seg next a [] b) : a = b := h

theorem eq_nil_of_none (h : Seg next none l b) : l = [] := by
  cases l with
  | nil => rfl
  | cons y l => cases h.1

theorem not_from_none : ¬ Seg next none l (some x) := by
  intro h
  cases h.eq_nil_of_none
  cases h.eq_of_nil

theorem append_iff : Seg next a (l₁ ++ l₂) c ↔ ∃ b, Seg next a l₁ b ∧ Seg next b l₂ c := by
  induction l₁ generalizing a with
  | nil => simp [Seg]
  | cons x l ih =>
    simp only [List.cons_append, Seg, ih]
    constructor
    · rintro ⟨ha, b, h1, h2⟩
      exact ⟨b, ⟨ha, h1⟩, h2⟩
    · rintro ⟨b, ⟨ha, h1⟩, h2⟩
      exact ⟨ha, b, h1, h2⟩

theorem append_cons_iff :
    Seg next a (l₁ ++ x :: l₂) c ↔ Seg next a l₁ (some x) ∧ Seg next (next x) l₂ c := by
  rw [append_iff]
  constructor
  · rintro ⟨b, h1, hb, h2⟩
    subst b
    exact ⟨h1, h2⟩
  · rintro ⟨h1, h2⟩
    exact ⟨some x, h1, rfl, h2⟩

theorem congr (h : Seg next a l b) (heq : ∀ x ∈ l, next' x = next x) : Seg next' a l b := by
  induction l generalizing a with
  | nil => exact h
  | cons x l ih =>
    obtain ⟨ha, h⟩ := h
    refine ⟨ha, ?_⟩
    rw [heq x List.mem_cons_self]
    exact ih h fun y hy => heq y (List.mem_cons_of_mem _ hy)

theorem unique (h : Seg next a l none) (h' : Seg next a l₁ none) : l = l₁ := by
  induction l generalizing a l₁ with
  | nil =>
    cases l₁ with
    | nil => rfl
    | cons y l₁ =>
      obtain ⟨ha, _⟩ := h'
      rw [h.eq_of_nil] at ha
      cases ha
  | cons x l ih =>
    obtain ⟨ha, h⟩ := h
    subst a
    cases l₁ with
    | nil => cases h'
    | cons y l₁ =>
      obtain ⟨hxy, h'⟩ := h'
      cases hxy
      rw [ih h h']

theorem eq_append_of_seg (h : Seg next a l none) (h' : Seg next a l₁ (some x)) :
    ∃ l₂, l = l₁ ++ x :: l₂ := by
  induction l₁ generalizing a l with
  | nil =>
    cases l with
    | nil =>
      cases h.eq_of_nil.symm.trans h'.eq_of_nil
    | cons y l =>
      obtain ⟨ha, _⟩ := h
      have heq : some y = some x := ha.symm.trans h'
      cases heq
      exact ⟨l, rfl⟩
  | cons y l₁ ih =>
    obtain ⟨ha, h'⟩ := h'
    subst a
    cases l with
    | nil => cases h
    | cons z l =>
      obtain ⟨hyz, h⟩ := h
      cases hyz
      obtain ⟨l₂, rfl⟩ := ih h h'
      exact ⟨l₂, rfl⟩

theorem mem_of_seg (h : Seg next a l none) (h' : Seg next a l₁ (some x)) : x ∈ l := by
  obtain ⟨l₂, rfl⟩ := eq_append_of_seg h h'
  exact List.mem_append_right _ List.mem_cons_self

/-- A walk that ends cannot meet a node twice. -/
theorem nodup (h : Seg next a l none) : l.Nodup := by
  induction l generalizing a with
  | nil => exact List.nodup_nil
  | cons x l ih =>
    obtain ⟨_, h⟩ := h
    refine List.nodup_cons.mpr ⟨?_, ih h⟩
    intro hx
    obtain ⟨l₁, l₂, rfl⟩ := List.append_of_mem hx
    have htail : Seg next (next x) l₂ none := (append_cons_iff.mp h).2
    have hlen := congrArg List.length (unique h htail)
    simp only [List.length_append, List.length_cons] at hlen
    omega

def walk (next : α → Option α) : Nat → Option α → Option (List α)
  | 0, none => some []
  | 0, some _ => none
  | _ + 1, none => none
  | n + 1, some x => (walk next n (next x)).map (x :: ·)

theorem walk_eq_some_iff {n : Nat} : walk next n a = some l ↔ Seg next a l none ∧ l.length = n := by
  induction n generalizing a l with
  | zero =>
    cases a with
    | none =>
      simp only [walk, Option.some.injEq, List.length_eq_zero_iff]
      constructor
      · rintro rfl
        exact ⟨rfl, rfl⟩
      · rintro ⟨_, rfl⟩
        rfl
    | some x =>
      simp only [walk, List.length_eq_zero_iff]
      constructor
      · intro h
        cases h
      · rintro ⟨h, rfl⟩
        cases h
  | succ n ih =>
    cases a with
    | none =>
      simp only [walk]
      constructor
      · intro h
        cases h
      · rintro ⟨h, hlen⟩
        cases l with
        | nil => cases hlen
        | cons y l => cases h.1
    | some x =>
      simp only [walk, Option.map_eq_some_iff]
      constructor
      · rintro ⟨l', hl', rfl⟩
        obtain ⟨hseg, hlen⟩ := ih.mp hl'
        exact ⟨⟨rfl, hseg⟩, congrArg Nat.succ hlen⟩
      · rintro ⟨hseg, hlen⟩
        cases l with
        | nil => cases hlen
        | cons y l =>
          obtain ⟨hxy, hseg⟩ := hseg
          cases hxy
          exact ⟨l, ih.mpr ⟨hseg, Nat.succ.inj hlen⟩, rfl⟩

theorem next_of_cons_cons (h : Seg next a (l₁ ++ x :: y :: l₂) b) : next x = some y :=
  (append_cons_iff.mp h).2.1

theorem eq_cons_of_next (h : Seg next a (l₁ ++ x :: l₂) none) (hx : next x = some y) :
    ∃ l, l₂ = y :: l := by
  have h2 := (append_cons_iff.mp h).2
  rw [hx] at h2
  cases l₂ with
  | nil => cases h2
  | cons z l =>
    obtain ⟨hz, _⟩ := h2
    cases hz
    exact ⟨l, rfl⟩

theorem eq_append_of_next (h : Seg next a (l₁ ++ y :: l₂) none) (hx : x ∈ l₁ ++ y :: l₂)
    (hnext : next x = some y) : ∃ l, l₁ = l ++ [x] := by
  obtain ⟨m₁, m₂, heq⟩ := List.append_of_mem hx
  have hm := h
  rw [heq] at hm
  obtain ⟨m, rfl⟩ := eq_cons_of_next hm hnext
  have hn : y ∉ l₁ ∧ y ∉ l₂ := by
    have hn := (List.nodup_cons.mp (List.nodup_middle.mp h.nodup)).1
    exact ⟨fun hy => hn (List.mem_append_left _ hy), fun hy => hn (List.mem_append_right _ hy)⟩
  have heq' : l₁ ++ y :: l₂ = (m₁ ++ [x]) ++ y :: m := by
    rw [heq, List.append_assoc, List.singleton_append]
  exact ⟨m₁, ((List.append_cons_inj_of_notMem hn.1 hn.2).mp heq').1⟩

theorem insert (h : Seg next a (l₁ ++ x :: l₂) c) (hx : next' x = some y)
    (hy : next' y = next x) (heq : ∀ z ∈ l₁ ++ l₂, next' z = next z) :
    Seg next' a (l₁ ++ x :: y :: l₂) c := by
  obtain ⟨h1, h2⟩ := append_cons_iff.mp h
  have h1' := h1.congr fun z hz => heq z (List.mem_append_left _ hz)
  have h2' := h2.congr fun z hz => heq z (List.mem_append_right _ hz)
  refine append_cons_iff.mpr ⟨h1', hx, ?_⟩
  rw [hy]
  exact h2'

theorem remove (h : Seg next a (l₁ ++ x :: y :: l₂) c) (hx : next' x = next y)
    (heq : ∀ z ∈ l₁ ++ l₂, next' z = next z) : Seg next' a (l₁ ++ x :: l₂) c := by
  obtain ⟨h1, _, h2⟩ := append_cons_iff.mp h
  have h1' := h1.congr fun z hz => heq z (List.mem_append_left _ hz)
  have h2' := h2.congr fun z hz => heq z (List.mem_append_right _ hz)
  refine append_cons_iff.mpr ⟨h1', ?_⟩
  rw [hx]
  exact h2'

end Seg

/-- From `a` on, `next` leads through `l` to the end; from `b` on, `prev` leads back through it. -/
structure DList (next prev : α → Option α) (a : Option α) (l : List α) (b : Option α) : Prop where
  forward : Seg next a l none
  backward : Seg prev b l.reverse none

namespace DList
variable {next next' prev prev' : α → Option α} {a b : Option α} {l l₁ l₂ : List α} {x y z : α}

theorem nodup (h : DList next prev a l b) : l.Nodup := h.forward.nodup

theorem congr (h : DList next prev a l b) (hn : ∀ x ∈ l, next' x = next x)
    (hp : ∀ x ∈ l, prev' x = prev x) : DList next' prev' a l b :=
  ⟨h.forward.congr hn, h.backward.congr fun x hx => hp x (List.mem_reverse.mp hx)⟩

theorem reverse_middle : (l₁ ++ x :: y :: l₂).reverse = l₂.reverse ++ y :: x :: l₁.reverse := by
  simp

theorem prev_of_middle (h : DList next prev a (l₁ ++ x :: y :: l₂) b) : prev y = some x := by
  have hback := h.backward
  rw [reverse_middle] at hback
  exact hback.next_of_cons_cons

theorem symm (h : DList next prev a l b) : DList prev next b l.reverse a := by
  refine ⟨h.backward, ?_⟩
  rw [List.reverse_reverse]
  exact h.forward

/-- Where `next` leads, `prev` leads back. -/
theorem prev_of_next (h : DList next prev a l b) (hx : x ∈ l) (hy : next x = some y) :
    prev y = some x := by
  obtain ⟨l₁, l₂, rfl⟩ := List.append_of_mem hx
  obtain ⟨l₃, rfl⟩ := h.forward.eq_cons_of_next hy
  exact h.prev_of_middle

theorem mem_of_next (h : DList next prev a l b) (hx : x ∈ l) (hy : next x = some y) : y ∈ l := by
  obtain ⟨l₁, l₂, rfl⟩ := List.append_of_mem hx
  obtain ⟨l₃, rfl⟩ := h.forward.eq_cons_of_next hy
  exact List.mem_append_right _ (List.mem_cons_of_mem _ List.mem_cons_self)

theorem mem_of_links (h : DList next prev a l b) (hx : x ∈ l)
    (hpath : Relation.ReflTransGen (fun x y => next x = some y ∨ prev x = some y) x y) :
    y ∈ l := by
  induction hpath with
  | refl => exact hx
  | tail _ hlink ih =>
    rcases hlink with hnext | hprev
    · exact h.mem_of_next ih hnext
    · exact List.mem_reverse.mp (h.symm.mem_of_next (List.mem_reverse.mpr ih) hprev)

theorem append (h : DList next prev a (l ++ [x]) b) (hx : next' x = some y)
    (hy : next' y = none) (hback : prev' y = some x) (hn : ∀ z ∈ l, next' z = next z)
    (hp : ∀ z ∈ l ++ [x], prev' z = prev z) : DList next' prev' a (l ++ [x, y]) (some y) := by
  have hlast : next x = none := (Seg.append_cons_iff.mp h.forward).2
  constructor
  · apply h.forward.insert hx (hy.trans hlast.symm)
    intro z hz
    exact hn z ((List.append_nil l) ▸ hz)
  · have hold := h.backward
    rw [List.reverse_append, List.reverse_singleton, List.singleton_append] at hold
    have hb : b = some x := hold.1
    have hrev : (l ++ [x, y]).reverse = y :: x :: l.reverse := by simp
    rw [hrev]
    refine ⟨rfl, ?_⟩
    rw [hback, ← hb]
    refine hold.congr fun z hz => hp z ?_
    rw [← List.mem_reverse, List.reverse_append]
    exact hz

theorem remove_last (h : DList next prev a (l ++ [x, y]) b) (hx : next' x = none)
    (hn : ∀ z ∈ l, next' z = next z) (hp : ∀ z ∈ l ++ [x], prev' z = prev z) :
    DList next' prev' a (l ++ [x]) (some x) := by
  have hy : next y = none := by
    have hl : l ++ [x, y] = (l ++ [x]) ++ [y] := by simp
    have hf := h.forward
    rw [hl] at hf
    exact (Seg.append_cons_iff.mp hf).2
  constructor
  · apply h.forward.remove (hx.trans hy.symm)
    intro z hz
    exact hn z ((List.append_nil l) ▸ hz)
  · have hold := h.backward
    have hrev : (l ++ [x, y]).reverse = y :: (l ++ [x]).reverse := by simp
    rw [hrev] at hold
    have hback : prev y = some x := h.prev_of_middle
    rw [← hback]
    exact hold.2.congr fun z hz => hp z (List.mem_reverse.mp hz)

theorem remove_middle (h : DList next prev a (l₁ ++ x :: y :: z :: l₂) b)
    (hx : next' x = next y) (hz : prev' z = prev y)
    (hn : ∀ w ∈ l₁ ++ z :: l₂, next' w = next w) (hp : ∀ w ∈ l₁ ++ x :: l₂, prev' w = prev w) :
    DList next' prev' a (l₁ ++ x :: z :: l₂) b := by
  constructor
  · exact h.forward.remove hx hn
  · have hold := h.backward
    have hrev : (l₁ ++ x :: y :: z :: l₂).reverse =
        l₂.reverse ++ z :: y :: (x :: l₁.reverse) := by simp
    rw [hrev] at hold
    have hrev' : (l₁ ++ x :: z :: l₂).reverse = l₂.reverse ++ z :: (x :: l₁.reverse) := by simp
    rw [hrev']
    refine hold.remove hz fun w hw => hp w ?_
    simpa [or_comm, or_assoc, or_left_comm] using hw

end DList

namespace Tiles
variable {addr addr' size size' : α → Nat} {s e : Nat} {l l₁ l₂ : List α} {x y : α}

theorem append_iff : Tiles addr size s (l₁ ++ l₂) e ↔
    ∃ m, Tiles addr size s l₁ m ∧ Tiles addr size m l₂ e := by
  induction l₁ generalizing s with
  | nil => simp [Tiles]
  | cons x l ih =>
    simp only [List.cons_append, Tiles, ih]
    constructor
    · rintro ⟨ha, m, h1, h2⟩
      exact ⟨m, ⟨ha, h1⟩, h2⟩
    · rintro ⟨m, ⟨ha, h1⟩, h2⟩
      exact ⟨ha, m, h1, h2⟩

theorem append_cons_iff : Tiles addr size s (l₁ ++ x :: l₂) e ↔
    Tiles addr size s l₁ (addr x) ∧ Tiles addr size (addr x + size x) l₂ e := by
  rw [append_iff]
  constructor
  · rintro ⟨m, h1, rfl, h2⟩
    exact ⟨h1, h2⟩
  · rintro ⟨h1, h2⟩
    exact ⟨addr x, h1, rfl, h2⟩

theorem congr (h : Tiles addr size s l e) (ha : ∀ x ∈ l, addr' x = addr x)
    (hs : ∀ x ∈ l, size' x = size x) : Tiles addr' size' s l e := by
  induction l generalizing s with
  | nil => exact h
  | cons x l ih =>
    obtain ⟨hx, h⟩ := h
    refine ⟨(ha x List.mem_cons_self).trans hx, ?_⟩
    rw [hs x List.mem_cons_self]
    exact ih h (fun y hy => ha y (List.mem_cons_of_mem _ hy))
      (fun y hy => hs y (List.mem_cons_of_mem _ hy))

theorem le (h : Tiles addr size s l e) : s ≤ e := by
  induction l generalizing s with
  | nil => exact Nat.le_of_eq h
  | cons x l ih => exact Nat.le_trans (Nat.le_add_right _ _) (ih h.2)

theorem mem_bounds (h : Tiles addr size s l e) (hx : x ∈ l) :
    s ≤ addr x ∧ addr x + size x ≤ e := by
  obtain ⟨l₁, l₂, rfl⟩ := List.append_of_mem hx
  obtain ⟨h1, h2⟩ := append_cons_iff.mp h
  exact ⟨h1.le, h2.le⟩

theorem disjoint (h : Tiles addr size s l e) (hx : x ∈ l) (hy : y ∈ l) (hne : x ≠ y) :
    addr x + size x ≤ addr y ∨ addr y + size y ≤ addr x := by
  obtain ⟨l₁, l₂, rfl⟩ := List.append_of_mem hx
  obtain ⟨h1, h2⟩ := append_cons_iff.mp h
  rcases List.mem_append.mp hy with hy | hy
  · exact .inr (h1.mem_bounds hy).2
  · rcases List.mem_cons.mp hy with heq | hy
    · exact absurd heq.symm hne
    · exact .inl (h2.mem_bounds hy).1

/-- Each node ends before every later one begins. -/
theorem pairwise (h : Tiles addr size s l e) :
    l.Pairwise fun x y => addr x + size x ≤ addr y := by
  induction l generalizing s with
  | nil => exact List.Pairwise.nil
  | cons x l ih =>
    obtain ⟨hx, h⟩ := h
    refine List.pairwise_cons.mpr ⟨?_, ih h⟩
    intro y hy
    rw [hx]
    exact (h.mem_bounds hy).1

theorem insert (h : Tiles addr size s (l₁ ++ x :: l₂) e) (hx : addr' x = addr x)
    (hy : addr' y = addr x + size' x) (hxy : size' x + size' y = size x)
    (ha : ∀ z ∈ l₁ ++ l₂, addr' z = addr z) (hs : ∀ z ∈ l₁ ++ l₂, size' z = size z) :
    Tiles addr' size' s (l₁ ++ x :: y :: l₂) e := by
  obtain ⟨h1, h2⟩ := append_cons_iff.mp h
  have h1' := h1.congr (fun z hz => ha z (List.mem_append_left _ hz))
    (fun z hz => hs z (List.mem_append_left _ hz))
  have h2' := h2.congr (fun z hz => ha z (List.mem_append_right _ hz))
    (fun z hz => hs z (List.mem_append_right _ hz))
  refine append_cons_iff.mpr ⟨hx ▸ h1', by rw [hx, hy], ?_⟩
  rwa [hx, Nat.add_assoc, hxy]

theorem remove (h : Tiles addr size s (l₁ ++ x :: y :: l₂) e) (hx : addr' x = addr x)
    (hxy : size' x = size x + size y) (ha : ∀ z ∈ l₁ ++ l₂, addr' z = addr z)
    (hs : ∀ z ∈ l₁ ++ l₂, size' z = size z) : Tiles addr' size' s (l₁ ++ x :: l₂) e := by
  obtain ⟨h1, _, h2⟩ := append_cons_iff.mp h
  have h1' := h1.congr (fun z hz => ha z (List.mem_append_left _ hz))
    (fun z hz => hs z (List.mem_append_left _ hz))
  have h2' := h2.congr (fun z hz => ha z (List.mem_append_right _ hz))
    (fun z hz => hs z (List.mem_append_right _ hz))
  refine append_cons_iff.mpr ⟨hx ▸ h1', ?_⟩
  rwa [hx, hxy, ← Nat.add_assoc]

end Tiles
