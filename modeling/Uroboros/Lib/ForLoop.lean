import Mathlib.Algebra.Order.Ring.Nat
import Mathlib.Data.Finset.Card
import Mathlib.Data.Finset.Range
import Mathlib.Logic.Function.Iterate

/-!
# Counted loops, linear scans and loops with their test at the end

`forLoop body n s` is the loop `for (i = 0; i < n; i++) s = body i s`,
`scan p` the loop that returns the first index satisfying `p`, and
`doWhile body again` a loop that may run for ever, with fuel. All are
structurally recursive, so that they compute, and each has one rule.
-/

set_option autoImplicit false

namespace ForLoop

universe u
variable {σ : Type u}

def forLoop (body : Nat → σ → σ) : Nat → σ → σ
  | 0, s => s
  | n + 1, s => body n (forLoop body n s)

@[simp] theorem forLoop_zero (body : Nat → σ → σ) (s : σ) : forLoop body 0 s = s := rfl

theorem forLoop_succ (body : Nat → σ → σ) (n : Nat) (s : σ) :
    forLoop body (n + 1) s = body n (forLoop body n s) := rfl

/-- The loop rule: an indexed invariant that holds on entry and survives each pass. -/
theorem forLoop_invariant {body : Nat → σ → σ} {n : Nat} {s : σ} (P : Nat → σ → Prop)
    (init : P 0 s) (step : ∀ i t, i < n → P i t → P (i + 1) (body i t)) :
    P n (forLoop body n s) := by
  induction n with
  | zero => exact init
  | succ n ih =>
    have before := ih (fun i t hi ht => step i t (by omega) ht)
    exact step n _ (by omega) before

theorem forLoop_count {w : Nat} (p : Nat → Bool) (n : Nat) :
    forLoop (fun i (count : BitVec w) => if p i then count + 1 else count) n 0 =
      BitVec.ofNat w ((Finset.range n).filter fun i => p i = true).card := by
  induction n with
  | zero => rfl
  | succ n ih =>
    rw [forLoop_succ, ih, Finset.range_add_one, Finset.filter_insert]
    by_cases hp : p n = true
    · have hnew : n ∉ (Finset.range n).filter fun i => p i = true := by simp
      rw [if_pos hp, if_pos hp, Finset.card_insert_of_notMem hnew, BitVec.ofNat_add]
      rfl
    · rw [if_neg hp, if_neg hp]

/-- A loop whose passes overwrite with one value what each of them selects. -/
theorem forLoop_overwrite {α : Type u} {β : Type u} {body : Nat → (α → β) → α → β}
    {S : Nat → α → Prop} [∀ i a, Decidable (S i a)] {v : β} {n : Nat}
    (hbody : ∀ i < n, ∀ f a, body i f a = if S i a then v else f a) (f : α → β) (a : α) :
    forLoop body n f a = if ∃ i < n, S i a then v else f a := by
  induction n with
  | zero => rw [forLoop_zero, if_neg (by simp)]
  | succ n ih =>
    rw [forLoop_succ, hbody n (Nat.lt_succ_self n), ih fun i hi => hbody i (Nat.lt_succ_of_lt hi)]
    by_cases hlast : S n a
    · rw [if_pos hlast, if_pos ⟨n, Nat.lt_succ_self n, hlast⟩]
    · rw [if_neg hlast]
      refine if_congr ?_ rfl rfl
      constructor
      · rintro ⟨i, hi, hset⟩
        exact ⟨i, Nat.lt_succ_of_lt hi, hset⟩
      · rintro ⟨i, hi, hset⟩
        rcases Nat.lt_succ_iff_lt_or_eq.mp hi with hlt | rfl
        · exact ⟨i, hlt, hset⟩
        · exact absurd hset hlast

/-- The same loop with passes that may fail; a failure ends it. -/
def forLoopM {ε : Type u} (body : Nat → σ → Except ε σ) : Nat → σ → Except ε σ
  | 0, s => .ok s
  | n + 1, s => (forLoopM body n s).bind (body n)

theorem forLoopM_invariant {ε : Type u} {body : Nat → σ → Except ε σ} {n : Nat} {s s' : σ}
    (P : Nat → σ → Prop) (init : P 0 s)
    (step : ∀ i t t', i < n → P i t → body i t = .ok t' → P (i + 1) t')
    (h : forLoopM body n s = .ok s') : P n s' := by
  induction n generalizing s' with
  | zero =>
    have heq : s = s' := Except.ok.inj h
    exact heq ▸ init
  | succ n ih =>
    cases hn : forLoopM body n s with
    | error e => simp [forLoopM, hn, Except.bind] at h
    | ok t =>
      have before := ih (fun i t t' hi ht => step i t t' (by omega) ht) hn
      apply step n t s' (by omega) before
      simpa [forLoopM, hn, Except.bind] using h

variable {n : Nat}

def scanFrom (p : Fin n → Bool) : Nat → Nat → Option (Fin n)
  | 0, _ => none
  | k + 1, i => if h : i < n then
      if p ⟨i, h⟩ then some ⟨i, h⟩ else scanFrom p k (i + 1)
    else none

def scan (p : Fin n → Bool) : Option (Fin n) := scanFrom p n 0

theorem scanFrom_some {p : Fin n → Bool} {k i : Nat} {j : Fin n}
    (h : scanFrom p k i = some j) :
    p j = true ∧ i ≤ j.val ∧ ∀ l : Fin n, i ≤ l.val → l.val < j.val → p l = false := by
  induction k generalizing i with
  | zero => simp [scanFrom] at h
  | succ k ih =>
    simp only [scanFrom] at h
    split at h
    · rename_i hi
      split at h
      · rename_i hp
        have heq : (⟨i, hi⟩ : Fin n) = j := Option.some.inj h
        subst j
        exact ⟨hp, Nat.le_refl _, fun l h1 h2 => absurd h2 (Nat.not_lt.mpr h1)⟩
      · rename_i hp
        obtain ⟨hj, hle, hmin⟩ := ih h
        refine ⟨hj, by omega, ?_⟩
        intro l hl hlj
        by_cases heq : l.val = i
        · have hli : l = ⟨i, hi⟩ := Fin.ext heq
          subst l
          simpa using hp
        · exact hmin l (by omega) hlj
    · simp at h

theorem scanFrom_none {p : Fin n → Bool} {k i : Nat} (hk : n ≤ i + k)
    (h : scanFrom p k i = none) : ∀ l : Fin n, i ≤ l.val → p l = false := by
  induction k generalizing i with
  | zero => intro l hl; omega
  | succ k ih =>
    simp only [scanFrom] at h
    split at h
    · rename_i hi
      split at h
      · simp at h
      · rename_i hp
        intro l hl
        by_cases heq : l.val = i
        · have hli : l = ⟨i, hi⟩ := Fin.ext heq
          subst l
          simpa using hp
        · exact ih (by omega) h l (by omega)
    · intro l hl
      omega

theorem scanFrom_cases (p : Nat → Bool) (n lo : Nat) :
    (scanFrom (fun i : Fin n => p i) n lo = none ∧ ∀ c, lo ≤ c → c < n → p c = false) ∨
    ∃ i, scanFrom (fun i : Fin n => p i) n lo = some i ∧ lo ≤ i.val ∧ p i = true ∧
      ∀ c, lo ≤ c → c < i.val → p c = false := by
  cases h : scanFrom (fun i : Fin n => p i) n lo with
  | none =>
    have hnone := scanFrom_none (by omega) h
    exact Or.inl ⟨rfl, fun c hlo hn => hnone ⟨c, hn⟩ hlo⟩
  | some i =>
    obtain ⟨hi, hlo, hmin⟩ := scanFrom_some h
    refine Or.inr ⟨i, rfl, hlo, hi, ?_⟩
    intro c hc hci
    exact hmin ⟨c, Nat.lt_trans hci i.isLt⟩ hc hci

theorem scan_eq_some_iff {p : Fin n → Bool} {j : Fin n} :
    scan p = some j ↔ p j = true ∧ ∀ l : Fin n, l < j → p l = false := by
  constructor
  · intro h
    obtain ⟨hj, _, hmin⟩ := scanFrom_some h
    exact ⟨hj, fun l hl => hmin l (Nat.zero_le _) hl⟩
  · rintro ⟨hj, hmin⟩
    cases h : scan p with
    | none =>
      have hnone := scanFrom_none (by omega) h j (Nat.zero_le _)
      simp [hj] at hnone
    | some l =>
      obtain ⟨hl, _, hlmin⟩ := scanFrom_some h
      rcases Nat.lt_trichotomy l.val j.val with hlt | heq | hgt
      · simp [hmin l hlt] at hl
      · exact congrArg some (Fin.ext heq)
      · simp [hlmin j (Nat.zero_le _) hgt] at hj

theorem scan_eq_none_iff {p : Fin n → Bool} : scan p = none ↔ ∀ l, p l = false := by
  constructor
  · intro h l
    exact scanFrom_none (by omega) h l (Nat.zero_le _)
  · intro h
    cases hs : scan p with
    | none => rfl
    | some j =>
      have hj := (scan_eq_some_iff.mp hs).1
      simp [h j] at hj

/-- The loop `do s = body s; while (again s)`, or nothing when the fuel does not suffice. -/
def doWhile (body : σ → σ) (again : σ → Bool) : Nat → σ → Option σ
  | 0, _ => none
  | fuel + 1, s =>
    if again (body s) then doWhile body again fuel (body s) else some (body s)

section
variable {body : σ → σ} {again : σ → Bool} {fuel : Nat} {s t : σ}

theorem doWhile_eq_some (h : doWhile body again fuel s = some t) :
    ∃ k, t = body^[k + 1] s ∧ again t = false ∧ ∀ j < k, again (body^[j + 1] s) = true := by
  induction fuel generalizing s with
  | zero => exact absurd h (by simp [doWhile])
  | succ fuel ih =>
    rw [doWhile] at h
    split at h
    · rename_i hagain
      obtain ⟨k, ht, hend, hbefore⟩ := ih h
      refine ⟨k + 1, ht, hend, ?_⟩
      intro j hj
      cases j with
      | zero => exact hagain
      | succ j => exact hbefore j (by omega)
    · rename_i hagain
      have ht : body s = t := Option.some.inj h
      refine ⟨0, ht.symm, ?_, fun j hj => absurd hj (Nat.not_lt_zero j)⟩
      rw [← ht]
      simpa using hagain

theorem exists_doWhile {k : Nat} (h : again (body^[k + 1] s) = false) :
    ∃ fuel t, doWhile body again fuel s = some t := by
  induction k generalizing s with
  | zero =>
    have hfalse : again (body s) = false := h
    exact ⟨1, body s, by simp [doWhile, hfalse]⟩
  | succ k ih =>
    by_cases hagain : again (body s) = true
    · obtain ⟨fuel, t, ht⟩ := ih (s := body s) h
      exact ⟨fuel + 1, t, by rw [doWhile, if_pos hagain, ht]⟩
    · exact ⟨1, body s, by rw [doWhile, if_neg hagain]⟩

theorem doWhile_iterate {k : Nat} (hend : again (body^[k + 1] s) = false)
    (hbefore : ∀ j < k, again (body^[j + 1] s) = true) :
    doWhile body again (k + 1) s = some (body^[k + 1] s) := by
  induction k generalizing s with
  | zero =>
    have hstop : ¬ again (body s) = true := fun h => Bool.false_ne_true (hend.symm.trans h)
    exact if_neg hstop
  | succ k ih =>
    have hagain : again (body s) = true := hbefore 0 (Nat.succ_pos k)
    rw [doWhile, if_pos hagain]
    exact ih hend fun j hj => hbefore (j + 1) (Nat.succ_lt_succ hj)

end

end ForLoop
