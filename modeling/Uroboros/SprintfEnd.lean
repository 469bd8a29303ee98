import Uroboros.Sprintf
import Mathlib.Logic.Relation

/-!
# The end of the format

A single `%` at the end is caught before the format pointer is moved on. A width
there is not: the pass goes on at the NUL as if it were a conversion.
-/

set_option autoImplicit false

namespace Uroboros.Sprintf

open ByteMemory Stdlibc

def Step (m : Mem) (fmt : CStr) (arg : Nat → U32) (st st' : State) : Prop :=
  fmt st.format ≠ 0 ∧ ∃ enough, ∀ fuel ≥ enough, pass m fmt arg fuel st = some st'

/-- `sprintf` never moves behind the NUL, the loop ends there, and so does the output. -/
structure StaysInside (m : Mem) (fmt : CStr) (arg : Nat → U32) (dispDigit padChar : U8)
    (n : Nat) : Prop where
  inside : ∀ st, Relation.ReflTransGen (Step m fmt arg) (start dispDigit padChar) st →
    st.format ≤ n
  ends : ∃ st enough, st.format = n ∧ ∀ fuel ≥ enough,
    sprintfLoop m fmt arg fuel fuel (start dispDigit padChar) = some st
  terminated : ∃ out enough, ∀ fuel ≥ enough, sprintf m fmt arg dispDigit padChar fuel =
    some (BitVec.ofNat 32 out.length, out ++ [0])

/-- The format is made of ordinary characters and whole conversions, and then `rest`. -/
inductive Parts (rest : List U8) : List U8 → Prop where
  | rest : Parts rest rest
  | ordinary {c : U8} {l : List U8} (hc : c ≠ 0x25) (h : Parts rest l) : Parts rest (c :: l)
  | conversion {w : List U8} {c : U8} {l : List U8} (hw : ∀ d ∈ w, isdigit d = true)
      (hc : ¬ isdigit c = true) (h : Parts rest l) : Parts rest (0x25 :: w ++ c :: l)

/-- The format breaks off behind the width of a conversion. -/
def EndsInWidth (l : List U8) : Prop :=
  ∃ w ≠ [], (∀ d ∈ w, isdigit d = true) ∧ Parts (0x25 :: w) l

/-- Or with whole conversions, a single `%` among them. -/
def EndsWhole (l : List U8) : Prop := Parts [] l ∨ Parts [0x25] l

variable {m : Mem} {fmt : CStr} {arg : Nat → U32} {st : State} {rest l w : List U8} {c : U8}
  {dispDigit padChar : U8} {fuel n : Nat}

theorem EndsWhole.of_parts (h : EndsWhole l) {l' : List U8}
    (hparts : ∀ {rest : List U8}, Parts rest l → Parts rest l') : EndsWhole l' :=
  h.imp hparts hparts

theorem EndsInWidth.of_parts (h : EndsInWidth l) {l' : List U8}
    (hparts : ∀ {rest : List U8}, Parts rest l → Parts rest l') : EndsInWidth l' := by
  obtain ⟨v, hne, hv, hl⟩ := h
  exact ⟨v, hne, hv, hparts hl⟩

/-- On the left what a text may end in, on the right the same behind a `%` and digits. -/
theorem ends_cases (l : List U8) : (EndsWhole l ∨ EndsInWidth l) ∧
    ∀ w : List U8, (∀ d ∈ w, isdigit d = true) →
      EndsWhole (0x25 :: w ++ l) ∨ EndsInWidth (0x25 :: w ++ l) := by
  induction l with
  | nil =>
    refine ⟨.inl (.inl .rest), ?_⟩
    intro w hw
    rw [List.append_nil]
    by_cases hempty : w = []
    · rw [hempty]
      exact .inl (.inr .rest)
    · exact .inr ⟨w, hempty, hw, .rest⟩
  | cons c l ih =>
    obtain ⟨htext, hbehind⟩ := ih
    constructor
    · by_cases hc : c = 0x25
      · rw [hc]
        exact hbehind [] fun d hd => absurd hd List.not_mem_nil
      · exact htext.imp (·.of_parts (.ordinary hc)) (·.of_parts (.ordinary hc))
    · intro w hw
      by_cases hc : isdigit c = true
      · rw [show 0x25 :: w ++ c :: l = 0x25 :: (w ++ [c]) ++ l by simp]
        apply hbehind
        intro d hd
        rcases List.mem_append.mp hd with hd | hd
        · exact hw d hd
        · exact List.mem_singleton.mp hd ▸ hc
      · exact htext.imp (·.of_parts (.conversion hw hc)) (·.of_parts (.conversion hw hc))

theorem pass_to (m : Mem) (arg : Nat → U32) (hs : Spells fmt st.format (0x25 :: w ++ [c]))
    (hw : ∀ d ∈ w, isdigit d = true) (hc : ¬ isdigit c = true) (hzero : w = [] → c ≠ 0) :
    ∃ st', (∀ fuel > w.length, pass m fmt arg fuel st = some st') ∧
      st'.format = st.format + w.length + 2 := by
  by_cases hpercent : w = [] ∧ c = 0x25
  · obtain ⟨rfl, rfl⟩ := hpercent
    exact ⟨_, fun fuel _ => pass_percent hs, rfl⟩
  · refine ⟨_, fun fuel hfuel => pass_conversion hs hw hc hfuel fun hempty =>
      ⟨hzero hempty, fun heq => hpercent ⟨hempty, heq⟩⟩, ?_⟩
    rw [emit_format, convert_format, widthRead_format]
    omega

structure At (fmt : CStr) (n : Nat) (st : State) (l : List U8) : Prop where
  spells : Spells fmt st.format (l ++ [0])
  nonzero : ∀ c ∈ l, c ≠ 0
  length : st.format + l.length = n

def Moves (m : Mem) (fmt : CStr) (arg : Nat → U32) (n : Nat) (st : State) (l : List U8) : Prop :=
  fmt st.format ≠ 0 ∧ ∃ st', (∀ fuel > n, pass m fmt arg fuel st = some st') ∧ At fmt n st' l

namespace At

theorem char_ne_zero (h : At fmt n st (c :: l)) : fmt st.format ≠ 0 := by
  have hchar : fmt st.format = c := h.spells.1
  exact hchar ▸ h.nonzero c List.mem_cons_self

theorem eq_zero (h : At fmt n st []) : fmt st.format = 0 := h.spells.1

theorem ordinary (m : Mem) (arg : Nat → U32) (h : At fmt n st (c :: l)) (hc : c ≠ 0x25) :
    Moves m fmt arg n st l := by
  refine ⟨h.char_ne_zero, _, fun fuel _ => pass_ordinary h.spells.1 hc, ?_⟩
  constructor
  · exact h.spells.2
  · exact fun d hd => h.nonzero d (List.mem_cons_of_mem c hd)
  · have hlength := h.length
    rw [List.length_cons] at hlength
    dsimp only
    omega

theorem conversion (m : Mem) (arg : Nat → U32) (h : At fmt n st (0x25 :: w ++ c :: l))
    (hw : ∀ d ∈ w, isdigit d = true) (hc : ¬ isdigit c = true) : Moves m fmt arg n st l := by
  have hspells : Spells fmt st.format ((0x25 :: w ++ [c]) ++ (l ++ [0])) := by
    have hsplit : (0x25 :: w ++ c :: l) ++ [0] = (0x25 :: w ++ [c]) ++ (l ++ [0]) := by simp
    exact hsplit ▸ h.spells
  have hlength := h.length
  rw [List.length_append, List.length_cons, List.length_cons] at hlength
  have hmem : ∀ d ∈ c :: l, d ≠ 0 := fun d hd => h.nonzero d (List.mem_append_right _ hd)
  rw [spells_append, List.length_append, List.length_cons, List.length_singleton] at hspells
  obtain ⟨st', hpass, hformat⟩ :=
    pass_to m arg hspells.1 hw hc fun _ => hmem c List.mem_cons_self
  refine ⟨h.char_ne_zero, st', fun fuel hfuel => hpass fuel (by omega), ?_⟩
  constructor
  · rw [hformat, Nat.add_assoc]
    exact hspells.2
  · exact fun d hd => hmem d (List.mem_cons_of_mem c hd)
  · omega

/-- A single `%` at the end is caught. -/
theorem percent (m : Mem) (arg : Nat → U32) (h : At fmt n st [0x25]) :
    Moves m fmt arg n st [] := by
  refine ⟨h.char_ne_zero, _, fun fuel _ => pass_break h.spells, ?_⟩
  constructor
  · exact h.spells.2
  · exact fun d hd => absurd hd List.not_mem_nil
  · exact h.length

/-- A width at the end is not. -/
theorem width (m : Mem) (arg : Nat → U32) (h : At fmt n st (0x25 :: w)) (hne : w ≠ [])
    (hw : ∀ d ∈ w, isdigit d = true) :
    ∃ st', (∀ fuel > n, pass m fmt arg fuel st = some st') ∧ st'.format = n + 1 := by
  have hlength := h.length
  rw [List.length_cons] at hlength
  obtain ⟨st', hpass, hformat⟩ :=
    pass_to m arg h.spells hw (by decide) fun hempty => absurd hempty hne
  exact ⟨st', fun fuel hfuel => hpass fuel (by omega), by omega⟩

theorem moves (m : Mem) (arg : Nat → U32) (h : At fmt n st l) (hl : EndsWhole l) (hne : l ≠ []) :
    ∃ l', Moves m fmt arg n st l' ∧ EndsWhole l' ∧ l'.length < l.length := by
  have hparts : ∀ {rest : List U8}, Parts rest l →
      (∀ {l' : List U8}, Parts rest l' → EndsWhole l') → l ≠ rest →
      ∃ l', Moves m fmt arg n st l' ∧ EndsWhole l' ∧ l'.length < l.length := by
    intro rest hparts hends hother
    cases hparts with
    | rest => exact absurd rfl hother
    | @ordinary c l hc hparts =>
      exact ⟨l, h.ordinary m arg hc, hends hparts, Nat.lt_succ_self _⟩
    | @conversion w c l hw hc hparts =>
      refine ⟨l, h.conversion m arg hw hc, hends hparts, ?_⟩
      rw [List.length_append, List.length_cons, List.length_cons]
      omega
  rcases hl with hl | hl
  · exact hparts hl .inl hne
  · by_cases hlast : l = [0x25]
    · rw [hlast] at h ⊢
      exact ⟨[], h.percent m arg, .inl .rest, Nat.zero_lt_one⟩
    · exact hparts hl .inr hlast

end At

theorem at_of_reached {st' : State} (h : At fmt n st l) (hl : EndsWhole l)
    (hreach : Relation.ReflTransGen (Step m fmt arg) st st') :
    ∃ l', At fmt n st' l' ∧ EndsWhole l' := by
  induction hreach with
  | refl => exact ⟨l, h, hl⟩
  | @tail st₁ st₂ _ hstep ih =>
    obtain ⟨l₁, h₁, hl₁⟩ := ih
    obtain ⟨hchar, enough, hpass⟩ := hstep
    have hne : l₁ ≠ [] := by
      rintro rfl
      exact hchar h₁.eq_zero
    obtain ⟨l₂, ⟨_, st', hpass', h₂⟩, hl₂, _⟩ := h₁.moves m arg hl₁ hne
    have hsame : st₂ = st' := by
      have hboth := hpass (enough + (n + 1)) (Nat.le_add_right _ _)
      rw [hpass' (enough + (n + 1)) (Nat.le_add_left _ _)] at hboth
      exact (Option.some.inj hboth).symm
    exact ⟨l₂, hsame ▸ h₂, hl₂⟩

theorem sprintfLoop_whole (h : At fmt n st l) (hl : EndsWhole l) :
    ∃ st', st'.format = n ∧ fmt n = 0 ∧
      ∀ fuel > n, ∀ k > l.length, sprintfLoop m fmt arg fuel k st = some st' := by
  induction hlen : l.length using Nat.strong_induction_on generalizing st l with
  | h len ih =>
    by_cases hempty : l = []
    · subst hempty
      have hend : st.format = n := h.length
      refine ⟨st, hend, hend ▸ h.eq_zero, ?_⟩
      intro fuel _ k hk
      obtain ⟨k, rfl⟩ := Nat.exists_eq_succ_of_ne_zero (Nat.ne_of_gt (Nat.zero_lt_of_lt hk))
      rw [sprintfLoop, if_pos h.eq_zero]
    · obtain ⟨l', ⟨hchar, st', hpass, h'⟩, hl', hlt⟩ := h.moves m arg hl hempty
      obtain ⟨st₂, hend, hzero, hloop⟩ := ih l'.length (hlen ▸ hlt) h' hl' rfl
      refine ⟨st₂, hend, hzero, ?_⟩
      intro fuel hfuel k hk
      obtain ⟨k, rfl⟩ := Nat.exists_eq_succ_of_ne_zero (Nat.ne_of_gt (Nat.zero_lt_of_lt hk))
      rw [sprintfLoop, if_neg hchar, hpass fuel hfuel, Option.bind_some]
      exact hloop fuel hfuel k (by omega)

theorem Moves.reach (h : Moves m fmt arg n st l) {P : State → Prop}
    (hrest : ∀ st₁, At fmt n st₁ l →
      ∃ st', Relation.ReflTransGen (Step m fmt arg) st₁ st' ∧ P st') :
    ∃ st', Relation.ReflTransGen (Step m fmt arg) st st' ∧ P st' := by
  obtain ⟨hchar, st₁, hpass, h₁⟩ := h
  obtain ⟨st₂, hreach, hend⟩ := hrest st₁ h₁
  exact ⟨st₂, .head ⟨hchar, n + 1, hpass⟩ hreach, hend⟩

/-- A width at the end moves `format` behind the NUL. -/
theorem exists_outside (h : At fmt n st l) (hne : w ≠ []) (hw : ∀ d ∈ w, isdigit d = true)
    (hl : Parts (0x25 :: w) l) :
    ∃ st', Relation.ReflTransGen (Step m fmt arg) st st' ∧ st'.format = n + 1 := by
  induction hl generalizing st with
  | rest =>
    obtain ⟨st', hpass, hend⟩ := h.width m arg hne hw
    exact ⟨st', .single ⟨h.char_ne_zero, n + 1, hpass⟩, hend⟩
  | ordinary hc _ ih => exact (h.ordinary m arg hc).reach fun _ h₁ => ih h₁
  | conversion hd hc _ ih => exact (h.conversion m arg hd hc).reach fun _ h₁ => ih h₁

/-- `sprintf` stays inside its format exactly when the format does not break off in a width. -/
theorem staysInside_iff (m : Mem) (fmt : CStr) (arg : Nat → U32) (dispDigit padChar : U8)
    (l : List U8) (hfmt : Spells fmt 0 (l ++ [0])) (hnonzero : ∀ c ∈ l, c ≠ 0) :
    StaysInside m fmt arg dispDigit padChar l.length ↔ ¬ EndsInWidth l := by
  have hat : At fmt l.length (start dispDigit padChar) l := ⟨hfmt, hnonzero, Nat.zero_add _⟩
  constructor
  · rintro h ⟨w, hne, hw, hl⟩
    obtain ⟨st', hreach, hend⟩ := exists_outside hat hne hw hl
    have hle := h.inside st' hreach
    omega
  · intro hwidth
    have hl : EndsWhole l := (ends_cases l).1.resolve_right hwidth
    obtain ⟨st', hend, hzero, hloop⟩ := sprintfLoop_whole hat hl
    constructor
    · intro st₁ hreach
      obtain ⟨l', h', _⟩ := at_of_reached hat hl hreach
      exact h'.length ▸ Nat.le_add_right _ _
    · exact ⟨st', l.length + 1, hend, fun fuel hfuel => hloop fuel hfuel fuel hfuel⟩
    · refine ⟨st'.out, l.length + 1, ?_⟩
      intro fuel hfuel
      rw [sprintf, hloop fuel hfuel fuel hfuel, Option.map_some, hend, hzero]

theorem Parts.suffix (h : Parts rest l) : rest <:+ l := by
  induction h with
  | rest => exact List.suffix_refl _
  | ordinary _ _ ih => exact ih.trans (List.suffix_cons _ _)
  | conversion _ _ _ ih =>
    exact ih.trans ((List.suffix_cons _ _).trans (List.suffix_append _ _))

theorem not_endsInWidth (hc : ¬ isdigit c = true) : ¬ EndsInWidth (l ++ [c]) := by
  rintro ⟨w, hne, hw, hparts⟩
  obtain ⟨w', d, rfl⟩ := w.eq_nil_or_concat'.resolve_left hne
  obtain ⟨l', heq⟩ := hparts.suffix
  have hsplit : (l' ++ 0x25 :: w') ++ [d] = l ++ [c] := by
    rw [List.append_assoc]
    exact heq
  have hlast : d = c := List.singleton_inj.mp (List.append_inj_right' hsplit rfl)
  exact hc (hlast ▸ hw d (List.mem_append_right _ (List.mem_singleton_self d)))

theorem staysInside_d : StaysInside (fun _ => 0) (fun i => [0x25, 0x34, 0x64].getD i 0)
    (fun _ => 5) 0 0 3 :=
  (staysInside_iff (fun _ => 0) (fun i => [0x25, 0x34, 0x64].getD i 0) (fun _ => 5) 0 0
    [0x25, 0x34, 0x64] ⟨rfl, rfl, rfl, rfl, trivial⟩ (by decide)).mpr
    (not_endsInWidth (l := [0x25, 0x34]) (by decide))

def brokenFmt : CStr := fun i => [0x25, 0x35, 0, 0x41].getD i 0

/-- After `%5` the `A` is printed, as if it belonged to the format. -/
theorem staysInside_broken : Spells brokenFmt 0 ([0x25, 0x35] ++ [0]) ∧
    sprintf (fun _ => 0) brokenFmt (fun _ => 0) 0 0 4 =
      some (6, [0x20, 0x20, 0x20, 0x20, 0x20, 0x41, 0]) ∧
    ¬ StaysInside (fun _ => 0) brokenFmt (fun _ => 0) 0 0 2 := by
  have hspells : Spells brokenFmt 0 ([0x25, 0x35] ++ [0]) := ⟨rfl, rfl, rfl, trivial⟩
  refine ⟨hspells, by decide +kernel, ?_⟩
  intro h
  have hat : At brokenFmt 2 (start 0 0) [0x25, 0x35] := ⟨hspells, by decide, rfl⟩
  obtain ⟨st', hreach, hend⟩ := exists_outside hat (List.cons_ne_nil 0x35 []) (by decide) .rest
  have hle := h.inside st' hreach
  omega

end Uroboros.Sprintf
