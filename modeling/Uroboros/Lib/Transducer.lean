import Mathlib.Algebra.Order.Ring.Nat

/-!
# Machines that answer their inputs

`run step is s` feeds the inputs `is` to a machine and collects its answers; an
input on which the machine fails ends the run. A simulation between two machines
that never fail makes their answers agree, up to the view taken of them.
`trace step is s` are the answers and states of a machine that may fail, and a
lock step simulation makes it follow another one for as long as that one runs.
-/

set_option autoImplicit false

namespace Transducer

universe u
variable {σ τ ι ο ω ν : Type u}

def run (step : σ → ι → Option (ο × σ)) : List ι → σ → List ο × σ
  | [], s => ([], s)
  | i :: is, s =>
    match step s i with
    | none => ([], s)
    | some (o, s') => (o :: (run step is s').1, (run step is s').2)

variable {step : σ → ι → Option (ο × σ)} {step' : τ → ι → Option (ω × τ)} {s s' : σ} {t : τ}
  {i : ι} {is : List ι} {o : ο}

theorem run_cons_none (h : step s i = none) : run step (i :: is) s = ([], s) := by
  rw [run, h]

theorem run_cons_some (h : step s i = some (o, s')) :
    run step (i :: is) s = (o :: (run step is s').1, (run step is s').2) := by
  rw [run, h]

/-- Related states answer alike under the views `f` and `g`, and stay related. -/
def Simulates (step : σ → ι → Option (ο × σ)) (step' : τ → ι → Option (ω × τ)) (f : ο → ν)
    (g : ω → ν) (R : σ → τ → Prop) : Prop :=
  ∀ s t i, R s t → ∃ o s' w t', step s i = some (o, s') ∧ step' t i = some (w, t') ∧
    f o = g w ∧ R s' t'

/-- A simulation of steps is one of runs: both machines answer every input, and alike. -/
theorem Simulates.run {f : ο → ν} {g : ω → ν} {R : σ → τ → Prop}
    (h : Simulates step step' f g R) (hst : R s t) (is : List ι) :
    (run step is s).1.length = is.length ∧
      (run step is s).1.map f = (run step' is t).1.map g ∧
      R (run step is s).2 (run step' is t).2 := by
  induction is generalizing s t with
  | nil => exact ⟨rfl, rfl, hst⟩
  | cons i is ih =>
    obtain ⟨o, s', w, t', hs, ht, hview, hnext⟩ := h s t i hst
    obtain ⟨hlen, hmap, hlast⟩ := ih hnext
    rw [run_cons_some hs, run_cons_some ht]
    refine ⟨congrArg Nat.succ hlen, ?_, hlast⟩
    rw [List.map_cons, List.map_cons, hview, hmap]

variable {ε : Type u}

def trace (step : σ → ι → Except ε (ο × σ)) : List ι → σ → Except ε (List (ο × σ))
  | [], _ => .ok []
  | i :: is, s => (step s i).bind fun r => (trace step is r.2).map (r :: ·)

theorem trace_eq {step step' : σ → ι → Except ε (ο × σ)} {e : ε}
    (h : ∀ s i, step s i ≠ .error e → step' s i = step s i)
    (hne : trace step is s ≠ .error e) : trace step' is s = trace step is s := by
  induction is generalizing s with
  | nil => rfl
  | cons i is ih =>
    rw [trace] at hne
    rw [trace, trace]
    cases hstep : step s i with
    | error e' =>
      have hother : step s i ≠ .error e := by
        intro herror
        rw [herror] at hne
        exact hne rfl
      rw [h s i hother, hstep]
      rfl
    | ok r =>
      rw [hstep, Except.bind] at hne
      have hrest : trace step is r.2 ≠ .error e := by
        intro herror
        rw [herror] at hne
        exact hne rfl
      have hok : step s i ≠ .error e := by
        intro herror
        rw [hstep] at herror
        cases herror
      rw [h s i hok, hstep, Except.bind, Except.bind, ih hrest]

/-- A first machine does the step of the second one, or fails with `e`. -/
def LockStep (step : σ → ι → Except ε (ο × σ)) (step' : τ → ι → Except ε (ο × τ))
    (R : σ → τ → Prop) (Ask : ι → Prop) (Answer : ο → Prop) (e : ε) : Prop :=
  ∀ s t i o t', R s t → Ask i → step' t i = .ok (o, t') → Answer o →
    step s i = .error e ∨ ∃ s', step s i = .ok (o, s') ∧ R s' t'

/-- Machines in lock step give the same answers through related states. -/
theorem LockStep.trace {step : σ → ι → Except ε (ο × σ)} {step' : τ → ι → Except ε (ο × τ)}
    {R : σ → τ → Prop} {Ask : ι → Prop} {Answer : ο → Prop} {e : ε}
    (h : LockStep step step' R Ask Answer e) {ws : List (ο × τ)} (hst : R s t)
    (hask : ∀ i ∈ is, Ask i) (hws : Transducer.trace step' is t = .ok ws)
    (hanswer : ∀ w ∈ ws, Answer w.1) (hne : Transducer.trace step is s ≠ .error e) :
    ∃ os, Transducer.trace step is s = .ok os ∧
      List.Forall₂ (fun x y => x.1 = y.1 ∧ R x.2 y.2) os ws := by
  induction is generalizing s t ws with
  | nil =>
    cases hws
    exact ⟨[], rfl, .nil⟩
  | cons i is ih =>
    rw [Transducer.trace] at hws hne
    cases hstep' : step' t i with
    | error e' =>
      rw [hstep'] at hws
      cases hws
    | ok r =>
      rw [hstep', Except.bind] at hws
      cases htail : Transducer.trace step' is r.2 with
      | error e' =>
        rw [htail] at hws
        cases hws
      | ok tail =>
        rw [htail] at hws
        cases hws
        have hfirst := h s t i r.1 r.2 hst (hask i List.mem_cons_self) hstep'
          (hanswer r List.mem_cons_self)
        rcases hfirst with herror | ⟨s', hstep, hnext⟩
        · rw [herror] at hne
          exact absurd rfl hne
        · rw [hstep, Except.bind] at hne
          have hrest : Transducer.trace step is s' ≠ .error e := by
            intro herror
            rw [herror] at hne
            exact hne rfl
          obtain ⟨os, hos, hall⟩ := ih hnext (fun i hi => hask i (List.mem_cons_of_mem _ hi))
            htail (fun w hw => hanswer w (List.mem_cons_of_mem _ hw)) hrest
          refine ⟨(r.1, s') :: os, ?_, .cons ⟨rfl, hnext⟩ hall⟩
          rw [Transducer.trace, hstep, Except.bind, hos]
          rfl

end Transducer
