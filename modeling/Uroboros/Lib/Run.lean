import Mathlib.Algebra.Order.Ring.Nat

/-!
# Runs of a step relation

`Run Step s tr t` is a run from `s` to `t`; `tr` lists its transitions, oldest
first. A guard is a condition on the state before a step and on its label.
Every prefix of a run is a run, so a fact about the last states of all runs is
a fact about every state on the way.
-/

set_option autoImplicit false

universe u v w
variable {σ : Type u} {ε : Type v}

inductive Run (Step : σ → ε → σ → Prop) : σ → List (σ × ε × σ) → σ → Prop where
  | nil (s : σ) : Run Step s [] s
  | snoc {s t u : σ} {tr : List (σ × ε × σ)} {e : ε} :
      Run Step s tr t → Step t e u → Run Step s (tr ++ [(t, e, u)]) u

namespace Run
variable {Step : σ → ε → σ → Prop} {s t : σ} {tr : List (σ × ε × σ)}

def Guarded (C : σ → ε → Prop) (tr : List (σ × ε × σ)) : Prop := ∀ x ∈ tr, C x.1 x.2.1

instance (C : σ → ε → Prop) [∀ s e, Decidable (C s e)] : Decidable (Guarded C tr) :=
  inferInstanceAs (Decidable (∀ x ∈ tr, C x.1 x.2.1))

theorem guarded_nil (C : σ → ε → Prop) : Guarded C ([] : List (σ × ε × σ)) := by
  intro x hx
  cases hx

theorem guarded_snoc {C : σ → ε → Prop} {x : σ × ε × σ} :
    Guarded C (tr ++ [x]) ↔ Guarded C tr ∧ C x.1 x.2.1 := by
  constructor
  · intro h
    exact ⟨fun y hy => h y (List.mem_append_left _ hy),
      h x (List.mem_append_right _ List.mem_cons_self)⟩
  · rintro ⟨h, hx⟩ y hy
    rcases List.mem_append.mp hy with hy | hy
    · exact h y hy
    · have heq : y = x := List.mem_singleton.mp hy
      subst y
      exact hx

theorem cons {r : σ} {e : ε} (step : Step r e s) (h : Run Step s tr t) :
    Run Step r ((r, e, s) :: tr) t := by
  induction h with
  | nil => exact .snoc (.nil r) step
  | snoc _ step' ih => exact .snoc ih step'

theorem eq_of_nil (h : Run Step s [] t) : s = t := by
  generalize htr : [] = tr at h
  cases h with
  | nil => rfl
  | snoc _ _ => simp at htr

theorem of_cons {x : σ × ε × σ} (h : Run Step s (x :: tr) t) :
    x.1 = s ∧ Step x.1 x.2.1 x.2.2 ∧ Run Step x.2.2 tr t := by
  generalize htr : x :: tr = l at h
  induction h generalizing tr with
  | nil => cases htr
  | @snoc t u l e run step ih =>
    rcases List.eq_nil_or_concat tr with heq | ⟨init, y, heq⟩
    · subst heq
      have htr' : [] ++ [x] = l ++ [(t, e, u)] := htr
      obtain ⟨hinit, hlast⟩ := List.append_inj' htr' rfl
      subst hinit
      rw [List.singleton_inj.mp hlast]
      exact ⟨(eq_of_nil run).symm, step, .nil u⟩
    · rw [List.concat_eq_append] at heq
      subst heq
      rw [← List.cons_append] at htr
      obtain ⟨hinit, hlast⟩ := List.append_inj' htr rfl
      rw [List.singleton_inj.mp hlast]
      obtain ⟨hx, hstep, hrun⟩ := ih hinit
      exact ⟨hx, hstep, .snoc hrun step⟩

theorem of_append {tr₁ tr₂ : List (σ × ε × σ)} (h : Run Step s (tr₁ ++ tr₂) t) :
    ∃ r, Run Step s tr₁ r ∧ Run Step r tr₂ t := by
  induction tr₁ generalizing s with
  | nil => exact ⟨s, .nil s, h⟩
  | cons x tr₁ ih =>
    obtain ⟨hx, hstep, hrun⟩ := of_cons h
    obtain ⟨r, h1, h2⟩ := ih hrun
    subst hx
    exact ⟨r, h1.cons hstep, h2⟩

theorem mono {Step' : σ → ε → σ → Prop} (steps : ∀ s e t, Step s e t → Step' s e t)
    (h : Run Step s tr t) : Run Step' s tr t := by
  induction h with
  | nil => exact .nil _
  | snoc _ step ih => exact .snoc ih (steps _ _ _ step)

theorem map {τ : Type u} {Step' : τ → ε → τ → Prop} (f : σ → τ)
    (steps : ∀ s e t, Step s e t → Step' (f s) e (f t)) (h : Run Step s tr t) :
    Run Step' (f s) (tr.map fun x => (f x.1, x.2.1, f x.2.2)) (f t) := by
  induction h with
  | nil => exact .nil _
  | snoc _ step ih =>
    rw [List.map_append]
    exact .snoc ih (steps _ _ _ step)

/-- The refinement rule: where steps from states with the invariant keep it and map to steps, runs
map to runs. -/
theorem simulate {τ : Type u} {δ : Type w} {Step' : τ → δ → τ → Prop} {I : σ → Prop}
    (f : σ → τ) (g : ε → δ) (h : Run Step s tr t) (init : I s)
    (steps : ∀ s e t, I s → Step s e t → I t ∧ Step' (f s) (g e) (f t)) :
    I t ∧ Run Step' (f s) (tr.map fun x => (f x.1, g x.2.1, f x.2.2)) (f t) := by
  induction h with
  | nil => exact ⟨init, .nil _⟩
  | snoc _ step ih =>
    obtain ⟨hinv, hrun⟩ := ih
    obtain ⟨hnext, hstep⟩ := steps _ _ _ hinv step
    refine ⟨hnext, ?_⟩
    rw [List.map_append]
    exact .snoc hrun hstep

theorem refine {τ : Type u} {Step' : τ → ε → τ → Prop} {I : σ → Prop} (f : σ → τ)
    (h : Run Step s tr t) (init : I s)
    (steps : ∀ s e t, I s → Step s e t → I t ∧ Step' (f s) e (f t)) :
    I t ∧ Run Step' (f s) (tr.map fun x => (f x.1, x.2.1, f x.2.2)) (f t) :=
  h.simulate f id init steps

theorem guard {C : σ → ε → Prop} (h : Run Step s tr t) (guard : Guarded C tr) :
    Run (fun s e t => Step s e t ∧ C s e) s tr t := by
  induction h with
  | nil => exact .nil _
  | snoc _ step ih =>
    obtain ⟨hbefore, hstep⟩ := guarded_snoc.mp guard
    exact .snoc (ih hbefore) ⟨step, hstep⟩

/-- The run rule: an invariant that guarded steps keep holds at the end of a guarded run. -/
theorem invariant {I : σ → Prop} {C : σ → ε → Prop} (h : Run Step s tr t) (init : I s)
    (keep : ∀ t e u, I t → C t e → Step t e u → I u) (guard : Guarded C tr) : I t := by
  induction h with
  | nil => exact init
  | snoc _ step ih =>
    obtain ⟨hbefore, hstep⟩ := guarded_snoc.mp guard
    exact keep _ _ _ (ih hbefore) hstep step

/-- The variant rule: where the steps that `P` marks lower `m` and no step raises it, a run from `s`
has at most `m s` of them. -/
theorem variant {I : σ → Prop} {m : σ → Nat} {P : ε → Prop} [DecidablePred P]
    (h : Run Step s tr t) (init : I s) (keep : ∀ t e u, I t → Step t e u → I u)
    (lower : ∀ t e u, I t → Step t e u → m u + (if P e then 1 else 0) ≤ m t) :
    I t ∧ tr.countP (fun x => P x.2.1) + m t ≤ m s := by
  induction h with
  | nil => exact ⟨init, Nat.le_of_eq (Nat.zero_add _)⟩
  | @snoc t u tr e _ step ih =>
    obtain ⟨ht, hbefore⟩ := ih
    have hstep := lower _ _ _ ht step
    refine ⟨keep _ _ _ ht step, ?_⟩
    rw [List.countP_append, List.countP_singleton]
    simp only [decide_eq_true_eq]
    omega

/-- Where a step outside the guard destroys `P`, `P` holds all along exactly on guarded runs. -/
theorem forall_iff_guarded {I P : σ → Prop} {C : σ → ε → Prop} (h : Run Step s tr t)
    (init : I s) (keep : ∀ t e u, I t → C t e → Step t e u → I u)
    (sound : ∀ t, I t → P t) (broken : ∀ t e u, I t → ¬ C t e → Step t e u → ¬ P u) :
    (P s ∧ ∀ x ∈ tr, P x.2.2) ↔ Guarded C tr := by
  constructor
  · rintro ⟨_, hall⟩
    induction h with
    | nil => exact guarded_nil C
    | snoc hrun step ih =>
      have hbefore := ih fun x hx => hall x (List.mem_append_left _ hx)
      refine guarded_snoc.mpr ⟨hbefore, ?_⟩
      have hinv := hrun.invariant init keep hbefore
      apply Classical.byContradiction
      intro hC
      exact broken _ _ _ hinv hC step (hall _ (List.mem_append_right _ List.mem_cons_self))
  · intro guard
    refine ⟨sound s init, ?_⟩
    induction h with
    | nil =>
      intro x hx
      cases hx
    | snoc hrun step ih =>
      obtain ⟨hbefore, hstep⟩ := guarded_snoc.mp guard
      intro x hx
      rcases List.mem_append.mp hx with hx | hx
      · exact ih hbefore x hx
      · have heq := List.mem_singleton.mp hx
        subst x
        exact sound _ (keep _ _ _ (hrun.invariant init keep hbefore) hstep step)

section Exec
variable {ρ : Type u} {next : σ → ρ → Option (ε × σ)}

/-- Take the requests in order; `none` when one of them is refused. -/
def exec (next : σ → ρ → Option (ε × σ)) : List ρ → σ → Option (List (σ × ε × σ) × σ)
  | [], s => some ([], s)
  | r :: rs, s =>
    match next s r with
    | none => none
    | some (e, t) => (exec next rs t).map fun u => ((s, e, t) :: u.1, u.2)

theorem exec_run (sound : ∀ s r e t, next s r = some (e, t) → Step s e t) {rs : List ρ}
    (h : exec next rs s = some (tr, t)) : Run Step s tr t := by
  induction rs generalizing s tr with
  | nil =>
    cases h
    exact .nil _
  | cons r rs ih =>
    simp only [exec] at h
    split at h
    · cases h
    · rename_i hnext
      obtain ⟨⟨tr', t'⟩, hrest, heq⟩ := Option.map_eq_some_iff.mp h
      cases heq
      exact (ih hrest).cons (sound _ _ _ _ hnext)

/-- A step function on labels, as a request function. -/
def ofStep (step : σ → ρ → Option σ) (s : σ) (e : ρ) : Option (ρ × σ) :=
  (step s e).map fun t => (e, t)

theorem ofStep_sound {step : σ → ρ → Option σ} (s : σ) (r e : ρ) (t : σ)
    (h : ofStep step s r = some (e, t)) : step s e = some t := by
  obtain ⟨u, hu, heq⟩ := Option.map_eq_some_iff.mp h
  cases heq
  exact hu

end Exec

end Run
