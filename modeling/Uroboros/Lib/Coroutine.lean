import Mathlib.Logic.Function.Basic
import Uroboros.Lib.Run

/-!
# Coroutines

Each coroutine has a state of its own and one of them is current. Only the current
one works; it can create, kill and hand over to others. `back` is what a transfer
does to the coroutine that asks for it: it takes its state to the one in which the
transfer has returned. Nothing else touches the state of a coroutine that waits.
-/

set_option autoImplicit false

universe u

/-- `state k` is `none` where there is no coroutine. -/
structure Coroutines (ι σ : Type u) where
  current : ι
  state : ι → Option σ

namespace Coroutines

variable {ι σ : Type u}

inductive Event (ι : Type u) where
  | work
  | create (k : ι)
  | kill (k : ι)
  | transfer (k : ι)
  | exit (k : ι)

variable [DecidableEq ι]

inductive Step (back : σ → σ) : Coroutines ι σ → Event ι → Coroutines ι σ → Prop where
  | work (s : Coroutines ι σ) (x : σ) :
      Step back s .work { s with state := Function.update s.state s.current (some x) }
  | create (s : Coroutines ι σ) (k : ι) (x : σ) : k ≠ s.current → s.state k = none →
      Step back s (.create k) { s with state := Function.update s.state k (some x) }
  | kill (s : Coroutines ι σ) (k : ι) : k ≠ s.current →
      Step back s (.kill k) { s with state := Function.update s.state k none }
  | transfer (s : Coroutines ι σ) (k : ι) : k ≠ s.current → (s.state k).isSome →
      Step back s (.transfer k)
        ⟨k, Function.update s.state s.current ((s.state s.current).map back)⟩
  | exit (s : Coroutines ι σ) (k : ι) : k ≠ s.current → (s.state k).isSome →
      Step back s (.exit k) ⟨k, Function.update s.state s.current none⟩

variable {back : σ → σ} {s t : Coroutines ι σ} {e : Event ι} {k : ι}

/-- `k` is not current and the step does not create or kill it. -/
def Waits (k : ι) (s : Coroutines ι σ) (e : Event ι) : Prop :=
  s.current ≠ k ∧ e ≠ .create k ∧ e ≠ .kill k

theorem Step.state_of_waits (h : Step back s e t) (hk : Waits k s e) : t.state k = s.state k := by
  obtain ⟨hcurrent, hcreate, hkill⟩ := hk
  cases h with
  | work x => exact Function.update_of_ne hcurrent.symm ..
  | create j x _ _ =>
    apply Function.update_of_ne
    rintro rfl
    exact hcreate rfl
  | kill j _ =>
    apply Function.update_of_ne
    rintro rfl
    exact hkill rfl
  | transfer j _ _ => exact Function.update_of_ne hcurrent.symm ..
  | exit j _ _ => exact Function.update_of_ne hcurrent.symm ..

/-- A coroutine that waits is not touched, whatever the others do. -/
theorem state_of_waits {tr : List (Coroutines ι σ × Event ι × Coroutines ι σ)}
    (h : Run (Step back) s tr t) (hk : Run.Guarded (Waits k) tr) : t.state k = s.state k := by
  induction h with
  | nil => rfl
  | snoc _ step ih =>
    obtain ⟨hbefore, hstep⟩ := Run.guarded_snoc.mp hk
    exact (step.state_of_waits hstep).trans (ih hbefore)

end Coroutines
