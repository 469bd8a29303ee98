import Mathlib.Logic.Function.Basic
import Mathlib.Data.List.Basic

/-!
# Things shared out among owners

`SharedOut owners held s` says that the elements of `s` are exactly those that
the owners hold, and that no two owners hold the same one.
-/

set_option autoImplicit false

universe u v
variable {ι : Type u} {α : Type v}

structure SharedOut (owners : List ι) (held : ι → List α) (s : α → Prop) : Prop where
  covered : ∀ x, s x ↔ ∃ p ∈ owners, x ∈ held p
  apart : ∀ p ∈ owners, ∀ q ∈ owners, ∀ x ∈ held p, x ∈ held q → p = q

namespace SharedOut
variable {owners : List ι} {held : ι → List α} {s t : α → Prop} {l : List α}

theorem nil (held : ι → List α) (hs : ∀ x, ¬ s x) : SharedOut [] held s := by
  constructor
  · intro x
    constructor
    · exact fun hx => absurd hx (hs x)
    · rintro ⟨p, hp, _⟩
      cases hp
  · intro p hp
    cases hp

theorem snoc [DecidableEq ι] {p : ι} (h : SharedOut owners held s) (hp : p ∉ owners)
    (hnew : ∀ x ∈ l, ¬ s x) (ht : ∀ x, t x ↔ s x ∨ x ∈ l) :
    SharedOut (owners ++ [p]) (Function.update held p l) t := by
  have hold : ∀ q ∈ owners, Function.update held p l q = held q := by
    intro q hq
    refine Function.update_of_ne ?_ ..
    rintro rfl
    exact hp hq
  have hself : Function.update held p l p = l := Function.update_self ..
  have hout : ∀ q ∈ owners, ∀ x ∈ held q, x ∉ l := by
    intro q hq x hx hmem
    exact hnew x hmem ((h.covered x).mpr ⟨q, hq, hx⟩)
  constructor
  · intro x
    rw [ht]
    constructor
    · rintro (hx | hx)
      · obtain ⟨q, hq, hmem⟩ := (h.covered x).mp hx
        exact ⟨q, List.mem_append_left _ hq, (hold q hq).symm ▸ hmem⟩
      · exact ⟨p, List.mem_append_right _ List.mem_cons_self, hself.symm ▸ hx⟩
    · rintro ⟨q, hq, hmem⟩
      rcases List.mem_append.mp hq with hq | hq
      · rw [hold q hq] at hmem
        exact .inl ((h.covered x).mpr ⟨q, hq, hmem⟩)
      · rw [List.mem_singleton.mp hq, hself] at hmem
        exact .inr hmem
  · intro q hq r hr x hxq hxr
    rcases List.mem_append.mp hq with hq | hq
    · rcases List.mem_append.mp hr with hr | hr
      · rw [hold q hq] at hxq
        rw [hold r hr] at hxr
        exact h.apart q hq r hr x hxq hxr
      · rw [hold q hq] at hxq
        rw [List.mem_singleton.mp hr, hself] at hxr
        exact absurd hxr (hout q hq x hxq)
    · rcases List.mem_append.mp hr with hr | hr
      · rw [List.mem_singleton.mp hq, hself] at hxq
        rw [hold r hr] at hxr
        exact absurd hxq (hout r hr x hxr)
      · rw [List.mem_singleton.mp hq, List.mem_singleton.mp hr]

end SharedOut
