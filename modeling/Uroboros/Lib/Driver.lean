import Mathlib.Logic.Relation

/-!
# Programs beside a device

A program works on a state that it shares with a device, and the device moves between
any two steps of the program. `Ends` is total correctness for every interleaving: none
of them goes on for ever or gets stuck, and all end in the postcondition.
-/

set_option autoImplicit false

namespace Driver

variable {σ ρ α β : Type}

/-- `ask` steps return something, `await` is a busy loop on a condition. -/
inductive Prog (σ ρ α : Type) where
  | done (a : α)
  | act (f : σ → σ) (next : Prog σ ρ α)
  | ask (f : σ → ρ × σ) (next : ρ → Prog σ ρ α)
  | await (ready : σ → Bool) (next : Prog σ ρ α)

namespace Prog

def bind (p : Prog σ ρ α) (k : α → Prog σ ρ β) : Prog σ ρ β :=
  match p with
  | done a => k a
  | act f next => act f (next.bind k)
  | ask f next => ask f fun r => (next r).bind k
  | await ready next => await ready (next.bind k)

instance : Monad (Prog σ ρ) where
  pure := done
  bind := bind

def times (body : Nat → Prog σ ρ Unit) : Nat → Prog σ ρ Unit
  | 0 => pure ()
  | n + 1 => do
    times body n
    body n

/-- The same loop with a variable that each pass may change. -/
def fold (body : Nat → β → Prog σ ρ β) : Nat → β → Prog σ ρ β
  | 0, b => pure b
  | n + 1, b => do
    let c ← fold body n b
    body n c

end Prog

/-- A step of the program or, in `device`, of the device; a program that awaits steps on only when
its condition holds. -/
inductive Step (env : σ → σ → Prop) : Prog σ ρ α × σ → Prog σ ρ α × σ → Prop where
  | act (f : σ → σ) (next : Prog σ ρ α) (s : σ) : Step env (.act f next, s) (next, f s)
  | ask (f : σ → ρ × σ) (next : ρ → Prog σ ρ α) (s : σ) :
      Step env (.ask f next, s) (next (f s).1, (f s).2)
  | await (ready : σ → Bool) (next : Prog σ ρ α) (s : σ) : ready s = true →
      Step env (.await ready next, s) (next, s)
  | device (p : Prog σ ρ α) (s t : σ) : env s t → Step env (p, s) (p, t)

inductive Ends (env : σ → σ → Prop) (Q : α → σ → Prop) : Prog σ ρ α → σ → Prop where
  | intro {p : Prog σ ρ α} {s : σ} :
      (∀ a, p = .done a → Q a s) →
      ((∃ a, p = .done a) ∨ ∃ c, Step env (p, s) c) →
      (∀ q t, Step env (p, s) (q, t) → Ends env Q q t) → Ends env Q p s

variable {env : σ → σ → Prop} {Q : α → σ → Prop} {p : Prog σ ρ α} {s : σ}

/-- Total correctness, said of the runs: none is infinite, and where one cannot go on the program is
at its end and the postcondition holds. -/
structure Total (env : σ → σ → Prop) (p : Prog σ ρ α) (s : σ) (Q : α → σ → Prop) : Prop where
  finite : Acc (fun c d => Step env d c) (p, s)
  ends : ∀ c, Relation.ReflTransGen (Step env) (p, s) c →
    (∃ d, Step env c d) ∨ ∃ a, c.1 = .done a ∧ Q a c.2

theorem Ends.total (h : Ends env Q p s) : Total env p s Q := by
  induction h with
  | @intro p s hdone hlive _ ih =>
    refine ⟨Acc.intro _ fun c hc => (ih c.1 c.2 hc).finite, ?_⟩
    intro c hc
    rcases Relation.ReflTransGen.cases_head hc with heq | ⟨d, hd, hrest⟩
    · subst heq
      rcases hlive with ⟨a, ha⟩ | hstep
      · exact .inr ⟨a, ha, hdone a ha⟩
      · exact .inl hstep
    · exact (ih d.1 d.2 hd).ends c hrest

theorem Ends.mono {Q' : α → σ → Prop} (h : Ends env Q p s) (himp : ∀ a t, Q a t → Q' a t) :
    Ends env Q' p s := by
  induction h with
  | intro hdone hlive _ ih =>
    exact .intro (fun a ha => himp a _ (hdone a ha)) hlive fun q t hstep => ih q t hstep

/-- The device has nothing to do. -/
def Quiet (env : σ → σ → Prop) (s : σ) : Prop := ∀ t, ¬ env s t

theorem Ends.done {a : α} (hs : Quiet env s) (h : Q a s) :
    Ends env Q (.done a : Prog σ ρ α) s := by
  apply Ends.intro
  · rintro b hb
    cases hb
    exact h
  · exact .inl ⟨a, rfl⟩
  · intro q t hstep
    cases hstep with
    | device _ _ _ henv => exact absurd henv (hs t)

theorem Ends.act {f : σ → σ} (hs : Quiet env s) (h : Ends env Q p (f s)) :
    Ends env Q (.act f p) s := by
  apply Ends.intro
  · intro a ha
    cases ha
  · exact .inr ⟨_, .act f p s⟩
  · intro q t hstep
    cases hstep with
    | act => exact h
    | device _ _ _ henv => exact absurd henv (hs t)

theorem Ends.ask {f : σ → ρ × σ} {next : ρ → Prog σ ρ α} (hs : Quiet env s)
    (h : Ends env Q (next (f s).1) (f s).2) : Ends env Q (.ask f next) s := by
  apply Ends.intro
  · intro a ha
    cases ha
  · exact .inr ⟨_, .ask f next s⟩
  · intro q t hstep
    cases hstep with
    | ask => exact h
    | device _ _ _ henv => exact absurd henv (hs t)

theorem Ends.bind {k : α → Prog σ ρ β} {R : β → σ → Prop}
    (h : Ends env (fun a t => Ends env R (k a) t) p s) : Ends env R (p >>= k) s := by
  induction h with
  | @intro p s hdone hlive _ ih =>
    cases p with
    | done a => exact hdone a rfl
    | act f next =>
      apply Ends.intro
      · intro a ha
        cases ha
      · exact .inr ⟨_, .act f (next >>= k) s⟩
      · intro q t hstep
        cases hstep with
        | act => exact ih _ _ (.act f next s)
        | device _ _ _ henv => exact ih _ _ (.device _ s t henv)
    | ask f next =>
      apply Ends.intro
      · intro a ha
        cases ha
      · exact .inr ⟨_, .ask f (fun r => next r >>= k) s⟩
      · intro q t hstep
        cases hstep with
        | ask => exact ih _ _ (.ask f next s)
        | device _ _ _ henv => exact ih _ _ (.device _ s t henv)
    | await ready next =>
      have hcond : ∀ c, Step env (.await ready next, s) c →
          ∃ d, Step env (.await ready next >>= k, s) d := by
        rintro c hc
        cases hc with
        | await _ _ _ hready => exact ⟨_, .await ready (next >>= k) s hready⟩
        | device _ _ t henv => exact ⟨_, .device _ s t henv⟩
      apply Ends.intro
      · intro a ha
        cases ha
      · right
        rcases hlive with ⟨a, ha⟩ | ⟨c, hc⟩
        · cases ha
        · exact hcond c hc
      · intro q t hstep
        cases hstep with
        | await _ _ _ hready => exact ih _ _ (.await ready next s hready)
        | device _ _ _ henv => exact ih _ _ (.device _ s t henv)

theorem Ends.fold {body : Nat → β → Prog σ ρ β} {n : Nat} {b : β} (I : Nat → β → σ → Prop)
    (hs : Quiet env s) (init : I 0 b s)
    (pass : ∀ i c t, i < n → I i c t → Ends env (fun d u => I (i + 1) d u) (body i c) t) :
    Ends env (fun c t => I n c t) (Prog.fold body n b) s := by
  induction n with
  | zero => exact .done hs init
  | succ n ih =>
    apply Ends.bind
    apply (ih fun i c t hi ht => pass i c t (Nat.lt_succ_of_lt hi) ht).mono
    intro c t ht
    exact pass n c t (Nat.lt_succ_self n) ht

/-- Every interleaving ends with the value `a` in the state `t`. -/
def Gives (env : σ → σ → Prop) (p : Prog σ ρ α) (s : σ) (a : α) (t : σ) : Prop :=
  Ends env (fun b u => b = a ∧ u = t) p s

variable {a : α} {b : β} {t u : σ}

theorem Gives.done (hs : Quiet env s) : Gives env (pure a : Prog σ ρ α) s a s :=
  Ends.done hs ⟨rfl, rfl⟩

theorem Gives.done_of_eq {a : α} {t : σ} (hs : Quiet env s) (ht : s = t) :
    Gives env (pure a : Prog σ ρ α) s a t :=
  ht ▸ Gives.done hs

theorem Gives.act {f : σ → σ} (hs : Quiet env s) (ht : Quiet env (f s)) :
    Gives env (.act f (.done ()) : Prog σ ρ Unit) s () (f s) :=
  Ends.act hs (Gives.done ht)

theorem Gives.ask {f : σ → ρ × σ} (hs : Quiet env s) (ht : Quiet env (f s).2) :
    Gives env (.ask f .done) s (f s).1 (f s).2 :=
  Ends.ask hs (Gives.done ht)

/-- The rule for a busy loop beside a device with one way to go: it steps through `t` to the first
state that fulfils the condition. -/
theorem Gives.await {ready : σ → Bool} (t : Nat → σ) (n : Nat)
    (steps : ∀ i < n, ∀ u, env (t i) u ↔ u = t (i + 1)) (busy : ∀ i < n, ready (t i) = false)
    (last : Quiet env (t n)) (hready : ready (t n) = true) :
    Gives env (.await ready (.done ()) : Prog σ ρ Unit) (t 0) () (t n) := by
  have hrest : ∀ k ≤ n, Gives env (.await ready (.done ()) : Prog σ ρ Unit) (t (n - k)) () (t n) := by
    intro k hk
    induction k with
    | zero =>
      apply Ends.intro
      · intro a ha
        cases ha
      · exact .inr ⟨_, .await ready _ _ hready⟩
      · intro q u hstep
        cases hstep with
        | await => exact Gives.done last
        | device _ _ _ henv => exact absurd henv (last u)
    | succ k ih =>
      have hlt : n - (k + 1) < n := by omega
      have hnext : n - (k + 1) + 1 = n - k := by omega
      apply Ends.intro
      · intro a ha
        cases ha
      · exact .inr ⟨_, .device _ _ _ ((steps _ hlt _).mpr rfl)⟩
      · intro q u hstep
        cases hstep with
        | await _ _ _ hb => cases hb.symm.trans (busy _ hlt)
        | device _ _ _ henv =>
          rw [(steps _ hlt u).mp henv, hnext]
          exact ih (by omega)
  have h := hrest n (Nat.le_refl n)
  rwa [Nat.sub_self] at h

theorem Gives.bind {p : Prog σ ρ α} {k : α → Prog σ ρ β} (hp : Gives env p s a t)
    (hk : Gives env (k a) t b u) : Gives env (p >>= k) s b u := by
  apply Ends.bind
  apply Ends.mono hp
  rintro _ _ ⟨rfl, rfl⟩
  exact hk

theorem Gives.of_eq {p : Prog σ ρ α} (h : Gives env p s a t) (ht : t = u) : Gives env p s a u :=
  ht ▸ h

theorem Gives.ends {R : α → σ → Prop} {p : Prog σ ρ α} (h : Gives env p s a t) (ht : R a t) :
    Ends env R p s := by
  apply Ends.mono h
  rintro _ _ ⟨rfl, rfl⟩
  exact ht

end Driver
