import Mathlib.Algebra.Order.Ring.Int

/-! # Programs with a state and errors

A program of `EStateM ε σ` gives a value or an error and a state in both cases. `Ensures p s post stop` says what holds
when a run of `p` from `s` ends, with a value or with an error. `Tracks R p s q t` says that `q` from `t` does whatever
`p` from `s` does without an error, up to a relation `R` of their states. Both pass through sequencing, so they are
proved for the parts of a program.
-/

namespace BitcoinGpuMiner.Foundation

set_option autoImplicit false

universe u

variable {ε σ α β : Type u}

section Runs

variable {p : EStateM ε σ α} {f : α → EStateM ε σ β} {s s' s'' : σ} {a : α} {b : β} {e : ε}

theorem bind_ok (hFirst : p s = .ok a s') : (p >>= f) s = f a s' := by
  have hBind : (p >>= f) s = match p s with
    | .ok a s' => f a s'
    | .error e s' => .error e s' := rfl
  rw [hBind, hFirst]

theorem bind_error (hFirst : p s = .error e s') : (p >>= f) s = .error e s' := by
  have hBind : (p >>= f) s = match p s with
    | .ok a s' => f a s'
    | .error e s' => .error e s' := rfl
  rw [hBind, hFirst]

theorem exists_of_bind_ok (hRun : (p >>= f) s = .ok b s'') : ∃ a s', p s = .ok a s' ∧ f a s' = .ok b s'' := by
  cases hFirst : p s with
  | ok a s' => exact ⟨a, s', rfl, (bind_ok hFirst).symm.trans hRun⟩
  | error e s' =>
    rw [bind_error hFirst] at hRun
    cases hRun

end Runs

/-! ## Runs without an error -/

def outcome (p : EStateM ε σ α) (s : σ) : Option (α × σ) :=
  match p s with
  | .ok a s' => some (a, s')
  | .error _ _ => none

theorem outcome_eq_some_iff {p : EStateM ε σ α} {s s' : σ} {a : α} : outcome p s = some (a, s') ↔ p s = .ok a s' := by
  rw [outcome]
  cases p s <;> simp

theorem outcome_bind (p : EStateM ε σ α) (f : α → EStateM ε σ β) (s : σ) :
    outcome (p >>= f) s = (outcome p s).bind fun r => outcome (f r.1) r.2 := by
  cases hRun : p s with
  | ok a s' => rw [outcome, outcome, bind_ok hRun, hRun, Option.bind_some, outcome]
  | error e s' => rw [outcome, outcome, bind_error hRun, hRun, Option.bind_none]

/-! ## What a run ends with -/

def Ensures (p : EStateM ε σ α) (s : σ) (post : α → σ → Prop) (stop : ε → σ → Prop) : Prop :=
  match p s with
  | .ok a s' => post a s'
  | .error e s' => stop e s'

namespace Ensures

variable {p q : EStateM ε σ α} {s s' : σ} {a : α} {e : ε} {post post' : α → σ → Prop} {stop stop' : ε → σ → Prop}

theorem of_ok (hRun : p s = .ok a s') (h : post a s') : Ensures p s post stop := by
  rw [Ensures, hRun]
  exact h

theorem of_error (hRun : p s = .error e s') (h : stop e s') : Ensures p s post stop := by
  rw [Ensures, hRun]
  exact h

theorem ok (h : Ensures p s post stop) (hRun : p s = .ok a s') : post a s' := by
  rw [Ensures, hRun] at h
  exact h

theorem error (h : Ensures p s post stop) (hRun : p s = .error e s') : stop e s' := by
  rw [Ensures, hRun] at h
  exact h

theorem pure (h : post a s) : Ensures (pure a) s post stop := h

theorem throw (h : stop e s) : Ensures (throw e) s post stop := h

theorem mono (h : Ensures p s post stop) (hPost : ∀ a s', post a s' → post' a s')
    (hStop : ∀ e s', stop e s' → stop' e s') : Ensures p s post' stop' := by
  cases hRun : p s with
  | ok a s' => exact of_ok hRun (hPost a s' (h.ok hRun))
  | error e s' => exact of_error hRun (hStop e s' (h.error hRun))

theorem bind {f : α → EStateM ε σ β} {last : β → σ → Prop} (hFirst : Ensures p s post stop)
    (hRest : ∀ a s', post a s' → Ensures (f a) s' last stop) : Ensures (p >>= f) s last stop := by
  cases hRun : p s with
  | ok a s' =>
    rw [Ensures, bind_ok hRun]
    exact hRest a s' (hFirst.ok hRun)
  | error e s' => exact of_error (bind_error hRun) (hFirst.error hRun)

theorem ite {c : Prop} [Decidable c] (hThen : c → Ensures p s post stop) (hElse : ¬ c → Ensures q s post stop) :
    Ensures (if c then p else q) s post stop := by
  split
  case isTrue h => exact hThen h
  case isFalse h => exact hElse h

end Ensures

/-! ## Runs that follow other runs -/

def Tracks (R : σ → σ → Prop) (p : EStateM ε σ α) (s : σ) (q : EStateM ε σ α) (t : σ) : Prop :=
  ∀ a s', p s = .ok a s' → ∃ t', q t = .ok a t' ∧ R s' t'

namespace Tracks

variable {R : σ → σ → Prop} {p p' q q' : EStateM ε σ α} {s t : σ}

theorem pure (a : α) (h : R s t) : Tracks R (Pure.pure a : EStateM ε σ α) s (Pure.pure a) t := by
  intro a' s' hRun
  cases hRun
  exact ⟨t, rfl, h⟩

theorem throw (e : ε) : Tracks R (throw e) s q t := by
  intro a s' hRun
  cases hRun

theorem bind {f g : α → EStateM ε σ β} (hFirst : Tracks R p s q t)
    (hRest : ∀ a s' t', R s' t' → Tracks R (f a) s' (g a) t') : Tracks R (p >>= f) s (q >>= g) t := by
  intro b s'' hRun
  obtain ⟨a, s', hOk, hThen⟩ := exists_of_bind_ok hRun
  obtain ⟨t', hOk', hRel⟩ := hFirst a s' hOk
  rw [bind_ok hOk']
  exact hRest a s' t' hRel b s'' hThen

/-- A condition that both runs see. -/
theorem ite {c : Prop} [Decidable c] (hThen : c → Tracks R p s q t) (hElse : ¬ c → Tracks R p' s q' t) :
    Tracks R (if c then p else p') s (if c then q else q') t := by
  by_cases h : c
  · rw [if_pos h, if_pos h]
    exact hThen h
  · rw [if_neg h, if_neg h]
    exact hElse h

end Tracks

end BitcoinGpuMiner.Foundation
