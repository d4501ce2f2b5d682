import Mathlib.Logic.Relation
import Mathlib.Data.Nat.Notation

/-!
Loops that are left by an exception.

The body of such a loop takes the state of a pass to the state of the next
one, or throws what the loop ends with. `Obeys E Q x` says that what `x` throws
meets `E` and what it returns meets `Q`: it is proved of the body by one rule
for each construct, and the loop inherits it. A body that uses up a supply in
every pass is left within as many passes as there is of it, and one more.
-/

namespace Incremental

variable {ε σ α γ : Type}

/-- What is thrown meets `E`, and what is returned meets `Q`. -/
structure Obeys (E : ε → Prop) (Q : α → Prop) (x : Except ε α) : Prop where
  ok : ∀ a, x = .ok a → Q a
  error : ∀ e, x = .error e → E e

namespace Obeys

variable {E : ε → Prop} {Q Q' : α → Prop} {R : γ → Prop}

theorem pure {a : α} (h : Q a) : Obeys E Q (Pure.pure a) where
  ok _ ha := by
    obtain rfl := Except.ok.inj ha
    exact h
  error _ he := by cases he

theorem throw {e : ε} (h : E e) : Obeys E Q (MonadExcept.throw e) where
  ok _ ha := by cases ha
  error _ he := by
    obtain rfl := Except.error.inj he
    exact h

theorem bind {x : Except ε α} {f : α → Except ε γ} (hx : Obeys E Q x)
    (hf : ∀ a, Q a → Obeys E R (f a)) : Obeys E R (x >>= f) := by
  cases x with
  | error e =>
      refine ⟨nofun, fun e' he => hx.error e' ?_⟩
      exact congrArg Except.error (Except.error.inj he)
  | ok a => exact hf a (hx.ok a rfl)

/-- More may be known of what is returned from elsewhere. -/
theorem and_ok {x : Except ε α} (hx : Obeys E Q x) (h : ∀ a, x = .ok a → Q' a) :
    Obeys E (fun a => Q a ∧ Q' a) x where
  ok a ha := ⟨hx.ok a ha, h a ha⟩
  error := hx.error

end Obeys

/-! ### The loop -/

/-- What the loop with the body `f` ends with within so many passes. -/
def endsWithin (f : σ → Except ε σ) : ℕ → σ → Option ε
  | 0, _ => none
  | n + 1, s =>
    match f s with
    | .error e => some e
    | .ok s' => endsWithin f n s'

section

variable {E : ε → Prop} {I : σ → Prop} {f : σ → Except ε σ} {s s' : σ}

/-- What every pass keeps holds at the head of every pass. -/
theorem Obeys.reaches (hf : ∀ s, I s → Obeys E I (f s)) (hs : I s)
    (h : Relation.ReflTransGen (fun s s' => f s = .ok s') s s') : I s' := by
  induction h with
  | refl => exact hs
  | tail _ hpass ih => exact (hf _ ih).ok _ hpass

/-- A loop whose every pass makes `m` smaller ends, and within so many
passes. -/
theorem Obeys.exists_endsWithin {m : σ → ℕ}
    (hf : ∀ s, I s → Obeys E (fun s' => I s' ∧ m s' < m s) (f s)) (hs : I s) {n : ℕ}
    (hn : m s < n) : ∃ e, endsWithin f n s = some e ∧ E e := by
  induction n generalizing s with
  | zero => exact absurd hn (Nat.not_lt_zero _)
  | succ n ih =>
      rw [endsWithin]
      cases hpass : f s with
      | error e => exact ⟨e, rfl, (hf s hs).error e hpass⟩
      | ok s' =>
          obtain ⟨hs', hlt⟩ := (hf s hs).ok s' hpass
          exact ih hs' (Nat.lt_of_lt_of_le hlt (Nat.le_of_lt_succ hn))

end

end Incremental
