import PicoHttpParser.Lib.Transducer

/-!
What a transducer accepts.

A transducer that has finished has read a word, and has emitted something
for it. To know which words these are it is enough to say, for every
configuration, what it accepts from there, and to check that reading an
element does to this set what `Derives` says.
-/

namespace Incremental

variable {κ β ω : Type}

/-- What is accepted after an element, when `L c w out` says that the word
`w` is accepted from the configuration `c` and `out` is emitted for it. -/
def Turn.Accepts (L : κ → List β → List ω → Prop) (t : Turn κ ω) (w : List β) (out : List ω) :
    Prop :=
  match t with
  | .go c' emitted => ∃ out', out = emitted ++ out' ∧ L c' w out'
  | .finish _ => w = [] ∧ out = []
  | .reject _ => False

theorem Turn.accepts_go_nil {L : κ → List β → List ω → Prop} {c : κ} {w : List β}
    {out : List ω} : (Turn.go c []).Accepts L w out ↔ L c w out := by
  constructor
  · rintro ⟨out', rfl, h⟩
    exact h
  · intro h
    exact ⟨out, rfl, h⟩

/-- `L` is what is accepted from each configuration of the invariant `I`. -/
structure Derives (step : κ → β → Turn κ ω) (I : κ → Prop)
    (L : κ → List β → List ω → Prop) : Prop where
  keeps : ∀ c b c' out, I c → step c b = .go c' out → I c'
  nil : ∀ c out, I c → ¬L c [] out
  cons : ∀ c b w out, I c → (L c (b :: w) out ↔ (step c b).Accepts L w out)

/-- A run finishes exactly when its input starts with a word that is
accepted. -/
theorem Derives.run_done_iff {step : κ → β → Turn κ ω} {I : κ → Prop}
    {L : κ → List β → List ω → Prop} (h : Derives step I L) {c : κ} (hc : I c)
    {bs rest : List β} {out : List ω} :
    ((run step c bs).ending = .done ∧ (run step c bs).rest = rest ∧ (run step c bs).out = out) ↔
      ∃ w, bs = w ++ rest ∧ L c w out := by
  induction bs generalizing c out with
  | nil =>
      constructor
      · rintro ⟨hdone, -⟩
        cases hdone
      · rintro ⟨w, hw, hL⟩
        rw [(List.append_eq_nil_iff.mp hw.symm).1] at hL
        exact absurd hL (h.nil c out hc)
  | cons b bs ih =>
      -- a word that is accepted is not empty, so it begins with `b`
      have hsplit : (∃ w, b :: bs = w ++ rest ∧ L c w out) ↔
          ∃ w, bs = w ++ rest ∧ L c (b :: w) out := by
        constructor
        · rintro ⟨w, hw, hL⟩
          cases w with
          | nil => exact absurd hL (h.nil c out hc)
          | cons b' w =>
              obtain ⟨rfl, hw'⟩ := List.cons.inj hw
              exact ⟨w, hw', hL⟩
        · rintro ⟨w, rfl, hL⟩
          exact ⟨b :: w, rfl, hL⟩
      rw [hsplit]
      have hcons := fun w => h.cons c b w out hc
      cases hs : step c b with
      | go c' emitted =>
          simp only [hs, Turn.Accepts] at hcons
          simp only [hcons, run_cons_go hs, Run.prepend_ending, Run.prepend_rest,
            Run.prepend_out]
          have hc' : I c' := h.keeps c b c' emitted hc hs
          constructor
          · rintro ⟨hdone, hrest, rfl⟩
            obtain ⟨w, hw, hL⟩ := (ih hc').mp ⟨hdone, hrest, rfl⟩
            exact ⟨w, hw, _, rfl, hL⟩
          · rintro ⟨w, hw, out', rfl, hL⟩
            obtain ⟨hdone, hrest, hout⟩ := (ih hc').mpr ⟨w, hw, hL⟩
            exact ⟨hdone, hrest, congrArg (emitted ++ ·) hout⟩
      | finish c' =>
          simp only [hs, Turn.Accepts] at hcons
          simp only [hcons, run_cons_finish hs, true_and]
          constructor
          · rintro ⟨rfl, rfl⟩
            exact ⟨[], rfl, rfl, rfl⟩
          · rintro ⟨w, hw, rfl, rfl⟩
            exact ⟨hw, rfl⟩
      | reject c' =>
          simp only [hs, Turn.Accepts] at hcons
          simp only [hcons, run_cons_reject hs]
          constructor
          · rintro ⟨hdone, -⟩
            cases hdone
          · rintro ⟨w, -, ⟨⟩⟩

/-- A word up to the first `s`, of elements with a property that `s` does not
have, and then a word of `Q`. -/
def Until (p : β → Prop) (s : β) (Q : List β → Prop) (w : List β) : Prop :=
  ∃ e u, (∀ x ∈ e, p x) ∧ w = e ++ s :: u ∧ Q u

section

variable {p : β → Prop} {s : β} {Q : List β → Prop}

theorem not_until_nil : ¬Until p s Q [] := by
  rintro ⟨e, u, -, hw, -⟩
  cases e <;> cases hw

theorem until_cons_self (hs : ¬p s) (w : List β) : Until p s Q (s :: w) ↔ Q w := by
  constructor
  · rintro ⟨e, u, he, hw, hQ⟩
    cases e with
    | nil =>
        obtain ⟨-, rfl⟩ := List.cons.inj hw
        exact hQ
    | cons x e =>
        obtain ⟨rfl, -⟩ := List.cons.inj hw
        exact absurd (he s List.mem_cons_self) hs
  · intro hQ
    exact ⟨[], w, nofun, rfl, hQ⟩

theorem until_cons_of_ne {b : β} (hb : b ≠ s) (w : List β) :
    Until p s Q (b :: w) ↔ p b ∧ Until p s Q w := by
  constructor
  · rintro ⟨e, u, he, hw, hQ⟩
    cases e with
    | nil => exact absurd (List.cons.inj hw).1 hb
    | cons x e =>
        obtain ⟨rfl, rfl⟩ := List.cons.inj hw
        exact ⟨he b List.mem_cons_self, e, u, fun x hx => he x (List.mem_cons_of_mem _ hx), rfl, hQ⟩
  · rintro ⟨hp, e, u, he, rfl, hQ⟩
    exact ⟨b :: e, u, List.forall_mem_cons.mpr ⟨hp, he⟩, rfl, hQ⟩

end

end Incremental
