import PicoHttpParser.Lib.Order

/-!
What a reader publishes, on every way out.

`Keeps buf P p Q R` is a triple. It is about the position and the events
published so far: where they satisfy `P`, the reader `p` ends with `Q` of its
result, of the position reached and of the events published by then, or it
gives up with `R` of these events, whether it waits or fails. The rules follow
the combinators; that of an iteration asks for an invariant of its turns.
-/

namespace Incremental

namespace Reader

variable {β ω α γ ι : Type}

/-- An answer that meets the conditions, when `l` has been published before. -/
def Meets (buf : List β) (Q : α → ℕ → List ω → Prop) (R : List ω → Prop) (l : List ω) :
    Verdict (α × ℕ) × List ω → Prop
  | (.done (a, q), l') => q ≤ buf.length ∧ Q a q (l ++ l')
  | (.more, l') => R (l ++ l')
  | (.fail, l') => R (l ++ l')

/-- Events published before count like those of the answer. -/
theorem meets_append {buf : List β} {Q : α → ℕ → List ω → Prop} {R : List ω → Prop}
    {l l₁ l₂ : List ω} {v : Verdict (α × ℕ)} :
    Meets buf Q R l (v, l₁ ++ l₂) ↔ Meets buf Q R (l ++ l₁) (v, l₂) := by
  rcases v with ⟨a, q⟩ | _ | _
  · rw [Meets, Meets, List.append_assoc]
  · rw [Meets, Meets, List.append_assoc]
  · rw [Meets, Meets, List.append_assoc]

theorem Meets.imp {buf : List β} {Q Q' : α → ℕ → List ω → Prop} {R R' : List ω → Prop}
    {l : List ω} {x : Verdict (α × ℕ) × List ω} (h : Meets buf Q R l x)
    (hQ : ∀ {a q l}, q ≤ buf.length → Q a q l → Q' a q l) (hR : ∀ {l}, R l → R' l) :
    Meets buf Q' R' l x := by
  rcases x with ⟨⟨a, q⟩ | _ | _, l'⟩
  · exact ⟨h.1, hQ h.1 h.2⟩
  · exact hR h
  · exact hR h

/-- From what `P` allows the reader ends with `Q` or gives up with `R`. -/
structure Keeps (buf : List β) (P : ℕ → List ω → Prop) (p : Reader β ω α)
    (Q : α → ℕ → List ω → Prop) (R : List ω → Prop) : Prop where
  meets : ∀ {pos l}, pos ≤ buf.length → P pos l → Meets buf Q R l (p.read buf pos)

/-- What a turn of an iteration ends with: the invariant of the next one, or
the condition on the result. -/
def After (I : ι → ℕ → List ω → Prop) (Q : α → ℕ → List ω → Prop) :
    ι ⊕ α → ℕ → List ω → Prop
  | .inl i => I i
  | .inr a => Q a

namespace Keeps

variable {buf : List β} {P : ℕ → List ω → Prop} {Q : α → ℕ → List ω → Prop}
  {S : γ → ℕ → List ω → Prop} {R : List ω → Prop} {p : Reader β ω α}

theorem weaken {P' : ℕ → List ω → Prop} (h : Keeps buf P p Q R)
    (hP : ∀ {pos l}, pos ≤ buf.length → P' pos l → P pos l) : Keeps buf P' p Q R where
  meets hpos hl := h.meets hpos (hP hpos hl)

theorem imp (h : Keeps buf P p Q R) {Q' : α → ℕ → List ω → Prop} {R' : List ω → Prop}
    (hQ : ∀ {a q l}, q ≤ buf.length → Q a q l → Q' a q l) (hR : ∀ {l}, R l → R' l) :
    Keeps buf P p Q' R' where
  meets hpos hl := (h.meets hpos hl).imp hQ hR

/-- A fact about the positions and events there are may be used. -/
theorem assume {F : Prop} (hF : ∀ {pos l}, pos ≤ buf.length → P pos l → F)
    (h : F → Keeps buf P p Q R) : Keeps buf P p Q R where
  meets hpos hl := (h (hF hpos hl)).meets hpos hl

theorem exists_left {κ : Type} {P : κ → ℕ → List ω → Prop} (h : ∀ x, Keeps buf (P x) p Q R) :
    Keeps buf (fun pos l => ∃ x, P x pos l) p Q R where
  meets hpos hl := by
    obtain ⟨x, hx⟩ := hl
    exact (h x).meets hpos hx

theorem pure {a : α} (h : ∀ {pos l}, pos ≤ buf.length → P pos l → Q a pos l) :
    Keeps buf P (Pure.pure a : Reader β ω α) Q R where
  meets {pos l} hpos hl := ⟨hpos, by rw [List.append_nil]; exact h hpos hl⟩

theorem emit {e : ω} {Q : Unit → ℕ → List ω → Prop}
    (h : ∀ {pos l}, pos ≤ buf.length → P pos l → Q () pos (l ++ [e])) :
    Keeps buf P (Reader.emit e : Reader β ω Unit) Q R where
  meets hpos hl := ⟨hpos, h hpos hl⟩

theorem reject (h : ∀ {pos l}, pos ≤ buf.length → P pos l → R l) :
    Keeps buf P (Reader.reject : Reader β ω α) Q R where
  meets {pos l} hpos hl := by
    show R (l ++ [])
    rw [List.append_nil]
    exact h hpos hl

/-- A reader without events leaves them as they are. -/
theorem silent {k : ℕ} (hp : Reads k p) (hs : Silent p)
    (hdone : ∀ {pos l a q}, pos ≤ buf.length → P pos l →
      p.read buf pos = (.done (a, q), []) → Q a q l)
    (hstop : ∀ {pos l}, pos ≤ buf.length → P pos l → R l) : Keeps buf P p Q R where
  meets {pos l} hpos hl := by
    have hnil := hs.nil buf pos
    obtain ⟨a, q, l', h⟩ | ⟨l', h⟩ | ⟨l', h⟩ := cases_read p buf pos
    · rw [h] at hnil ⊢
      obtain rfl : l' = [] := hnil
      refine ⟨hp.le_length hpos h, ?_⟩
      rw [List.append_nil]
      exact hdone hpos hl h
    · rw [h] at hnil ⊢
      obtain rfl : l' = [] := hnil
      show R (l ++ [])
      rw [List.append_nil]
      exact hstop hpos hl
    · rw [h] at hnil ⊢
      obtain rfl : l' = [] := hnil
      show R (l ++ [])
      rw [List.append_nil]
      exact hstop hpos hl

/-- Nothing but the end of the buffer is asked for. -/
theorem trivial {k : ℕ} (hp : Reads k p) : Keeps buf P p (fun _ _ _ => True) (fun _ => True) where
  meets {pos l} hpos hl := by
    obtain ⟨a, q, l', h⟩ | ⟨l', h⟩ | ⟨l', h⟩ := cases_read p buf pos
    · rw [h]
      exact ⟨hp.le_length hpos h, True.intro⟩
    · rw [h]
      exact True.intro
    · rw [h]
      exact True.intro

theorem bind {q : α → Reader β ω γ} (hp : Keeps buf P p Q R)
    (hq : ∀ a, Keeps buf (Q a) (q a) S R) : Keeps buf P (p >>= q) S R where
  meets {pos l} hpos hl := by
    have hfirst := hp.meets hpos hl
    obtain ⟨a, pos', l₁, h⟩ | ⟨l₁, h⟩ | ⟨l₁, h⟩ := cases_read p buf pos
    · rw [h] at hfirst
      have hsecond := (hq a).meets hfirst.1 hfirst.2
      simp only [read_bind, h]
      exact meets_append.mpr hsecond
    · rw [h] at hfirst
      simp only [read_bind, h]
      exact hfirst
    · rw [h] at hfirst
      simp only [read_bind, h]
      exact hfirst

/-- Under other events, behind `l₀`. -/
theorem mapEvents {ω' : Type} {g : ω → ω'} {P : ℕ → Prop} (l₀ : List ω')
    (h : Keeps buf (fun pos l => P pos ∧ l = []) p Q R) :
    Keeps buf (fun pos l => P pos ∧ l = l₀) (Reader.mapEvents g p)
      (fun a q l => ∃ l', l = l₀ ++ l'.map g ∧ Q a q l')
      (fun l => ∃ l', l = l₀ ++ l'.map g ∧ R l') where
  meets {pos l} hpos hl := by
    obtain ⟨hP, rfl⟩ := hl
    have hmeets := h.meets hpos ⟨hP, rfl⟩
    obtain ⟨a, q, l', hr⟩ | ⟨l', hr⟩ | ⟨l', hr⟩ := cases_read p buf pos
    · rw [hr] at hmeets
      simp only [Reader.mapEvents, hr]
      exact ⟨hmeets.1, l', rfl, hmeets.2⟩
    · rw [hr] at hmeets
      simp only [Reader.mapEvents, hr]
      exact ⟨l', rfl, hmeets⟩
    · rw [hr] at hmeets
      simp only [Reader.mapEvents, hr]
      exact ⟨l', rfl, hmeets⟩

/-- What holds before each turn holds when the last one ends. -/
theorem iterate {body : ι → Reader β ω (ι ⊕ α)} (hbody : ∀ i, Consumes (body i))
    {I : ι → ℕ → List ω → Prop}
    (hturn : ∀ i, Keeps buf (I i) (body i) (After I Q) R) (i : ι) :
    Keeps buf (I i) (Reader.iterate body i) Q R where
  meets {pos l} hpos hl := by
    show Meets buf Q R l (iterateFrom body i buf pos)
    refine iterateFrom_induction hbody (P := fun i pos =>
      ∀ l, I i pos l → Meets buf Q R l (iterateFrom body i buf pos)) ?_ ?_ ?_ ?_ i pos hpos l hl
    · intro i pos a q l' hpos h l hl
      have hmeets := (hturn i).meets hpos hl
      rw [h] at hmeets
      rw [iterateFrom_of_inr h]
      exact hmeets
    · intro i pos i' q l' hpos h hlt hlen ih l hl
      have hmeets := (hturn i).meets hpos hl
      rw [h] at hmeets
      rw [iterateFrom_of_inl h hlt hlen]
      exact meets_append.mpr (ih (l ++ l') hmeets.2)
    · intro i pos l' hpos h l hl
      have hmeets := (hturn i).meets hpos hl
      rw [h] at hmeets
      rw [iterateFrom_of_more h]
      exact hmeets
    · intro i pos l' hpos h l hl
      have hmeets := (hturn i).meets hpos hl
      rw [h] at hmeets
      rw [iterateFrom_of_fail h]
      exact hmeets

end Keeps

end Reader

end Incremental
