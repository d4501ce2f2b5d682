import Mathlib.Data.List.Basic
import Mathlib.Data.List.Infix

/-!
Incremental readers.

A reader looks at the part of an input that has arrived so far, from a
position on, and answers one of three things: it is done, it needs more
input, or no continuation of the input can help. On the way it publishes
events, and it publishes them whatever the answer turns out to be. This is
the shape of every parser that is called again and again on a growing
buffer.

The combinators are the ones such parsers are written with: sequencing,
looking at the next element, scanning a run of elements, deciding on a
window of fixed width, and iterating a turn until it yields a result.
-/

namespace Incremental

/-- What is known after the input seen so far. -/
inductive Verdict (α : Type) where
  | done (a : α)
  | more
  | fail
  deriving DecidableEq

/-- A reader of elements `β` with events `ω` and results `α`: from a buffer
and a position to a verdict, with the position reached, and the events
published. -/
structure Reader (β ω α : Type) where
  read : List β → ℕ → Verdict (α × ℕ) × List ω

namespace Reader

variable {β ω α γ ι : Type}

/-! ### Sequencing -/

protected def bind (p : Reader β ω α) (q : α → Reader β ω γ) : Reader β ω γ where
  read buf pos :=
    match p.read buf pos with
    | (.done (a, pos'), l) => (((q a).read buf pos').1, l ++ ((q a).read buf pos').2)
    | (.more, l) => (.more, l)
    | (.fail, l) => (.fail, l)

instance : Monad (Reader β ω) where
  pure a := ⟨fun _ pos => (.done (a, pos), [])⟩
  bind := Reader.bind

@[simp] theorem read_pure (a : α) (buf : List β) (pos : ℕ) :
    (pure a : Reader β ω α).read buf pos = (.done (a, pos), []) := rfl

theorem read_bind (p : Reader β ω α) (q : α → Reader β ω γ) (buf : List β) (pos : ℕ) :
    (p >>= q).read buf pos =
      match p.read buf pos with
      | (.done (a, pos'), l) => (((q a).read buf pos').1, l ++ ((q a).read buf pos').2)
      | (.more, l) => (.more, l)
      | (.fail, l) => (.fail, l) := rfl

/-- The three ways a reader can answer, with the events it published. -/
theorem cases_read (p : Reader β ω α) (buf : List β) (pos : ℕ) :
    (∃ a pos' l, p.read buf pos = (.done (a, pos'), l)) ∨
      (∃ l, p.read buf pos = (.more, l)) ∨ ∃ l, p.read buf pos = (.fail, l) := by
  rcases h : p.read buf pos with ⟨⟨a, pos'⟩ | _ | _, l⟩
  · exact .inl ⟨a, pos', l, rfl⟩
  · exact .inr (.inl ⟨l, rfl⟩)
  · exact .inr (.inr ⟨l, rfl⟩)

/-- A sequence is done when both its parts are. -/
theorem bind_eq_done {p : Reader β ω α} {q : α → Reader β ω γ} {buf : List β}
    {pos pos'' : ℕ} {c : γ} {l : List ω}
    (h : (p >>= q).read buf pos = (.done (c, pos''), l)) :
    ∃ a pos' l₁ l₂, p.read buf pos = (.done (a, pos'), l₁) ∧
      (q a).read buf pos' = (.done (c, pos''), l₂) ∧ l = l₁ ++ l₂ := by
  obtain ⟨a, pos', l₁, hp⟩ | ⟨l₁, hp⟩ | ⟨l₁, hp⟩ := cases_read p buf pos
  · simp only [read_bind, hp, Prod.mk.injEq] at h
    exact ⟨a, pos', l₁, _, hp, Prod.ext h.1 rfl, h.2.symm⟩
  · simp [read_bind, hp] at h
  · simp [read_bind, hp] at h

/-- A sequence fails where its first part fails, or where its second does. -/
theorem bind_eq_fail {p : Reader β ω α} {q : α → Reader β ω γ} {buf : List β}
    {pos : ℕ} {l : List ω} (h : (p >>= q).read buf pos = (.fail, l)) :
    p.read buf pos = (.fail, l) ∨
      ∃ a pos' l₁ l₂, p.read buf pos = (.done (a, pos'), l₁) ∧
        (q a).read buf pos' = (.fail, l₂) ∧ l = l₁ ++ l₂ := by
  obtain ⟨a, pos', l₁, hp⟩ | ⟨l₁, hp⟩ | ⟨l₁, hp⟩ := cases_read p buf pos
  · simp only [read_bind, hp, Prod.mk.injEq] at h
    exact .inr ⟨a, pos', l₁, _, hp, Prod.ext h.1 rfl, h.2.symm⟩
  · simp [read_bind, hp] at h
  · simp only [read_bind, hp, Prod.mk.injEq] at h
    exact .inl (by rw [hp, h.2])

/-- A sequence waits where its first part waits, or where its second does. -/
theorem bind_eq_more {p : Reader β ω α} {q : α → Reader β ω γ} {buf : List β}
    {pos : ℕ} {l : List ω} (h : (p >>= q).read buf pos = (.more, l)) :
    p.read buf pos = (.more, l) ∨
      ∃ a pos' l₁ l₂, p.read buf pos = (.done (a, pos'), l₁) ∧
        (q a).read buf pos' = (.more, l₂) ∧ l = l₁ ++ l₂ := by
  obtain ⟨a, pos', l₁, hp⟩ | ⟨l₁, hp⟩ | ⟨l₁, hp⟩ := cases_read p buf pos
  · simp only [read_bind, hp, Prod.mk.injEq] at h
    exact .inr ⟨a, pos', l₁, _, hp, Prod.ext h.1 rfl, h.2.symm⟩
  · simp only [read_bind, hp, Prod.mk.injEq] at h
    exact .inl (by rw [hp, h.2])
  · simp [read_bind, hp] at h

/-! ### Primitive readers -/

/-- Publish an event. -/
def emit (e : ω) : Reader β ω Unit := ⟨fun _ pos => (.done ((), pos), [e])⟩

/-- No continuation can help. -/
def reject : Reader β ω α := ⟨fun _ _ => (.fail, [])⟩

/-- The position reached. -/
def position : Reader β ω ℕ := ⟨fun _ pos => (.done (pos, pos), [])⟩

/-- The element at the position, which stays unread. -/
def peek : Reader β ω β where
  read buf pos :=
    match buf[pos]? with
    | none => (.more, [])
    | some b => (.done (b, pos), [])

/-- The element at the position, which is consumed. -/
def next : Reader β ω β where
  read buf pos :=
    match buf[pos]? with
    | none => (.more, [])
    | some b => (.done (b, pos + 1), [])

/-- What a scan does at an element: step over it, stop in front of it, or
give up. -/
inductive Act where
  | skip
  | stop
  | bad
  deriving DecidableEq

def scanFrom (f : β → Act) (buf : List β) (pos : ℕ) : Verdict (Unit × ℕ) :=
  match _h : buf[pos]? with
  | none => .more
  | some b =>
    match f b with
    | .skip => scanFrom f buf (pos + 1)
    | .stop => .done ((), pos)
    | .bad => .fail
  termination_by buf.length - pos
  decreasing_by
    have := (List.getElem?_eq_some_iff.mp _h).1
    omega

/-- Step over elements as long as `f` says so. -/
def scan (f : β → Act) : Reader β ω Unit := ⟨fun buf pos => (scanFrom f buf pos, [])⟩

/-- Decide on a window of `n` elements at once, consume `k` of them. -/
def window (n k : ℕ) (f : List β → Option α × List ω) : Reader β ω α where
  read buf pos :=
    if buf.length < pos + n then (.more, [])
    else
      match f ((buf.drop pos).take n) with
      | (some a, l) => (.done (a, pos + k), l)
      | (none, l) => (.fail, l)

/-- The elements a reader consumes, beside its result. -/
def captured (p : Reader β ω α) : Reader β ω (List β × α) where
  read buf pos :=
    match p.read buf pos with
    | (.done (a, pos'), l) => (.done (((buf.drop pos).take (pos' - pos), a), pos'), l)
    | (.more, l) => (.more, l)
    | (.fail, l) => (.fail, l)

/-- The same reader under other events. -/
def mapEvents {ω' : Type} (f : ω → ω') (p : Reader β ω α) : Reader β ω' α :=
  ⟨fun buf pos => ((p.read buf pos).1, (p.read buf pos).2.map f)⟩

def iterateFrom (body : ι → Reader β ω (ι ⊕ α)) (i : ι) (buf : List β) (pos : ℕ) :
    Verdict (α × ℕ) × List ω :=
  match (body i).read buf pos with
  | (.done (.inr a, pos'), l) => (.done (a, pos'), l)
  | (.done (.inl i', pos'), l) =>
    if pos < pos' ∧ pos' ≤ buf.length then
      ((iterateFrom body i' buf pos').1, l ++ (iterateFrom body i' buf pos').2)
    else (.fail, l)
  | (.more, l) => (.more, l)
  | (.fail, l) => (.fail, l)
  termination_by buf.length - pos
  decreasing_by all_goals omega

/-- Repeat `body` until it yields a result. A turn that consumes nothing
ends in failure, so the iteration is total. -/
def iterate (body : ι → Reader β ω (ι ⊕ α)) (i : ι) : Reader β ω α :=
  ⟨iterateFrom body i⟩

/-! ### Reading the primitives back -/

@[simp] theorem read_emit (e : ω) (buf : List β) (pos : ℕ) :
    (emit e).read buf pos = (.done ((), pos), [e]) := rfl

@[simp] theorem read_reject (buf : List β) (pos : ℕ) :
    (reject : Reader β ω α).read buf pos = (.fail, []) := rfl

@[simp] theorem read_position (buf : List β) (pos : ℕ) :
    (position : Reader β ω ℕ).read buf pos = (.done (pos, pos), []) := rfl

theorem read_peek_none {buf : List β} {pos : ℕ} (h : buf[pos]? = none) :
    (peek : Reader β ω β).read buf pos = (.more, []) := by
  simp [peek, h]

theorem read_peek_some {buf : List β} {pos : ℕ} {b : β} (h : buf[pos]? = some b) :
    (peek : Reader β ω β).read buf pos = (.done (b, pos), []) := by
  simp [peek, h]

theorem emit_eq_done {e : ω} {buf : List β} {pos q : ℕ} {u : Unit} {l : List ω}
    (h : (emit e : Reader β ω Unit).read buf pos = (.done (u, q), l)) : pos = q ∧ l = [e] := by
  obtain ⟨rfl, rfl⟩ : pos = q ∧ [e] = l := by simpa using h
  exact ⟨rfl, rfl⟩

theorem peek_eq_done {buf : List β} {pos q : ℕ} {b : β} {l : List ω}
    (h : (peek : Reader β ω β).read buf pos = (.done (b, q), l)) :
    buf[pos]? = some b ∧ q = pos ∧ l = [] := by
  cases hb : buf[pos]? with
  | none => simp [read_peek_none hb] at h
  | some c =>
      rw [read_peek_some hb] at h
      obtain ⟨⟨rfl, rfl⟩, rfl⟩ : (c = b ∧ pos = q) ∧ [] = l := by simpa using h
      exact ⟨rfl, rfl, rfl⟩

theorem read_next_none {buf : List β} {pos : ℕ} (h : buf[pos]? = none) :
    (next : Reader β ω β).read buf pos = (.more, []) := by
  simp [next, h]

theorem read_next_some {buf : List β} {pos : ℕ} {b : β} (h : buf[pos]? = some b) :
    (next : Reader β ω β).read buf pos = (.done (b, pos + 1), []) := by
  simp [next, h]

@[simp] theorem read_scan (f : β → Act) (buf : List β) (pos : ℕ) :
    (scan f : Reader β ω Unit).read buf pos = (scanFrom f buf pos, []) := rfl

theorem scanFrom_none {f : β → Act} {buf : List β} {pos : ℕ} (h : buf[pos]? = none) :
    scanFrom f buf pos = .more := by
  rw [scanFrom]
  split
  · rfl
  · simp_all

theorem scanFrom_some {f : β → Act} {buf : List β} {pos : ℕ} {b : β}
    (h : buf[pos]? = some b) :
    scanFrom f buf pos =
      match f b with
      | .skip => scanFrom f buf (pos + 1)
      | .stop => .done ((), pos)
      | .bad => .fail := by
  rw [scanFrom]
  split
  · simp_all
  · rename_i c hc
    obtain rfl : c = b := by simpa [hc] using h
    rfl

end Reader

end Incremental
