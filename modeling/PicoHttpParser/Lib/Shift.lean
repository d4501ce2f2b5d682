import PicoHttpParser.Lib.Reader

/-!
Readers that do not look back.

What a reader does from a position on does not depend on what stands in front
of it. `Shifts w e f p q` says that behind `w` the reader `q` does what `p`
does at the front of a buffer: the same verdict, with the position moved by
the length of `w`, the result changed by `f` and the events by `e`. The
combinators pass this on, so it holds of every reader that is written with
them.
-/

namespace Incremental

/-- The verdict of a reader that stands `n` further right. -/
def Verdict.shift {α α' : Type} (f : α → α') (n : ℕ) : Verdict (α × ℕ) → Verdict (α' × ℕ)
  | .done (a, pos) => .done (f a, n + pos)
  | .more => .more
  | .fail => .fail

namespace Reader

variable {β ω ω' α α' γ γ' ι : Type}

/-- Behind `w`, the reader `q` does what `p` does at the front. -/
def Shifts (w : List β) (e : ω → ω') (f : α → α') (p : Reader β ω α) (q : Reader β ω' α') :
    Prop :=
  ∀ buf pos, q.read (w ++ buf) (w.length + pos) =
    ((p.read buf pos).1.shift f w.length, (p.read buf pos).2.map e)

theorem getElem?_behind (w buf : List β) (pos : ℕ) :
    (w ++ buf)[w.length + pos]? = buf[pos]? := by
  rw [List.getElem?_append_right (Nat.le_add_right _ _), Nat.add_sub_cancel_left]

theorem drop_behind (w buf : List β) (pos : ℕ) :
    (w ++ buf).drop (w.length + pos) = buf.drop pos := by
  rw [← List.drop_drop, List.drop_left]

namespace Shifts

variable {w : List β} {e : ω → ω'} {f : α → α'} {p : Reader β ω α} {q : Reader β ω' α'}

/-- At the front of what comes behind `w`. -/
theorem read_append (h : Shifts w e f p q) (buf : List β) :
    q.read (w ++ buf) w.length = ((p.read buf 0).1.shift f w.length, (p.read buf 0).2.map e) :=
  h buf 0

/-! ### Sequencing -/

theorem pure (a : α) : Shifts w e f (Pure.pure a) (Pure.pure (f a)) := fun _ _ => rfl

theorem bind {g : γ → γ'} {k : α → Reader β ω γ} {k' : α' → Reader β ω' γ'}
    (hp : Shifts w e f p q) (hk : ∀ a, Shifts w e g (k a) (k' (f a))) :
    Shifts w e g (p >>= k) (q >>= k') := by
  intro buf pos
  have hfirst := hp buf pos
  obtain ⟨a, pos', l, hread⟩ | ⟨l, hread⟩ | ⟨l, hread⟩ := cases_read p buf pos
  · rw [hread] at hfirst
    rw [read_bind, read_bind, hfirst, hread]
    dsimp only [Verdict.shift]
    rw [hk a buf pos', List.map_append]
    rfl
  · rw [hread] at hfirst
    rw [read_bind, read_bind, hfirst, hread]
    rfl
  · rw [hread] at hfirst
    rw [read_bind, read_bind, hfirst, hread]
    rfl

/-! ### Primitive readers -/

theorem emit (x : ω) : Shifts w e id (Reader.emit x) (Reader.emit (e x)) := fun _ _ => rfl

theorem reject : Shifts w e f Reader.reject Reader.reject := fun _ _ => rfl

theorem position : Shifts w e (w.length + ·) Reader.position Reader.position := fun _ _ => rfl

theorem peek : Shifts w e id Reader.peek Reader.peek := by
  intro buf pos
  have hbehind := getElem?_behind w buf pos
  cases hb : buf[pos]? with
  | none => rw [read_peek_none hb, read_peek_none (hbehind.trans hb)]; rfl
  | some b => rw [read_peek_some hb, read_peek_some (hbehind.trans hb)]; rfl

theorem next : Shifts w e id Reader.next Reader.next := by
  intro buf pos
  have hbehind := getElem?_behind w buf pos
  cases hb : buf[pos]? with
  | none => rw [read_next_none hb, read_next_none (hbehind.trans hb)]; rfl
  | some b => rw [read_next_some hb, read_next_some (hbehind.trans hb)]; rfl

theorem scanFrom_behind (act : β → Act) (w buf : List β) (pos : ℕ) :
    scanFrom act (w ++ buf) (w.length + pos) = (scanFrom act buf pos).shift id w.length := by
  have hbehind := getElem?_behind w buf pos
  cases hb : buf[pos]? with
  | none => rw [scanFrom_none hb, scanFrom_none (hbehind.trans hb)]; rfl
  | some b =>
      rw [scanFrom_some hb, scanFrom_some (hbehind.trans hb)]
      cases act b with
      | skip => exact scanFrom_behind act w buf (pos + 1)
      | stop => rfl
      | bad => rfl
  termination_by buf.length - pos
  decreasing_by
    have := (List.getElem?_eq_some_iff.mp hb).1
    omega

theorem scan (act : β → Act) : Shifts w e id (Reader.scan act) (Reader.scan act) :=
  fun buf pos => Prod.ext (scanFrom_behind act w buf pos) rfl

theorem captured (h : Shifts w e f p q) :
    Shifts w e (Prod.map id f) (Reader.captured p) (Reader.captured q) := by
  intro buf pos
  have hread := h buf pos
  unfold Reader.captured
  dsimp only
  rw [hread]
  rcases p.read buf pos with ⟨⟨a, pos'⟩ | _ | _, l⟩
  · dsimp only [Verdict.shift]
    rw [drop_behind, Nat.add_sub_add_left]
    rfl
  · rfl
  · rfl

/-- A turn that consumes something does so behind `w` as well, and so does one
that consumes nothing. -/
theorem iterate {body : ι → Reader β ω (ι ⊕ α)} {body' : ι → Reader β ω' (ι ⊕ α')}
    (h : ∀ i, Shifts w e (Sum.map id f) (body i) (body' i)) (i : ι) :
    Shifts w e f (Reader.iterate body i) (Reader.iterate body' i) := by
  intro buf pos
  show iterateFrom body' i (w ++ buf) (w.length + pos) =
    ((iterateFrom body i buf pos).1.shift f w.length, (iterateFrom body i buf pos).2.map e)
  fun_induction iterateFrom body i buf pos with
  | case1 i pos a pos' l hread =>
      have hturn := h i buf pos
      rw [hread] at hturn
      rw [iterateFrom, hturn]
      rfl
  | case2 i pos i' pos' l hread hgo ih =>
      have hturn := h i buf pos
      rw [hread] at hturn
      rw [iterateFrom, hturn]
      dsimp only [Verdict.shift, Sum.map_inl, id]
      rw [if_pos (by rw [List.length_append]; omega), ih, List.map_append]
      rfl
  | case3 i pos i' pos' l hread hgo =>
      have hturn := h i buf pos
      rw [hread] at hturn
      rw [iterateFrom, hturn]
      dsimp only [Verdict.shift, Sum.map_inl, id]
      rw [if_neg (by rw [List.length_append]; omega)]
  | case4 i pos l hread =>
      have hturn := h i buf pos
      rw [hread] at hturn
      rw [iterateFrom, hturn]
      rfl
  | case5 i pos l hread =>
      have hturn := h i buf pos
      rw [hread] at hturn
      rw [iterateFrom, hturn]
      rfl

end Shifts

end Reader

end Incremental
