import PicoHttpParser.Lib.Growth

/-!
What a reader consumes.

`Takes p buf pos w r a l` says that at `pos`, where the buffer goes on with
the word `w` and then with `r`, the reader `p` is done with the result `a`
behind the word, and has published `l`. To know what a reader accepts is to
know the words it takes; a sequence takes the words of its parts, one after
the other, and an iteration those of its turns.
-/

namespace Incremental

variable {β ω α γ ι : Type}

/-! ### Splitting a list -/

/-- A run is all there is up to the first element that is not of its kind. -/
theorem append_inj_of_stop {P : β → Prop} {w w' r r' : List β} (hw : ∀ x ∈ w, P x)
    (hw' : ∀ x ∈ w', P x) (hr : ∀ b ∈ r.head?, ¬P b) (hr' : ∀ b ∈ r'.head?, ¬P b)
    (h : w ++ r = w' ++ r') : w = w' ∧ r = r' := by
  induction w generalizing w' with
  | nil =>
      cases w' with
      | nil => exact ⟨rfl, h⟩
      | cons x w' =>
          have hx : r.head? = some x := by rw [← List.nil_append r, h]; rfl
          exact absurd (hw' x List.mem_cons_self) (hr x hx)
  | cons x w ih =>
      obtain ⟨hx, hw⟩ := List.forall_mem_cons.mp hw
      cases w' with
      | nil =>
          have hx' : r'.head? = some x := by rw [← List.nil_append r', ← h]; rfl
          exact absurd hx (hr' x hx')
      | cons y w' =>
          obtain ⟨rfl, hcons⟩ := List.cons.inj h
          obtain ⟨rfl, hrest⟩ := ih hw (List.forall_mem_cons.mp hw').2 hcons
          exact ⟨rfl, hrest⟩

/-- What an encoding yields can be split off whatever it is followed by. -/
def PrefixFree (f : α → List β) : Prop := ∀ a b r r', f a ++ r = f b ++ r' → a = b ∧ r = r'

/-! ### What is left of a buffer -/

section

variable {buf r : List β} {pos : ℕ} {b : β}

theorem getElem?_of_drop (h : buf.drop pos = b :: r) : buf[pos]? = some b := by
  rw [← Nat.add_zero pos, ← List.getElem?_drop, h]
  rfl

theorem drop_succ_of_drop (h : buf.drop pos = b :: r) : buf.drop (pos + 1) = r := by
  rw [← List.drop_drop, h]
  rfl

theorem drop_add_of_drop {w : List β} (h : buf.drop pos = w ++ r) :
    buf.drop (pos + w.length) = r := by
  rw [← List.drop_drop, h, List.drop_left]

theorem drop_of_getElem? (h : buf[pos]? = some b) : ∃ r, buf.drop pos = b :: r := by
  obtain ⟨hlt, rfl⟩ := List.getElem?_eq_some_iff.mp h
  exact ⟨_, List.drop_eq_getElem_cons hlt⟩

theorem drop_eq_nil_of_getElem? (h : buf[pos]? = none) : buf.drop pos = [] :=
  List.drop_eq_nil_of_le (List.getElem?_eq_none_iff.mp h)

end

namespace Reader

/-! ### Scans -/

section

variable {f : β → Act} {buf : List β} {pos : ℕ}

/-- A list is stepped over, or there is a first element that is not. -/
theorem forall_skip_or_exists (f : β → Act) (l : List β) :
    (∀ x ∈ l, f x = .skip) ∨
      ∃ w b r, l = w ++ b :: r ∧ (∀ x ∈ w, f x = .skip) ∧ f b ≠ .skip := by
  induction l with
  | nil => exact .inl nofun
  | cons x l ih =>
      by_cases hx : f x = .skip
      · rcases ih with hall | ⟨w, b, r, rfl, hw, hb⟩
        · exact .inl (List.forall_mem_cons.mpr ⟨hx, hall⟩)
        · exact .inr ⟨x :: w, b, r, rfl, List.forall_mem_cons.mpr ⟨hx, hw⟩, hb⟩
      · exact .inr ⟨[], x, l, rfl, nofun, hx⟩

theorem scanFrom_of_drop {w r : List β} (h : buf.drop pos = w ++ r) (hw : ∀ x ∈ w, f x = .skip) :
    scanFrom f buf pos = scanFrom f buf (pos + w.length) := by
  induction w generalizing pos with
  | nil => rfl
  | cons x w ih =>
      obtain ⟨hx, hw'⟩ := List.forall_mem_cons.mp hw
      rw [scanFrom_some (getElem?_of_drop h), hx, List.length_cons, Nat.add_comm w.length,
        ← Nat.add_assoc]
      exact ih (drop_succ_of_drop h) hw'

/-- A scan wants more when it has stepped over all there is. -/
theorem scanFrom_eq_more :
    scanFrom f buf pos = .more ↔ ∀ x ∈ buf.drop pos, f x = .skip := by
  rcases forall_skip_or_exists f (buf.drop pos) with hall | ⟨w, b, r, hdrop, hw, hb⟩
  · have hend : buf[pos + (buf.drop pos).length]? = none := by
      rw [List.getElem?_eq_none_iff, List.length_drop]
      omega
    rw [scanFrom_of_drop (List.append_nil _).symm hall, scanFrom_none hend]
    exact iff_of_true rfl hall
  · rw [scanFrom_of_drop hdrop hw, scanFrom_some (getElem?_of_drop (drop_add_of_drop hdrop))]
    have hnot : ¬∀ x ∈ buf.drop pos, f x = .skip := by
      intro hall
      exact hb (hall b (by rw [hdrop]; simp))
    cases hf : f b with
    | skip => exact absurd hf hb
    | stop => exact iff_of_false nofun hnot
    | bad => exact iff_of_false nofun hnot

/-- A scan is done in front of the first element it does not step over. -/
theorem scanFrom_eq_done {u : Unit} {q : ℕ} :
    scanFrom f buf pos = .done (u, q) ↔
      ∃ w b r, buf.drop pos = w ++ b :: r ∧ (∀ x ∈ w, f x = .skip) ∧ f b = .stop ∧
        q = pos + w.length := by
  constructor
  · intro h
    rcases forall_skip_or_exists f (buf.drop pos) with hall | ⟨w, b, r, hdrop, hw, hb⟩
    · rw [scanFrom_eq_more.mpr hall] at h
      cases h
    · refine ⟨w, b, r, hdrop, hw, ?_⟩
      rw [scanFrom_of_drop hdrop hw,
        scanFrom_some (getElem?_of_drop (drop_add_of_drop hdrop))] at h
      cases hf : f b with
      | skip => exact absurd hf hb
      | stop =>
          rw [hf] at h
          exact ⟨rfl, (Prod.mk.inj (Verdict.done.inj h)).2.symm⟩
      | bad =>
          rw [hf] at h
          cases h
  · rintro ⟨w, b, r, hdrop, hw, hb, rfl⟩
    rw [scanFrom_of_drop hdrop hw, scanFrom_some (getElem?_of_drop (drop_add_of_drop hdrop)), hb]

end

/-! ### Words -/

/-- In front of `r` the reader takes the word `w`. -/
structure Takes (p : Reader β ω α) (buf : List β) (pos : ℕ) (w r : List β) (a : α)
    (l : List ω) : Prop where
  rest : buf.drop pos = w ++ r
  read : p.read buf pos = (.done (a, pos + w.length), l)

section

variable {p : Reader β ω α} {buf w r : List β} {pos : ℕ} {a : α} {l : List ω} {k j : ℕ}

theorem Takes.le_length (h : Takes p buf pos w r a l) (hpos : pos ≤ buf.length) :
    pos + w.length ≤ buf.length := by
  have hlen := congrArg List.length h.rest
  rw [List.length_drop, List.length_append] at hlen
  omega

theorem takes_congr {q : Reader β ω α} (h : p.read buf pos = q.read buf pos) :
    Takes p buf pos w r a l ↔ Takes q buf pos w r a l :=
  ⟨fun hp => ⟨hp.rest, h.symm.trans hp.read⟩, fun hq => ⟨hq.rest, h.trans hq.read⟩⟩

theorem Takes.drop (h : Takes p buf pos w r a l) : buf.drop (pos + w.length) = r :=
  drop_add_of_drop h.rest

/-- What lies between two positions. -/
theorem exists_drop_eq {q : ℕ} (hle : pos ≤ q) (hq : q ≤ buf.length) :
    ∃ w r, buf.drop pos = w ++ r ∧ q = pos + w.length := by
  refine ⟨(buf.drop pos).take (q - pos), (buf.drop pos).drop (q - pos),
    (List.take_append_drop _ _).symm, ?_⟩
  rw [List.length_take, List.length_drop]
  omega

/-- A reader that is done has taken a word. -/
theorem exists_takes (hp : Reads k p) (hpos : pos ≤ buf.length) {q : ℕ}
    (h : p.read buf pos = (.done (a, q), l)) :
    ∃ w r, Takes p buf pos w r a l ∧ q = pos + w.length := by
  obtain ⟨w, r, hdrop, rfl⟩ := exists_drop_eq (hp.le hpos h) (hp.le_length hpos h)
  exact ⟨w, r, ⟨hdrop, h⟩, rfl⟩

theorem Takes.bind {q : α → Reader β ω γ} {w₁ w₂ : List β} {c : γ} {l₁ l₂ : List ω}
    (hp : Takes p buf pos w₁ (w₂ ++ r) a l₁)
    (hq : Takes (q a) buf (pos + w₁.length) w₂ r c l₂) :
    Takes (p >>= q) buf pos (w₁ ++ w₂) r c (l₁ ++ l₂) where
  rest := by rw [hp.rest, List.append_assoc]
  read := by simp only [read_bind, hp.read, hq.read, List.length_append, Nat.add_assoc]

/-- A sequence takes the words of its parts. -/
theorem Takes.bind_inv {q : α → Reader β ω γ} {c : γ} (hp : Reads k p)
    (hq : ∀ a, Reads j (q a)) (hpos : pos ≤ buf.length)
    (h : Takes (p >>= q) buf pos w r c l) :
    ∃ a w₁ w₂ l₁ l₂, w = w₁ ++ w₂ ∧ l = l₁ ++ l₂ ∧ Takes p buf pos w₁ (w₂ ++ r) a l₁ ∧
      Takes (q a) buf (pos + w₁.length) w₂ r c l₂ := by
  obtain ⟨a, p', l₁, l₂, h₁, h₂, rfl⟩ := bind_eq_done h.read
  obtain ⟨w₁, r₁, t₁, rfl⟩ := exists_takes hp hpos h₁
  obtain ⟨w₂, r₂, t₂, hlen⟩ := exists_takes (hq a) (t₁.le_length hpos) h₂
  -- the two words make up the one that was taken
  have hrest : w ++ r = (w₁ ++ w₂) ++ r₂ := by
    rw [← h.rest, t₁.rest, List.append_assoc, ← t₂.rest, t₁.drop]
  obtain ⟨rfl, rfl⟩ := List.append_inj hrest (by rw [List.length_append]; omega)
  refine ⟨a, w₁, w₂, l₁, l₂, rfl, rfl, ⟨?_, t₁.read⟩, t₂⟩
  rw [h.rest, List.append_assoc]

theorem takes_pure {b : α} :
    Takes (Pure.pure b) buf pos w r a l ↔ buf.drop pos = r ∧ w = [] ∧ b = a ∧ l = [] := by
  constructor
  · rintro ⟨hrest, hread⟩
    obtain ⟨⟨rfl, hlen⟩, rfl⟩ : (b = a ∧ pos = pos + w.length) ∧ [] = l := by simpa using hread
    obtain rfl : w = [] := List.eq_nil_of_length_eq_zero (by omega)
    exact ⟨hrest, rfl, rfl, rfl⟩
  · rintro ⟨hrest, rfl, rfl, rfl⟩
    exact ⟨hrest, rfl⟩

theorem takes_emit {e : ω} {u : Unit} :
    Takes (emit e) buf pos w r u l ↔ buf.drop pos = r ∧ w = [] ∧ l = [e] := by
  constructor
  · rintro ⟨hrest, hread⟩
    obtain ⟨hlen, rfl⟩ := emit_eq_done hread
    obtain rfl : w = [] := List.eq_nil_of_length_eq_zero (by omega)
    exact ⟨hrest, rfl, rfl⟩
  · rintro ⟨hrest, rfl, rfl⟩
    exact ⟨hrest, rfl⟩

theorem takes_emit_bind {e : ω} {q : Unit → Reader β ω γ} {c : γ} :
    Takes (emit e >>= q) buf pos w r c l ↔ ∃ l', l = e :: l' ∧ Takes (q ()) buf pos w r c l' := by
  constructor
  · rintro ⟨hrest, hread⟩
    simp only [read_bind, read_emit, Prod.mk.injEq] at hread
    obtain ⟨hdone, rfl⟩ := hread
    exact ⟨_, rfl, hrest, Prod.ext hdone rfl⟩
  · rintro ⟨l', rfl, hrest, hread⟩
    refine ⟨hrest, ?_⟩
    simp only [read_bind, read_emit, hread, List.singleton_append]

theorem takes_peek_bind {q : β → Reader β ω γ} {c : γ} :
    Takes (peek >>= q) buf pos w r c l ↔
      ∃ b v, buf.drop pos = b :: v ∧ Takes (q b) buf pos w r c l := by
  cases hb : buf[pos]? with
  | none =>
      refine iff_of_false ?_ ?_
      · rintro ⟨-, hread⟩
        rw [read_bind, read_peek_none hb] at hread
        cases hread
      · rintro ⟨b, v, hv, -⟩
        rw [drop_eq_nil_of_getElem? hb] at hv
        cases hv
  | some b =>
      obtain ⟨v, hv⟩ := drop_of_getElem? hb
      have hread : (peek >>= q).read buf pos = (q b).read buf pos := by
        rw [read_bind, read_peek_some hb]
        rfl
      rw [takes_congr hread]
      constructor
      · intro h
        exact ⟨b, v, hv, h⟩
      · rintro ⟨b', v', hv', h⟩
        obtain rfl : b = b' := (List.cons.inj (hv.symm.trans hv')).1
        exact h

theorem not_takes_reject : ¬Takes reject buf pos w r a l := by
  rintro ⟨-, hread⟩
  cases hread

theorem takes_position {q : ℕ} :
    Takes position buf pos w r q l ↔ buf.drop pos = r ∧ w = [] ∧ q = pos ∧ l = [] := by
  constructor
  · rintro ⟨hrest, hread⟩
    obtain ⟨⟨rfl, hlen⟩, rfl⟩ : (pos = q ∧ pos = pos + w.length) ∧ [] = l := by simpa using hread
    obtain rfl : w = [] := List.eq_nil_of_length_eq_zero (by omega)
    exact ⟨hrest, rfl, rfl, rfl⟩
  · rintro ⟨hrest, rfl, rfl, rfl⟩
    exact ⟨hrest, rfl⟩

theorem takes_next {b : β} :
    Takes next buf pos w r b l ↔ buf.drop pos = b :: r ∧ w = [b] ∧ l = [] := by
  constructor
  · rintro ⟨hrest, hread⟩
    cases hb : buf[pos]? with
    | none =>
        rw [read_next_none hb] at hread
        cases hread
    | some c =>
        rw [read_next_some hb] at hread
        obtain ⟨⟨rfl, hlen⟩, rfl⟩ : (c = b ∧ pos + 1 = pos + w.length) ∧ [] = l := by
          simpa using hread
        obtain ⟨x, rfl⟩ := List.length_eq_one_iff.mp (Nat.add_left_cancel hlen).symm
        obtain rfl : x = c := Option.some.inj ((getElem?_of_drop hrest).symm.trans hb)
        exact ⟨hrest, rfl, rfl⟩
  · rintro ⟨hrest, rfl, rfl⟩
    exact ⟨hrest, read_next_some (getElem?_of_drop hrest)⟩

theorem takes_scan {f : β → Act} {u : Unit} :
    Takes (scan f) buf pos w r u l ↔
      buf.drop pos = w ++ r ∧ (∀ x ∈ w, f x = .skip) ∧ (∃ b r', r = b :: r' ∧ f b = .stop) ∧
        l = [] := by
  constructor
  · rintro ⟨hrest, hread⟩
    obtain ⟨hscan, rfl⟩ := Prod.mk.inj hread
    obtain ⟨w', b, r', hdrop, hw', hb, hlen⟩ := scanFrom_eq_done.mp hscan
    obtain ⟨rfl, rfl⟩ := List.append_inj (hrest.symm.trans hdrop) (Nat.add_left_cancel hlen)
    exact ⟨hrest, hw', ⟨b, r', rfl, hb⟩, rfl⟩
  · rintro ⟨hrest, hw, ⟨b, r', rfl, hb⟩, rfl⟩
    exact ⟨hrest, Prod.ext (scanFrom_eq_done.mpr ⟨w, b, r', hrest, hw, hb, rfl⟩) rfl⟩

/-- A window decides on the word and on what it sees behind it. -/
theorem takes_window {n m : ℕ} {f : List β → Option α × List ω} (hpos : pos ≤ buf.length) :
    Takes (window n m f) buf pos w r a l ↔
      buf.drop pos = w ++ r ∧ w.length = m ∧ n ≤ (w ++ r).length ∧
        f ((w ++ r).take n) = (some a, l) := by
  have hlen : buf.drop pos = w ++ r → (pos + n ≤ buf.length ↔ n ≤ (w ++ r).length) := by
    intro hrest
    rw [← hrest, List.length_drop]
    omega
  constructor
  · rintro ⟨hrest, hread⟩
    rw [window] at hread
    dsimp only at hread
    split at hread
    · cases hread
    · rename_i hn
      rw [hrest] at hread
      split at hread
      · rename_i c l' hf
        obtain ⟨⟨rfl, hm⟩, rfl⟩ : (c = a ∧ pos + m = pos + w.length) ∧ l' = l := by
          simpa using hread
        exact ⟨hrest, (Nat.add_left_cancel hm).symm, (hlen hrest).mp (Nat.not_lt.mp hn), hf⟩
      · cases hread
  · rintro ⟨hrest, rfl, hn, hf⟩
    refine ⟨hrest, ?_⟩
    rw [window]
    dsimp only
    rw [if_neg (Nat.not_lt.mpr ((hlen hrest).mpr hn)), hrest, hf]

/-- What is captured is the word. -/
theorem takes_captured {c : List β × α} :
    Takes (captured p) buf pos w r c l ↔ Takes p buf pos w r c.2 l ∧ c.1 = w := by
  have hword : buf.drop pos = w ++ r → (buf.drop pos).take (pos + w.length - pos) = w := by
    intro hrest
    rw [Nat.add_sub_cancel_left, hrest, List.take_left]
  constructor
  · rintro ⟨hrest, hread⟩
    obtain ⟨a, q, l', hp⟩ | ⟨l', hp⟩ | ⟨l', hp⟩ := cases_read p buf pos
    · simp only [captured, hp, Prod.mk.injEq, Verdict.done.injEq] at hread
      obtain ⟨⟨rfl, rfl⟩, rfl⟩ := hread
      exact ⟨⟨hrest, hp⟩, hword hrest⟩
    · simp [captured, hp] at hread
    · simp [captured, hp] at hread
  · rintro ⟨⟨hrest, hread⟩, rfl⟩
    refine ⟨hrest, ?_⟩
    simp only [captured, hread, hword hrest]

/-- The same reader under other events takes the same words. -/
theorem takes_mapEvents {ω' : Type} {g : ω → ω'} {l : List ω'} :
    Takes (mapEvents g p) buf pos w r a l ↔ ∃ l', Takes p buf pos w r a l' ∧ l = l'.map g := by
  constructor
  · rintro ⟨hrest, hread⟩
    obtain ⟨hdone, rfl⟩ := Prod.mk.inj hread
    exact ⟨_, ⟨hrest, Prod.ext hdone rfl⟩, rfl⟩
  · rintro ⟨l', ⟨hrest, hread⟩, rfl⟩
    refine ⟨hrest, ?_⟩
    simp only [mapEvents, hread]

/-- An iteration takes the word of its last turn, or that of a turn that goes
on and then one of the iteration that is left. -/
theorem takes_iterate {body : ι → Reader β ω (ι ⊕ α)} (hbody : ∀ i, Consumes (body i)) {i : ι}
    (hpos : pos ≤ buf.length) :
    Takes (Reader.iterate body i) buf pos w r a l ↔
      Takes (body i) buf pos w r (.inr a) l ∨
        ∃ i' w₁ w₂ l₁ l₂, w = w₁ ++ w₂ ∧ l = l₁ ++ l₂ ∧ w₁ ≠ [] ∧
          Takes (body i) buf pos w₁ (w₂ ++ r) (.inl i') l₁ ∧
          Takes (Reader.iterate body i') buf (pos + w₁.length) w₂ r a l₂ := by
  have hread := read_iterate hbody i hpos
  constructor
  · rintro ⟨hrest, hdone⟩
    rw [hread] at hdone
    obtain ⟨s, w₁, w₂, l₁, l₂, rfl, rfl, h₁, h₂⟩ :=
      Takes.bind_inv (j := 0) (hbody i).reads (by
        rintro (i' | a')
        · exact .iterate hbody i'
        · exact .pure a') hpos ⟨hrest, hdone⟩
    cases s with
    | inl i' =>
        refine .inr ⟨i', w₁, w₂, l₁, l₂, rfl, rfl, ?_, h₁, h₂⟩
        rintro rfl
        exact absurd ((hbody i).advances.le hpos h₁.read) (Nat.not_succ_le_self pos)
    | inr a' =>
        obtain ⟨-, rfl, rfl, rfl⟩ := takes_pure.mp h₂
        left
        simpa using h₁
  · rintro (h | ⟨i', w₁, w₂, l₁, l₂, rfl, rfl, -, h₁, h₂⟩)
    · refine ⟨h.rest, ?_⟩
      rw [hread]
      simp only [read_bind, h.read, read_pure, List.append_nil]
    · have hrest : buf.drop pos = w₁ ++ w₂ ++ r := h₁.rest.trans (List.append_assoc _ _ _).symm
      exact ⟨hrest, hread.trans (Takes.bind h₁ h₂).read⟩

end

/-! ### Waiting -/

/-- The reader needs more than there is behind `pos`. -/
def Waits (p : Reader β ω α) (buf : List β) (pos : ℕ) : Prop := ∃ l, p.read buf pos = (.more, l)

section

variable {p : Reader β ω α} {buf : List β} {pos k : ℕ}

/-- A sequence waits in its first part, or behind a word of it. -/
theorem waits_bind_inv {q : α → Reader β ω γ} (hp : Reads k p) (hpos : pos ≤ buf.length)
    (h : Waits (p >>= q) buf pos) :
    Waits p buf pos ∨
      ∃ a w r l, Takes p buf pos w r a l ∧ Waits (q a) buf (pos + w.length) := by
  obtain ⟨l, hl⟩ := h
  obtain hmore | ⟨a, q, l₁, l₂, h₁, h₂, -⟩ := bind_eq_more hl
  · exact .inl ⟨l, hmore⟩
  · obtain ⟨w, r, htakes, rfl⟩ := exists_takes hp hpos h₁
    exact .inr ⟨a, w, r, l₁, htakes, l₂, h₂⟩

theorem Waits.bind (h : Waits p buf pos) (q : α → Reader β ω γ) : Waits (p >>= q) buf pos := by
  obtain ⟨l, hl⟩ := h
  exact ⟨l, by simp only [read_bind, hl]⟩

theorem Takes.waits_bind {w r : List β} {a : α} {l : List ω} {q : α → Reader β ω γ}
    (hp : Takes p buf pos w r a l) (hq : Waits (q a) buf (pos + w.length)) :
    Waits (p >>= q) buf pos := by
  obtain ⟨l', hl'⟩ := hq
  exact ⟨l ++ l', by simp only [read_bind, hp.read, hl']⟩

theorem waits_emit_bind {e : ω} {q : Unit → Reader β ω γ} :
    Waits (emit e >>= q) buf pos ↔ Waits (q ()) buf pos := by
  constructor
  · rintro ⟨l, hl⟩
    obtain ⟨hmore, -⟩ := Prod.mk.inj hl
    exact ⟨_, Prod.ext hmore rfl⟩
  · rintro ⟨l, hl⟩
    exact ⟨e :: l, by simp only [read_bind, read_emit, hl, List.singleton_append]⟩

theorem waits_congr {q : Reader β ω α} (h : p.read buf pos = q.read buf pos) :
    Waits p buf pos ↔ Waits q buf pos := by
  rw [Waits, Waits, h]

theorem not_waits_pure {a : α} : ¬Waits (Pure.pure a : Reader β ω α) buf pos := by
  rintro ⟨l, hl⟩
  cases hl

theorem not_waits_emit {e : ω} : ¬Waits (emit e : Reader β ω Unit) buf pos := by
  rintro ⟨l, hl⟩
  cases hl

theorem not_waits_reject : ¬Waits (reject : Reader β ω α) buf pos := by
  rintro ⟨l, hl⟩
  cases hl

theorem not_waits_position : ¬Waits (position : Reader β ω ℕ) buf pos := by
  rintro ⟨l, hl⟩
  cases hl

theorem waits_next : Waits (next : Reader β ω β) buf pos ↔ buf.drop pos = [] := by
  cases hb : buf[pos]? with
  | none => exact iff_of_true ⟨[], read_next_none hb⟩ (drop_eq_nil_of_getElem? hb)
  | some b =>
      obtain ⟨r, hr⟩ := drop_of_getElem? hb
      refine iff_of_false ?_ (by rw [hr]; exact List.cons_ne_nil b r)
      rintro ⟨l, hl⟩
      rw [read_next_some hb] at hl
      cases hl

theorem waits_peek : Waits (peek : Reader β ω β) buf pos ↔ buf.drop pos = [] := by
  cases hb : buf[pos]? with
  | none => exact iff_of_true ⟨[], read_peek_none hb⟩ (drop_eq_nil_of_getElem? hb)
  | some b =>
      obtain ⟨r, hr⟩ := drop_of_getElem? hb
      refine iff_of_false ?_ (by rw [hr]; exact List.cons_ne_nil b r)
      rintro ⟨l, hl⟩
      rw [read_peek_some hb] at hl
      cases hl

theorem waits_peek_bind {q : β → Reader β ω γ} :
    Waits (peek >>= q) buf pos ↔
      buf.drop pos = [] ∨ ∃ b v, buf.drop pos = b :: v ∧ Waits (q b) buf pos := by
  cases hb : buf[pos]? with
  | none =>
      exact iff_of_true ((waits_peek.mpr (drop_eq_nil_of_getElem? hb)).bind q)
        (.inl (drop_eq_nil_of_getElem? hb))
  | some b =>
      obtain ⟨v, hv⟩ := drop_of_getElem? hb
      have hread : (peek >>= q).read buf pos = (q b).read buf pos := by
        rw [read_bind, read_peek_some hb]
        rfl
      rw [waits_congr hread, hv]
      constructor
      · intro h
        exact .inr ⟨b, v, rfl, h⟩
      · rintro (hnil | ⟨b', v', hcons, h⟩)
        · cases hnil
        · obtain rfl : b = b' := (List.cons.inj hcons).1
          exact h

theorem waits_scan {f : β → Act} :
    Waits (scan f : Reader β ω Unit) buf pos ↔ ∀ x ∈ buf.drop pos, f x = .skip := by
  rw [← scanFrom_eq_more]
  constructor
  · rintro ⟨l, hl⟩
    exact (Prod.mk.inj hl).1
  · intro h
    exact ⟨[], Prod.ext h rfl⟩

theorem waits_window {n j : ℕ} {f : List β → Option α × List ω} :
    Waits (window n j f) buf pos ↔ buf.length < pos + n := by
  constructor
  · rintro ⟨l, hl⟩
    by_contra hlen
    rw [window] at hl
    simp only [if_neg hlen] at hl
    split at hl
    · cases hl
    · cases hl
  · intro hlen
    refine ⟨[], ?_⟩
    rw [window]
    simp only [if_pos hlen]

theorem waits_captured : Waits (captured p) buf pos ↔ Waits p buf pos := by
  obtain ⟨a, q, l, h⟩ | ⟨l, h⟩ | ⟨l, h⟩ := cases_read p buf pos
  · simp [Waits, captured, h]
  · simp [Waits, captured, h]
  · simp [Waits, captured, h]

theorem waits_mapEvents {ω' : Type} {g : ω → ω'} :
    Waits (mapEvents g p) buf pos ↔ Waits p buf pos := by
  simp only [Waits, mapEvents, Prod.mk.injEq]
  constructor
  · rintro ⟨l, h⟩
    exact ⟨_, Prod.ext h.1 rfl⟩
  · rintro ⟨l, h⟩
    exact ⟨_, by rw [h], rfl⟩

end

/-! ### What is left to read -/

/-- At `pos` the reader `p` has come to `q` at `pos'`, with `l` published on
the way. -/
def Leads (p : Reader β ω α) (buf : List β) (pos : ℕ) (q : Reader β ω α) (pos' : ℕ)
    (l : List ω) : Prop :=
  p.read buf pos = ((q.read buf pos').1, l ++ (q.read buf pos').2)

section

variable {q : Reader β ω γ} {buf : List β} {pos pos' : ℕ} {l : List ω}

theorem Leads.refl : Leads q buf pos q pos [] := rfl

theorem Leads.emit {e : ω} {k : Unit → Reader β ω γ} (h : Leads (k ()) buf pos q pos' l) :
    Leads (emit e >>= k) buf pos q pos' (e :: l) := by
  unfold Leads at h ⊢
  rw [read_bind, read_emit]
  dsimp only
  rw [h]
  rfl

theorem Leads.peek {b : β} {v : List β} {k : β → Reader β ω γ} (hb : buf.drop pos = b :: v)
    (h : Leads (k b) buf pos q pos' l) : Leads (peek >>= k) buf pos q pos' l := by
  unfold Leads at h ⊢
  rw [read_bind, read_peek_some (getElem?_of_drop hb)]
  exact h

/-- Behind the word its first part takes. -/
theorem Takes.leads {p : Reader β ω α} {w v : List β} {a : α} {l' : List ω}
    {k : α → Reader β ω γ} (hp : Takes p buf pos w v a l')
    (h : Leads (k a) buf (pos + w.length) q pos' l) :
    Leads (p >>= k) buf pos q pos' (l' ++ l) := by
  unfold Leads at h ⊢
  rw [read_bind, hp.read]
  dsimp only
  rw [h, List.append_assoc]

end

end Reader

end Incremental
