import PicoHttpParser.Lib.Growth
import Mathlib.Order.Basic

/-!
Readers that publish in order.

Every event has a rank, and a reader is ranked when it publishes its events
in the strict order of their ranks, whatever the input. An output that only
events of one rank write to is then written at most once, so what has been
written to it is what will stay there. This is `register_once`.
-/

namespace Incremental

namespace Reader

variable {β ω ω' α γ ι κ : Type}

/-- A reader without events. -/
structure Silent (p : Reader β ω α) : Prop where
  nil : ∀ buf pos, (p.read buf pos).2 = []

namespace Silent

theorem pure (a : α) : Silent (Pure.pure a : Reader β ω α) := ⟨fun _ _ => rfl⟩

theorem reject : Silent (Reader.reject : Reader β ω α) := ⟨fun _ _ => rfl⟩

theorem position : Silent (Reader.position : Reader β ω ℕ) := ⟨fun _ _ => rfl⟩

theorem scan (f : β → Act) : Silent (Reader.scan f : Reader β ω Unit) := ⟨fun _ _ => rfl⟩

theorem peek : Silent (Reader.peek : Reader β ω β) where
  nil buf pos := by
    cases hb : buf[pos]? with
    | none => rw [read_peek_none hb]
    | some b => rw [read_peek_some hb]

theorem next : Silent (Reader.next : Reader β ω β) where
  nil buf pos := by
    cases hb : buf[pos]? with
    | none => rw [read_next_none hb]
    | some b => rw [read_next_some hb]

theorem bind {p : Reader β ω α} {q : α → Reader β ω γ} (hp : Silent p)
    (hq : ∀ a, Silent (q a)) : Silent (p >>= q) where
  nil buf pos := by
    have h := hp.nil buf pos
    obtain ⟨a, pos', l, hr⟩ | ⟨l, hr⟩ | ⟨l, hr⟩ := cases_read p buf pos
    · rw [hr] at h
      simp only [read_bind, hr, h, (hq a).nil, List.append_nil]
    · rw [hr] at h
      simpa only [read_bind, hr] using h
    · rw [hr] at h
      simpa only [read_bind, hr] using h

theorem captured {p : Reader β ω α} (hp : Silent p) : Silent (Reader.captured p) where
  nil buf pos := by rw [Reads.events_captured, hp.nil]

theorem window {n k : ℕ} {f : List β → Option α × List ω} (hf : ∀ w, (f w).2 = []) :
    Silent (Reader.window n k f) where
  nil buf pos := by
    have h := hf ((buf.drop pos).take n)
    dsimp only [Reader.window]
    split
    · rfl
    · rcases hw : f ((buf.drop pos).take n) with ⟨_ | a, l⟩ <;> rw [hw] at h <;> exact h

end Silent

/-- A reader publishes in the strict order of the ranks, beginning at `lo`. -/
structure Ranked [Preorder κ] (r : ω → κ) (lo : κ) (p : Reader β ω α) : Prop where
  sorted : ∀ buf pos, (p.read buf pos).2.Pairwise fun e e' => r e < r e'
  lower : ∀ buf pos, ∀ e ∈ (p.read buf pos).2, lo ≤ r e

namespace Ranked

variable [Preorder κ] {r : ω → κ} {lo : κ}

theorem silent {p : Reader β ω α} (h : Silent p) : Ranked r lo p where
  sorted buf pos := by rw [h.nil]; exact .nil
  lower buf pos := by rw [h.nil]; exact fun _ he => absurd he List.not_mem_nil

/-- The same order, in terms of another rank. -/
theorem reorder {κ' : Type} [Preorder κ'] {r' : ω → κ'} {lo' : κ'} {p : Reader β ω α}
    (hlt : ∀ e e', r e < r e' → r' e < r' e') (hlo : ∀ e, lo ≤ r e → lo' ≤ r' e)
    (h : Ranked r lo p) : Ranked r' lo' p where
  sorted buf pos := (h.sorted buf pos).imp fun hr => hlt _ _ hr
  lower buf pos e he := hlo e (h.lower buf pos e he)

theorem emit {e : ω} (h : lo ≤ r e) : Ranked r lo (Reader.emit e : Reader β ω Unit) where
  sorted _ _ := List.pairwise_singleton _ _
  lower _ _ _ he := List.mem_singleton.mp he ▸ h

/-- The first part of a sequence ends below where the second begins. -/
theorem bind (mid : κ) {p : Reader β ω α} {q : α → Reader β ω γ} (hp : Ranked r lo p)
    (hq : ∀ a, Ranked r mid (q a)) (hlo : lo ≤ mid)
    (hmid : ∀ buf pos a pos' l, p.read buf pos = (.done (a, pos'), l) → ∀ e ∈ l, r e < mid) :
    Ranked r lo (p >>= q) where
  sorted buf pos := by
    have hs := hp.sorted buf pos
    obtain ⟨a, pos', l, h⟩ | ⟨l, h⟩ | ⟨l, h⟩ := cases_read p buf pos <;> rw [h] at hs
    · simp only [read_bind, h]
      refine List.pairwise_append.mpr ⟨hs, (hq a).sorted buf pos', fun e he e' he' => ?_⟩
      exact (hmid buf pos a pos' l h e he).trans_le ((hq a).lower buf pos' e' he')
    · simpa only [read_bind, h] using hs
    · simpa only [read_bind, h] using hs
  lower buf pos := by
    have hl := hp.lower buf pos
    obtain ⟨a, pos', l, h⟩ | ⟨l, h⟩ | ⟨l, h⟩ := cases_read p buf pos <;> rw [h] at hl
    · simp only [read_bind, h]
      intro e he
      rcases List.mem_append.mp he with he | he
      · exact hl e he
      · exact hlo.trans ((hq a).lower buf pos' e he)
    · simpa only [read_bind, h] using hl
    · simpa only [read_bind, h] using hl

theorem bind_silent {p : Reader β ω α} {q : α → Reader β ω γ} (hp : Silent p)
    (hq : ∀ a, Ranked r lo (q a)) : Ranked r lo (p >>= q) := by
  apply bind lo (silent hp) hq le_rfl
  intro buf pos a pos' l h e he
  have hnil := hp.nil buf pos
  rw [h] at hnil
  rw [show l = [] from hnil] at he
  cases he

theorem bind_emit (mid : κ) {e : ω} {q : Unit → Reader β ω γ} (he : lo ≤ r e) (hmid : r e < mid)
    (hq : Ranked r mid (q ())) : Ranked r lo (Reader.emit e >>= q) := by
  apply bind mid (emit he) (fun _ => hq) (he.trans hmid.le)
  intro buf pos a pos' l h e' he'
  obtain rfl := (Prod.mk.inj h).2
  rwa [List.mem_singleton.mp he']

theorem mapEvents {f : ω' → ω} {p : Reader β ω' α} (h : Ranked (r ∘ f) lo p) :
    Ranked r lo (Reader.mapEvents f p) where
  sorted buf pos := List.pairwise_map.mpr (h.sorted buf pos)
  lower buf pos e he := by
    obtain ⟨e', he', rfl⟩ := List.mem_map.mp he
    exact h.lower buf pos e' he'

theorem window {n k : ℕ} {f : List β → Option α × List ω}
    (hf : ∀ w, (f w).2.Pairwise fun e e' => r e < r e') (hlo : ∀ w, ∀ e ∈ (f w).2, lo ≤ r e) :
    Ranked r lo (Reader.window n k f) where
  sorted buf pos := by
    have h := hf ((buf.drop pos).take n)
    dsimp only [Reader.window]
    split
    · exact .nil
    · rcases hw : f ((buf.drop pos).take n) with ⟨_ | a, l⟩ <;> rw [hw] at h <;> exact h
  lower buf pos := by
    have h := hlo ((buf.drop pos).take n)
    dsimp only [Reader.window]
    split
    · exact fun _ he => absurd he List.not_mem_nil
    · rcases hw : f ((buf.drop pos).take n) with ⟨_ | a, l⟩ <;> rw [hw] at h <;> exact h

/-- The `i`-th turn publishes from `low i` on, and below what the next turn
starts with. -/
theorem iterate (low : ι → κ) {body : ι → Reader β ω (ι ⊕ α)}
    (hbody : ∀ i, Ranked r (low i) (body i))
    (hturn : ∀ i buf pos i' pos' l, (body i).read buf pos = (.done (.inl i', pos'), l) →
      low i ≤ low i' ∧ ∀ e ∈ l, r e < low i')
    (i : ι) : Ranked r (low i) (Reader.iterate body i) := by
  have key : ∀ buf i pos, (iterateFrom body i buf pos).2.Pairwise (fun e e' => r e < r e') ∧
      ∀ e ∈ (iterateFrom body i buf pos).2, low i ≤ r e := by
    intro buf i pos
    -- on the part of the buffer that is left, since a turn that goes on consumes
    induction hn : buf.length - pos using Nat.strong_induction_on generalizing i pos with
    | _ n ih =>
        have hs := (hbody i).sorted buf pos
        have hl := (hbody i).lower buf pos
        rw [iterateFrom]
        obtain ⟨s, pos', l, h⟩ | ⟨l, h⟩ | ⟨l, h⟩ := cases_read (body i) buf pos <;> rw [h] at hs hl
        · cases s with
          | inr a => simp only [h]; exact ⟨hs, hl⟩
          | inl i' =>
              obtain ⟨hle, hlt⟩ := hturn i buf pos i' pos' l h
              simp only [h]
              split
              · obtain ⟨ihs, ihl⟩ := ih (buf.length - pos') (by omega) i' pos' rfl
                refine ⟨List.pairwise_append.mpr ⟨hs, ihs, fun e he e' he' => ?_⟩, ?_⟩
                · exact (hlt e he).trans_le (ihl e' he')
                · intro e he
                  rcases List.mem_append.mp he with he | he
                  · exact hl e he
                  · exact hle.trans (ihl e he)
              · exact ⟨hs, hl⟩
        · simp only [h]; exact ⟨hs, hl⟩
        · simp only [h]; exact ⟨hs, hl⟩
  exact ⟨fun buf pos => (key buf i pos).1, fun buf pos => (key buf i pos).2⟩

end Ranked

/-! ### Outputs that are written once -/

section

variable [Preorder κ] {r : ω → κ} {σ ρ : Type} {publish : σ → ω → σ} (reg : σ → ρ)

/-- A register no event of the list writes to. -/
theorem register_foldl {l : List ω} (h : ∀ e ∈ l, ∀ s, reg (publish s e) = reg s) (s : σ) :
    reg (l.foldl publish s) = reg s := by
  induction l generalizing s with
  | nil => rfl
  | cons e l ih =>
      rw [List.foldl_cons, ih (fun e' he' => h e' (List.mem_cons_of_mem _ he')),
        h e List.mem_cons_self]

/-- Events behind one of rank `k` have higher ranks. -/
theorem lt_of_sorted {l t : List ω} (h : (l ++ t).Pairwise fun e e' => r e < r e') {k : κ}
    (hk : ∃ e ∈ l, k ≤ r e) : ∀ e ∈ t, k < r e := by
  obtain ⟨e, he, hle⟩ := hk
  intro e' he'
  exact hle.trans_lt ((List.pairwise_append.mp h).2.2 e he e' he')

/-- A register that is not written to by ranks above `k` is what it was once
an event of rank `k` or higher has been published. -/
theorem register_kept {k : κ} (hreg : ∀ s e, k < r e → reg (publish s e) = reg s)
    {l t : List ω} (hsorted : (l ++ t).Pairwise fun e e' => r e < r e')
    (hk : ∃ e ∈ l, k ≤ r e) (s : σ) :
    reg ((l ++ t).foldl publish s) = reg (l.foldl publish s) := by
  rw [List.foldl_append]
  apply register_foldl reg
  intro e he s
  exact hreg s e (lt_of_sorted hsorted hk e he)

/-- What only events of rank `k` or higher bring about. -/
theorem exists_of_foldl {k : κ} {P : σ → Prop}
    (hP : ∀ s e, ¬k ≤ r e → P (publish s e) → P s) {l : List ω} {s : σ}
    (h : P (l.foldl publish s)) (hs : ¬P s) : ∃ e ∈ l, k ≤ r e := by
  induction l generalizing s with
  | nil => exact absurd h hs
  | cons e l ih =>
      by_cases he : k ≤ r e
      · exact ⟨e, List.mem_cons_self, he⟩
      · obtain ⟨e', he', hk⟩ := ih h fun hpub => hs (hP s e he hpub)
        exact ⟨e', List.mem_cons_of_mem _ he', hk⟩

/-- A register that only events of rank `k` write to is written at most
once. -/
theorem register_once {k : κ} (hreg : ∀ s e, r e ≠ k → reg (publish s e) = reg s)
    {l t : List ω} (hsorted : (l ++ t).Pairwise fun e e' => r e < r e') {s : σ}
    (hset : reg (l.foldl publish s) ≠ reg s) :
    reg ((l ++ t).foldl publish s) = reg (l.foldl publish s) := by
  apply register_kept reg (fun s e he => hreg s e he.ne') hsorted
  apply exists_of_foldl (P := fun s' => reg s' ≠ reg s) _ hset (fun h => h rfl)
  intro s' e he hne
  rwa [hreg s' e fun heq => he heq.ge] at hne

end

end Reader

end Incremental
