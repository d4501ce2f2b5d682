import Mathlib.Data.List.Basic
import Mathlib.Data.List.Infix

/-!
Loops over a connection.

What a peer sends arrives in segments, and a read returns the front of what
has arrived, as much as the reader has room for. A loop that reads until it
has a result does not choose the segments, so whatever is proved about it is
proved for all of them. `pull_rule` is the loop rule: an invariant relates
the state of the loop to what it has received so far, and the conclusion says
which part of the stream was received when the loop ended.
-/

namespace Incremental

variable {β σ ρ : Type}

/-- One read with room for `want` elements. Nothing is read at the end of the
stream, and where there is no room. -/
def recv (want : ℕ) : List (List β) → Option (List β × List (List β))
  | [] => none
  | [] :: segments => recv want segments
  | (b :: bs) :: segments =>
    if want = 0 then none
    else some ((b :: bs).take want, (b :: bs).drop want :: segments)

/-- What a read returns is the front of what was still to come. -/
theorem recv_eq_some {want : ℕ} {segments left : List (List β)} {bs : List β}
    (h : recv want segments = some (bs, left)) :
    bs ≠ [] ∧ bs.length ≤ want ∧ segments.flatten = bs ++ left.flatten := by
  induction segments with
  | nil => cases h
  | cons segment segments ih =>
      cases segment with
      | nil => exact ih h
      | cons b segment =>
          unfold recv at h
          split at h
          · cases h
          rename_i hwant
          obtain ⟨rfl, rfl⟩ := Prod.mk.inj (Option.some.inj h)
          obtain ⟨n, rfl⟩ := Nat.exists_eq_succ_of_ne_zero hwant
          refine ⟨List.cons_ne_nil _ _, List.length_take_le _ _, ?_⟩
          rw [List.flatten_cons, List.flatten_cons, ← List.append_assoc, List.take_append_drop]

/-- A reader with room for something reads something, until the stream ends. -/
theorem recv_eq_none {want : ℕ} {segments : List (List β)} (h : recv want segments = none) :
    want = 0 ∨ segments.flatten = [] := by
  induction segments with
  | nil => exact .inr rfl
  | cons segment segments ih =>
      cases segment with
      | nil => exact ih h
      | cons b segment =>
          unfold recv at h
          split at h
          · exact .inl ‹_›
          · cases h

theorem recv_lt {want : ℕ} {segments left : List (List β)} {bs : List β}
    (h : recv want segments = some (bs, left)) :
    left.flatten.length < segments.flatten.length := by
  obtain ⟨hne, -, hstream⟩ := recv_eq_some h
  have hpos := List.length_pos_iff.mpr hne
  rw [hstream, List.length_append]
  omega

/-- A read does not see the segments behind the one it is from. -/
theorem recv_append {want : ℕ} {segments left : List (List β)} {bs : List β}
    (h : recv want segments = some (bs, left)) (more : List (List β)) :
    recv want (segments ++ more) = some (bs, left ++ more) := by
  induction segments with
  | nil => cases h
  | cons segment segments ih =>
      cases segment with
      | nil => exact ih h
      | cons b segment =>
          unfold recv at h
          rw [List.cons_append, recv]
          split at h
          · cases h
          · rename_i hwant
            obtain ⟨rfl, rfl⟩ := Prod.mk.inj (Option.some.inj h)
            rw [if_neg hwant]
            rfl

theorem recv_singleton {want : ℕ} {segment : List β} {left : List (List β)} {bs : List β}
    (h : recv want [segment] = some (bs, left)) :
    bs = segment.take want ∧ left = [segment.drop want] := by
  cases segment with
  | nil => cases h
  | cons b segment =>
      unfold recv at h
      split at h
      · cases h
      · obtain ⟨rfl, rfl⟩ := Prod.mk.inj (Option.some.inj h)
        exact ⟨rfl, rfl⟩

/-- A loop that reads, and takes a turn on what it has read, until a turn
yields a result. When there is nothing to read it is left in its state. -/
def pull (want : σ → ℕ) (turn : σ → List β → σ ⊕ ρ) (s : σ) (segments : List (List β)) :
    (σ ⊕ ρ) × List (List β) :=
  match _h : recv (want s) segments with
  | none => (.inl s, segments)
  | some (bs, left) =>
    match turn s bs with
    | .inl s' => pull want turn s' left
    | .inr r => (.inr r, left)
  termination_by segments.flatten.length
  decreasing_by exact recv_lt _h

section

variable {want : σ → ℕ} {turn : σ → List β → σ ⊕ ρ}

theorem pull_of_none {s : σ} {segments : List (List β)} (h : recv (want s) segments = none) :
    pull want turn s segments = (.inl s, segments) := by
  unfold pull
  split
  · rfl
  · rename_i hsome
    rw [h] at hsome
    cases hsome

theorem pull_of_inl {s s' : σ} {segments left : List (List β)} {bs : List β}
    (h : recv (want s) segments = some (bs, left)) (hturn : turn s bs = .inl s') :
    pull want turn s segments = pull want turn s' left := by
  rw [pull]
  split
  · rename_i hnone
    rw [h] at hnone
    cases hnone
  · rename_i bs' left' hsome
    obtain ⟨rfl, rfl⟩ := Prod.mk.inj (Option.some.inj (h.symm.trans hsome))
    rw [hturn]

theorem pull_of_inr {s : σ} {r : ρ} {segments left : List (List β)} {bs : List β}
    (h : recv (want s) segments = some (bs, left)) (hturn : turn s bs = .inr r) :
    pull want turn s segments = (.inr r, left) := by
  rw [pull]
  split
  · rename_i hnone
    rw [h] at hnone
    cases hnone
  · rename_i bs' left' hsome
    obtain ⟨rfl, rfl⟩ := Prod.mk.inj (Option.some.inj (h.symm.trans hsome))
    rw [hturn]

/-- How a loop over the stream `S` is left: with a result, or in a state in
which nothing could be read. `got` is the part of the stream it received. -/
structure Pulled (want : σ → ℕ) (S : List β) (I : List β → σ → Prop) (Q : List β → ρ → Prop)
    (got : List β) (r : (σ ⊕ ρ) × List (List β)) : Prop where
  stream : S = got ++ r.2.flatten
  result : ∀ a, r.1 = .inr a → Q got a
  closed : ∀ s, r.1 = .inl s → I got s ∧ (want s = 0 ∨ r.2.flatten = [])

/-- The loop rule, with an invariant that sees what is still to come. -/
theorem pull_rule_recv {S : List β} {I : List β → List (List β) → σ → Prop} {Q : List β → ρ → Prop}
    (hturn : ∀ got s segments bs left, S = got ++ segments.flatten →
      recv (want s) segments = some (bs, left) → I got segments s →
      Sum.elim (I (got ++ bs) left) (Q (got ++ bs)) (turn s bs))
    {got : List β} {s : σ} {segments : List (List β)} (hstream : S = got ++ segments.flatten)
    (hs : I got segments s) :
    ∃ got', got <+: got' ∧
      Pulled want S (fun got s => ∃ left, I got left s) Q got' (pull want turn s segments) := by
  induction hn : segments.flatten.length using Nat.strong_induction_on
    generalizing got s segments with
  | _ n ih =>
      cases hrecv : recv (want s) segments with
      | none =>
          rw [pull_of_none hrecv]
          exact ⟨got, List.prefix_rfl, hstream, nofun, fun s' h => by
            obtain rfl := Sum.inl.inj h
            exact ⟨⟨segments, hs⟩, recv_eq_none hrecv⟩⟩
      | some p =>
          obtain ⟨bs, left⟩ := p
          have hstep := hturn got s segments bs left hstream hrecv hs
          obtain ⟨-, -, hsegments⟩ := recv_eq_some hrecv
          rw [hsegments, ← List.append_assoc] at hstream
          cases hs' : turn s bs with
          | inl s' =>
              rw [hs'] at hstep
              obtain ⟨got', hgot, hpulled⟩ := ih _ (hn ▸ recv_lt hrecv) hstream hstep rfl
              rw [pull_of_inl hrecv hs']
              exact ⟨got', (List.prefix_append got bs).trans hgot, hpulled⟩
          | inr r =>
              rw [hs'] at hstep
              rw [pull_of_inr hrecv hs']
              exact ⟨got ++ bs, List.prefix_append got bs, hstream, fun a ha => by
                obtain rfl := Sum.inr.inj ha
                exact hstep, nofun⟩

/-- The loop rule. -/
theorem pull_rule {S : List β} {I : List β → σ → Prop} {Q : List β → ρ → Prop}
    (hturn : ∀ got s bs, got ++ bs <+: S → bs ≠ [] → bs.length ≤ want s → I got s →
      Sum.elim (I (got ++ bs)) (Q (got ++ bs)) (turn s bs))
    {got : List β} {s : σ} {segments : List (List β)} (hstream : S = got ++ segments.flatten)
    (hs : I got s) :
    ∃ got', got <+: got' ∧ Pulled want S I Q got' (pull want turn s segments) := by
  have hturn' : ∀ got s segments bs left, S = got ++ segments.flatten →
      recv (want s) segments = some (bs, left) → I got s →
      Sum.elim (I (got ++ bs)) (Q (got ++ bs)) (turn s bs) := by
    intro got s segments bs left hS hrecv hs
    obtain ⟨hne, hlen, hsegments⟩ := recv_eq_some hrecv
    rw [hsegments, ← List.append_assoc] at hS
    exact hturn got s bs ⟨_, hS.symm⟩ hne hlen hs
  obtain ⟨got', hgot, hS, hresult, hclosed⟩ :=
    pull_rule_recv (I := fun got _ s => I got s) hturn' hstream hs
  exact ⟨got', hgot, hS, hresult, fun s h => ⟨(hclosed s h).1.choose_spec, (hclosed s h).2⟩⟩

/-- The loop rule for a stream that has arrived as a whole: a read is as long
as it can be. -/
theorem pull_rule_whole {S : List β} {I : List β → σ → Prop} {Q : List β → ρ → Prop}
    (hturn : ∀ got s bs, got ++ bs <+: S → bs.length ≤ want s →
      (bs.length = want s ∨ got ++ bs = S) → I got s →
      Sum.elim (I (got ++ bs)) (Q (got ++ bs)) (turn s bs))
    {s : σ} (hs : I [] s) :
    ∃ got, Pulled want S I Q got (pull want turn s [S]) := by
  have hturn' : ∀ got s segments bs left, S = got ++ segments.flatten →
      recv (want s) segments = some (bs, left) → (segments.length = 1 ∧ I got s) →
      Sum.elim (fun s => left.length = 1 ∧ I (got ++ bs) s) (Q (got ++ bs)) (turn s bs) := by
    rintro got s segments bs left hS hrecv ⟨hone, hs⟩
    obtain ⟨tail, rfl⟩ := List.length_eq_one_iff.mp hone
    obtain ⟨hbs, rfl⟩ := recv_singleton hrecv
    rw [List.flatten_singleton] at hS
    have hle : bs.length ≤ want s := hbs ▸ List.length_take_le _ _
    have hfront : got ++ bs <+: S := by
      rw [hS, hbs]
      exact (List.prefix_append_right_inj got).mpr (List.take_prefix _ tail)
    have hfull : bs.length = want s ∨ got ++ bs = S := by
      rcases Nat.le_total (want s) tail.length with hle | hle
      · exact .inl (hbs ▸ List.length_take_of_le hle)
      · exact .inr (by rw [hbs, List.take_of_length_le hle, hS])
    have hstep := hturn got s bs hfront hle hfull hs
    cases hs' : turn s bs with
    | inl s' =>
        rw [hs'] at hstep
        exact ⟨rfl, hstep⟩
    | inr r =>
        rw [hs'] at hstep
        exact hstep
  have hstream : S = [] ++ [S].flatten := by rw [List.flatten_singleton, List.nil_append]
  obtain ⟨got, -, hS, hresult, hclosed⟩ :=
    pull_rule_recv (I := fun got left s => left.length = 1 ∧ I got s) hturn' hstream ⟨rfl, hs⟩
  exact ⟨got, hS, hresult, fun s h => ⟨(hclosed s h).1.choose_spec.2, (hclosed s h).2⟩⟩

/-- A loop that has a result does not read on. -/
theorem pull_append {s : σ} {r : ρ} {segments left : List (List β)}
    (h : pull want turn s segments = (.inr r, left)) (more : List (List β)) :
    pull want turn s (segments ++ more) = (.inr r, left ++ more) := by
  induction hn : segments.flatten.length using Nat.strong_induction_on generalizing s segments with
  | _ n ih =>
      cases hrecv : recv (want s) segments with
      | none =>
          rw [pull_of_none hrecv] at h
          cases h
      | some q =>
          obtain ⟨bs, segments'⟩ := q
          have hrecv' := recv_append hrecv more
          cases hs : turn s bs with
          | inl s' =>
              rw [pull_of_inl hrecv hs] at h
              rw [pull_of_inl hrecv' hs]
              exact ih _ (hn ▸ recv_lt hrecv) h rfl
          | inr r' =>
              rw [pull_of_inr hrecv hs] at h
              obtain ⟨hr, rfl⟩ := Prod.mk.inj h
              rw [pull_of_inr hrecv' hs, hr]

/-- Loops whose turns agree on the states that occur. -/
theorem pull_congr {turn' : σ → List β → σ ⊕ ρ} {I : σ → Prop}
    (hturn : ∀ s bs, I s → turn s bs = turn' s bs)
    (hkeeps : ∀ s bs s', I s → turn s bs = .inl s' → I s') {s : σ} (hs : I s)
    (segments : List (List β)) : pull want turn s segments = pull want turn' s segments := by
  induction hn : segments.flatten.length using Nat.strong_induction_on generalizing s segments with
  | _ n ih =>
      cases hrecv : recv (want s) segments with
      | none => rw [pull_of_none hrecv, pull_of_none hrecv]
      | some q =>
          obtain ⟨bs, left⟩ := q
          have hagree := hturn s bs hs
          cases hs' : turn s bs with
          | inl s' =>
              rw [pull_of_inl hrecv hs', pull_of_inl hrecv (hagree.symm.trans hs')]
              exact ih _ (hn ▸ recv_lt hrecv) (hkeeps s bs s' hs hs') left rfl
          | inr r => rw [pull_of_inr hrecv hs', pull_of_inr hrecv (hagree.symm.trans hs')]

end

end Incremental
