import PicoHttpParser.Lib.Keeps

/-!
Readers that give up early.

`Cut R l p q buf pos` compares two readers at one place, when `l` has been
published before: `p` reads what `q` reads, or it fails and what it has
published by then is related by `R` to what `q` publishes in all. Sequences of
the same readers pass such a comparison on to the part they differ in, and two
iterations are compared turn by turn, under an invariant of the shorter one.
-/

namespace Incremental

namespace Reader

variable {β ω α γ ι : Type}

/-- At `pos` the reader `p` reads what `q` reads, or gives up before. -/
def Cut (R : List ω → List ω → Prop) (l : List ω) (p q : Reader β ω α) (buf : List β)
    (pos : ℕ) : Prop :=
  p.read buf pos = q.read buf pos ∨
    ∃ l', p.read buf pos = (.fail, l') ∧ R (l ++ l') (l ++ (q.read buf pos).2)

namespace Cut

variable {R : List ω → List ω → Prop} {l : List ω} {buf : List β} {pos : ℕ}

theorem refl (p : Reader β ω α) : Cut R l p p buf pos := .inl rfl

section

variable {p : Reader β ω α} {f g : α → Reader β ω γ} {k : ℕ}

/-- The same first part. -/
theorem bind (hp : Reads k p) (hpos : pos ≤ buf.length)
    (h : ∀ a q l', q ≤ buf.length → p.read buf pos = (.done (a, q), l') →
      Cut R (l ++ l') (f a) (g a) buf q) : Cut R l (p >>= f) (p >>= g) buf pos := by
  unfold Cut
  obtain ⟨a, q, l₁, hread⟩ | ⟨l₁, hread⟩ | ⟨l₁, hread⟩ := cases_read p buf pos
  · simp only [read_bind, hread]
    rcases h a q l₁ (hp.le_length hpos hread) hread with heq | ⟨l₂, hfail, hR⟩
    · exact .inl (by rw [heq])
    · refine .inr ⟨l₁ ++ l₂, by rw [hfail], ?_⟩
      rwa [← List.append_assoc, ← List.append_assoc]
  · simp only [read_bind, hread]
    exact .inl trivial
  · simp only [read_bind, hread]
    exact .inl trivial

theorem bind_silent (hp : Reads k p) (hs : Silent p) (hpos : pos ≤ buf.length)
    (h : ∀ a q, q ≤ buf.length → Cut R l (f a) (g a) buf q) :
    Cut R l (p >>= f) (p >>= g) buf pos := by
  refine bind hp hpos fun a q l' hq hread => ?_
  obtain rfl : l' = [] := by
    have hnil := hs.nil buf pos
    rwa [hread] at hnil
  rw [List.append_nil]
  exact h a q hq

end

theorem bind_emit {e : ω} {f g : Unit → Reader β ω γ}
    (h : Cut R (l ++ [e]) (f ()) (g ()) buf pos) :
    Cut R l (emit e >>= f) (emit e >>= g) buf pos := by
  unfold Cut at h ⊢
  simp only [read_bind, read_emit]
  rcases h with heq | ⟨l', hfail, hR⟩
  · exact .inl (by rw [heq])
  · refine .inr ⟨[e] ++ l', by rw [hfail], ?_⟩
    rwa [← List.append_assoc, ← List.append_assoc]

/-- Under other events, behind `l`. -/
theorem mapEvents {ω' : Type} {e : ω → ω'} {R' : List ω' → List ω' → Prop} {l : List ω'}
    {p q : Reader β ω α} (h : Cut R [] p q buf pos)
    (hR : ∀ l₁ l₂, R l₁ l₂ → R' (l ++ l₁.map e) (l ++ l₂.map e)) :
    Cut R' l (Reader.mapEvents e p) (Reader.mapEvents e q) buf pos := by
  rcases h with heq | ⟨l', hfail, h⟩
  · exact .inl (congrArg (fun r => (r.1, r.2.map e)) heq)
  · exact .inr ⟨l'.map e, congrArg (fun r => (r.1, r.2.map e)) hfail, hR _ _ h⟩

/-- Two iterations whose turns compare, wherever the turns of the first one
keep to the invariant. What `R` relates it relates when the second list gets
longer. -/
theorem iterate {f g : ι → Reader β ω (ι ⊕ α)} (hf : ∀ i, Consumes (f i))
    (hg : ∀ i, Consumes (g i)) {I : ι → ℕ → List ω → Prop} {Q : α → ℕ → List ω → Prop}
    {S : List ω → Prop} (hkeeps : ∀ i, Keeps buf (I i) (f i) (After I Q) S)
    (hR : ∀ l₁ l₂ l₃, R l₁ l₂ → R l₁ (l₂ ++ l₃))
    (hturn : ∀ i pos l, pos ≤ buf.length → I i pos l → Cut R l (f i) (g i) buf pos)
    (i : ι) (hpos : pos ≤ buf.length) (hI : I i pos l) :
    Cut R l (Reader.iterate f i) (Reader.iterate g i) buf pos := by
  refine iterateFrom_induction hf (P := fun i pos => ∀ l, I i pos l →
    Cut R l (Reader.iterate f i) (Reader.iterate g i) buf pos) ?_ ?_ ?_ ?_ i pos hpos l hI
  · intro i pos a q l' hpos h l hI
    rcases hturn i pos l hpos hI with heq | ⟨l₁, hfail, -⟩
    · exact .inl ((iterateFrom_of_inr h).trans (iterateFrom_of_inr (heq.symm.trans h)).symm)
    · rw [h] at hfail
      cases hfail
  · intro i pos i' q l' hpos h hlt hlen ih l hI
    have hmeets := (hkeeps i).meets hpos hI
    rw [h] at hmeets
    rcases hturn i pos l hpos hI with heq | ⟨l₁, hfail, -⟩
    · have hp : (Reader.iterate f i).read buf pos = _ := iterateFrom_of_inl h hlt hlen
      have hq : (Reader.iterate g i).read buf pos = _ :=
        iterateFrom_of_inl (heq.symm.trans h) hlt hlen
      unfold Cut
      rw [hp, hq]
      rcases ih (l ++ l') hmeets.2 with heq' | ⟨l₂, hfail', hR'⟩
      · exact .inl (congrArg (fun r => (r.1, l' ++ r.2)) heq')
      · refine .inr ⟨l' ++ l₂, congrArg (fun r => (r.1, l' ++ r.2)) hfail', ?_⟩
        rwa [← List.append_assoc, ← List.append_assoc]
    · rw [h] at hfail
      cases hfail
  · intro i pos l' hpos h l hI
    rcases hturn i pos l hpos hI with heq | ⟨l₁, hfail, -⟩
    · exact .inl ((iterateFrom_of_more h).trans (iterateFrom_of_more (heq.symm.trans h)).symm)
    · rw [h] at hfail
      cases hfail
  · intro i pos l' hpos h l hI
    rcases hturn i pos l hpos hI with heq | ⟨l₁, hfail, hrel⟩
    · exact .inl ((iterateFrom_of_fail h).trans (iterateFrom_of_fail (heq.symm.trans h)).symm)
    · refine .inr ⟨l₁, iterateFrom_of_fail hfail, ?_⟩
      -- the turn of the second one publishes at least as much as is compared
      obtain ⟨l₂, hl₂⟩ : ((g i).read buf pos).2 <+: ((Reader.iterate g i).read buf pos).2 := by
        rw [read_iterate hg i hpos]
        exact Reads.events_prefix_bind _ _ buf pos
      rw [← hl₂, ← List.append_assoc]
      exact hR _ _ _ hrel

end Cut

end Reader

end Incremental
