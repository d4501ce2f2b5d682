import Mathlib.Data.List.Nodup

/-!
Read loops.

A read loop calls a parser again each time more input has arrived, until the
parser does not wait for more. Each call is told how long the input was at
the call before. A parser may use this to save work, and then it is not
obvious that the loop ends as a single call on all of the input does. It
does when every call that is reached does, and `faithful_iff` says which
calls these are.
-/

namespace Incremental

variable {β ρ : Type}

/-- Read boundaries on an input: strictly increasing, and not empty reads. -/
structure Boundaries (s : List β) (cuts : List ℕ) : Prop where
  increasing : (0 :: cuts).Pairwise (· < ·)
  le_length : ∀ k ∈ cuts, k ≤ s.length

/-- The calls a read loop makes, one for each boundary, with what each call
answers. The loop ends at a call that does not wait. -/
def readLoop (call : List β → ℕ → ρ) (waits : ρ → Bool) (s : List β) (lastLen : ℕ) :
    List ℕ → List (ℕ × ρ)
  | [] => []
  | k :: cuts =>
    (k, call (s.take k) lastLen) ::
      if waits (call (s.take k) lastLen) then readLoop call waits s k cuts else []

/-- A message of length `n` is awaited, and is answered with `cold` by the
first call that sees all of it. -/
structure Faithful (n : ℕ) (cold : ρ) (waits : ρ → Bool) (cuts : List ℕ)
    (calls : List (ℕ × ρ)) : Prop where
  before : ∀ c ∈ calls, c.1 < n → waits c.2
  first : ∀ k, cuts.find? (n ≤ ·) = some k → (k, cold) ∈ calls

section

variable {call : List β → ℕ → ρ} {waits : ρ → Bool} {s : List β}

/-- The calls of a loop are calls with the boundary before as a hint. -/
theorem mem_readLoop {lastLen : ℕ} {cuts : List ℕ} {c : ℕ × ρ}
    (h : c ∈ readLoop call waits s lastLen cuts) :
    ∃ j, (j, c.1) ∈ (lastLen :: cuts).zip cuts ∧ c.2 = call (s.take c.1) j := by
  induction cuts generalizing lastLen with
  | nil => cases h
  | cons k cuts ih =>
      rcases List.mem_cons.mp h with rfl | h
      · exact ⟨lastLen, List.mem_cons_self, rfl⟩
      · split at h
        · obtain ⟨j, hj, hc⟩ := ih h
          exact ⟨j, List.mem_cons_of_mem _ hj, hc⟩
        · cases h

/-- A hint is smaller than the boundary of its call. -/
theorem lt_of_mem_zip {lastLen : ℕ} {cuts : List ℕ} (h : (lastLen :: cuts).Pairwise (· < ·))
    {j k : ℕ} (hjk : (j, k) ∈ (lastLen :: cuts).zip cuts) : j < k ∧ k ∈ cuts := by
  induction cuts generalizing lastLen with
  | nil => cases hjk
  | cons c cuts ih =>
      obtain ⟨hlt, htail⟩ := List.pairwise_cons.mp h
      rcases List.mem_cons.mp hjk with heq | hjk
      · obtain ⟨rfl, rfl⟩ := Prod.mk.inj heq
        exact ⟨hlt _ List.mem_cons_self, List.mem_cons_self⟩
      · obtain ⟨hlt, hmem⟩ := ih htail hjk
        exact ⟨hlt, List.mem_cons_of_mem _ hmem⟩

/-- A hint does not exceed what its call sees. -/
theorem hint_le {cuts : List ℕ} (hcuts : Boundaries s cuts) {j k : ℕ}
    (hjk : (j, k) ∈ (0 :: cuts).zip cuts) : j ≤ (s.take k).length := by
  obtain ⟨hlt, hk⟩ := lt_of_mem_zip hcuts.increasing hjk
  have hlen := hcuts.le_length k hk
  rw [List.length_take]
  omega

theorem find?_pair {n lastLen : ℕ} {cuts : List ℕ} (h : (lastLen :: cuts).Pairwise (· < ·))
    {j k : ℕ} (hjk : (j, k) ∈ (lastLen :: cuts).zip cuts) (hj : j < n) (hk : n ≤ k) :
    cuts.find? (n ≤ ·) = some k := by
  induction cuts generalizing lastLen with
  | nil => cases hjk
  | cons c cuts ih =>
      obtain ⟨hlt, htail⟩ := List.pairwise_cons.mp h
      rcases List.mem_cons.mp hjk with heq | hjk
      · obtain ⟨rfl, rfl⟩ := Prod.mk.inj heq
        exact List.find?_cons_of_pos (by simpa using hk)
      · -- the boundary in front is not beyond the hint
        have hc : c ≤ j := by
          cases cuts with
          | nil => cases hjk
          | cons d cuts =>
              rcases List.mem_cons.mp hjk with heq | hjk'
              · exact Nat.le_of_eq (Prod.mk.inj heq).1.symm
              · have hmem := (List.of_mem_zip hjk').1
                exact Nat.le_of_lt ((List.pairwise_cons.mp htail).1 j hmem)
        rw [List.find?_cons_of_neg (by simp only [decide_eq_true_eq]; omega)]
        exact ih htail hjk

/-- The first call that sees all of a message is reached when the calls
before it wait. -/
theorem first_mem_readLoop {n lastLen : ℕ} {cuts : List ℕ} (hlast : lastLen < n)
    (hbefore : ∀ j k, (j, k) ∈ (lastLen :: cuts).zip cuts → k < n → waits (call (s.take k) j))
    {k : ℕ} (hk : cuts.find? (n ≤ ·) = some k) :
    ∃ j, (j, k) ∈ (lastLen :: cuts).zip cuts ∧ j < n ∧ n ≤ k ∧
      (k, call (s.take k) j) ∈ readLoop call waits s lastLen cuts := by
  induction cuts generalizing lastLen with
  | nil => cases hk
  | cons c cuts ih =>
      rcases Nat.lt_or_ge c n with hc | hc
      · rw [List.find?_cons_of_neg (by simpa using hc)] at hk
        have hwaits := hbefore lastLen c List.mem_cons_self hc
        obtain ⟨j, hmem, hj, hn, hloop⟩ :=
          ih hc (fun j k hjk => hbefore j k (List.mem_cons_of_mem _ hjk)) hk
        refine ⟨j, List.mem_cons_of_mem _ hmem, hj, hn, List.mem_cons_of_mem _ ?_⟩
        rwa [if_pos hwaits]
      · rw [List.find?_cons_of_pos (by simpa using hc)] at hk
        obtain rfl := Option.some.inj hk
        exact ⟨lastLen, List.mem_cons_self, hlast, hc, List.mem_cons_self⟩

/-- A loop whose calls wait for the whole message is faithful exactly when
the first call that sees it answers like the cold one. -/
theorem faithful_iff {n : ℕ} {cold : ρ} {cuts : List ℕ} (hn : 0 < n) (hcuts : Boundaries s cuts)
    (hbefore : ∀ j k, (j, k) ∈ (0 :: cuts).zip cuts → k < n → waits (call (s.take k) j)) :
    Faithful n cold waits cuts (readLoop call waits s 0 cuts) ↔
      ∀ j k, (j, k) ∈ (0 :: cuts).zip cuts → j < n → n ≤ k → call (s.take k) j = cold := by
  constructor
  · intro h j k hjk hj hk
    have hfind := find?_pair hcuts.increasing hjk hj hk
    obtain ⟨j', hmem, hcold⟩ := mem_readLoop (h.first k hfind)
    dsimp only at hmem hcold
    rw [hcold]
    -- no two calls have the same boundary
    have hnodup : (((0 :: cuts).zip cuts).map Prod.snd).Nodup := by
      rw [List.map_snd_zip (by simp)]
      exact (List.pairwise_cons.mp hcuts.increasing).2.imp Nat.ne_of_lt
    have hinj := List.inj_on_of_nodup_map hnodup hjk hmem rfl
    rw [(Prod.mk.inj hinj).1]
  · intro h
    refine ⟨fun c hc hlt => ?_, fun k hk => ?_⟩
    · obtain ⟨j, hj, heq⟩ := mem_readLoop hc
      rw [heq]
      exact hbefore j c.1 hj hlt
    · obtain ⟨j, hjk, hj, hk', hmem⟩ := first_mem_readLoop hn hbefore hk
      rwa [h j k hjk hj hk'] at hmem

/-! ### How often a loop does something -/

/-- A call that does not wait is the last one. -/
theorem length_filter_not_waits (lastLen : ℕ) (cuts : List ℕ) :
    ((readLoop call waits s lastLen cuts).filter fun c => !waits c.2).length ≤ 1 := by
  induction cuts generalizing lastLen with
  | nil => exact Nat.zero_le 1
  | cons k cuts ih =>
      rw [readLoop]
      cases h : waits (call (s.take k) lastLen) with
      | true =>
          rw [List.filter_cons_of_neg (by simp [h]), if_pos rfl]
          exact ih k
      | false =>
          rw [if_neg Bool.false_ne_true]
          exact List.length_filter_le _ _

/-- The first call adds one call at most. -/
theorem length_filter_readLoop_cons (f : ℕ × ρ → Bool) (lastLen k : ℕ) (cuts : List ℕ) :
    ((readLoop call waits s lastLen (k :: cuts)).filter f).length ≤
      ((readLoop call waits s k cuts).filter f).length + 1 := by
  have hrest : List.Sublist
      (if waits (call (s.take k) lastLen) then readLoop call waits s k cuts else [])
      (readLoop call waits s k cuts) := by
    split
    · exact List.Sublist.refl _
    · exact List.nil_sublist _
  have hlen := (hrest.filter f).length_le
  rw [readLoop, List.filter_cons]
  split
  · rw [List.length_cons]
    omega
  · omega

theorem readLoop_increasing {lastLen : ℕ} {cuts : List ℕ}
    (h : (lastLen :: cuts).Pairwise (· < ·)) :
    ((readLoop call waits s lastLen cuts).map Prod.fst).Pairwise (· < ·) := by
  have hfront : (readLoop call waits s lastLen cuts).map Prod.fst <+: cuts := by
    clear h
    induction cuts generalizing lastLen with
    | nil => exact List.prefix_rfl
    | cons k cuts ih =>
        rw [readLoop, List.map_cons, List.prefix_cons_inj]
        split
        · exact ih
        · exact List.nil_prefix
  exact (List.pairwise_cons.mp h).2.sublist hfront.sublist

/-- Increasing numbers that are close to each other are few. -/
theorem length_le_of_close {l : List ℕ} (h : l.Pairwise (· < ·)) {r : ℕ}
    (hclose : ∀ a ∈ l, ∀ b ∈ l, a ≤ b → b < a + r) : l.length ≤ r := by
  have hfew : ∀ (l : List ℕ) (a b : ℕ), l.Pairwise (· < ·) → (∀ k ∈ l, a ≤ k ∧ k < b) →
      l.length ≤ b - a := by
    intro l
    induction l with
    | nil => exact fun _ _ _ _ => Nat.zero_le _
    | cons k l ih =>
        intro a b hl hk
        obtain ⟨hlt, hl⟩ := List.pairwise_cons.mp hl
        obtain ⟨hak, hkb⟩ := hk k List.mem_cons_self
        have hlen := ih (k + 1) b hl fun k' hk' =>
          ⟨hlt k' hk', (hk k' (List.mem_cons_of_mem _ hk')).2⟩
        rw [List.length_cons]
        omega
  cases l with
  | nil => exact Nat.zero_le r
  | cons a l =>
      have hfirst : ∀ k ∈ a :: l, a ≤ k := by
        intro k hk
        rcases List.mem_cons.mp hk with rfl | hk
        · exact Nat.le_refl _
        · exact Nat.le_of_lt ((List.pairwise_cons.mp h).1 k hk)
      have hlen := hfew (a :: l) a (a + r) h fun k hk =>
        ⟨hfirst k hk, hclose a List.mem_cons_self k hk (hfirst k hk)⟩
      omega

/-- Calls of one kind are few when those that wait are close to each other. -/
theorem length_filter_readLoop {lastLen : ℕ} {cuts : List ℕ}
    (h : (lastLen :: cuts).Pairwise (· < ·)) {f : ρ → Bool} {r : ℕ}
    (hclose : ∀ c ∈ readLoop call waits s lastLen cuts, f c.2 → waits c.2 →
      ∀ c' ∈ readLoop call waits s lastLen cuts, f c'.2 → waits c'.2 → c.1 ≤ c'.1 →
        c'.1 < c.1 + r) :
    ((readLoop call waits s lastLen cuts).filter fun c => f c.2).length ≤ r + 1 := by
  have hincreasing : ((readLoop call waits s lastLen cuts).map Prod.fst).Pairwise (· < ·) :=
    readLoop_increasing h
  have hlast : ((readLoop call waits s lastLen cuts).filter fun c => !waits c.2).length ≤ 1 :=
    length_filter_not_waits lastLen cuts
  generalize readLoop call waits s lastLen cuts = calls at hclose hincreasing hlast ⊢
  have hwaiting : ((calls.filter fun c => f c.2).filter fun c => waits c.2).length ≤ r := by
    rw [← List.length_map Prod.fst]
    refine length_le_of_close (hincreasing.sublist
      ((List.filter_sublist.trans List.filter_sublist).map Prod.fst)) ?_
    simp only [List.mem_map, List.mem_filter]
    rintro _ ⟨c, ⟨⟨hc, hf⟩, hw⟩, rfl⟩ _ ⟨c', ⟨⟨hc', hf'⟩, hw'⟩, rfl⟩
    exact hclose c hc hf hw c' hc' hf' hw'
  have hended : ((calls.filter fun c => f c.2).filter fun c => !waits c.2).length ≤ 1 := by
    exact Nat.le_trans (List.filter_sublist.filter _).length_le hlast
  rw [List.length_eq_length_filter_add fun c => waits c.2]
  omega

end

end Incremental
