import PicoHttpParser.Head.Calls

/-!
The pre-check on growing input.

The pre-check looks for two line ends in a row, starting three bytes before
the end of what an earlier call has seen. It knows nothing of the grammar of
a head. That it does no harm rests on two facts about a head that is
accepted: each CR in it is followed by LF, so the pre-check never gives up on
a part of it, and it ends in two line ends, so the pre-check is content with
the whole of it, from wherever it starts.
-/

namespace PicoHttpParser.Head

open Incremental Incremental.Reader

/-- In `[i, j)` each CR is followed by LF. -/
structure Paired (buf : List UInt8) (i j : ℕ) : Prop where
  le : i ≤ j
  lf : ∀ p, i ≤ p → p < j → buf[p]? = some CR → p + 1 < j ∧ buf[p + 1]? = some LF

/-- A line end, LF or CRLF, from `p` to `q`. -/
def LineEnd (buf : List UInt8) (p q : ℕ) : Prop :=
  buf[p]? = some LF ∧ q = p + 1 ∨ buf[p]? = some CR ∧ buf[p + 1]? = some LF ∧ q = p + 2

/-- Two line ends in a row, up to `n`. -/
def EndsBlank (buf : List UInt8) (n : ℕ) : Prop := ∃ d e, LineEnd buf d e ∧ LineEnd buf e n

/-- Two line ends in a row, up to which each CR is followed by LF. -/
def HasBlank (buf : List UInt8) : Prop := ∃ n, EndsBlank buf n ∧ Paired buf 0 n

theorem LineEnd.lt {buf : List UInt8} {p q : ℕ} (h : LineEnd buf p q) : p < q ∧ q ≤ p + 2 := by
  rcases h with ⟨-, rfl⟩ | ⟨-, -, rfl⟩ <;> omega

theorem LineEnd.le_length {buf : List UInt8} {p q : ℕ} (h : LineEnd buf p q) :
    q ≤ buf.length := by
  rcases h with ⟨h, rfl⟩ | ⟨-, h, rfl⟩
  · exact (List.getElem?_eq_some_iff.mp h).1
  · exact (List.getElem?_eq_some_iff.mp h).1

namespace Paired

variable {buf : List UInt8} {i j k : ℕ}

theorem refl (i : ℕ) : Paired buf i i :=
  ⟨le_rfl, fun _ hle hlt _ => absurd hlt (Nat.not_lt.mpr hle)⟩

theorem trans (hij : Paired buf i j) (hjk : Paired buf j k) : Paired buf i k where
  le := hij.le.trans hjk.le
  lf p hip hpk hcr := by
    rcases Nat.lt_or_ge p j with hpj | hpj
    · obtain ⟨hlt, hlf⟩ := hij.lf p hip hpj hcr
      exact ⟨hlt.trans_le hjk.le, hlf⟩
    · exact hjk.lf p hpj hpk hcr

/-- A stretch without CR. -/
theorem of_ne (hle : i ≤ j) (h : ∀ p, i ≤ p → p < j → ∃ b, buf[p]? = some b ∧ b ≠ CR) :
    Paired buf i j where
  le := hle
  lf p hip hpj hcr := by
    obtain ⟨b, hb, hne⟩ := h p hip hpj
    rw [hb] at hcr
    exact absurd (Option.some.inj hcr) hne

theorem byte {b : UInt8} (hb : buf[i]? = some b) (hne : b ≠ CR) : Paired buf i (i + 1) := by
  apply of_ne (Nat.le_succ i)
  intro p hip hpj
  obtain rfl : p = i := by omega
  exact ⟨b, hb, hne⟩

theorem lineEnd (h : LineEnd buf i j) : Paired buf i j where
  le := h.lt.1.le
  lf p hip hpj hcr := by
    rcases h with ⟨hlf, rfl⟩ | ⟨-, hlf, rfl⟩
    · obtain rfl : p = i := by omega
      rw [hlf] at hcr
      exact absurd (Option.some.inj hcr) (by decide)
    · rcases Nat.eq_or_lt_of_le hip with rfl | hlt
      · exact ⟨by omega, hlf⟩
      · obtain rfl : p = i + 1 := by omega
        rw [hlf] at hcr
        exact absurd (Option.some.inj hcr) (by decide)

/-- A scan that does not step over CR. -/
theorem scan {f : UInt8 → Act} (hf : f CR ≠ .skip) {u : Unit}
    (h : scanFrom f buf i = .done (u, j)) : Paired buf i j := by
  apply of_ne (scanFrom_done h).1
  intro p hip hpj
  obtain ⟨b, hb, hskip⟩ := scanFrom_skip h hip hpj
  refine ⟨b, hb, ?_⟩
  rintro rfl
  exact hf hskip

end Paired

/-! ### The pre-check -/

section

variable {buf : List UInt8}

/-- One turn at a line end. -/
theorem completeTurn_lineEnd {p q : ℕ} (h : LineEnd buf p q) (cnt : ℕ) :
    (completeTurn cnt : Reader UInt8 Empty (ℕ ⊕ Unit)).read buf p =
      (.done (if cnt + 1 = 2 then .inr () else .inl (cnt + 1), q), []) := by
  rcases h with ⟨hlf, rfl⟩ | ⟨hcr, hlf, rfl⟩
  · simp only [completeTurn, read_bind, read_next_some hlf, show ¬LF = CR by decide, if_true,
      if_false, read_pure, List.append_nil]
  · simp only [completeTurn, read_bind, read_next_some hcr, if_true, read_next_some hlf,
      read_pure, List.append_nil]

theorem completeTurn_byte {p : ℕ} {b : UInt8} (hb : buf[p]? = some b) (hcr : b ≠ CR)
    (hlf : b ≠ LF) (cnt : ℕ) :
    (completeTurn cnt : Reader UInt8 Empty (ℕ ⊕ Unit)).read buf p =
      (.done (.inl 0, p + 1), []) := by
  simp only [completeTurn, read_bind, read_next_some hb, hcr, hlf, if_false, read_pure,
    List.append_nil]

/-- A turn at a CR or LF that is part of a line end. -/
theorem lineEnd_of_paired {n p : ℕ} (hpair : Paired buf 0 n) (hpn : p < n) {b : UInt8}
    (hb : buf[p]? = some b) (h : b = CR ∨ b = LF) : ∃ q, LineEnd buf p q ∧ q ≤ n := by
  rcases h with rfl | rfl
  · obtain ⟨hlt, hlf⟩ := hpair.lf p (Nat.zero_le p) hpn hb
    exact ⟨p + 2, .inr ⟨hb, hlf, rfl⟩, hlt⟩
  · exact ⟨p + 1, .inl ⟨hb, rfl⟩, hpn⟩

/-- Behind a line end that starts in front of another one. -/
theorem LineEnd.next_le {p q d e : ℕ} (hpq : LineEnd buf p q) (hde : LineEnd buf d e)
    (hlt : p < d) : q ≤ d ∨ q = e := by
  rcases hpq with ⟨-, rfl⟩ | ⟨-, hlf, rfl⟩
  · exact .inl hlt
  rcases Nat.lt_or_ge (p + 1) d with h | h
  · exact .inl h
  -- the other one is the LF of this CRLF
  obtain rfl : d = p + 1 := by omega
  rcases hde with ⟨-, rfl⟩ | ⟨hcr, -, -⟩
  · exact .inr rfl
  · rw [hlf] at hcr
    exact absurd (Option.some.inj hcr) (by decide)

/-- The pre-check finds the two line ends a head ends in, or earlier ones. -/
theorem complete_done {n d e : ℕ} (hpair : Paired buf 0 n) (hde : LineEnd buf d e)
    (hen : LineEnd buf e n) {p : ℕ} (hp : p ≤ d) :
    ∃ r, ((complete : Reader UInt8 Empty Unit).read buf p).1 = .done r := by
  have hd := hde.lt
  have he := hen.lt
  have hlen := hen.le_length
  -- in front of the two line ends, or between them with the first counted
  suffices key : ∀ cnt p, cnt = 0 ∧ p ≤ d ∨ cnt = 1 ∧ (p ≤ d ∨ p = e) →
      ∃ r, (iterateFrom (completeTurn : ℕ → Reader UInt8 Empty _) cnt buf p).1 = .done r from
    key 0 p (.inl ⟨rfl, hp⟩)
  intro cnt p hinv
  induction hm : n - p using Nat.strong_induction_on generalizing cnt p with
  | _ m ih =>
      have hlineEnd (q : ℕ) (hpq : LineEnd buf p q) (hq : cnt = 0 → q ≤ d ∨ q = e) :
          ∃ r, (iterateFrom (completeTurn : ℕ → Reader UInt8 Empty _) cnt buf p).1 = .done r := by
        have hturn := completeTurn_lineEnd hpq cnt
        have hlt := hpq.lt.1
        rcases hinv with ⟨rfl, -⟩ | ⟨rfl, -⟩
        · have hq' := hq rfl
          rw [iterateFrom_of_inl hturn hlt hpq.le_length]
          exact ih (n - q) (by omega) 1 q (.inr ⟨rfl, hq'⟩) rfl
        · rw [iterateFrom_of_inr hturn]
          exact ⟨_, rfl⟩
      rcases Nat.lt_trichotomy p d with hlt | rfl | hgt
      · have hb : buf[p]? = some buf[p] := List.getElem?_eq_getElem (by omega)
        by_cases hend : buf[p] = CR ∨ buf[p] = LF
        · obtain ⟨q, hpq, -⟩ := lineEnd_of_paired hpair (by omega) hb hend
          exact hlineEnd q hpq fun _ => hpq.next_le hde hlt
        · push Not at hend
          rw [iterateFrom_of_inl (completeTurn_byte hb hend.1 hend.2 cnt) (by omega) (by omega)]
          exact ih (n - (p + 1)) (by omega) 0 (p + 1) (.inl ⟨rfl, hlt⟩) rfl
      · exact hlineEnd e hde fun _ => .inr rfl
      · obtain rfl : p = e := by omega
        exact hlineEnd n hen fun h => by omega

/-- Where it is content it has found two line ends in a row. `cnt` is the
number of those it has counted, which is at most one. -/
theorem blank_of_isCompleteFrom {pos cnt : ℕ} (h : Rust.isCompleteFrom buf pos cnt = .ok ())
    (hle : cnt ≤ 1) (hcnt : cnt = 1 → ∃ d, LineEnd buf d pos) :
    ∃ n, EndsBlank buf n ∧ Paired buf pos n := by
  -- one turn steps over a stretch in which each CR is paired
  have hturn {p q : ℕ} (hpq : Paired buf p q) (hrest : ∃ n, EndsBlank buf n ∧ Paired buf q n) :
      ∃ n, EndsBlank buf n ∧ Paired buf p n := by
    obtain ⟨n, hblank, hpair⟩ := hrest
    exact ⟨n, hblank, hpq.trans hpair⟩
  fun_induction Rust.isCompleteFrom buf pos cnt with
  | case1 | case2 | case5 => cases h
  | case3 pos cnt hb hcr hlf =>
      obtain ⟨d, hd⟩ := hcnt (by omega)
      have hend : LineEnd buf pos (pos + 2) := .inr ⟨hcr, hlf, rfl⟩
      exact ⟨pos + 2, ⟨d, pos, hd, hend⟩, .lineEnd hend⟩
  | case4 pos cnt hb hcr hlf ih =>
      have hend : LineEnd buf pos (pos + 2) := .inr ⟨hcr, hlf, rfl⟩
      exact hturn (.lineEnd hend) (ih h (by omega) fun _ => ⟨pos, hend⟩)
  | case6 pos cnt hb hlf =>
      obtain ⟨d, hd⟩ := hcnt (by omega)
      have hend : LineEnd buf pos (pos + 1) := .inl ⟨hlf, rfl⟩
      exact ⟨pos + 1, ⟨d, pos, hd, hend⟩, .lineEnd hend⟩
  | case7 pos cnt hb hlf _ ih =>
      have hend : LineEnd buf pos (pos + 1) := .inl ⟨hlf, rfl⟩
      exact hturn (.lineEnd hend) (ih h (by omega) fun _ => ⟨pos, hend⟩)
  | case8 pos cnt b hb hcr hlf ih =>
      exact hturn (.byte hb hcr) (ih h (Nat.zero_le 1) fun h => absurd h (by decide))

/-- The pre-check gives up on a CR that something else follows. -/
theorem complete_ne_fail (h : ∀ p, buf[p]? = some CR → buf[p + 1]? = none ∨ buf[p + 1]? = some LF)
    {p : ℕ} (hp : p ≤ buf.length) :
    ((complete : Reader UInt8 Empty Unit).read buf p).1 ≠ .fail := by
  have hbody : ∀ cnt, Consumes (completeTurn cnt : Reader UInt8 Empty _) := consumes_completeTurn
  refine iterateFrom_induction hbody (P := fun cnt p =>
    (iterateFrom (completeTurn : ℕ → Reader UInt8 Empty _) cnt buf p).1 ≠ .fail)
    ?_ ?_ ?_ ?_ 0 p hp
  · intro cnt p u q l _ hturn
    rw [iterateFrom_of_inr hturn]
    exact nofun
  · intro cnt p cnt' q l _ hturn hlt hlen ih
    rwa [iterateFrom_of_inl hturn hlt hlen]
  · intro cnt p l _ hturn
    rw [iterateFrom_of_more hturn]
    exact nofun
  · intro cnt p l _ hturn
    cases hb : buf[p]? with
    | none => simp [completeTurn, read_bind, read_next_none hb] at hturn
    | some b =>
        by_cases hcr : b = CR
        · subst hcr
          rcases h p hb with hc | hc
          · simp [completeTurn, read_bind, read_next_some hb, read_next_none hc] at hturn
          · rw [completeTurn_lineEnd (.inr ⟨hb, hc, rfl⟩)] at hturn
            cases hturn
        · by_cases hlf : b = LF
          · subst hlf
            rw [completeTurn_lineEnd (.inl ⟨hb, rfl⟩)] at hturn
            cases hturn
          · rw [completeTurn_byte hb hcr hlf] at hturn
            cases hturn

end

/-! ### What an accepted head looks like -/

/-- A stretch that ends in a line end. -/
structure Line (buf : List UInt8) (p q : ℕ) : Prop where
  paired : Paired buf p q
  ends : ∃ d, p ≤ d ∧ LineEnd buf d q

theorem Line.of_paired {buf : List UInt8} {i p q : ℕ} (hip : Paired buf i p)
    (h : Line buf p q) : Line buf i q := by
  obtain ⟨d, hpd, hdq⟩ := h.ends
  exact ⟨hip.trans h.paired, d, hip.le.trans hpd, hdq⟩

section

variable {ω : Type} {buf : List UInt8} {pos q : ℕ} {l : List ω}

theorem eol_line {u : Unit} (h : (eol : Reader UInt8 ω Unit).read buf pos = (.done (u, q), l)) :
    Line buf pos q := by
  have hend : LineEnd buf pos q := (eol_done h).2
  exact ⟨.lineEnd hend, pos, le_rfl, hend⟩

theorem text_line {r : ℕ × List UInt8} (h : text.read buf pos = (.done (r, q), l)) :
    Line buf pos q := by
  obtain ⟨s, p, l₁, k₁, hs, h₁, rfl⟩ := bind_eq_done h
  obtain ⟨⟨rfl, rfl⟩, rfl⟩ : (pos = s ∧ pos = p) ∧ [] = l₁ := by simpa using hs
  obtain ⟨⟨c, u⟩, p, l₂, k₂, hc, h₂, rfl⟩ := bind_eq_done h₁
  obtain ⟨u, p', l₃, k₃, he, h₃, rfl⟩ := bind_eq_done h₂
  obtain ⟨⟨-, rfl⟩, -⟩ : (_ ∧ p' = q) ∧ _ := by simpa using h₃
  cases hscan : scanFrom textAct buf pos with
  | more => simp [captured, hscan] at hc
  | fail => simp [captured, hscan] at hc
  | done r =>
      simp only [captured, read_scan, hscan, Prod.mk.injEq, Verdict.done.injEq] at hc
      obtain rfl : r.2 = p := hc.1.2
      exact .of_paired (.scan (by decide) hscan) (eol_line he)

/-- The byte a span ends at, and those a skip steps over. -/
theorem skipPast_paired {f : UInt8 → Act} (hf : f CR ≠ .skip) {u : Unit} {b : UInt8}
    (hb : buf[pos]? = some b) (hne : b ≠ CR)
    (h : (skipPast f : Reader UInt8 ω Unit).read buf pos = (.done (u, q), l)) :
    Paired buf pos q := (Paired.byte hb hne).trans (.scan hf (skipPast_done h).2)

theorem token_paired {stop : UInt8} {v : Span} (hstop : tokenAct stop CR ≠ .skip)
    (h : (token stop : Reader UInt8 ω Span).read buf pos = (.done (v, q), l)) :
    Paired buf pos q ∧ buf[q]? = some stop := by
  obtain ⟨-, -, hscan⟩ := span_done h
  obtain ⟨b, hb, hact⟩ := scanFrom_stop hscan
  refine ⟨.scan hstop hscan, ?_⟩
  rw [hb]
  unfold tokenAct at hact
  split at hact
  · congr
  · split at hact <;> cases hact

theorem target_paired {v : Span}
    (h : (target : Reader UInt8 ω Span).read buf pos = (.done (v, q), l)) :
    Paired buf pos q ∧ buf[q]? = some SP := by
  obtain ⟨-, -, hscan⟩ := span_done h
  obtain ⟨b, hb, hact⟩ := scanFrom_stop hscan
  refine ⟨.scan (by decide) hscan, ?_⟩
  rw [hb]
  unfold targetAct at hact
  split at hact
  · congr
  · split at hact <;> cases hact

theorem emptyLine_paired {u : Unit}
    (h : (emptyLine : Reader UInt8 ω Unit).read buf pos = (.done (u, q), l)) :
    Paired buf pos q := by
  obtain ⟨b, p, l₁, k₁, h₁, h₂, -⟩ := bind_eq_done h
  obtain ⟨-, rfl, -⟩ := peek_eq_done h₁
  split at h₂
  · exact (eol_line h₂).paired
  · obtain ⟨rfl, -⟩ : p = q ∧ [] = k₁ := by simpa using h₂
    exact .refl _

theorem ne_CR_of_digit {b : UInt8} (h : IsDigit b) : b ≠ CR := by
  rintro rfl
  exact absurd h (by decide)

/-- The bytes a window consumes, when none of them is CR. -/
theorem Paired.window {n k : ℕ} (hlen : pos + n ≤ buf.length) (hkn : k ≤ n)
    (h : ∀ i < k, ((buf.drop pos).take n).getD i 0 ≠ CR) : Paired buf pos (pos + k) := by
  apply Paired.of_ne (Nat.le_add_right pos k)
  intro p hp hq
  obtain ⟨i, rfl⟩ := Nat.exists_eq_add_of_le hp
  exact ⟨_, getElem?_window hlen (by omega), h i (by omega)⟩

theorem versionOf_ne_CR {w : List UInt8} {v : Int32} (h : versionOf w = (some v, l)) {i : ℕ}
    (hi : i < 8) : w.getD i 0 ≠ CR := by
  unfold versionOf at h
  split at h
  · rename_i hw
    obtain ⟨hname, hdigit⟩ := hw
    rcases Nat.lt_or_ge i 7 with hlt | hge
    · have hget : w.getD i 0 = (w.take 7).getD i 0 := by
        simp only [List.getD_eq_getElem?_getD, List.getElem?_take_of_lt hlt]
      rw [hget, hname]
      interval_cases i <;> decide
    · obtain rfl : i = 7 := by omega
      exact ne_CR_of_digit hdigit
  · cases h

theorem version_paired {v : Int32}
    (h : (version : Reader UInt8 ω Int32).read buf pos = (.done (v, q), l)) :
    Paired buf pos q := by
  obtain ⟨rfl, hlen, hof⟩ := version_done h
  have hwindow : pos + 9 ≤ buf.length := hlen
  exact .window hwindow (by omega) fun i hi => versionOf_ne_CR hof hi

theorem statusOf_ne_CR {w : List UInt8} {u : Unit} {l : List Int32}
    (h : statusOf w = (some u, l)) {i : ℕ} (hi : i < 3) : w.getD i 0 ≠ CR := by
  unfold statusOf at h
  dsimp only at h
  split_ifs at h with h₀ h₁ h₂
  · interval_cases i
    · exact ne_CR_of_digit h₀
    · exact ne_CR_of_digit h₁
    · exact ne_CR_of_digit h₂
  all_goals cases h

theorem status_paired {u : Unit} {l : List Int32}
    (h : status.read buf pos = (.done (u, q), l)) : Paired buf pos q := by
  by_cases hlen : buf.length < pos + 4
  · simp [status, window, hlen] at h
  rcases hf : statusOf ((buf.drop pos).take 4) with ⟨_ | u', l'⟩
  · simp [status, window, hlen, hf] at h
  simp only [status, window, hlen, if_false, hf, Prod.mk.injEq, Verdict.done.injEq] at h
  obtain ⟨⟨-, rfl⟩, -⟩ := h
  exact .window (Nat.not_lt.mp hlen) (by omega) fun i hi => statusOf_ne_CR hf hi

end

theorem value_line {i : ℕ} {buf : List UInt8} {pos q : ℕ} {u : Unit} {l : List HeaderEvent}
    (h : (value i).read buf pos = (.done (u, q), l)) : Line buf pos q := by
  obtain ⟨r, p, l₁, k₁, h₁, h₂, -⟩ := bind_eq_done h
  obtain rfl : p = q := (Prod.mk.inj (Verdict.done.inj (Prod.mk.inj h₂).1)).2
  exact text_line h₁

theorem header_line {i : ℕ} {b : UInt8} {buf : List UInt8} {pos q : ℕ} {u : Unit}
    {l : List HeaderEvent} (h : (header i b).read buf pos = (.done (u, q), l)) :
    Line buf pos q := by
  unfold header at h
  split at h
  · obtain ⟨u, p, l₁, k₁, h₁, h₂, -⟩ := bind_eq_done h
    obtain ⟨rfl, -⟩ := emit_eq_done h₁
    exact value_line h₂
  · obtain ⟨name, p, l₁, k₁, h₁, h₂, -⟩ := bind_eq_done h
    obtain ⟨hname, hcolon⟩ := token_paired (by decide) h₁
    obtain ⟨u, p', l₂, k₂, h₃, h₄, -⟩ := bind_eq_done h₂
    obtain ⟨rfl, -⟩ := emit_eq_done h₃
    split at h₄
    · cases h₄
    obtain ⟨u, p', l₃, k₃, h₅, h₆, -⟩ := bind_eq_done h₄
    have hblank := skipPast_paired (by decide) hcolon (by decide) h₅
    exact .of_paired (hname.trans hblank) (value_line h₆)

/-- A block that starts at `pos` and is accepted at `n`: lines, the last of
which is empty. -/
structure Framed (buf : List UInt8) (pos n : ℕ) : Prop where
  paired : Paired buf pos n
  blank : ∃ e, LineEnd buf e n ∧ (e = pos ∨ ∃ d, pos ≤ d ∧ LineEnd buf d e)

theorem Framed.of_line {buf : List UInt8} {pos p n : ℕ} (hline : Line buf pos p)
    (h : Framed buf p n) : Framed buf pos n where
  paired := hline.paired.trans h.paired
  blank := by
    obtain ⟨e, hen, rfl | ⟨d, hpd, hde⟩⟩ := h.blank
    · obtain ⟨d, hpd, hde⟩ := hline.ends
      exact ⟨e, hen, .inr ⟨d, hpd, hde⟩⟩
    · exact ⟨e, hen, .inr ⟨d, hline.paired.le.trans hpd, hde⟩⟩

/-- A line in front of a block brings the second line end. -/
theorem Framed.endsBlank {buf : List UInt8} {pos p n : ℕ} (hline : Line buf pos p)
    (h : Framed buf p n) : EndsBlank buf n := by
  obtain ⟨e, hen, rfl | ⟨d, -, hde⟩⟩ := h.blank
  · obtain ⟨d, -, hde⟩ := hline.ends
    exact ⟨d, e, hde, hen⟩
  · exact ⟨d, e, hde, hen⟩

theorem headerTurn_line {cap i : ℕ} {r : ℕ ⊕ Unit} {buf : List UInt8} {pos q : ℕ}
    {l : List HeaderEvent} (h : (headerTurn cap i).read buf pos = (.done (r, q), l)) :
    match r with
    | .inl _ => Line buf pos q
    | .inr _ => Framed buf pos q := by
  obtain ⟨b, p, l₁, k₁, h₁, h₂, -⟩ := bind_eq_done h
  obtain ⟨-, rfl, -⟩ := peek_eq_done h₁
  split at h₂
  · obtain ⟨u, p', l₂, k₂, h₃, h₄, -⟩ := bind_eq_done h₂
    obtain ⟨rfl, rfl⟩ := Prod.mk.inj (Verdict.done.inj (Prod.mk.inj h₄).1)
    have hline := eol_line h₃
    exact ⟨hline.paired, p, (eol_done h₃).2, .inl rfl⟩
  split at h₂
  · cases h₂
  obtain ⟨u, p', l₂, k₂, h₃, h₄, -⟩ := bind_eq_done h₂
  obtain ⟨rfl, rfl⟩ := Prod.mk.inj (Verdict.done.inj (Prod.mk.inj h₄).1)
  exact header_line h₃

theorem headers_framed {cap : ℕ} {buf : List UInt8} {pos n : ℕ} {u : Unit} {l : List HeaderEvent}
    (hpos : pos ≤ buf.length) (h : (headers cap).read buf pos = (.done (u, n), l)) :
    Framed buf pos n := by
  revert l
  show ∀ l, iterateFrom (headerTurn cap) 0 buf pos = (.done (u, n), l) → Framed buf pos n
  refine iterateFrom_induction (consumes_headerTurn cap) (P := fun i pos =>
    ∀ l, iterateFrom (headerTurn cap) i buf pos = (.done (u, n), l) → Framed buf pos n)
    ?_ ?_ ?_ ?_ 0 pos hpos
  · intro i pos a q l' _ hturn l h
    rw [iterateFrom_of_inr hturn] at h
    obtain ⟨-, rfl⟩ := Prod.mk.inj (Verdict.done.inj (Prod.mk.inj h).1)
    exact headerTurn_line hturn
  · intro i pos i' q l' _ hturn hlt hlen ih l h
    rw [iterateFrom_of_inl hturn hlt hlen] at h
    exact .of_line (headerTurn_line hturn) (ih _ (Prod.ext (Prod.mk.inj h).1 rfl))
  · intro i pos l' _ hturn l h
    rw [iterateFrom_of_more hturn] at h
    cases h
  · intro i pos l' _ hturn l h
    rw [iterateFrom_of_fail hturn] at h
    cases h

/-- An accepted head: its CRs are followed by LF, and it ends in two line
ends. -/
structure Headlike (buf : List UInt8) (n : ℕ) : Prop where
  paired : Paired buf 0 n
  blank : EndsBlank buf n

/-- A start line and a header block. -/
theorem headlike_of_line {cap : ℕ} {buf : List UInt8} {p n : ℕ} {u : Unit} {l : List Event}
    (hline : Line buf 0 p)
    (h : (mapEvents Event.header (headers cap)).read buf p = (.done (u, n), l)) :
    Headlike buf n := by
  obtain ⟨d, -, hdp⟩ := hline.ends
  have hframed := headers_framed hdp.le_length (Prod.ext (Prod.mk.inj h).1 rfl)
  exact ⟨hline.paired.trans hframed.paired, hframed.endsBlank hline⟩

theorem request_headlike {cap : ℕ} {buf : List UInt8} {n : ℕ} {u : Unit} {l : List Event}
    (h : (request cap).read buf 0 = (.done (u, n), l)) : Headlike buf n := by
  obtain ⟨u, p₁, l₁, k₁, h₁, h, -⟩ := bind_eq_done h
  obtain ⟨method, p₂, l₂, k₂, h₂, h, -⟩ := bind_eq_done h
  obtain ⟨u, p, l₃, k₃, h₃, h, -⟩ := bind_eq_done h
  obtain ⟨rfl, -⟩ := emit_eq_done h₃
  obtain ⟨u, p₃, l₄, k₄, h₄, h, -⟩ := bind_eq_done h
  obtain ⟨path, p₄, l₅, k₅, h₅, h, -⟩ := bind_eq_done h
  obtain ⟨u, p, l₆, k₆, h₆, h, -⟩ := bind_eq_done h
  obtain ⟨rfl, -⟩ := emit_eq_done h₆
  obtain ⟨u, p₅, l₇, k₇, h₇, h, -⟩ := bind_eq_done h
  split at h
  · cases h
  obtain ⟨v, p₆, l₈, k₈, h₈, h, -⟩ := bind_eq_done h
  obtain ⟨u, p, l₉, k₉, h₉, h, -⟩ := bind_eq_done h
  obtain ⟨rfl, -⟩ := emit_eq_done h₉
  obtain ⟨u, p₇, l₁₀, k₁₀, h₁₀, h, -⟩ := bind_eq_done h
  obtain ⟨hmethod, hsp⟩ := token_paired (by decide) h₂
  obtain ⟨hpath, hsp'⟩ := target_paired h₅
  have hstart : Paired buf 0 p₆ :=
    (emptyLine_paired h₁).trans <| hmethod.trans <|
      (skipPast_paired (by decide) hsp (by decide) h₄).trans <| hpath.trans <|
      (skipPast_paired (by decide) hsp' (by decide) h₇).trans (version_paired h₈)
  exact headlike_of_line (.of_paired hstart (eol_line h₁₀)) h

theorem response_headlike {cap : ℕ} {buf : List UInt8} {n : ℕ} {u : Unit} {l : List Event}
    (h : (response cap).read buf 0 = (.done (u, n), l)) : Headlike buf n := by
  obtain ⟨v, p₁, l₁, k₁, h₁, h, -⟩ := bind_eq_done h
  obtain ⟨u, p, l₂, k₂, h₂, h, -⟩ := bind_eq_done h
  obtain ⟨rfl, -⟩ := emit_eq_done h₂
  obtain ⟨b, p', l₃, k₃, h₃, ht, -⟩ := bind_eq_done h
  obtain ⟨hb, hp', -⟩ := peek_eq_done h₃
  subst hp'
  split at ht
  · cases ht
  rename_i hsp
  obtain rfl : b = SP := not_not.mp hsp
  obtain ⟨u, p₂, l₄, k₄, h₄, h, -⟩ := bind_eq_done ht
  obtain ⟨u, p₃, l₅, k₅, h₅, h, -⟩ := bind_eq_done h
  obtain ⟨⟨start, bytes⟩, p₄, l₆, k₆, h₆, h, -⟩ := bind_eq_done h
  obtain ⟨u, p, l₇, k₇, h₇, h, -⟩ := bind_eq_done h
  obtain ⟨rfl, -⟩ := reason_done h₇
  have hstart : Paired buf 0 p₃ :=
    (version_paired h₁).trans <| (skipPast_paired (by decide) hb (by decide) h₄).trans
      (status_paired (Prod.ext (Prod.mk.inj h₅).1 rfl))
  exact headlike_of_line (.of_paired hstart (text_line h₆)) h

end PicoHttpParser.Head
