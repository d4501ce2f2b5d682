import PicoHttpParser.Head.Spec

/-!
Heads on a growing buffer: every reader of a head repeats its answer when
more input arrives, and one that is done needed nothing beyond what it
consumed.
-/

namespace PicoHttpParser.Head

open Incremental Incremental.Reader

section

variable {ω : Type}

theorem consumes_eol : Consumes (eol : Reader UInt8 ω Unit) := by
  refine .bind_left .next fun b => ?_
  split
  · refine .bind_zero .next fun c => ?_
    split
    · exact .pure ()
    · exact .reject
  · split
    · exact .pure ()
    · exact .reject

theorem reads_emptyLine : Reads 1 (emptyLine : Reader UInt8 ω Unit) := by
  refine .bind_of_le .peek (fun b => ?_) le_rfl
  split
  · exact consumes_eol.reads.mono (Nat.zero_le 1)
  · exact (Reads.pure ()).mono (Nat.zero_le 1)

theorem reads_span (f : UInt8 → Act) :
    Reads 1 (do let start ← position
                scan f
                let p ← position
                pure (start, p - start) : Reader UInt8 ω Span) :=
  .bind_zero .position fun _ => .bind_of_le (.scan f)
    (fun _ => .mono (.bind_zero .position fun _ => .pure _) (Nat.zero_le 1)) le_rfl

theorem reads_token (stop : UInt8) : Reads 1 (token stop : Reader UInt8 ω Span) := reads_span _

theorem reads_target : Reads 1 (target : Reader UInt8 ω Span) := reads_span _

theorem reads_skipPast (f : UInt8 → Act) : Reads 1 (skipPast f : Reader UInt8 ω Unit) :=
  .bind_zero .next fun _ => .scan f

theorem consumes_text : Consumes (text : Reader UInt8 ω (ℕ × List UInt8)) :=
  .bind_zero .position fun _ => .bind (.captured (.scan _)) fun _ =>
    .bind_left consumes_eol fun _ => .pure _

/-- A line end is LF or CRLF. -/
theorem eol_done {buf : List UInt8} {pos q : ℕ} {u : Unit} {l : List ω}
    (h : eol.read buf pos = (.done (u, q), l)) :
    l = [] ∧ (buf[pos]? = some LF ∧ q = pos + 1 ∨
      buf[pos]? = some CR ∧ buf[pos + 1]? = some LF ∧ q = pos + 2) := by
  cases hb : buf[pos]? with
  | none => simp [eol, read_bind, read_next_none hb] at h
  | some b =>
      simp only [eol, read_bind, read_next_some hb, List.nil_append] at h
      by_cases hcr : b = CR
      · cases hc : buf[pos + 1]? with
        | none => simp [hcr, read_bind, read_next_none hc] at h
        | some c =>
            by_cases hlf : c = LF
            · simp only [hcr, hlf, if_true, read_bind, read_next_some hc, read_pure,
                List.nil_append, Prod.mk.injEq, Verdict.done.injEq] at h
              exact ⟨h.2.symm, .inr ⟨by rw [hcr], by rw [hlf], h.1.2.symm⟩⟩
            · simp [hcr, hlf, read_bind, read_next_some hc] at h
      · by_cases hlf : b = LF
        · simp only [hlf, if_true, if_false, read_pure, Prod.mk.injEq, Verdict.done.injEq,
            show ¬LF = CR by decide] at h
          exact ⟨h.2.symm, .inl ⟨by rw [hlf], h.1.2.symm⟩⟩
        · simp [hcr, hlf] at h

/-- The rest of a line is what stands before its first byte that is no text. -/
theorem text_done {buf : List UInt8} {pos start q : ℕ} {bytes : List UInt8} {l : List ω}
    (h : text.read buf pos = (.done ((start, bytes), q), l)) :
    start = pos ∧ bytes = (buf.drop pos).take bytes.length ∧ l = [] ∧
      ∃ b, buf[pos + bytes.length]? = some b ∧ ¬IsTextByte b := by
  obtain ⟨s, p, l₁, k₁, hs, h₁, rfl⟩ := bind_eq_done h
  obtain ⟨⟨rfl, rfl⟩, rfl⟩ : (pos = s ∧ pos = p) ∧ [] = l₁ := by simpa using hs
  obtain ⟨⟨c, u⟩, p, l₂, k₂, hc, h₂, rfl⟩ := bind_eq_done h₁
  obtain ⟨u, p', l₃, k₃, he, h₃, rfl⟩ := bind_eq_done h₂
  obtain ⟨rfl, -⟩ := eol_done he
  obtain ⟨⟨⟨rfl, rfl⟩, -⟩, rfl⟩ : ((pos = start ∧ c = bytes) ∧ p' = q) ∧ [] = k₃ := by
    simpa using h₃
  cases hscan : scanFrom textAct buf pos with
  | more => simp [captured, hscan] at hc
  | fail => simp [captured, hscan] at hc
  | done r =>
      simp only [captured, read_scan, hscan, Prod.mk.injEq, Verdict.done.injEq] at hc
      obtain ⟨⟨⟨rfl, -⟩, rfl⟩, rfl⟩ := hc
      obtain ⟨u, p⟩ := r
      obtain ⟨hle, hlt, -⟩ := scanFrom_done hscan
      obtain ⟨b, hb, hstop⟩ := scanFrom_stop hscan
      have hlen : ((buf.drop pos).take (p - pos)).length = p - pos := by simp; omega
      refine ⟨rfl, by rw [hlen], rfl, b, ?_, fun htext => by simp [textAct, htext] at hstop⟩
      rw [hlen, Nat.add_sub_cancel' hle]
      exact hb

theorem version_done {buf : List UInt8} {pos q : ℕ} {v : Int32} {l : List ω}
    (h : version.read buf pos = (.done (v, q), l)) :
    q = pos + 8 ∧ q < buf.length ∧ versionOf ((buf.drop pos).take 9) = (some v, l) := by
  by_cases hlen : buf.length < pos + 9
  · simp [version, window, hlen] at h
  rcases hf : versionOf ((buf.drop pos).take 9) with ⟨_ | w, l'⟩
  · simp [version, window, hlen, hf] at h
  · simp only [version, window, hlen, if_false, hf, Prod.mk.injEq, Verdict.done.injEq] at h
    obtain ⟨⟨rfl, rfl⟩, rfl⟩ := h
    exact ⟨rfl, by omega, rfl⟩

theorem reads_version : Reads 1 (version : Reader UInt8 ω Int32) :=
  Reads.window (n := 9) (k := 8) (by omega) versionOf

end

theorem reads_status : Reads 1 status := Reads.window (n := 4) (k := 3) (by omega) statusOf

theorem consumes_completeTurn {ω : Type} (cnt : ℕ) :
    Consumes (completeTurn cnt : Reader UInt8 ω (ℕ ⊕ Unit)) := by
  refine .bind_left .next fun b => ?_
  split
  · refine .bind_zero .next fun c => ?_
    split
    · exact .pure _
    · exact .reject
  · split <;> exact .pure _

/-! ### The header block -/

theorem consumes_value (i : ℕ) : Consumes (value i) := .bind_left consumes_text fun _ => .emit _

theorem consumes_header (i : ℕ) (b : UInt8) : Consumes (header i b) := by
  unfold header
  split
  · exact .bind_zero (.emit _) fun _ => consumes_value i
  · refine .bind (reads_token _) fun name => .bind_zero (.emit _) fun _ => ?_
    split
    · exact .reject
    · exact .bind (reads_skipPast _) fun _ => consumes_value i

theorem consumes_headerTurn (cap i : ℕ) : Consumes (headerTurn cap i) := by
  refine .bind .peek fun b => ?_
  split
  · exact .bind_left consumes_eol fun _ => .pure _
  split
  · exact .reject
  · exact .bind_left (consumes_header i b) fun _ => .pure _

theorem reads_headers (cap : ℕ) : Reads 0 (headers cap) := .iterate (consumes_headerTurn cap) 0

/-- A header that has been read published its name, then its value. -/
theorem value_done {i : ℕ} {buf : List UInt8} {pos q : ℕ} {u : Unit} {l : List HeaderEvent}
    (h : (value i).read buf pos = (.done (u, q), l)) : ∃ v, l = [.value i v] := by
  obtain ⟨⟨start, bytes⟩, p, l₁, l₂, h₁, h₂, rfl⟩ := bind_eq_done h
  obtain ⟨-, -, rfl, -⟩ := text_done h₁
  simp only [read_emit, Prod.mk.injEq] at h₂
  exact ⟨_, by rw [← h₂.2, List.nil_append]⟩

theorem span_done {ω : Type} {f : UInt8 → Act} {buf : List UInt8} {pos q : ℕ} {v : Span}
    {l : List ω}
    (h : (do let start ← position
             scan f
             let p ← position
             pure (start, p - start) : Reader UInt8 ω Span).read buf pos = (.done (v, q), l)) :
    l = [] ∧ v = (pos, q - pos) ∧ scanFrom f buf pos = .done ((), q) := by
  obtain ⟨s, p, l₁, k₁, hs, h₁, rfl⟩ := bind_eq_done h
  obtain ⟨⟨rfl, rfl⟩, rfl⟩ : (pos = s ∧ pos = p) ∧ [] = l₁ := by simpa using hs
  obtain ⟨u, p, l₂, k₂, h₂, h₃, rfl⟩ := bind_eq_done h₁
  obtain ⟨hscan, rfl⟩ := Prod.mk.inj h₂
  obtain ⟨c, p', l₃, k₃, hp, h₄, rfl⟩ := bind_eq_done h₃
  obtain ⟨⟨rfl, rfl⟩, rfl⟩ : (p = c ∧ p = p') ∧ [] = l₃ := by simpa using hp
  obtain ⟨⟨rfl, rfl⟩, rfl⟩ : ((pos, p - pos) = v ∧ p = q) ∧ [] = k₃ := by simpa using h₄
  exact ⟨rfl, rfl, hscan⟩

theorem skipPast_done {ω : Type} {f : UInt8 → Act} {buf : List UInt8} {pos q : ℕ} {u : Unit}
    {l : List ω} (h : (skipPast f).read buf pos = (.done (u, q), l)) :
    l = [] ∧ scanFrom f buf (pos + 1) = .done (u, q) := by
  cases hb : buf[pos]? with
  | none => simp [skipPast, read_bind, read_next_none hb] at h
  | some b =>
      simp only [skipPast, read_bind, read_next_some hb, List.nil_append, read_scan,
        Prod.mk.injEq] at h
      exact ⟨h.2.symm, h.1⟩

theorem header_done {i : ℕ} {b : UInt8} {buf : List UInt8} {pos q : ℕ} {u : Unit}
    {l : List HeaderEvent} (h : (header i b).read buf pos = (.done (u, q), l)) :
    ∃ n v, l = [.name i n, .value i v] := by
  unfold header at h
  split at h
  · obtain ⟨u, p, l₁, l₂, h₁, h₂, rfl⟩ := bind_eq_done h
    obtain ⟨v, rfl⟩ := value_done h₂
    obtain rfl := (Prod.mk.inj h₁).2
    exact ⟨_, v, rfl⟩
  · obtain ⟨name, p, l₁, k₁, h₁, h₂, rfl⟩ := bind_eq_done h
    obtain ⟨rfl, -⟩ := span_done h₁
    obtain ⟨u, p, l₂, k₂, h₃, h₄, rfl⟩ := bind_eq_done h₂
    obtain rfl := (Prod.mk.inj h₃).2
    split at h₄
    · cases h₄
    obtain ⟨u, p, l₃, k₃, h₅, h₆, rfl⟩ := bind_eq_done h₄
    obtain ⟨rfl, -⟩ := skipPast_done h₅
    obtain ⟨v, rfl⟩ := value_done h₆
    exact ⟨_, v, rfl⟩

/-- A turn that goes on has read the `i`-th header and goes on with the next. -/
theorem headerTurn_done {cap i i' : ℕ} {buf : List UInt8} {pos q : ℕ} {l : List HeaderEvent}
    (h : (headerTurn cap i).read buf pos = (.done (.inl i', q), l)) :
    i' = i + 1 ∧ ∃ n v, l = [.name i n, .value i v] := by
  obtain ⟨b, p, l₁, k₁, h₁, h₂, rfl⟩ := bind_eq_done h
  obtain ⟨-, -, rfl⟩ := peek_eq_done h₁
  split at h₂
  · obtain ⟨u, p', l₂, k₂, h₃, h₄, -⟩ := bind_eq_done h₂
    cases h₄
  split at h₂
  · cases h₂
  obtain ⟨u, p', l₂, k₂, h₃, h₄, rfl⟩ := bind_eq_done h₂
  obtain ⟨n, v, rfl⟩ := header_done h₃
  obtain ⟨⟨rfl, rfl⟩, rfl⟩ : (i + 1 = i' ∧ p' = q) ∧ [] = k₂ := by simpa using h₄
  exact ⟨rfl, n, v, rfl⟩

/-- A reason phrase that has been read has been published. -/
theorem reason_done {start : ℕ} {bytes buf : List UInt8} {pos q : ℕ} {u : Unit} {l : List Event}
    (h : (reason start bytes).read buf pos = (.done (u, q), l)) :
    pos = q ∧ ∃ s, l = [.msg s] := by
  unfold reason at h
  cases bytes with
  | nil => exact ⟨(emit_eq_done h).1, _, (emit_eq_done h).2⟩
  | cons b bytes =>
      dsimp only at h
      split at h
      · exact ⟨(emit_eq_done h).1, _, (emit_eq_done h).2⟩
      · cases h

/-! ### Heads -/

theorem reads_mapHeaders (cap : ℕ) : Reads 0 (mapEvents Event.header (headers cap)) :=
  .mapEvents _ (reads_headers cap)

theorem consumes_request (cap : ℕ) : Consumes (request cap) := by
  refine .bind reads_emptyLine fun _ => .bind (reads_token SP) fun method =>
    .bind_zero (.emit _) fun _ => .bind (reads_skipPast _) fun _ => .bind reads_target fun path =>
    .bind_zero (.emit _) fun _ => .bind (reads_skipPast _) fun _ => ?_
  split
  · exact .reject
  · exact .bind reads_version fun v => .bind_zero (.emit _) fun _ =>
      .bind_left consumes_eol fun _ => reads_mapHeaders cap

theorem reads_reason (start : ℕ) (bytes : List UInt8) : Reads 0 (reason start bytes) := by
  unfold reason
  cases bytes with
  | nil => exact .emit _
  | cons b bytes =>
      dsimp only
      split
      · exact .emit _
      · exact .bind_zero (.emit _) fun _ => .reject

theorem consumes_response (cap : ℕ) : Consumes (response cap) := by
  refine .bind reads_version fun v => .bind_zero (.emit _) fun _ => .bind .peek fun b => ?_
  split
  · exact .reject
  · exact .bind (reads_skipPast _) fun _ => .bind (.mapEvents _ reads_status) fun _ =>
      .bind_left consumes_text fun r => .bind_zero (reads_reason r.1 r.2) fun _ =>
        reads_mapHeaders cap

end PicoHttpParser.Head
