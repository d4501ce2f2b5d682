import PicoHttpParser.Head.Program
import PicoHttpParser.Head.Swar
import PicoHttpParser.Rust.Request
import PicoHttpParser.Rust.Response

/-!
The port implements the readers.

Every function of the port is equal to the program of a reader. The
functions without outputs come first, then the loop over the headers with
its sink, then the two entry points with their records.
-/

namespace PicoHttpParser.Head.Port

open Incremental Incremental.Reader Rust

/-! ### Byte classes -/

theorem isTokenChar_eq (b : UInt8) : isTokenChar b = decide (IsTokenByte b) := by
  have hentry : tokenChar.getD b.toNat 0 = tokenTableEntry b := by
    simp [tokenChar, List.getD, b.toNat_lt]
  rw [isTokenChar, hentry]
  refine forall_byte (P := fun b => (tokenTableEntry b != 0) = decide (IsTokenByte b)) ?_ b
  decide +kernel

theorem isAsciiDigit_eq (b : UInt8) : isAsciiDigit b = decide (IsDigit b) := by
  rw [Bool.eq_iff_iff, decide_eq_true_iff]
  simp [isAsciiDigit, IsDigit]

theorem digitValue_eq {b : UInt8} (h : IsDigit b) : digitValue b = digit b := by
  rw [digitValue, digit, UInt8.toNat_sub_of_le _ _ h.1]
  rfl

/-- The two tests of the value scan come to one. -/
theorem not_printable_and_ctl (b : UInt8) :
    (!isPrintableAscii b ∧ ((b < 0x20 ∧ b ≠ HTAB) ∨ b = DEL)) ↔ ¬IsTextByte b := by
  refine forall_byte (P := fun b =>
    (!isPrintableAscii b ∧ ((b < 0x20 ∧ b ≠ HTAB) ∨ b = DEL)) ↔ ¬IsTextByte b) ?_ b
  decide +kernel

theorem not_printable_and_control (b : UInt8) :
    (¬b - 0x20 < 0x5f ∧ (b < 0x20 ∨ b = DEL)) ↔ IsControl b := by
  refine forall_byte (P := fun b =>
    (¬b - 0x20 < 0x5f ∧ (b < 0x20 ∨ b = DEL)) ↔ IsControl b) ?_ b
  decide +kernel

/-! ### Loops -/

instance : Signals Fault := ⟨.err .Partial, .err .Malformed⟩

theorem more_eq : (Signals.more : Fault) = .err .Partial := rfl

theorem fail_eq : (Signals.fail : Fault) = .err .Malformed := rfl

theorem parseTokenFrom_eq (buf : List UInt8) (c : UInt8) (p : ℕ) :
    parseTokenFrom buf c p = (scanFrom (tokenAct c) buf p).settle >>= fun r => .ok r.2 := by
  refine loop_eq_scan (fun p => ?_) p
  rw [parseTokenFrom]
  split
  · simp [more_eq, *]
  · rename_i b hb
    by_cases hc : b = c
    · simp [hb, tokenAct, hc]
    · by_cases ht : IsTokenByte b <;> simp [hb, tokenAct, isTokenChar_eq, fail_eq, hc, ht]

theorem parsePathFrom_eq (buf : List UInt8) (p : ℕ) :
    Request.parsePathFrom buf p = (scanFrom targetAct buf p).settle >>= fun r => .ok r.2 := by
  refine loop_eq_scan (fun p => ?_) p
  rw [Request.parsePathFrom]
  split
  · simp [more_eq, *]
  · rename_i b hb
    by_cases hc : b = SP
    · simp [hb, targetAct, hc]
    · by_cases ht : IsControl b <;>
        simp only [hb, targetAct, not_printable_and_control, fail_eq, hc, ht, if_true, if_false]

theorem skipSpacesFrom_eq (buf : List UInt8) (p : ℕ) :
    skipSpacesFrom buf p = (scanFrom spaceAct buf p).settle >>= fun r => .ok r.2 := by
  refine loop_eq_scan (fun p => ?_) p
  rw [skipSpacesFrom]
  split
  · simp [more_eq, *]
  · rename_i b hb
    by_cases hc : b = SP <;> simp [hb, spaceAct, hc]

theorem skipWhitespace_eq (buf : List UInt8) (p : ℕ) :
    skipWhitespace buf p = (scanFrom blankAct buf p).settle >>= fun r => .ok r.2 := by
  refine loop_eq_scan (fun p => ?_) p
  rw [skipWhitespace]
  split
  · simp [more_eq, *]
  · rename_i b hb
    have hblank : IsBlank b ↔ b = SP ∨ b = HTAB := Iff.rfl
    by_cases hc : b = SP ∨ b = HTAB <;> simp [hb, blankAct, hblank, hc]

/-- The last loop of `get_token_to_eol` is a scan and the end of the line. -/
theorem tokenToEolFrom_eq (buf : List UInt8) (start p : ℕ) :
    tokenToEolFrom buf start p =
      ((scanFrom textAct buf p).settle : Res (Unit × ℕ)) >>= fun r =>
        Request.endOfLine buf r.2 >>= fun q => .ok ((start, r.2 - start), q) := by
  refine loop_eq_scan
    (k := fun r => Request.endOfLine buf r >>= fun q => .ok ((start, r - start), q))
    (fun p => ?_) p
  rw [tokenToEolFrom]
  split
  · simp [more_eq, *]
  · rename_i b hb
    by_cases ht : IsTextByte b
    · simp only [hb, textAct, not_printable_and_ctl, ht, not_true, if_true, if_false]
    · simp only [hb, textAct, not_printable_and_ctl, ht, not_false_eq_true, if_true, if_false,
        Request.endOfLine]
      split
      · cases buf[p + 1]? with
        | none => rfl
        | some c => by_cases hc : c = LF <;> simp only [hc, if_true, if_false] <;> rfl
      · split <;> rfl

/-! ### Parts of a head -/

section

variable {σ ω : Type} {publish : σ → ω → σ}

theorem realize_token (c : UInt8) (buf : List UInt8) (pos : ℕ) :
    realize publish (token c) buf pos = lift (parseToken buf pos c) := by
  rw [parseToken, parseTokenFrom_eq, bind_assoc]
  exact realize_span _ _ _

theorem realize_target (buf : List UInt8) (pos : ℕ) :
    realize publish target buf pos = lift (Request.parsePath buf pos) := by
  rw [Request.parsePath, parsePathFrom_eq, bind_assoc]
  exact realize_span _ _ _

theorem realize_eol (buf : List UInt8) (pos : ℕ) :
    realize publish eol buf pos = (fun q => ((), q)) <$> lift (Request.endOfLine buf pos) := by
  rw [eol, realize_bind, realize_next_bind, Request.endOfLine]
  cases buf[pos]? with
  | none => rfl
  | some b =>
      dsimp only
      split
      · rw [realize_bind, realize_next_bind]
        cases buf[pos + 1]? with
        | none => rfl
        | some c =>
            dsimp only
            split <;> rfl
      · split <;> rfl

theorem realize_emptyLine (buf : List UInt8) (pos : ℕ) :
    realize publish emptyLine buf pos =
      (fun q => ((), q)) <$> lift (Request.skipEmptyLine buf pos) := by
  rw [emptyLine, realize_bind, realize_peek_bind, Request.skipEmptyLine]
  cases hb : buf[pos]? with
  | none => rfl
  | some b =>
      dsimp only
      by_cases hcr : b = CR
      · rw [if_pos (.inl hcr), realize_eol, Request.endOfLine, hb]
        simp only [hcr, if_true]
      by_cases hlf : b = LF
      · rw [if_pos (.inr hlf), realize_eol, Request.endOfLine, hb]
        simp only [hlf, if_true]
      · rw [if_neg (by simp [hcr, hlf])]
        simp only [hcr, hlf, if_false]
        rfl

theorem realize_spaces (buf : List UInt8) (pos : ℕ) :
    realize publish spaces buf pos =
      (fun q => ((), q)) <$> lift (Request.skipSpaces buf pos) := by
  rw [spaces, realize_skipPast, Request.skipSpaces, skipSpacesFrom_eq]

theorem realize_blanks (buf : List UInt8) (pos : ℕ) :
    realize publish (skipPast blankAct) buf pos =
      (fun q => ((), q)) <$> lift (skipWhitespace buf (pos + 1)) := by
  rw [realize_skipPast, skipWhitespace_eq]

theorem realize_version (buf : List UInt8) (pos : ℕ) :
    realize publish version buf pos = lift (parseHttpVersion buf pos) := by
  rw [version, realize_window (fun w => by rw [versionOf]; split <;> rfl), parseHttpVersion]
  by_cases hlen : buf.length < pos + 9
  · rw [if_pos hlen, if_pos (by omega)]
    rfl
  rw [if_neg hlen, if_neg (by omega), getRange, if_pos (by omega)]
  have hb : ((buf.drop pos).take 9)[7]? = some (((buf.drop pos).take 9).getD 7 0) := by
    rw [← getElem?_window (n := 9) (by omega) (by omega)]
    simp
  -- the window is nine bytes long, so its digit can be read
  generalize ((buf.drop pos).take 9) = w at hb
  dsimp only
  rw [index, hb, versionOf]
  show _ = lift (if _ then _ else _)
  by_cases hw : w.take 7 = [0x48, 0x54, 0x54, 0x50, 0x2f, 0x31, 0x2e] ∧ IsDigit (w.getD 7 0)
  · have hdigit : isAsciiDigit (w.getD 7 0) = true := by
      rw [isAsciiDigit_eq, decide_eq_true hw.2]
    rw [if_pos hw, if_neg (by rw [hw.1, hdigit]; simp), digitValue_eq hw.2]
  · rw [if_neg hw, if_pos ((not_and_or.mp hw).imp_right fun h => by
      rw [isAsciiDigit_eq, decide_eq_false h]; rfl)]
    rfl

theorem textAct_of_printable {b : UInt8} (h : IsPrintable b) : textAct b = .skip := by
  refine if_pos (.inl fun hctl => ?_)
  have h₁ := h.1
  have h₂ := h.2
  rcases hctl with hlt | rfl
  · exact absurd (UInt8.lt_of_lt_of_le hlt h₁) (UInt8.lt_irrefl _)
  · exact absurd h₂ (by decide)

theorem getRange_eq_some {buf w : List UInt8} {pos n : ℕ} (h : getRange buf pos n = some w) :
    pos + n ≤ buf.length ∧ w = (buf.drop pos).take n := by
  by_cases hlen : pos + n ≤ buf.length
  · simp only [getRange, hlen, if_true, Option.some.injEq] at h
    exact ⟨hlen, h.symm⟩
  · simp [getRange, hlen] at h

/-- The bytes from `p` to `q` are all printable. -/
structure Printable (buf : List UInt8) (p q : ℕ) : Prop where
  le : p ≤ q
  byte : ∀ i, p ≤ i → i < q → ∃ b, buf[i]? = some b ∧ IsPrintable b

theorem Printable.refl (buf : List UInt8) (p : ℕ) : Printable buf p p :=
  ⟨le_rfl, fun _ hle hlt => absurd hlt (Nat.not_lt.mpr hle)⟩

theorem Printable.trans {buf : List UInt8} {p q r : ℕ} (hpq : Printable buf p q)
    (hqr : Printable buf q r) : Printable buf p r where
  le := hpq.le.trans hqr.le
  byte i hpi hir := by
    rcases Nat.lt_or_ge i q with hiq | hiq
    · exact hpq.byte i hpi hiq
    · exact hqr.byte i hiq hir

/-- Eight bytes the filter lets pass. -/
theorem printable_of_filter {buf : List UInt8} {p : ℕ} (hlen : p + 8 ≤ buf.length)
    (h : ¬hasOutsidePrintable (fromLeBytes ((buf.drop p).take 8)) = true) :
    Printable buf p (p + 8) where
  le := Nat.le_add_right p 8
  byte i hpi hlt := by
    obtain ⟨k, rfl⟩ := Nat.exists_eq_add_of_le hpi
    have hwindow : ((buf.drop p).take 8).length = 8 := by
      rw [List.length_take, List.length_drop]
      omega
    have hb : buf[p + k]? = some (((buf.drop p).take 8).getD k 0) :=
      getElem?_window hlen (by omega)
    refine ⟨_, hb, printable_of_clear hwindow (by simpa using h) _ ?_⟩
    rw [List.getD_eq_getElem _ _ (by omega)]
    exact List.getElem_mem _

theorem printable_prescan16 (buf : List UInt8) (p : ℕ) : Printable buf p (prescan16 buf p) := by
  fun_induction prescan16 buf p with
  | case1 p => exact .refl buf p
  | case2 p => exact .refl buf p
  | case3 p w hw h₁ h₂ =>
      obtain ⟨hlen, rfl⟩ := getRange_eq_some hw
      exact printable_of_filter (by omega) (by simpa [List.take_take] using h₁)
  | case4 p w hw h₁ h₂ ih =>
      obtain ⟨hlen, rfl⟩ := getRange_eq_some hw
      have hlow : Printable buf p (p + 8) :=
        printable_of_filter (by omega) (by simpa [List.take_take] using h₁)
      have hhigh : Printable buf (p + 8) (p + 16) :=
        printable_of_filter (by omega) (by simpa [List.drop_take] using h₂)
      exact (hlow.trans hhigh).trans ih

theorem printable_prescan8 (buf : List UInt8) (p : ℕ) : Printable buf p (prescan8 buf p) := by
  fun_induction prescan8 buf p with
  | case1 p => exact .refl buf p
  | case2 p => exact .refl buf p
  | case3 p w hw h ih =>
      obtain ⟨hlen, rfl⟩ := getRange_eq_some hw
      exact (printable_of_filter hlen h).trans ih

/-- The two fast loops step over printable bytes only. -/
theorem printable_prescan (buf : List UInt8) (pos : ℕ) :
    Printable buf pos (prescan8 buf (prescan16 buf pos)) :=
  (printable_prescan16 buf pos).trans (printable_prescan8 buf _)

theorem scanFrom_prescan (buf : List UInt8) (pos : ℕ) :
    scanFrom textAct buf (prescan8 buf (prescan16 buf pos)) = scanFrom textAct buf pos := by
  have hpass := printable_prescan buf pos
  apply scanFrom_of_skip hpass.le
  intro i hpi hiq
  obtain ⟨b, hb, hprint⟩ := hpass.byte i hpi hiq
  exact ⟨b, hb, textAct_of_printable hprint⟩

/-- The value scan is its last loop, run from the start: what the fast loops
step over the last loop would step over too. -/
theorem value_scan_agrees (buf : List UInt8) (pos : ℕ) :
    getTokenToEol buf pos = tokenToEolFrom buf pos pos ∧
      pos ≤ prescan8 buf (prescan16 buf pos) ∧
      ∀ i, pos ≤ i → i < prescan8 buf (prescan16 buf pos) →
        ∃ b, buf[i]? = some b ∧ 0x20 ≤ b ∧ b ≤ 0x7e := by
  have hpass := printable_prescan buf pos
  refine ⟨?_, hpass.le, hpass.byte⟩
  rw [getTokenToEol, tokenToEolFrom_eq, tokenToEolFrom_eq, scanFrom_prescan]

/-- The value scan returns a span where the reader returns the bytes. -/
theorem lift_getTokenToEol (buf : List UInt8) (pos : ℕ) :
    lift (getTokenToEol buf pos) =
      (fun r => ((r.1.1, r.1.2.length), r.2)) <$> realize publish text buf pos := by
  rw [getTokenToEol, tokenToEolFrom_eq, scanFrom_prescan,
    realize_text fun _ q _ => realize_eol buf q]

end

/-! ### The pre-check -/

theorem lift_isCompleteFrom {σ ω : Type} (publish : σ → ω → σ) (buf : List UInt8) (cnt pos : ℕ)
    (hpos : pos ≤ buf.length) :
    lift (isCompleteFrom buf pos cnt) =
      (realize publish (iterate completeTurn cnt) buf pos >>= fun _ => pure () :
        EStateM Fault σ Unit) := by
  refine realize_iterate_eq publish consumes_completeTurn
    (fun cnt pos => lift (isCompleteFrom buf pos cnt))
    (fun _ => pure ()) (fun cnt pos _ => ?_) cnt pos hpos
  rw [completeTurn, realize_bind, bind_assoc, realize_next_bind, isCompleteFrom]
  split
  · rename_i hb
    rw [hb]
    rfl
  rename_i b hb
  rw [hb]
  by_cases hcr : b = CR
  · simp only [hcr, if_true, realize_bind, realize_next_bind]
    cases buf[pos + 1]? with
    | none => rfl
    | some c =>
        by_cases hlf : c = LF <;> by_cases hcnt : cnt + 1 = 2 <;>
          simp only [hlf, hcnt, if_true, if_false] <;> rfl
  by_cases hlf : b = LF
  · by_cases hcnt : cnt + 1 = 2 <;> simp only [hlf, hcnt, if_true, if_false] <;> rfl
  · simp only [hcr, hlf, if_false]
    rfl

/-! ### The header block -/

theorem index_eq_ok {buf : List UInt8} {pos : ℕ} {b : UInt8} (h : buf[pos]? = some b) :
    index buf pos = .ok b := by
  rw [index, h]

theorem rtrim_eq (buf : List UInt8) (start len : ℕ) (h : start + len ≤ buf.length) :
    rtrim buf start len =
      .ok (((buf.drop start).take len).rdropWhile fun b => decide (IsBlank b)).length :=
  trim_eq (f := rtrim buf start) rfl (fun len b hb => by rw [rtrim, index_eq_ok hb]; rfl) len h

section

variable {S : Type} [HeaderSink S]

/-- What the port does with an event of the header block. -/
def publishHeader (st : S × ℕ) : HeaderEvent → S × ℕ
  | .name i name => (HeaderSink.setName st.1 i name, st.2)
  | .value i v => (HeaderSink.setValue st.1 i v, i + 1)

theorem realize_value (i : ℕ) (buf : List UInt8) (pos : ℕ) :
    realize publishHeader (value i) buf pos =
      (do let ((vs, vl), p) ← lift (getTokenToEol buf pos)
          setValue i (vs, ← lift (rtrim buf vs vl))
          pure ((), p) : EStateM Fault (S × ℕ) (Unit × ℕ)) := by
  rw [value, realize_bind, lift_getTokenToEol, bind_map_left]
  refine realize_bind_congr fun r q l h => ?_
  obtain ⟨start, bytes⟩ := r
  obtain ⟨rfl, hbytes, -, b, hb, -⟩ := text_done h
  have hlen := (List.getElem?_eq_some_iff.mp hb).1
  dsimp only
  rw [rtrim_eq buf _ _ hlen.le, ← hbytes, realize_emit]
  rfl

/-- Where a turn of the port goes on, in the words of an iteration. -/
def turned (i : ℕ) : ℕ ⊕ ℕ → (ℕ ⊕ Unit) × ℕ
  | .inl p => (.inl (i + 1), p)
  | .inr p => (.inr (), p)

theorem realize_header (i : ℕ) (b : UInt8) (buf : List UInt8) (pos : ℕ) :
    (realize publishHeader (header i b) buf pos >>= fun r => pure (.inl (i + 1), r.2) :
        EStateM Fault (S × ℕ) ((ℕ ⊕ Unit) × ℕ)) =
      turned i <$> (if i ≠ 0 ∧ (b = SP ∨ b = HTAB) then do
          setName i none
          let ((vs, vl), p) ← lift (getTokenToEol buf pos)
          setValue i (vs, ← lift (rtrim buf vs vl))
          pure (.inl p)
        else do
          let ((ns, nl), p) ← lift (parseToken buf pos 0x3a)
          setName i (some (ns, nl))
          if nl = 0 then throw (.err .Malformed)
          else
            let pos ← lift (skipWhitespace buf (p + 1))
            let ((vs, vl), p) ← lift (getTokenToEol buf pos)
            setValue i (vs, ← lift (rtrim buf vs vl))
            pure (.inl p)) := by
  rw [header]
  by_cases hcont : i ≠ 0 ∧ IsBlank b
  · rw [if_pos hcont, if_pos (show i ≠ 0 ∧ (b = SP ∨ b = HTAB) from hcont)]
    simp only [realize_bind, realize_emit, realize_value, pure_bind, bind_assoc, map_bind,
      map_pure]
    rfl
  · rw [if_neg hcont, if_neg (show ¬(i ≠ 0 ∧ (b = SP ∨ b = HTAB)) from hcont)]
    simp only [realize_bind, realize_emit, realize_token, pure_bind, bind_assoc, map_bind]
    refine congrArg _ (funext fun r => congrArg _ (funext fun u => ?_))
    split
    · rfl
    · simp only [realize_bind, realize_blanks, realize_value, bind_map_left, bind_assoc, map_bind,
        map_pure, pure_bind]
      rfl

theorem realize_headerTurn (cap i : ℕ) (buf : List UInt8) (pos : ℕ) :
    realize publishHeader (Head.headerTurn cap i) buf pos =
      (turned i <$> Rust.headerTurn buf cap pos i : EStateM Fault (S × ℕ) _) := by
  rw [Head.headerTurn, Rust.headerTurn, realize_bind, realize_peek_bind, Rust.get]
  cases hb : buf[pos]? with
  | none => rfl
  | some b =>
      simp only [lift_ok, pure_bind]
      by_cases hcr : b = CR
      · rw [if_pos (.inl hcr), if_pos hcr, realize_bind, realize_eol, Request.endOfLine, hb]
        simp only [hcr, if_true, expectByte]
        cases buf[pos + 1]? with
        | none => rfl
        | some c => by_cases hc : c = LF <;> simp only [hc, if_true, if_false] <;> rfl
      by_cases hlf : b = LF
      · rw [if_pos (.inr hlf), if_neg hcr, if_pos hlf, realize_bind, realize_eol,
          Request.endOfLine, hb]
        simp only [hlf, if_true]
        rfl
      rw [if_neg (by simp [hcr, hlf]), if_neg hcr, if_neg hlf]
      by_cases hcap : i = cap
      · rw [if_pos hcap, if_pos hcap]
        rfl
      · rw [if_neg hcap, if_neg hcap, realize_bind]
        exact realize_header i b buf pos

theorem parseHeadersFrom_eq (buf : List UInt8) (max pos n : ℕ) :
    (parseHeadersFrom buf max pos n : EStateM Fault (S × ℕ) ℕ) =
      Rust.headerTurn buf max pos n >>= fun
        | .inl pos' => parseHeadersFrom buf max pos' (n + 1)
        | .inr pos' => pure pos' := by
  funext st
  show _ = EStateM.bind _ _ st
  rw [parseHeadersFrom]
  split <;> simp only [EStateM.bind, *]
  rfl

theorem realize_headers (cap : ℕ) (buf : List UInt8) (pos : ℕ) :
    realize publishHeader (headers cap) buf pos =
      ((fun q => ((), q)) <$> parseHeadersFrom buf cap pos 0 : EStateM Fault (S × ℕ) _) := by
  by_cases hpos : pos ≤ buf.length
  · rw [realize_iterate_eq publishHeader (consumes_headerTurn cap)
      (fun i pos => parseHeadersFrom buf cap pos i) (fun r => pure r.2) (fun i pos _ => ?_) 0 pos
      hpos]
    · simp only [map_bind, map_pure]
      exact (bind_pure _).symm
    · rw [realize_headerTurn, bind_map_left, parseHeadersFrom_eq]
      refine congrArg _ (funext fun r => ?_)
      cases r with
      | inl p => rfl
      | inr p => rfl
  · have hb : buf[pos]? = none := List.getElem?_eq_none_iff.mpr (by omega)
    have hturn : (Head.headerTurn cap 0).read buf pos = (.more, []) := by
      simp only [Head.headerTurn, read_bind, read_peek_none hb]
    rw [realize_of_read (iterateFrom_of_more hturn), parseHeadersFrom_eq, Rust.headerTurn, Rust.get,
      hb]
    rfl

/-- The header parser is the program of the reader. -/
theorem parseHeaders_eq (buf : List UInt8) (pos : ℕ) (st : S × ℕ) :
    parseHeaders buf pos st =
      (do let r ← realize publishHeader (headers (HeaderSink.capacity st.1)) buf pos
          pure r.2 : EStateM Fault (S × ℕ) ℕ) st := by
  rw [realize_headers, bind_map_left, bind_pure]
  rfl

end

/-! ### Requests -/

namespace Request

open Rust.Request

variable {S : Type} [HeaderSink S]

/-- What the request parser does with an event. -/
def publish (st : S × Progress) : Event → S × Progress
  | .method s => (st.1, { st.2 with method := some s })
  | .path s => (st.1, { st.2 with path := some s })
  | .version v => (st.1, { st.2 with version := some v })
  | .status _ => st
  | .msg _ => st
  | .header e => setHeaderState st (publishHeader (headerState st) e)

theorem realize_mapHeaders (cap : ℕ) (buf : List UInt8) (pos : ℕ) :
    realize publish (mapEvents .header (headers cap)) buf pos =
      ((fun q => ((), q)) <$> zoom headerState setHeaderState (parseHeadersFrom buf cap pos 0) :
        EStateM Fault (S × Progress) _) := by
  rw [← zoom_map, ← realize_headers, zoom_realize publish] <;> intros <;> rfl

/-- The request parser is the pre-check, then the program of the reader. -/
theorem parseRequest_eq (buf : List UInt8) (lastLen : ℕ) (st : S × Progress) :
    parseRequest buf lastLen st =
      (do lift (if lastLen ≠ 0 then isComplete buf lastLen else .ok ())
          let r ← realize publish (request (HeaderSink.capacity st.1)) buf 0
          pure r.2 : EStateM Fault (S × Progress) ℕ) st := by
  generalize hcap : HeaderSink.capacity st.1 = cap
  suffices h : AgreeOn (fun st : S × Progress => HeaderSink.capacity st.1 = cap)
      (parseRequest buf lastLen) _ from h.eq st hcap
  simp only [parseRequest, request, realize_bind, realize_emptyLine, realize_token, realize_emit,
    realize_spaces, realize_target, bind_map_left, bind_assoc, pure_bind]
  refine .lift_bind _ fun _ _ => .lift_bind _ fun _ _ => .lift_bind _ fun m _ =>
    .modify_bind_self <| .lift_bind _ fun _ _ => .lift_bind _ fun p _ =>
    .modify_bind_self <| .lift_bind _ fun _ _ => ?_
  split
  · exact .refl _
  · simp only [realize_bind, realize_version, realize_emit, realize_eol, realize_mapHeaders,
      bind_map_left, bind_assoc, pure_bind, bind_pure]
    refine .lift_bind _ fun v _ => .modify_bind_self <| .lift_bind _ fun _ _ =>
      ⟨fun st hst => ?_⟩
    rw [← hst]
    rfl

/-- On a first call there is no pre-check. -/
theorem parseRequest_first (buf : List UInt8) (st : S × Progress) :
    parseRequest buf 0 st =
      (realize publish (request (HeaderSink.capacity st.1)) buf 0 >>= fun r => pure r.2 :
        EStateM Fault (S × Progress) ℕ) st := parseRequest_eq buf 0 st

end Request

/-! ### Responses -/

namespace Response

open Rust.Response

def publishStatus (prog : Progress) (v : Int32) : Progress := { prog with status := some v }

/-- One digit of the status: where it is none, the loop ends; where it is
one, the value so far is overwritten. -/
theorem parseStatusFrom_cons {buf : List UInt8} {pos i : ℕ} {b : UInt8}
    (hb : buf[pos + i]? = some b) (v mul : Int32) (muls : List Int32) (prog : Progress) :
    parseStatusFrom buf pos i v (mul :: muls) prog =
      if IsDigit b then
        parseStatusFrom buf pos (i + 1) (v + mul * digit b) muls
          (publishStatus prog (v + mul * digit b))
      else .error (.err .Malformed) prog := by
  rw [parseStatusFrom, index_eq_ok hb]
  by_cases hd : IsDigit b
  · simp only [lift_ok, pure_bind, isAsciiDigit_eq, hd, decide_true, digitValue_eq]
    rfl
  · simp only [lift_ok, pure_bind, isAsciiDigit_eq, hd, decide_false]
    rfl

theorem realize_status (buf : List UInt8) (pos : ℕ) :
    realize publishStatus status buf pos = (fun q => ((), q)) <$> parseStatus buf pos := by
  funext prog
  rw [parseStatus]
  by_cases hlen : buf.length < pos + 4
  · rw [if_pos (by omega)]
    simp only [realize, status, window, hlen, if_true]
    rfl
  rw [if_neg (by omega)]
  have hb : ∀ i < 4, buf[pos + i]? = some (((buf.drop pos).take 4).getD i 0) :=
    fun i hi => getElem?_window (by omega) hi
  simp only [realize, status, window, hlen, if_false, statusOf]
  show _ = EStateM.map _ (do parseStatusFrom buf pos 0 0 [100, 10, 1]; pure (pos + 3)) prog
  show _ = EStateM.map _ (EStateM.bind (parseStatusFrom buf pos 0 0 [100, 10, 1]) _) prog
  simp only [EStateM.map, EStateM.bind]
  rw [parseStatusFrom_cons (hb 0 (by omega))]
  by_cases h₀ : IsDigit (((buf.drop pos).take 4).getD 0 0)
  swap
  · simp only [h₀, not_false_eq_true, if_true, if_false]
    rfl
  rw [if_pos h₀, parseStatusFrom_cons (hb 1 (by omega))]
  by_cases h₁ : IsDigit (((buf.drop pos).take 4).getD 1 0)
  swap
  · simp only [h₀, h₁, not_true, not_false_eq_true, if_true, if_false, Int32.zero_add]
    rfl
  rw [if_pos h₁, parseStatusFrom_cons (hb 2 (by omega))]
  by_cases h₂ : IsDigit (((buf.drop pos).take 4).getD 2 0)
  swap
  · simp only [h₀, h₁, h₂, not_true, not_false_eq_true, if_true, if_false, Int32.zero_add]
    rfl
  simp only [h₀, h₁, h₂, not_true, if_true, if_false, Int32.zero_add, Int32.one_mul]
  rfl

theorem stripSpaces_eq (buf : List UInt8) (start len : ℕ) (h : start + len ≤ buf.length) :
    stripSpaces buf start len =
      .ok (start + (len -
        (((buf.drop start).take len).dropWhile fun b => decide (b = SP)).length),
        (((buf.drop start).take len).dropWhile fun b => decide (b = SP)).length) := by
  induction len generalizing start with
  | zero => simp [stripSpaces]
  | succ len ih =>
      have hb : buf[start]? = some buf[start] := List.getElem?_eq_getElem (by omega)
      have hle := (List.dropWhile_sublist (l := (buf.drop (start + 1)).take len)
        fun b => decide (b = SP)).length_le
      rw [stripSpaces, index_eq_ok hb, take_drop_succ (by omega), List.dropWhile_cons]
      show (if buf[start] = SP then _ else _) = _
      by_cases hsp : buf[start] = SP
      · rw [if_pos hsp, ih _ (by omega), if_pos (decide_eq_true hsp)]
        simp at hle ⊢
        omega
      · rw [if_neg hsp, if_neg (by simpa using hsp)]
        simp
        omega

section

variable {S : Type} [HeaderSink S]

/-- What the response parser does with an event. -/
def publish (st : S × Progress) : Event → S × Progress
  | .method _ => st
  | .path _ => st
  | .version v => (st.1, { st.2 with version := some v })
  | .status v => setProgress st (publishStatus st.2 v)
  | .msg s => (st.1, { st.2 with msg := some s })
  | .header e => setHeaderState st (publishHeader (headerState st) e)

theorem realize_mapStatus (buf : List UInt8) (pos : ℕ) :
    realize publish (mapEvents .status status) buf pos =
      ((fun q => ((), q)) <$> zoom Prod.snd setProgress (parseStatus buf pos) :
        EStateM Fault (S × Progress) _) := by
  rw [← zoom_map, ← realize_status, zoom_realize publish] <;> intros <;> rfl

theorem realize_mapHeaders (cap : ℕ) (buf : List UInt8) (pos : ℕ) :
    realize publish (mapEvents .header (headers cap)) buf pos =
      ((fun q => ((), q)) <$> zoom headerState setHeaderState (parseHeadersFrom buf cap pos 0) :
        EStateM Fault (S × Progress) _) := by
  rw [← zoom_map, ← realize_headers, zoom_realize publish] <;> intros <;> rfl

/-- The reason is published once, in the form it ends up in. -/
theorem realize_reason (buf : List UInt8) (start len pos : ℕ) (h : start + len ≤ buf.length) :
    realize publish (reason start ((buf.drop start).take len)) buf pos =
      (do publishReason buf start len
          pure ((), pos) : EStateM Fault (S × Progress) _) := by
  unfold publishReason
  cases len with
  | zero => rfl
  | succ len =>
      have hb : buf[start]? = some buf[start] := List.getElem?_eq_getElem (by omega)
      have hlen : ((buf.drop start).take (len + 1)).length = len + 1 := by simp; omega
      have hstrip := stripSpaces_eq buf start (len + 1) h
      rw [take_drop_succ (by omega)] at hlen hstrip ⊢
      unfold reason
      simp only [index_eq_ok hb, Nat.add_eq_zero_iff, one_ne_zero, and_false, if_false, hlen,
        hstrip, lift_ok, pure_bind]
      by_cases hsp : buf[start] = SP
      · rw [if_pos hsp, if_pos hsp]
        rfl
      · rw [if_neg hsp, if_neg hsp]
        rfl

theorem preserves_publishReason (cap : ℕ) (buf : List UInt8) (start len : ℕ) :
    Preserves (fun st : S × Progress => HeaderSink.capacity st.1 = cap)
      (publishReason buf start len) := by
  refine .bind (.modify fun _ h => h) fun _ => ?_
  split
  · exact .pure ()
  · refine .bind (.lift _) fun b => ?_
    split
    · exact .bind (.lift _) fun r => .modify fun _ h => h
    · exact .throw _

theorem realize_reasonLine {α : Type} (k : Unit × ℕ → EStateM Fault (S × Progress) α)
    (buf : List UInt8) (pos : ℕ) :
    (realize publish text buf pos >>= fun r =>
        realize publish (reason r.1.1 r.1.2) buf r.2 >>= k) =
      (do let ((ms, ml), p) ← lift (getTokenToEol buf pos)
          publishReason buf ms ml
          k ((), p)) := by
  rw [lift_getTokenToEol, bind_map_left]
  refine realize_bind_congr fun r p l h => ?_
  obtain ⟨start, bytes⟩ := r
  obtain ⟨rfl, hbytes, -, b, hb, -⟩ := text_done h
  have hlen := (List.getElem?_eq_some_iff.mp hb).1
  have hreason := realize_reason (S := S) buf start bytes.length p hlen.le
  rw [← hbytes] at hreason
  simp only [hreason, bind_assoc, pure_bind]

/-- One space is required, and the others are skipped. -/
theorem realize_spaceThen (q : Unit → Reader UInt8 Event Unit) (buf : List UInt8) (pos : ℕ) :
    (realize publish peek buf pos >>= fun r =>
        realize publish (if r.1 ≠ SP then reject else spaces >>= q) buf r.2) =
      (do lift (requireSpace buf pos)
          let pos ← lift (skipSpacesFrom buf (pos + 1))
          realize publish (q ()) buf pos : EStateM Fault (S × Progress) _) := by
  rw [realize_peek_bind, requireSpace]
  cases hb : buf[pos]? with
  | none => rfl
  | some b =>
      by_cases hsp : b = SP
      · simp only [hsp, ne_eq, not_true, if_true, if_false, realize_bind, realize_spaces,
          bind_map_left]
        rfl
      · simp only [hsp, ne_eq, not_false_eq_true, if_true, if_false]
        rfl

/-- The response parser is the pre-check, then the program of the reader. -/
theorem parseResponse_eq (buf : List UInt8) (lastLen : ℕ) (st : S × Progress) :
    parseResponse buf lastLen st =
      (do lift (if lastLen ≠ 0 then isComplete buf lastLen else .ok ())
          let r ← realize publish (response (HeaderSink.capacity st.1)) buf 0
          pure r.2 : EStateM Fault (S × Progress) ℕ) st := by
  generalize hcap : HeaderSink.capacity st.1 = cap
  suffices h : AgreeOn (fun st : S × Progress => HeaderSink.capacity st.1 = cap)
      (parseResponse buf lastLen) _ from h.eq st hcap
  simp only [parseResponse, response, realize_bind, realize_version, realize_emit, bind_assoc,
    pure_bind]
  refine .lift_bind _ fun _ _ => .lift_bind _ fun v _ => .modify_bind_self ?_
  simp only [← bind_assoc (realize publish peek buf v.2)]
  rw [realize_spaceThen]
  simp only [bind_assoc, realize_bind, realize_mapStatus, bind_map_left]
  refine .lift_bind _ fun _ _ => .lift_bind _ fun _ _ => .bind (.zoom _) fun _ _ => ?_
  rw [realize_reasonLine]
  refine .lift_bind _ fun line _ => .bind (preserves_publishReason _ _ _ _) fun _ _ =>
    ⟨fun st hst => ?_⟩
  rw [realize_mapHeaders, ← hst]
  simp only [bind_map_left, bind_pure]
  rfl

/-- On a first call there is no pre-check. -/
theorem parseResponse_first (buf : List UInt8) (st : S × Progress) :
    parseResponse buf 0 st =
      (realize publish (response (HeaderSink.capacity st.1)) buf 0 >>= fun r => pure r.2 :
        EStateM Fault (S × Progress) ℕ) st := parseResponse_eq buf 0 st

end

end Response

end PicoHttpParser.Head.Port
