import PicoHttpParser.Head.Program
import PicoHttpParser.Reference.Heads

/-!
The original implements the readers.

The original checks for the end of the buffer before it reads, and what it
does outside the buffer is not defined. So every statement here is about
positions inside the buffer, and each comes with the fact that the function
leaves the position there.
-/

namespace PicoHttpParser.Head.Original

open Incremental Incremental.Reader Reference

/-! ### Byte classes -/

theorem tokenCharMap_eq_zero (b : UInt8) : tokenCharMap.getD b.toNat 0 = 0 ↔ ¬IsTokenByte b := by
  refine forall_byte (P := fun b => tokenCharMap.getD b.toNat 0 = 0 ↔ ¬IsTokenByte b) ?_ b
  decide +kernel

theorem isCtl_eq (b : UInt8) : isCtl b = decide (¬IsTextByte b) := by
  refine forall_byte (P := fun b => isCtl b = decide (¬IsTextByte b)) ?_ b
  decide +kernel

theorem isPrintable_of_not_text {b : UInt8} (h : ¬IsTextByte b) : isPrintableAscii b = false := by
  revert h
  refine forall_byte (P := fun b => ¬IsTextByte b → isPrintableAscii b = false) ?_ b
  decide +kernel

theorem not_printable_and_control (b : UInt8) :
    (!isPrintableAscii b ∧ (b < 0o40 ∨ b = 0o177)) ↔ IsControl b := by
  refine forall_byte (P := fun b =>
    (!isPrintableAscii b ∧ (b < 0o40 ∨ b = 0o177)) ↔ IsControl b) ?_ b
  decide +kernel

/-! ### Reads inside the buffer -/

instance : Signals Stop := ⟨.ret (-2), .ret (-1)⟩

theorem deref_eq_ok {buf : List UInt8} {pos : ℕ} {b : UInt8} (h : buf[pos]? = some b) :
    deref buf pos = .ok b := by
  rw [deref, h]

theorem checkEof_of_lt {buf : List UInt8} {pos : ℕ} (h : pos < buf.length) :
    checkEof buf pos = .ok () := if_neg (by omega)

theorem checkEof_length (buf : List UInt8) : checkEof buf buf.length = .error Signals.more :=
  if_pos rfl

/-- A checked read waits at the end of the buffer. -/
theorem derefChecked_eq {buf : List UInt8} {pos : ℕ} (h : pos ≤ buf.length) :
    derefChecked buf pos =
      match buf[pos]? with
      | none => .error Signals.more
      | some b => .ok b := by
  cases hb : buf[pos]? with
  | none =>
      have hend : pos = buf.length := h.antisymm (List.getElem?_eq_none_iff.mp hb)
      rw [derefChecked, hend, checkEof_length]
      rfl
  | some b =>
      rw [derefChecked, checkEof_of_lt (List.getElem?_eq_some_iff.mp hb).1, deref_eq_ok hb]
      rfl

/-! ### Loops -/

theorem parseTokenFrom_eq {buf : List UInt8} {pos : ℕ} (c : UInt8) (h : pos ≤ buf.length) :
    (checkEof buf pos >>= fun _ => parseTokenFrom buf c pos) =
      (scanFrom (tokenAct c) buf pos).settle >>= fun r => .ok r.2 := by
  refine loop_eq_scan_of_le (fun p => checkEof buf p >>= fun _ => parseTokenFrom buf c p)
    (fun p hp => ?_) pos h
  cases hb : buf[p]? with
  | none =>
      have hend : p = buf.length := hp.antisymm (List.getElem?_eq_none_iff.mp hb)
      rw [hend, checkEof_length]
      rfl
  | some b =>
      have hread := deref_eq_ok hb
      rw [checkEof_of_lt (List.getElem?_eq_some_iff.mp hb).1, parseTokenFrom]
      simp only [bind, Except.bind]
      split <;> rename_i hd <;> rw [hread] at hd <;> cases hd
      simp only [tokenCharMap_eq_zero]
      by_cases hc : b = c
      · simp only [tokenAct, hc, if_true]
      · by_cases ht : IsTokenByte b
        · simp only [tokenAct, hc, ht, not_true, if_true, if_false]
        · simp only [tokenAct, hc, ht, not_false_eq_true, if_true, if_false]
          rfl

theorem advanceTokenFrom_eq {buf : List UInt8} {pos : ℕ} (h : pos ≤ buf.length) :
    (checkEof buf pos >>= fun _ => advanceTokenFrom buf pos) =
      (scanFrom targetAct buf pos).settle >>= fun r => .ok r.2 := by
  refine loop_eq_scan_of_le (fun p => checkEof buf p >>= fun _ => advanceTokenFrom buf p)
    (fun p hp => ?_) pos h
  cases hb : buf[p]? with
  | none =>
      have hend : p = buf.length := hp.antisymm (List.getElem?_eq_none_iff.mp hb)
      rw [hend, checkEof_length]
      rfl
  | some b =>
      have hread := deref_eq_ok hb
      rw [checkEof_of_lt (List.getElem?_eq_some_iff.mp hb).1, advanceTokenFrom]
      simp only [bind, Except.bind]
      split <;> rename_i hd <;> rw [hread] at hd <;> cases hd
      simp only [not_printable_and_control]
      by_cases hc : b = SP
      · simp only [targetAct, hc, if_true]
      · by_cases ht : IsControl b
        · simp only [targetAct, hc, ht, if_true, if_false]
          rfl
        · simp only [targetAct, hc, ht, if_false]

theorem skipWhitespace_eq {buf : List UInt8} {pos : ℕ} (h : pos ≤ buf.length) :
    skipWhitespace buf pos = (scanFrom blankAct buf pos).settle >>= fun r => .ok r.2 := by
  refine loop_eq_scan_of_le (skipWhitespace buf) (fun p hp => ?_) pos h
  have hread := derefChecked_eq hp
  rw [skipWhitespace]
  cases hb : buf[p]? with
  | none =>
      rw [hb] at hread
      split <;> rename_i hd <;> rw [hread] at hd <;> cases hd
      rfl
  | some b =>
      rw [hb] at hread
      split <;> rename_i hd <;> rw [hread] at hd <;> cases hd
      have hblank : IsBlank b ↔ b = SP ∨ b = HTAB := Iff.rfl
      by_cases hc : b = SP ∨ b = HTAB <;> simp [blankAct, hblank, hc]

/-- `do … while` looks at the position behind the one it starts from. -/
theorem skipSpaces_eq {buf : List UInt8} {pos : ℕ} (h : pos < buf.length) :
    skipSpaces buf pos = (scanFrom spaceAct buf (pos + 1)).settle >>= fun r => .ok r.2 := by
  have hloop := loop_eq_scan_of_le (f := spaceAct) (k := fun q => .ok q)
    (fun q => match derefChecked buf q with
      | .error e => .error e
      | .ok b => if b = SP then skipSpaces buf q else .ok q) (fun q hq => ?_) (pos + 1) h
  · rw [← hloop, skipSpaces]
    split <;> simp only [*]
  · rw [derefChecked_eq hq]
    cases hb : buf[q]? with
    | none => rfl
    | some b =>
        by_cases hsp : b = SP
        · simp only [spaceAct, hsp, if_true]
          rw [skipSpaces]
          split <;> simp only [*]
        · simp only [spaceAct, hsp, if_false]

theorem slowLoop_eq {buf : List UInt8} {pos : ℕ} (h : pos ≤ buf.length) :
    slowLoop buf pos = (scanFrom textAct buf pos).settle >>= fun r => .ok r.2 := by
  refine loop_eq_scan_of_le (slowLoop buf) (fun p hp => ?_) pos h
  have hread := derefChecked_eq hp
  rw [slowLoop]
  cases hb : buf[p]? with
  | none =>
      rw [hb] at hread
      split <;> rename_i hd <;> rw [hread] at hd <;> cases hd
      rfl
  | some b =>
      rw [hb] at hread
      split <;> rename_i hd <;> rw [hread] at hd <;> cases hd
      by_cases ht : IsTextByte b
      · simp [textAct, isCtl_eq, ht]
      · simp [textAct, isCtl_eq, isPrintable_of_not_text ht, ht]

/-! ### Rounds of eight

The fast loop is the slow one started further right. It leaves for
`FOUND_CTL` only at a byte at which the slow loop stops. -/

/-- A byte the fast loop steps over is text. -/
theorem textAct_of_printable {b : UInt8} (h : isPrintableAscii b = true) : textAct b = .skip := by
  by_contra hne
  have hnot : ¬IsTextByte b := fun ht => hne (if_pos ht)
  rw [isPrintable_of_not_text hnot] at h
  cases h

theorem scanFrom_succ {buf : List UInt8} {p : ℕ} {b : UInt8} (hb : buf[p]? = some b)
    (h : textAct b = .skip) : scanFrom textAct buf (p + 1) = scanFrom textAct buf p := by
  rw [scanFrom_some hb, h]

theorem doit_spec {buf : List UInt8} {k p : ℕ} (h : p + k ≤ buf.length) :
    ∃ q found, doit buf k p = .ok (q, found) ∧
      scanFrom textAct buf q = scanFrom textAct buf p ∧
      (found = false → q = p + k) ∧ (found = true → p ≤ q ∧ q < p + k) := by
  induction k generalizing p with
  | zero => exact ⟨p, false, rfl, rfl, by simp, by simp⟩
  | succ k ih =>
      have hb : buf[p]? = some buf[p] := List.getElem?_eq_getElem (by omega)
      rw [doit, deref_eq_ok hb]
      by_cases hprint : isPrintableAscii buf[p] = true
      · obtain ⟨q, found, hq, hscan, hfalse, htrue⟩ := ih (p := p + 1) (by omega)
        refine ⟨q, found, ?_, ?_, fun hf => ?_, fun hf => ?_⟩
        · show (if _ then _ else _) = _
          rw [if_neg (by simp [hprint]), hq]
        · rw [hscan, scanFrom_succ hb (textAct_of_printable hprint)]
        · have := hfalse hf
          omega
        · have := htrue hf
          omega
      · exact ⟨p, true, if_pos (by simpa using hprint), rfl, by simp, fun _ => by omega⟩

theorem fastLoop_spec {buf : List UInt8} {p : ℕ} (h : p ≤ buf.length) :
    ∃ q found, fastLoop buf p = .ok (q, found) ∧ q ≤ buf.length ∧
      scanFrom textAct buf q = scanFrom textAct buf p ∧
      (found = true → scanFrom textAct buf q = .done ((), q)) := by
  fun_induction fastLoop buf p with
  | case1 p hlen e hd =>
      obtain ⟨q, found, hq, -⟩ := doit_spec hlen
      rw [hd] at hq
      cases hq
  | case2 p hlen q hd ih =>
      obtain ⟨q', found, hq, hscan, hfalse, -⟩ := doit_spec hlen
      rw [hd] at hq
      obtain ⟨rfl, rfl⟩ := Prod.mk.inj (Except.ok.inj hq)
      have := hfalse rfl
      rw [← hscan]
      exact ih (by omega)
  | case3 p hlen q hd ih =>
      obtain ⟨q', found, hq, hscan, -, htrue⟩ := doit_spec hlen
      rw [hd] at hq
      obtain ⟨rfl, rfl⟩ := Prod.mk.inj (Except.ok.inj hq)
      have hlt := htrue rfl
      have hb : buf[q]? = some buf[q] := List.getElem?_eq_getElem (by omega)
      rw [deref_eq_ok hb]
      by_cases hctl : isCtl buf[q] = true
      · refine ⟨q, true, if_pos hctl, by omega, hscan, fun _ => ?_⟩
        rw [isCtl_eq, decide_eq_true_iff] at hctl
        rw [scanFrom_some hb, textAct, if_neg hctl]
      · have htext : textAct buf[q] = .skip := by
          rw [isCtl_eq, decide_eq_true_iff, not_not] at hctl
          exact if_pos hctl
        obtain ⟨q', found, hq', hle, hscan', hfound⟩ := ih (by omega)
        refine ⟨q', found, (if_neg hctl).trans hq', hle, ?_, hfound⟩
        rw [hscan', scanFrom_succ hb htext, hscan]
  | case4 p hlen => exact ⟨p, false, rfl, h, rfl, by simp⟩

/-! ### Parts of a head -/

section

variable {σ ω : Type} {publish : σ → ω → σ}

theorem parseToken_eq {buf : List UInt8} {pos : ℕ} (c : UInt8) (h : pos ≤ buf.length) :
    parseToken buf pos c =
      (scanFrom (tokenAct c) buf pos).settle >>= fun r => .ok ((pos, r.2 - pos), r.2) := by
  rw [parseToken, ← bind_assoc, parseTokenFrom_eq c h, bind_assoc]
  rfl

theorem realize_token {buf : List UInt8} {pos : ℕ} (c : UInt8) (h : pos ≤ buf.length) :
    realize publish (token c) buf pos = lift (parseToken buf pos c) := by
  rw [parseToken_eq c h]
  exact Head.realize_span _ _ _

theorem parseToken_lt {buf : List UInt8} {pos q : ℕ} {c : UInt8} {v : Span}
    (h : pos ≤ buf.length) (hp : parseToken buf pos c = .ok (v, q)) : q < buf.length := by
  rw [parseToken_eq c h] at hp
  obtain ⟨p, -, hlt, hq⟩ := scan_eq_ok hp
  exact (Prod.mk.inj hq).2 ▸ hlt

theorem advanceToken_eq {buf : List UInt8} {pos : ℕ} (h : pos ≤ buf.length) :
    advanceToken buf pos =
      (scanFrom targetAct buf pos).settle >>= fun r => .ok ((pos, r.2 - pos), r.2) := by
  rw [advanceToken, ← bind_assoc, advanceTokenFrom_eq h, bind_assoc]
  rfl

theorem realize_target {buf : List UInt8} {pos : ℕ} (h : pos ≤ buf.length) :
    realize publish target buf pos = lift (advanceToken buf pos) := by
  rw [advanceToken_eq h]
  exact Head.realize_span _ _ _

theorem advanceToken_lt {buf : List UInt8} {pos q : ℕ} {v : Span}
    (h : pos ≤ buf.length) (hp : advanceToken buf pos = .ok (v, q)) : q < buf.length := by
  rw [advanceToken_eq h] at hp
  obtain ⟨p, -, hlt, hq⟩ := scan_eq_ok hp
  exact (Prod.mk.inj hq).2 ▸ hlt

theorem skipSpaces_lt {buf : List UInt8} {pos q : ℕ} (h : pos < buf.length)
    (hp : skipSpaces buf pos = .ok q) : q < buf.length := by
  rw [skipSpaces_eq h] at hp
  obtain ⟨p, -, hlt, rfl⟩ := scan_eq_ok hp
  exact hlt

theorem skipWhitespace_lt {buf : List UInt8} {pos q : ℕ} (h : pos ≤ buf.length)
    (hp : skipWhitespace buf pos = .ok q) : q < buf.length := by
  rw [skipWhitespace_eq h] at hp
  obtain ⟨p, -, hlt, rfl⟩ := scan_eq_ok hp
  exact hlt

theorem realize_spaces {buf : List UInt8} {pos : ℕ} (h : pos < buf.length) :
    realize publish spaces buf pos = (fun q => ((), q)) <$> lift (skipSpaces buf pos) := by
  rw [spaces, realize_skipPast, skipSpaces_eq h]

theorem realize_blanks {buf : List UInt8} {pos : ℕ} (h : pos < buf.length) :
    realize publish (skipPast blankAct) buf pos =
      (fun q => ((), q)) <$> lift (skipWhitespace buf (pos + 1)) := by
  rw [realize_skipPast, skipWhitespace_eq h]

/-- `EXPECT_CHAR` behind a byte that is there. -/
theorem expectChar_eq {buf : List UInt8} {pos : ℕ} (ch : UInt8) (h : pos ≤ buf.length) :
    expectChar buf pos ch =
      match buf[pos]? with
      | none => .error Signals.more
      | some b => if b = ch then .ok (pos + 1) else .error Signals.fail := by
  cases hb : buf[pos]? with
  | none =>
      have hend : pos = buf.length := h.antisymm (List.getElem?_eq_none_iff.mp hb)
      rw [expectChar, hend, checkEof_length]
      rfl
  | some b =>
      rw [expectChar, checkEof_of_lt (List.getElem?_eq_some_iff.mp hb).1, expectCharNoCheck,
        deref_eq_ok hb]
      by_cases hch : b = ch
      · exact (if_neg (not_not.mpr hch)).trans (if_pos hch).symm
      · exact (if_pos hch).trans (if_neg hch).symm

theorem realize_eol {buf : List UInt8} {pos : ℕ} (h : pos < buf.length) :
    realize publish eol buf pos = (fun q => ((), q)) <$> lift (endOfLine buf pos) := by
  have hb : buf[pos]? = some buf[pos] := List.getElem?_eq_getElem h
  rw [eol, realize_bind, realize_next_bind, endOfLine, deref_eq_ok hb, hb, expectChar_eq LF h]
  simp only [lift_bind, lift_ok, pure_bind]
  split
  · rw [realize_bind, realize_next_bind]
    cases buf[pos + 1]? with
    | none => rfl
    | some c =>
        dsimp only
        split <;> rfl
  · split <;> rfl

theorem realize_emptyLine {buf : List UInt8} {pos : ℕ} (h : pos ≤ buf.length) :
    realize publish emptyLine buf pos = (fun q => ((), q)) <$> lift (skipEmptyLine buf pos) := by
  rw [emptyLine, realize_bind, realize_peek_bind, skipEmptyLine, derefChecked_eq h]
  cases hb : buf[pos]? with
  | none => rfl
  | some b =>
      have hlt := (List.getElem?_eq_some_iff.mp hb).1
      simp only [lift_bind, lift_ok, pure_bind]
      by_cases hcr : b = CR
      · rw [if_pos (.inl hcr), if_pos hcr, realize_eol hlt, endOfLine, deref_eq_ok hb]
        exact congrArg (fun x => (fun q => ((), q)) <$> lift x) (if_pos hcr)
      rw [if_neg hcr]
      by_cases hlf : b = LF
      · rw [if_pos (.inr hlf), if_pos hlf, realize_eol hlt, endOfLine, deref_eq_ok hb]
        exact congrArg (fun x => (fun q => ((), q)) <$> lift x) ((if_neg hcr).trans (if_pos hlf))
      · rw [if_neg (by simp [hcr, hlf]), if_neg hlf]
        rfl

/-- The label `FOUND_CTL` is the end of a line that has been found. -/
theorem foundCtl_eq {buf : List UInt8} {start pos : ℕ} (hle : start ≤ pos) (h : pos < buf.length) :
    foundCtl buf start pos =
      endOfLine buf pos >>= fun q => .ok ((start, pos - start), q) := by
  have hb : buf[pos]? = some buf[pos] := List.getElem?_eq_getElem h
  rw [foundCtl, endOfLine, deref_eq_ok hb]
  show (if _ then _ else _) = (if _ then _ else _) >>= _
  split
  · cases hq : expectChar buf (pos + 1) LF with
    | error e => rfl
    | ok q =>
        obtain ⟨rfl, -⟩ := expectChar_eq_ok hq
        have hlen : pos + 1 + 1 - 2 - start = pos - start := by omega
        show Except.ok ((start, pos + 1 + 1 - 2 - start), pos + 1 + 1) = _
        rw [hlen]
        rfl
  · split <;> rfl

/-- The value scan returns a span where the reader returns the bytes. -/
theorem lift_getTokenToEol (publish : σ → ω → σ) {buf : List UInt8} {pos : ℕ}
    (h : pos ≤ buf.length) :
    lift (getTokenToEol buf pos) =
      (fun r => ((r.1.1, r.1.2.length), r.2)) <$> realize publish text buf pos := by
  rw [realize_text (x := endOfLine buf) fun u q hq => realize_eol (scanFrom_done hq).2.1]
  obtain ⟨p, found, hp, hple, hscan, hfound⟩ := fastLoop_spec h
  have hstop : (if found then .ok p else slowLoop buf p : Res ℕ) =
      (scanFrom textAct buf pos).settle >>= fun r => .ok r.2 := by
    cases found with
    | false => rw [← hscan]; exact slowLoop_eq hple
    | true => rw [← hscan, hfound rfl]; rfl
  rw [getTokenToEol, hp]
  show lift ((if found then .ok p else slowLoop buf p) >>= fun p => foundCtl buf pos p) = _
  rw [hstop]
  cases hdone : scanFrom textAct buf pos with
  | more => rfl
  | fail => rfl
  | done r =>
      obtain ⟨u, q⟩ := r
      obtain ⟨hle, hlt, -⟩ := scanFrom_done hdone
      exact congrArg lift (foundCtl_eq hle hlt)

/-- A row of `EXPECT_CHAR_NO_CHECK`s compares a window. -/
theorem expectCharsNoCheck_eq (buf : List UInt8) (pos : ℕ) (chs : List UInt8)
    (h : pos + chs.length ≤ buf.length) :
    chs.foldlM (expectCharNoCheck buf) pos =
      if (buf.drop pos).take chs.length = chs then .ok (pos + chs.length)
      else .error Signals.fail := by
  induction chs generalizing pos with
  | nil => rfl
  | cons ch chs ih =>
      have hlt : pos < buf.length := by simp at h; omega
      have hb : buf[pos]? = some buf[pos] := List.getElem?_eq_getElem hlt
      rw [List.foldlM_cons, expectCharNoCheck, deref_eq_ok hb, List.length_cons,
        take_drop_succ hlt]
      show (if buf[pos] ≠ ch then _ else _) >>= _ = _
      by_cases hch : buf[pos] = ch
      · rw [if_neg (not_not.mpr hch)]
        show chs.foldlM (expectCharNoCheck buf) (pos + 1) = _
        rw [ih _ (by simp at h; omega)]
        simp only [hch, List.cons.injEq, true_and, Nat.add_assoc, Nat.add_comm 1]
      · rw [if_pos hch, if_neg (by simp [hch])]
        rfl

theorem parseInt_eq {buf : List UInt8} {pos : ℕ} {b : UInt8} (hb : buf[pos]? = some b)
    (mul : Int32) :
    parseInt buf pos mul =
      if IsDigit b then .ok (mul * digit b, pos + 1) else .error Signals.fail := by
  rw [parseInt, deref_eq_ok hb]
  show (if b < 0x30 ∨ 0x39 < b then _ else _) = _
  by_cases hd : IsDigit b
  · rw [if_pos hd, if_neg fun h => h.elim (UInt8.not_lt.mpr hd.1) (UInt8.not_lt.mpr hd.2)]
    rfl
  · rw [if_neg hd, if_pos]
    · rfl
    by_contra h
    exact hd ⟨UInt8.not_lt.mp fun h' => h (.inl h'), UInt8.not_lt.mp fun h' => h (.inr h')⟩

theorem realize_version (buf : List UInt8) (pos : ℕ) :
    realize publish version buf pos = lift (parseHttpVersion buf pos) := by
  rw [version, realize_window (fun w => by rw [versionOf]; split <;> rfl), parseHttpVersion]
  by_cases hlen : buf.length < pos + 9
  · rw [if_pos hlen, if_pos (by omega)]
    rfl
  rw [if_neg hlen, if_neg (by omega)]
  have hrow := expectCharsNoCheck_eq buf pos
    [0x48, 0x54, 0x54, 0x50, 0x2f, 0x31, 0x2e] (by simp; omega)
  have hb : buf[pos + 7]? = some (((buf.drop pos).take 9).getD 7 0) :=
    getElem?_window (by omega) (by omega)
  have htake : ((buf.drop pos).take 9).take 7 = (buf.drop pos).take 7 := by
    rw [List.take_take]
    rfl
  have hchain : (([0x48, 0x54, 0x54, 0x50, 0x2f, 0x31, 0x2e] : List UInt8).foldlM
      (expectCharNoCheck buf) pos >>= fun pos => parseInt buf pos 1) =
      if (buf.drop pos).take 7 = [0x48, 0x54, 0x54, 0x50, 0x2f, 0x31, 0x2e] ∧
          IsDigit (((buf.drop pos).take 9).getD 7 0) then
        .ok (digit (((buf.drop pos).take 9).getD 7 0), pos + 8)
      else .error Signals.fail := by
    rw [hrow]
    show (if (buf.drop pos).take 7 = _ then Except.ok (pos + 7) else _) >>= _ = _
    by_cases hw : (buf.drop pos).take 7 = [0x48, 0x54, 0x54, 0x50, 0x2f, 0x31, 0x2e]
    · rw [if_pos hw]
      show parseInt buf (pos + 7) 1 = _
      rw [parseInt_eq hb, Int32.one_mul]
      simp only [hw, true_and]
    · rw [if_neg hw, if_neg fun h => hw h.1]
      rfl
  simp only [List.foldlM_cons, List.foldlM_nil, bind_assoc, bind_pure] at hchain
  rw [hchain, versionOf, htake]
  by_cases hw : (buf.drop pos).take 7 = [0x48, 0x54, 0x54, 0x50, 0x2f, 0x31, 0x2e] ∧
      IsDigit (((buf.drop pos).take 9).getD 7 0)
  · rw [if_pos hw, if_pos hw]
  · rw [if_neg hw, if_neg hw]

end

/-! ### The pre-check -/

theorem realize_completeTurn {σ ω : Type} {publish : σ → ω → σ} {buf : List UInt8}
    (cnt : ℕ) {pos : ℕ} (h : pos ≤ buf.length) :
    realize publish (completeTurn cnt) buf pos =
      (fun r => (if r.2 = 2 then .inr () else .inl r.2, r.1)) <$>
        lift (isCompleteTurn buf pos cnt) := by
  rw [completeTurn, realize_bind, realize_next_bind, isCompleteTurn, derefChecked_eq h]
  cases hb : buf[pos]? with
  | none => rfl
  | some b =>
      have hlt := (List.getElem?_eq_some_iff.mp hb).1
      simp only [lift_bind, lift_ok, pure_bind]
      by_cases hcr : b = CR
      · rw [if_pos hcr, if_pos hcr, realize_bind, realize_next_bind, expectChar_eq LF hlt]
        cases hc : buf[pos + 1]? with
        | none =>
            have hend : pos + 1 = buf.length :=
              (Nat.succ_le_of_lt hlt).antisymm (List.getElem?_eq_none_iff.mp hc)
            rw [hend, checkEof_length]
            rfl
        | some c =>
            rw [checkEof_of_lt (List.getElem?_eq_some_iff.mp hc).1]
            by_cases hlf : c = LF <;> simp only [hlf, if_true, if_false] <;> rfl
      rw [if_neg hcr, if_neg hcr]
      by_cases hlf : b = LF
      · rw [if_pos hlf, if_pos hlf]
        rfl
      · rw [if_neg hlf, if_neg hlf]
        rfl

theorem isCompleteFrom_eq (buf : List UInt8) (pos cnt : ℕ) :
    isCompleteFrom buf pos cnt =
      isCompleteTurn buf pos cnt >>= fun r =>
        if r.2 = 2 then .ok r.1 else isCompleteFrom buf r.1 r.2 := by
  rw [isCompleteFrom]
  split <;> rename_i h <;> rw [h] <;> rfl

theorem lift_isCompleteFrom {σ ω : Type} (publish : σ → ω → σ) (buf : List UInt8) (cnt pos : ℕ)
    (hpos : pos ≤ buf.length) :
    lift (isCompleteFrom buf pos cnt) =
      (realize publish (iterate completeTurn cnt) buf pos >>= fun r => pure r.2 :
        EStateM Stop σ ℕ) := by
  refine realize_iterate_eq publish consumes_completeTurn
    (fun cnt pos => lift (isCompleteFrom buf pos cnt))
    (fun r => pure r.2) (fun cnt pos h => ?_) cnt pos hpos
  rw [realize_completeTurn cnt h, isCompleteFrom_eq, bind_map_left, lift_bind]
  refine congrArg _ (funext fun r => ?_)
  split <;> rfl

/-! ### The header block -/

theorem trimValue_eq (buf : List UInt8) (start len : ℕ) (h : start + len ≤ buf.length) :
    trimValue buf start len =
      .ok (((buf.drop start).take len).rdropWhile fun b => decide (IsBlank b)).length := by
  refine trim_eq (f := trimValue buf start) rfl (fun len b hb => ?_) len h
  rw [trimValue, deref_eq_ok hb]
  show (if _ then _ else _) = _
  by_cases hblank : IsBlank b
  · have htest : (!decide (b = SP ∨ b = HTAB)) = false := by
      rw [decide_eq_true (show b = SP ∨ b = HTAB from hblank)]
      rfl
    rw [if_pos hblank, htest]
    rfl
  · have htest : (!decide (b = SP ∨ b = HTAB)) = true := by
      rw [decide_eq_false (show ¬(b = SP ∨ b = HTAB) from hblank)]
      rfl
    rw [if_neg hblank, htest]
    rfl

/-- What the original does with an event of the header block. -/
def publishHeader (base : ℕ) (mem : HeaderMem) : HeaderEvent → HeaderMem
  | .name i name =>
    { mem with
      headers := Function.update mem.headers i
        { mem.headers i with
          name := match name with | some s => base + s.1 | none => 0
          nameLen := match name with | some s => s.2 | none => 0 } }
  | .value i v =>
    { headers := Function.update mem.headers i
        { mem.headers i with value := base + v.1, valueLen := v.2 }
      numHeaders := i + 1 }

section

variable {base : ℕ}

/-- The name part of a header, with the index in place of `*num_headers`. -/
theorem headerName_agree (buf : List UInt8) (pos i : ℕ) (b : UInt8) :
    AgreeOn (fun mem => mem.numHeaders = i) (headerName base buf pos b)
      (if i ≠ 0 ∧ IsBlank b then do
        modify fun mem => publishHeader base mem (.name i none)
        pure pos
      else do
        let (s, p) ← lift (parseToken buf pos 0x3a)
        modify fun mem => publishHeader base mem (.name i (some s))
        if s.2 = 0 then throw (.ret (-1)) else lift (skipWhitespace buf (p + 1))) := by
  refine .get_bind fun mem hmem => ?_
  subst hmem
  by_cases hcont : mem.numHeaders ≠ 0 ∧ IsBlank b
  · have htest : (!decide (mem.numHeaders ≠ 0 ∧ (b = SP ∨ b = HTAB))) = false := by
      rw [decide_eq_true (show mem.numHeaders ≠ 0 ∧ (b = SP ∨ b = HTAB) from hcont)]
      rfl
    rw [if_pos hcont, htest]
    rfl
  · have htest : (!decide (mem.numHeaders ≠ 0 ∧ (b = SP ∨ b = HTAB))) = true := by
      rw [decide_eq_false (show ¬(mem.numHeaders ≠ 0 ∧ (b = SP ∨ b = HTAB)) from hcont)]
      rfl
    rw [if_neg hcont, htest]
    refine (AgreeOn.lift_bind (I := fun m => m = mem) _ fun r _ => ⟨fun m hm => ?_⟩).eq mem rfl
    subst hm
    obtain ⟨⟨ns, nl⟩, p⟩ := r
    -- the length that was just written is read back
    show (if (Function.update m.headers m.numHeaders _ m.numHeaders).nameLen = 0 then _ else _ :
        EStateM Stop HeaderMem ℕ) _ =
      (if nl = 0 then throw (.ret (-1)) else lift (skipWhitespace buf (p + 1)) :
        EStateM Stop HeaderMem ℕ) _
    rw [Function.update_self]
    rfl

/-- The value part of a header, and the step to the next one. -/
theorem value_agree {buf : List UInt8} {pos : ℕ} (i : ℕ) (h : pos ≤ buf.length) :
    AgreeOn (fun mem => mem.numHeaders = i)
      (do let ((vs, vl), p) ← lift (getTokenToEol buf pos)
          let vl ← lift (trimValue buf vs vl)
          writeHeader fun h => { h with value := base + vs, valueLen := vl }
          modify fun mem => { mem with numHeaders := mem.numHeaders + 1 }
          pure (.inl p))
      ((fun r => Sum.inl r.2) <$> realize (publishHeader base) (value i) buf pos :
        EStateM Stop HeaderMem (ℕ ⊕ ℕ)) := by
  rw [value, realize_bind, lift_getTokenToEol (publishHeader base) h, bind_map_left,
    map_bind]
  refine .realize_bind (J := fun mem => mem.numHeaders = i) fun r p l hr => ?_
  obtain ⟨start, bytes⟩ := r
  obtain ⟨rfl, hbytes, rfl, b, hb, -⟩ := text_done hr
  have hlen := (List.getElem?_eq_some_iff.mp hb).1
  refine ⟨⟨fun mem hmem => ?_⟩, fun _ h => h⟩
  subst hmem
  dsimp only
  rw [trimValue_eq buf _ _ hlen.le, ← hbytes, realize_emit]
  rfl

/-- What a turn of the reader says, in the words of the original. -/
def turned : (ℕ ⊕ Unit) × ℕ → ℕ ⊕ ℕ
  | (.inl _, p) => .inl p
  | (.inr _, p) => .inr p

theorem headerTurn_agree {buf : List UInt8} {pos : ℕ} (cap i : ℕ) (h : pos ≤ buf.length) :
    AgreeOn (fun mem => mem.numHeaders = i) (Reference.headerTurn base buf cap pos)
      (turned <$> realize (publishHeader base) (Head.headerTurn cap i) buf pos) := by
  rw [Reference.headerTurn, Head.headerTurn, realize_bind, realize_peek_bind, derefChecked_eq h]
  cases hb : buf[pos]? with
  | none => exact .of_eq rfl
  | some b =>
      have hlt := (List.getElem?_eq_some_iff.mp hb).1
      simp only [lift_ok, pure_bind]
      by_cases hcr : b = CR
      · rw [if_pos hcr, if_pos (.inl hcr), realize_bind, realize_eol hlt, endOfLine, deref_eq_ok hb]
        refine .of_eq ?_
        simp only [bind_map_left, map_bind]
        exact congrArg (fun x => lift x >>= _) (if_pos hcr).symm
      rw [if_neg hcr]
      by_cases hlf : b = LF
      · rw [if_pos hlf, if_pos (.inr hlf), realize_bind, realize_eol hlt, endOfLine, deref_eq_ok hb]
        refine .of_eq ?_
        simp only [bind_map_left, map_bind]
        show _ = lift (if b = CR then _ else if b = LF then .ok (pos + 1) else _) >>= _
        rw [if_neg hcr, if_pos hlf]
        rfl
      rw [if_neg hlf, if_neg (by simp [hcr, hlf])]
      refine .get_bind fun mem hmem => ?_
      rw [hmem]
      by_cases hcap : i = cap
      · rw [if_pos hcap, if_pos hcap]
        rfl
      rw [if_neg hcap, if_neg hcap]
      refine AgreeOn.eq (I := fun mem => mem.numHeaders = i) ?_ mem hmem
      refine (headerName_agree buf pos i b).bind_left _ |>.trans ?_
      rw [realize_bind, header]
      by_cases hcont : i ≠ 0 ∧ IsBlank b
      · rw [if_pos hcont, if_pos hcont, bind_assoc, realize_bind, realize_emit]
        simp only [bind_assoc, pure_bind, map_bind]
        refine .modify_bind_self ?_
        refine (value_agree i h).trans (.of_eq ?_)
        rfl
      · rw [if_neg hcont, if_neg hcont, bind_assoc, realize_bind, realize_token _ h]
        simp only [bind_assoc, realize_bind, realize_emit, pure_bind, map_bind]
        refine .lift_bind _ fun r hr => .modify_bind_self ?_
        have hp := parseToken_lt h hr
        split
        · exact .of_eq rfl
        · simp only [realize_bind, realize_blanks hp, bind_map_left, bind_assoc]
          refine .lift_bind _ fun q hq => ?_
          exact (value_agree i (skipWhitespace_lt hp hq).le).trans (.of_eq rfl)

theorem parseHeaders_eq (buf : List UInt8) (cap pos : ℕ) :
    parseHeaders base buf cap pos =
      Reference.headerTurn base buf cap pos >>= fun
        | .inl pos' => parseHeaders base buf cap pos'
        | .inr pos' => pure pos' := by
  funext mem
  show _ = EStateM.bind _ _ mem
  rw [parseHeaders]
  split <;> simp only [EStateM.bind, *]
  rfl

theorem parseHeaders_agree (base cap : ℕ) {buf : List UInt8} {pos : ℕ} (h : pos ≤ buf.length) :
    AgreeOn (fun mem => mem.numHeaders = 0) (parseHeaders base buf cap pos)
      (realize (publishHeader base) (headers cap) buf pos >>= fun r => pure r.2) := by
  refine realize_iterate (consumes_headerTurn cap) (I := fun i mem => mem.numHeaders = i)
    (fun _ pos => parseHeaders base buf cap pos) _ (fun i pos hpos => ?_) ?_ 0 pos h
  · rw [parseHeaders_eq]
    refine ((headerTurn_agree cap i hpos).bind_left _).trans (.of_eq ?_)
    rw [bind_map_left]
    refine congrArg _ (funext fun r => ?_)
    obtain ⟨_ | _, p⟩ := r <;> rfl
  · intro i pos i' pos' l mem hturn _
    obtain ⟨rfl, n, v, rfl⟩ := headerTurn_done hturn
    rfl

end

/-! ### Positions between the parts -/

theorem skipEmptyLine_le {buf : List UInt8} {pos q : ℕ} (h : pos ≤ buf.length)
    (hp : skipEmptyLine buf pos = .ok q) : q ≤ buf.length := by
  have hrun : realize (fun (u : Unit) (_ : Unit) => u) emptyLine buf pos = _ := realize_emptyLine h
  rw [← lift_map] at hrun
  obtain ⟨l, hread⟩ := read_of_realize hrun (a := ()) (q := q) (by rw [hp]; rfl)
  exact reads_emptyLine.le_length h hread

theorem endOfLine_le {buf : List UInt8} {pos q : ℕ} (h : pos < buf.length)
    (hp : endOfLine buf pos = .ok q) : q ≤ buf.length := by
  have hrun : realize (fun (u : Unit) (_ : Unit) => u) eol buf pos = _ := realize_eol h
  rw [← lift_map] at hrun
  obtain ⟨l, hread⟩ := read_of_realize hrun (a := ()) (q := q) (by rw [hp]; rfl)
  exact consumes_eol.reads.le_length h.le hread

theorem getTokenToEol_le {buf : List UInt8} {pos q : ℕ} {v : Span} (h : pos ≤ buf.length)
    (hp : getTokenToEol buf pos = .ok (v, q)) : q ≤ buf.length := by
  have hrun := congrFun (lift_getTokenToEol (fun (u : Unit) (_ : Unit) => u) h) ()
  rw [hp] at hrun
  change EStateM.Result.ok (v, q) () = EStateM.map _ _ () at hrun
  obtain ⟨a, q', l, hr⟩ | ⟨l, hr⟩ | ⟨l, hr⟩ :=
    cases_read (text : Reader UInt8 Unit _) buf pos
  · simp only [EStateM.map, realize, hr] at hrun
    obtain ⟨-, rfl⟩ := Prod.mk.inj (EStateM.Result.ok.inj hrun).1
    exact consumes_text.reads.le_length h hr
  · simp [EStateM.map, realize, hr] at hrun
  · simp [EStateM.map, realize, hr] at hrun

theorem parseHttpVersion_lt {buf : List UInt8} {pos q : ℕ} {v : Int32}
    (hp : parseHttpVersion buf pos = .ok (v, q)) : q < buf.length := by
  have hrun : realize (fun (u : Unit) (_ : Unit) => u) version buf pos = _ :=
    realize_version buf pos
  obtain ⟨l, hread⟩ := read_of_realize hrun hp
  exact (version_done hread).2.1

/-! ### Requests -/

namespace Request

variable {base : ℕ}

/-- What the request parser does with an event. -/
def publish (base : ℕ) (mem : RequestMem) : Event → RequestMem
  | .method s => { mem with method := base + s.1, methodLen := s.2 }
  | .path s => { mem with path := base + s.1, pathLen := s.2 }
  | .version v => { mem with minorVersion := v }
  | .status _ => mem
  | .msg _ => mem
  | .header e => { mem with block := publishHeader base mem.block e }

theorem headers_agree (cap : ℕ) {buf : List UInt8} {pos : ℕ} (h : pos ≤ buf.length) :
    AgreeOn (fun mem => mem.block.numHeaders = 0)
      (zoom RequestMem.block (fun mem block => { mem with block := block })
        (parseHeaders base buf cap pos))
      (realize (publish base) (mapEvents .header (headers cap)) buf pos >>= fun r => pure r.2) := by
  refine (parseHeaders_agree base cap h).zoom.trans (.of_eq ?_)
  rw [bind_pure_comp, zoom_map, zoom_realize (publish base) (f := Event.header)] <;>
    intros <;> rfl

theorem parseRequest_agree (base : ℕ) (buf : List UInt8) (cap : ℕ) :
    AgreeOn (fun mem => mem.block.numHeaders = 0) (parseRequest base buf cap)
      (realize (publish base) (request cap) buf 0 >>= fun r => pure r.2) := by
  simp only [parseRequest, request, realize_bind, realize_emptyLine (Nat.zero_le buf.length),
    bind_map_left, bind_assoc]
  refine .lift_bind _ fun pos hpos => ?_
  have hpos := skipEmptyLine_le (Nat.zero_le _) hpos
  rw [realize_token SP hpos]
  simp only [realize_emit, bind_assoc, pure_bind]
  refine .lift_bind _ fun m hm => ?_
  have hpos := parseToken_lt hpos hm
  -- what is tested before the version was written two and one parts earlier
  refine .modify_bind (J := fun mem => mem.block.numHeaders = 0 ∧ mem.methodLen = m.1.2)
    (fun mem h => ⟨h, rfl⟩) ?_
  simp only [realize_spaces hpos, bind_map_left]
  refine .lift_bind _ fun p hp => ?_
  have hpos := skipSpaces_lt hpos hp
  rw [realize_target hpos.le]
  refine .lift_bind _ fun t ht => ?_
  have hpos := advanceToken_lt hpos.le ht
  refine .modify_bind (J := fun mem => mem.block.numHeaders = 0 ∧ mem.methodLen = m.1.2 ∧
    mem.pathLen = t.1.2) (fun mem h => ⟨h.1, h.2, rfl⟩) ?_
  simp only [realize_spaces hpos, bind_map_left]
  refine .lift_bind _ fun p hp => .get_bind fun mem hmem => ?_
  rw [hmem.2.1, hmem.2.2]
  refine AgreeOn.eq (I := fun mem => mem.block.numHeaders = 0) ?_ mem hmem.1
  split
  · exact .of_eq rfl
  · simp only [realize_bind, realize_version, realize_emit, bind_assoc, pure_bind]
    refine .lift_bind _ fun v hv => .modify_bind_self ?_
    have hpos := parseHttpVersion_lt hv
    simp only [realize_eol hpos, bind_map_left]
    refine .lift_bind _ fun q hq => headers_agree cap (endOfLine_le hpos hq)

end Request

/-! ### Responses -/

namespace Response

variable {base : ℕ}

/-- What the response parser does with an event. -/
def publish (base : ℕ) (mem : ResponseMem) : Event → ResponseMem
  | .method _ => mem
  | .path _ => mem
  | .version v => { mem with minorVersion := v }
  | .status v => { mem with status := v }
  | .msg s => { mem with msg := base + s.1, msgLen := s.2 }
  | .header e => { mem with block := publishHeader base mem.block e }

theorem headers_agree (cap : ℕ) {buf : List UInt8} {pos : ℕ} (h : pos ≤ buf.length) :
    AgreeOn (fun mem => mem.block.numHeaders = 0)
      (zoom ResponseMem.block (fun mem block => { mem with block := block })
        (parseHeaders base buf cap pos))
      (realize (publish base) (mapEvents .header (headers cap)) buf pos >>= fun r => pure r.2) := by
  refine (parseHeaders_agree base cap h).zoom.trans (.of_eq ?_)
  rw [bind_pure_comp, zoom_map, zoom_realize (publish base) (f := Event.header)] <;>
    intros <;> rfl

/-- Three digits, each added to the status that is already written. -/
theorem realize_status (buf : List UInt8) (pos : ℕ) :
    realize (publish base) (mapEvents .status status) buf pos =
      if buf.length - pos < 4 then throw (.ret (-2))
      else (fun q => ((), q)) <$> parseInt3 buf pos := by
  funext mem
  by_cases hlen : buf.length < pos + 4
  · rw [if_pos (by omega)]
    simp only [realize, mapEvents, status, window, hlen, if_true]
    rfl
  rw [if_neg (by omega)]
  have hdigit : ∀ i < 4, ∀ mul, parseInt buf (pos + i) mul =
      if IsDigit (((buf.drop pos).take 4).getD i 0) then
        .ok (mul * digit (((buf.drop pos).take 4).getD i 0), pos + i + 1)
      else .error Signals.fail :=
    fun i hi mul => parseInt_eq (getElem?_window (by omega) hi) mul
  have h₀ := hdigit 0 (by omega) 100
  have h₁ := hdigit 1 (by omega) 10
  have h₂ := hdigit 2 (by omega) 1
  simp only [realize, mapEvents, status, window, hlen, if_false, statusOf]
  show _ = EStateM.map _ (parseInt3 buf pos) mem
  rw [parseInt3]
  by_cases hd₀ : IsDigit (((buf.drop pos).take 4).getD 0 0)
  swap
  · rw [if_neg hd₀] at h₀
    simp only [hd₀, not_false_eq_true, if_true]
    rw [show parseInt buf pos 100 = _ from h₀]
    rfl
  rw [if_pos hd₀] at h₀
  rw [show parseInt buf pos 100 = _ from h₀]
  by_cases hd₁ : IsDigit (((buf.drop pos).take 4).getD 1 0)
  swap
  · rw [if_neg hd₁] at h₁
    simp only [hd₀, hd₁, not_true, not_false_eq_true, if_true, if_false, lift_ok, pure_bind,
      Nat.add_zero, h₁]
    rfl
  rw [if_pos hd₁] at h₁
  by_cases hd₂ : IsDigit (((buf.drop pos).take 4).getD 2 0)
  swap
  · rw [if_neg hd₂] at h₂
    simp only [hd₀, hd₁, hd₂, not_true, not_false_eq_true, if_true, if_false, lift_ok, pure_bind,
      Nat.add_zero, h₁, h₂]
    rfl
  rw [if_pos hd₂] at h₂
  simp only [hd₀, hd₁, hd₂, not_true, if_false, lift_ok, pure_bind, Nat.add_zero, h₁, h₂,
    Int32.one_mul]
  rfl

/-- The original strips spaces without counting what is left. It stops at the
line end at the latest. -/
theorem stripSpaces_eq (buf : List UInt8) (start len : ℕ) {e : UInt8}
    (hend : buf[start + 1 + len]? = some e) (he : e ≠ SP) :
    stripSpaces buf start (len + 1) =
      .ok (start + 1 + (len -
        (((buf.drop (start + 1)).take len).dropWhile fun b => decide (b = SP)).length),
        (((buf.drop (start + 1)).take len).dropWhile fun b => decide (b = SP)).length) := by
  have hlt := (List.getElem?_eq_some_iff.mp hend).1
  induction len generalizing start with
  | zero =>
      rw [stripSpaces, deref_eq_ok hend]
      exact if_neg he
  | succ len ih =>
      have hb : buf[start + 1]? = some buf[start + 1] := List.getElem?_eq_getElem (by omega)
      have hle := (List.dropWhile_sublist (l := (buf.drop (start + 1 + 1)).take len)
        fun b => decide (b = SP)).length_le
      rw [stripSpaces, deref_eq_ok hb, take_drop_succ (by omega), List.dropWhile_cons]
      show (if buf[start + 1] = SP then _ else _) = _
      by_cases hsp : buf[start + 1] = SP
      · rw [if_pos hsp, if_pos (decide_eq_true hsp),
          ih _ (by rw [← hend]; congr 1; omega) (by omega)]
        simp at hle ⊢
        omega
      · rw [if_neg hsp, if_neg (by simpa using hsp)]
        simp
        omega

/-- The reason is published once, in the form it ends up in. -/
theorem realize_reason (base : ℕ) {buf : List UInt8} {start len : ℕ} {e : UInt8}
    (hend : buf[start + len]? = some e) (he : e ≠ SP) (pos : ℕ) :
    realize (publish base) (reason start ((buf.drop start).take len)) buf pos =
      (do publishReason base buf start len
          pure ((), pos) : EStateM Stop ResponseMem _) := by
  have hlt := (List.getElem?_eq_some_iff.mp hend).1
  unfold publishReason
  cases len with
  | zero => rfl
  | succ len =>
      have hb : buf[start]? = some buf[start] := List.getElem?_eq_getElem (by omega)
      have hlen : ((buf.drop start).take (len + 1)).length = len + 1 := by simp; omega
      have hstrip := stripSpaces_eq buf start len
        (by rw [← hend]; congr 1; omega) he
      have hle := (List.dropWhile_sublist (l := (buf.drop (start + 1)).take len)
        fun b => decide (b = SP)).length_le
      rw [take_drop_succ (by omega)] at hlen ⊢
      unfold reason
      simp only [deref_eq_ok hb, Nat.add_one_ne_zero, if_false, hlen,
        hstrip, lift_ok, pure_bind]
      by_cases hsp : buf[start] = SP
      · have hkept : (buf[start] :: (buf.drop (start + 1)).take len).dropWhile
            (fun b => decide (b = SP)) =
            ((buf.drop (start + 1)).take len).dropWhile fun b => decide (b = SP) := by
          rw [List.dropWhile_cons, if_pos (decide_eq_true hsp)]
        have hstart : ∀ k ≤ len, start + (len + 1 - k) = start + 1 + (len - k) := by omega
        rw [if_pos hsp, if_pos hsp, hkept, hstart _ (hle.trans (List.length_take_le _ _))]
        rfl
      · rw [if_neg hsp, if_neg hsp]
        rfl

theorem realize_reasonLine {α : Type} (k : Unit × ℕ → EStateM Stop ResponseMem α)
    {buf : List UInt8} {pos : ℕ} (h : pos ≤ buf.length) :
    (realize (publish base) text buf pos >>= fun r =>
        realize (publish base) (reason r.1.1 r.1.2) buf r.2 >>= k) =
      (do let ((ms, ml), p) ← lift (getTokenToEol buf pos)
          publishReason base buf ms ml
          k ((), p)) := by
  rw [lift_getTokenToEol (publish base) h, bind_map_left]
  refine realize_bind_congr fun r p l hr => ?_
  obtain ⟨start, bytes⟩ := r
  obtain ⟨rfl, hbytes, -, e, he, htext⟩ := text_done hr
  have hreason := realize_reason base he (fun hsp => htext (by rw [hsp]; decide)) p
  rw [← hbytes] at hreason
  simp only [hreason, bind_assoc, pure_bind]

theorem preserves_publishReason (buf : List UInt8) (start len : ℕ) :
    Preserves (fun mem => mem.block.numHeaders = 0) (publishReason base buf start len) := by
  refine .bind (.modify fun _ h => h) fun _ => ?_
  split
  · exact .pure ()
  · refine .bind (.lift _) fun b => ?_
    split
    · exact .bind (.lift _) fun r => .modify fun _ h => h
    · exact .throw _

theorem preserves_parseInt3 (buf : List UInt8) (pos : ℕ) :
    Preserves (fun mem => mem.block.numHeaders = 0) (parseInt3 buf pos) :=
  .bind (.lift _) fun _ => .bind (.modify fun _ h => h) fun _ => .bind (.lift _) fun _ =>
    .bind (.modify fun _ h => h) fun _ => .bind (.lift _) fun _ =>
    .bind (.modify fun _ h => h) fun _ => .pure _

theorem parseInt_succ {buf : List UInt8} {pos q : ℕ} {mul v : Int32}
    (h : parseInt buf pos mul = .ok (v, q)) : q = pos + 1 := by
  obtain ⟨b, -, h⟩ := except_bind_eq_ok h
  split at h
  · cases h
  · exact (Prod.mk.inj (Except.ok.inj h)).2.symm

theorem parseInt3_add {buf : List UInt8} {pos q : ℕ} {mem mem' : ResponseMem}
    (h : parseInt3 buf pos mem = .ok q mem') : q = pos + 3 := by
  obtain ⟨d₀, s₀, h₀, h⟩ := bind_eq_ok h
  obtain ⟨-, s₁, -, h⟩ := bind_eq_ok h
  obtain ⟨d₁, s₂, h₁, h⟩ := bind_eq_ok h
  obtain ⟨-, s₃, -, h⟩ := bind_eq_ok h
  obtain ⟨d₂, s₄, h₂, h⟩ := bind_eq_ok h
  obtain ⟨-, s₅, -, h⟩ := bind_eq_ok h
  have e₀ := parseInt_succ (lift_eq_ok h₀).1
  have e₁ := parseInt_succ (lift_eq_ok h₁).1
  have e₂ := parseInt_succ (lift_eq_ok h₂).1
  have e := (EStateM.Result.ok.inj h).1
  omega

theorem parseResponse_agree (base : ℕ) (buf : List UInt8) (cap : ℕ) :
    AgreeOn (fun mem => mem.block.numHeaders = 0) (parseResponse base buf cap)
      (realize (publish base) (response cap) buf 0 >>= fun r => pure r.2) := by
  simp only [parseResponse, response, realize_bind, realize_version, realize_emit, bind_assoc,
    pure_bind, realize_peek_bind]
  refine .lift_bind _ fun v hv => .modify_bind_self ?_
  have hpos := parseHttpVersion_lt hv
  have hb : buf[v.2]? = some buf[v.2] := List.getElem?_eq_getElem hpos
  rw [deref_eq_ok hb, hb, lift_ok, pure_bind]
  dsimp only
  split
  · exact .of_eq rfl
  simp only [realize_bind, realize_spaces hpos, bind_map_left, bind_assoc, realize_status]
  refine .lift_bind _ fun p hp => ?_
  have hpos := skipSpaces_lt hpos hp
  split
  · exact .of_eq rfl
  simp only [bind_map_left]
  refine .bind (preserves_parseInt3 buf p) fun q ⟨_, _, hq⟩ => ?_
  have hpos : q ≤ buf.length := by
    rw [parseInt3_add hq]
    omega
  rw [realize_reasonLine _ hpos]
  refine .lift_bind _ fun line hline => .bind (preserves_publishReason _ _ _) fun _ _ => ?_
  exact headers_agree cap (getTokenToEol_le hpos hline)

end Response

end PicoHttpParser.Head.Original
