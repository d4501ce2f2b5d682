import PicoHttpParser.Lib.Program
import PicoHttpParser.Abi

/-!
The head parsers of `picohttpparser.c`, compiled without SSE4.2.

A pointer into the buffer is an offset, `buf_end` is the length. A function
that sets `*ret` and returns `NULL` is an `Except`. A read at `buf_end` or
beyond is no value the C standard defines, and it is an outcome of its own:
what the macros guard against can then be told from what they leave open.
Without SSE4.2 `findchar_fast` returns its argument and reports nothing
found, so the `CHECK_EOF` after it always runs.
-/

namespace PicoHttpParser.Reference

open Incremental

/-- How a function leaves without a position. -/
inductive Stop where
  /-- `*ret = r; return NULL;` -/
  | ret (r : Int32)
  /-- A read outside the buffer, or a `size_t` counted down below zero. -/
  | undefined
  deriving DecidableEq, Repr

abbrev Res := Except Stop

/-- `*buf` -/
def deref (buf : List UInt8) (pos : ℕ) : Res UInt8 :=
  match buf[pos]? with
  | none => .error .undefined
  | some b => .ok b

/-- `CHECK_EOF()` -/
def checkEof (buf : List UInt8) (pos : ℕ) : Res Unit :=
  if pos = buf.length then .error (.ret (-2)) else .ok ()

/-- `CHECK_EOF()` and the read behind it. -/
def derefChecked (buf : List UInt8) (pos : ℕ) : Res UInt8 := do
  checkEof buf pos
  deref buf pos

/-- `EXPECT_CHAR_NO_CHECK(ch)` -/
def expectCharNoCheck (buf : List UInt8) (pos : ℕ) (ch : UInt8) : Res ℕ := do
  let b ← deref buf pos
  if b ≠ ch then .error (.ret (-1)) else .ok (pos + 1)

/-- `EXPECT_CHAR(ch)` -/
def expectChar (buf : List UInt8) (pos : ℕ) (ch : UInt8) : Res ℕ := do
  checkEof buf pos
  expectCharNoCheck buf pos ch

/-- `IS_PRINTABLE_ASCII(c)`, an `unsigned` subtraction. -/
def isPrintableAscii (c : UInt8) : Bool := c.toUInt32 - 0o40 < 0o137

/-- The test behind `unlikely(!IS_PRINTABLE_ASCII(*buf))` in `get_token_to_eol`. -/
def isCtl (c : UInt8) : Bool := (c < 0o40 && c != 0o11) || c == 0o177

/-- `token_char_map` -/
def tokenCharMap : List UInt8 :=
  [0, 0, 0, 0, 0, 0, 0, 0, 0, 0, 0, 0, 0, 0, 0, 0, 0, 0, 0, 0, 0, 0, 0, 0, 0, 0, 0, 0, 0, 0, 0, 0,
   0, 1, 0, 1, 1, 1, 1, 1, 0, 0, 1, 1, 0, 1, 1, 0, 1, 1, 1, 1, 1, 1, 1, 1, 1, 1, 0, 0, 0, 0, 0, 0,
   0, 1, 1, 1, 1, 1, 1, 1, 1, 1, 1, 1, 1, 1, 1, 1, 1, 1, 1, 1, 1, 1, 1, 1, 1, 1, 1, 0, 0, 0, 1, 1,
   1, 1, 1, 1, 1, 1, 1, 1, 1, 1, 1, 1, 1, 1, 1, 1, 1, 1, 1, 1, 1, 1, 1, 1, 1, 1, 1, 0, 1, 0, 1, 0,
   0, 0, 0, 0, 0, 0, 0, 0, 0, 0, 0, 0, 0, 0, 0, 0, 0, 0, 0, 0, 0, 0, 0, 0, 0, 0, 0, 0, 0, 0, 0, 0,
   0, 0, 0, 0, 0, 0, 0, 0, 0, 0, 0, 0, 0, 0, 0, 0, 0, 0, 0, 0, 0, 0, 0, 0, 0, 0, 0, 0, 0, 0, 0, 0,
   0, 0, 0, 0, 0, 0, 0, 0, 0, 0, 0, 0, 0, 0, 0, 0, 0, 0, 0, 0, 0, 0, 0, 0, 0, 0, 0, 0, 0, 0, 0, 0,
   0, 0, 0, 0, 0, 0, 0, 0, 0, 0, 0, 0, 0, 0, 0, 0, 0, 0, 0, 0, 0, 0, 0, 0, 0, 0, 0, 0, 0, 0, 0, 0]

theorem lt_of_deref {buf : List UInt8} {pos : ℕ} {b : UInt8} (h : deref buf pos = .ok b) :
    pos < buf.length := by
  cases hb : buf[pos]? with
  | none => simp [deref, hb] at h
  | some c => exact (List.getElem?_eq_some_iff.mp hb).1

theorem lt_of_derefChecked {buf : List UInt8} {pos : ℕ} {b : UInt8}
    (h : derefChecked buf pos = .ok b) : pos < buf.length := by
  obtain ⟨-, -, h⟩ := except_bind_eq_ok h
  exact lt_of_deref h

theorem expectChar_eq_ok {buf : List UInt8} {pos q : ℕ} {ch : UInt8}
    (h : expectChar buf pos ch = .ok q) : q = pos + 1 ∧ pos < buf.length := by
  obtain ⟨-, -, h⟩ := except_bind_eq_ok h
  obtain ⟨b, hb, h⟩ := except_bind_eq_ok h
  split at h
  · cases h
  · exact ⟨(Except.ok.inj h).symm, lt_of_deref hb⟩

/-! ### `get_token_to_eol` -/

/-- The remaining `DOIT()`s of one round: the position, and whether control
went to `NonPrintable`. -/
def doit (buf : List UInt8) : ℕ → ℕ → Res (ℕ × Bool)
  | 0, p => .ok (p, false)
  | k + 1, p => do
    let b ← deref buf p
    if !isPrintableAscii b then .ok (p, true) else doit buf k (p + 1)

theorem doit_bounds {buf : List UInt8} {k p q : ℕ} {found : Bool}
    (h : doit buf k p = .ok (q, found)) : p ≤ q ∧ (found = false → q = p + k) := by
  induction k generalizing p with
  | zero => simp_all [doit]
  | succ k ih =>
      obtain ⟨b, -, h⟩ := except_bind_eq_ok h
      split at h
      · obtain ⟨rfl, rfl⟩ := Prod.mk.inj (Except.ok.inj h)
        exact ⟨le_rfl, by simp⟩
      · obtain ⟨hle, hq⟩ := ih h
        refine ⟨by omega, fun hf => ?_⟩
        have := hq hf
        omega

/-- The loop over rounds of eight: the position, and whether control went to
`FOUND_CTL`. -/
def fastLoop (buf : List UInt8) (p : ℕ) : Res (ℕ × Bool) :=
  if _hlen : p + 8 ≤ buf.length then
    match _h : doit buf 8 p with
    | .error e => .error e
    | .ok (q, false) => fastLoop buf q
    | .ok (q, true) => do
      let b ← deref buf q
      -- a byte from 0x80 on is no control, and a new round begins behind it
      if isCtl b then .ok (q, true) else fastLoop buf (q + 1)
  else .ok (p, false)
  termination_by buf.length - p
  decreasing_by
    all_goals
      have := doit_bounds _h
      simp at this
      omega

/-- The loop byte by byte. -/
def slowLoop (buf : List UInt8) (p : ℕ) : Res ℕ :=
  match _h : derefChecked buf p with
  | .error e => .error e
  | .ok b => if !isPrintableAscii b && isCtl b then .ok p else slowLoop buf (p + 1)
  termination_by buf.length - p
  decreasing_by
    have := lt_of_derefChecked _h
    omega

/-- From the label `FOUND_CTL` on. -/
def foundCtl (buf : List UInt8) (start p : ℕ) : Res (Span × ℕ) := do
  let b ← deref buf p
  if b = CR then
    let q ← expectChar buf (p + 1) LF
    -- the length is measured from behind the CRLF
    .ok ((start, q - 2 - start), q)
  else if b = LF then .ok ((start, p - start), p + 1)
  else .error (.ret (-1))

/-- `get_token_to_eol` -/
def getTokenToEol (buf : List UInt8) (pos : ℕ) : Res (Span × ℕ) := do
  let (p, found) ← fastLoop buf pos
  let p ← (if found then .ok p else slowLoop buf p)
  foundCtl buf pos p

theorem fastLoop_le {buf : List UInt8} {p q : ℕ} {found : Bool}
    (h : fastLoop buf p = .ok (q, found)) : p ≤ q := by
  fun_induction fastLoop buf p with
  | case1 => cases h
  | case2 p _ q' hd ih =>
      have := (doit_bounds hd).1
      have := ih h
      omega
  | case3 p _ q' hd ih =>
      have := (doit_bounds hd).1
      obtain ⟨b, -, h⟩ := except_bind_eq_ok h
      split at h
      · simp_all
      · have := ih h
        omega
  | case4 => simp_all

theorem slowLoop_le {buf : List UInt8} {p q : ℕ} (h : slowLoop buf p = .ok q) : p ≤ q := by
  fun_induction slowLoop buf p with
  | case1 => cases h
  | case2 => simp_all
  | case3 p _ _ _ ih =>
      have := ih h
      omega

theorem foundCtl_bounds {buf : List UInt8} {start p q : ℕ} {v : Span}
    (h : foundCtl buf start p = .ok (v, q)) : p < q ∧ p < buf.length := by
  obtain ⟨b, hb, h⟩ := except_bind_eq_ok h
  refine ⟨?_, lt_of_deref hb⟩
  split at h
  · obtain ⟨q', hq, h⟩ := except_bind_eq_ok h
    obtain ⟨-, rfl⟩ := Prod.mk.inj (Except.ok.inj h)
    have := (expectChar_eq_ok hq).1
    omega
  · split at h
    · obtain ⟨-, rfl⟩ := Prod.mk.inj (Except.ok.inj h)
      omega
    · cases h

theorem getTokenToEol_bounds {buf : List UInt8} {pos q : ℕ} {v : Span}
    (h : getTokenToEol buf pos = .ok (v, q)) : pos < q ∧ pos < buf.length := by
  obtain ⟨⟨p, found⟩, hp, h⟩ := except_bind_eq_ok h
  obtain ⟨p', hp', h⟩ := except_bind_eq_ok h
  have hle := fastLoop_le hp
  have hle' : p ≤ p' := by
    cases found with
    | true => exact (Except.ok.inj hp').le
    | false => exact slowLoop_le hp'
  have := foundCtl_bounds h
  omega

/-! ### `is_complete` -/

/-- One turn of the loop of `is_complete`. -/
def isCompleteTurn (buf : List UInt8) (pos retCnt : ℕ) : Res (ℕ × ℕ) := do
  let b ← derefChecked buf pos
  if b = CR then
    checkEof buf (pos + 1)
    let pos ← expectChar buf (pos + 1) LF
    .ok (pos, retCnt + 1)
  else if b = LF then .ok (pos + 1, retCnt + 1)
  else .ok (pos + 1, 0)

theorem isCompleteTurn_bounds {buf : List UInt8} {pos retCnt pos' retCnt' : ℕ}
    (h : isCompleteTurn buf pos retCnt = .ok (pos', retCnt')) :
    pos < pos' ∧ pos < buf.length := by
  obtain ⟨b, hb, h⟩ := except_bind_eq_ok h
  refine ⟨?_, lt_of_derefChecked hb⟩
  split at h
  · obtain ⟨-, -, h⟩ := except_bind_eq_ok h
    obtain ⟨q, hq, h⟩ := except_bind_eq_ok h
    obtain ⟨rfl, -⟩ := Prod.mk.inj (Except.ok.inj h)
    have := (expectChar_eq_ok hq).1
    omega
  · split at h <;> obtain ⟨rfl, -⟩ := Prod.mk.inj (Except.ok.inj h) <;> omega

/-- The loop of `is_complete`. -/
def isCompleteFrom (buf : List UInt8) (pos retCnt : ℕ) : Res ℕ :=
  match _h : isCompleteTurn buf pos retCnt with
  | .error e => .error e
  | .ok (pos', retCnt') =>
    if retCnt' = 2 then .ok pos' else isCompleteFrom buf pos' retCnt'
  termination_by buf.length - pos
  decreasing_by
    have := isCompleteTurn_bounds _h
    omega

/-- `is_complete` -/
def isComplete (buf : List UInt8) (lastLen : ℕ) : Res ℕ :=
  isCompleteFrom buf (if lastLen < 3 then 0 else lastLen - 3) 0

/-! ### Tokens -/

/-- `PARSE_INT(valp_, mul_)`: the value written and the advanced position. -/
def parseInt (buf : List UInt8) (pos : ℕ) (mul : Int32) : Res (Int32 × ℕ) := do
  let b ← deref buf pos
  if b < 0x30 ∨ 0x39 < b then .error (.ret (-1))
  else .ok (mul * Int32.ofNat (b.toNat - 0x30), pos + 1)

/-- The loop of `parse_token`. -/
def parseTokenFrom (buf : List UInt8) (nextChar : UInt8) (p : ℕ) : Res ℕ :=
  match _h : deref buf p with
  | .error e => .error e
  | .ok b =>
    if b = nextChar then .ok p
    else if tokenCharMap.getD b.toNat 0 = 0 then .error (.ret (-1))
    else do
      checkEof buf (p + 1)
      parseTokenFrom buf nextChar (p + 1)
  termination_by buf.length - p
  decreasing_by
    have := lt_of_deref _h
    omega

/-- `parse_token` -/
def parseToken (buf : List UInt8) (pos : ℕ) (nextChar : UInt8) : Res (Span × ℕ) := do
  checkEof buf pos
  let p ← parseTokenFrom buf nextChar pos
  pure ((pos, p - pos), p)

/-- The loop of `ADVANCE_TOKEN`. -/
def advanceTokenFrom (buf : List UInt8) (p : ℕ) : Res ℕ :=
  match _h : deref buf p with
  | .error e => .error e
  | .ok b =>
    if b = SP then .ok p
    else if !isPrintableAscii b ∧ (b < 0o40 ∨ b = 0o177) then .error (.ret (-1))
    else do
      checkEof buf (p + 1)
      advanceTokenFrom buf (p + 1)
  termination_by buf.length - p
  decreasing_by
    have := lt_of_deref _h
    omega

/-- `ADVANCE_TOKEN(tok, toklen)` -/
def advanceToken (buf : List UInt8) (pos : ℕ) : Res (Span × ℕ) := do
  checkEof buf pos
  let p ← advanceTokenFrom buf pos
  pure ((pos, p - pos), p)

/-- `do { ++buf; CHECK_EOF(); } while (*buf == ' ');` -/
def skipSpaces (buf : List UInt8) (pos : ℕ) : Res ℕ :=
  match _h : derefChecked buf (pos + 1) with
  | .error e => .error e
  | .ok b => if b = SP then skipSpaces buf (pos + 1) else .ok (pos + 1)
  termination_by buf.length - pos
  decreasing_by
    have := lt_of_derefChecked _h
    omega

/-- `parse_http_version` -/
def parseHttpVersion (buf : List UInt8) (pos : ℕ) : Res (Int32 × ℕ) := do
  if buf.length - pos < 9 then .error (.ret (-2))
  else
    let pos ← expectCharNoCheck buf pos 0x48
    let pos ← expectCharNoCheck buf pos 0x54
    let pos ← expectCharNoCheck buf pos 0x54
    let pos ← expectCharNoCheck buf pos 0x50
    let pos ← expectCharNoCheck buf pos 0x2f
    let pos ← expectCharNoCheck buf pos 0x31
    let pos ← expectCharNoCheck buf pos 0x2e
    parseInt buf pos 1

/-! ### Headers -/

/-- The loop of `parse_headers` over the whitespace before a value. -/
def skipWhitespace (buf : List UInt8) (pos : ℕ) : Res ℕ :=
  match _h : derefChecked buf pos with
  | .error e => .error e
  | .ok b => if !(b = SP ∨ b = HTAB) then .ok pos else skipWhitespace buf (pos + 1)
  termination_by buf.length - pos
  decreasing_by
    have := lt_of_derefChecked _h
    omega

/-- The loop that removes trailing SPs and HTABs, at `value_end - value = len`. -/
def trimValue (buf : List UInt8) (value : ℕ) : ℕ → Res ℕ
  | 0 => .ok 0
  | len + 1 => do
    let c ← deref buf (value + len)
    if !(c = SP ∨ c = HTAB) then .ok (len + 1) else trimValue buf value len

/-- Write a part of the header at `*num_headers`. -/
def writeHeader (f : PhrHeader → PhrHeader) : EStateM Stop HeaderMem Unit :=
  modify fun mem =>
    let i := mem.numHeaders
    { mem with headers := Function.update mem.headers i (f (mem.headers i)) }

/-- The name part of one header, up to where its value starts. -/
def headerName (base : ℕ) (buf : List UInt8) (pos : ℕ) (b : UInt8) :
    EStateM Stop HeaderMem ℕ := do
  let mem ← EStateM.get
  if !(mem.numHeaders ≠ 0 ∧ (b = SP ∨ b = HTAB)) then
    let ((ns, nl), p) ← lift (parseToken buf pos 0x3a)
    writeHeader fun h => { h with name := base + ns, nameLen := nl }
    let mem ← EStateM.get
    if (mem.headers mem.numHeaders).nameLen = 0 then throw (.ret (-1))
    else lift (skipWhitespace buf (p + 1))
  else
    writeHeader fun h => { h with name := 0, nameLen := 0 }
    pure pos

/-- One turn of the loop of `parse_headers`, its `++*num_headers` included. -/
def headerTurn (base : ℕ) (buf : List UInt8) (maxHeaders pos : ℕ) :
    EStateM Stop HeaderMem (ℕ ⊕ ℕ) := do
  let b ← lift (derefChecked buf pos)
  if b = CR then
    let pos ← lift (expectChar buf (pos + 1) LF)
    pure (.inr pos)
  else if b = LF then pure (.inr (pos + 1))
  else
    let mem ← EStateM.get
    if mem.numHeaders = maxHeaders then throw (.ret (-1))
    else
      let pos ← headerName base buf pos b
      let ((vs, vl), p) ← lift (getTokenToEol buf pos)
      let vl ← lift (trimValue buf vs vl)
      writeHeader fun h => { h with value := base + vs, valueLen := vl }
      modify fun mem => { mem with numHeaders := mem.numHeaders + 1 }
      pure (.inl p)

theorem parseTokenFrom_le {buf : List UInt8} {nextChar : UInt8} {p q : ℕ}
    (h : parseTokenFrom buf nextChar p = .ok q) : p ≤ q := by
  fun_induction parseTokenFrom buf nextChar p with
  | case1 => cases h
  | case2 => simp_all
  | case3 => cases h
  | case4 p _ _ _ _ ih =>
      obtain ⟨-, -, h⟩ := except_bind_eq_ok h
      have := ih h
      omega

theorem skipWhitespace_le {buf : List UInt8} {p q : ℕ} (h : skipWhitespace buf p = .ok q) :
    p ≤ q := by
  fun_induction skipWhitespace buf p with
  | case1 => cases h
  | case2 => simp_all
  | case3 p _ _ _ ih =>
      have := ih h
      omega

theorem headerName_le {base : ℕ} {buf : List UInt8} {pos q : ℕ} {b : UInt8} {mem mem' : HeaderMem}
    (h : headerName base buf pos b mem = .ok q mem') : pos ≤ q := by
  obtain ⟨mem₀, mem₁, -, h⟩ := bind_eq_ok h
  dsimp only at h
  split at h
  · obtain ⟨⟨⟨ns, nl⟩, p⟩, mem₂, hname, h⟩ := bind_eq_ok h
    obtain ⟨-, mem₃, -, h⟩ := bind_eq_ok h
    obtain ⟨mem₄, mem₅, -, h⟩ := bind_eq_ok h
    dsimp only at h
    split at h
    · cases h
    obtain ⟨-, -, hname⟩ := except_bind_eq_ok (lift_eq_ok hname).1
    obtain ⟨p', hp, hname⟩ := except_bind_eq_ok hname
    obtain ⟨-, rfl⟩ := Prod.mk.inj (Except.ok.inj hname)
    have := parseTokenFrom_le hp
    have := skipWhitespace_le (lift_eq_ok h).1
    omega
  · obtain ⟨-, mem₂, -, h⟩ := bind_eq_ok h
    exact (EStateM.Result.ok.inj h).1.le

theorem headerTurn_bounds {base : ℕ} {buf : List UInt8} {maxHeaders pos pos' : ℕ}
    {mem mem' : HeaderMem} (h : headerTurn base buf maxHeaders pos mem = .ok (.inl pos') mem') :
    pos < pos' ∧ pos < buf.length := by
  obtain ⟨b, mem₁, hb, h⟩ := bind_eq_ok h
  have hlt := lt_of_derefChecked (lift_eq_ok hb).1
  dsimp only at h
  split at h
  · obtain ⟨q, mem₂, -, h⟩ := bind_eq_ok h
    exact absurd (EStateM.Result.ok.inj h).1 (by simp)
  split at h
  · exact absurd (EStateM.Result.ok.inj h).1 (by simp)
  obtain ⟨mem₂, mem₃, -, h⟩ := bind_eq_ok h
  split at h
  · cases h
  obtain ⟨q, mem₄, hname, h⟩ := bind_eq_ok h
  obtain ⟨⟨⟨vs, vl⟩, p⟩, mem₅, hv, h⟩ := bind_eq_ok h
  obtain ⟨vl', mem₆, -, h⟩ := bind_eq_ok h
  obtain ⟨-, mem₇, -, h⟩ := bind_eq_ok h
  obtain ⟨-, mem₈, -, h⟩ := bind_eq_ok h
  obtain rfl := Sum.inl.inj (EStateM.Result.ok.inj h).1
  have := headerName_le hname
  have := getTokenToEol_bounds (lift_eq_ok hv).1
  omega

/-- `parse_headers` -/
def parseHeaders (base : ℕ) (buf : List UInt8) (maxHeaders pos : ℕ) : EStateM Stop HeaderMem ℕ :=
  fun mem =>
    match _h : headerTurn base buf maxHeaders pos mem with
    | .ok (.inl pos') mem' => parseHeaders base buf maxHeaders pos' mem'
    | .ok (.inr pos') mem' => .ok pos' mem'
    | .error e mem' => .error e mem'
  termination_by buf.length - pos
  decreasing_by
    have := headerTurn_bounds _h
    omega

/-! ### The entry points -/

/-- The end of the request line. -/
def endOfLine (buf : List UInt8) (pos : ℕ) : Res ℕ := do
  let b ← deref buf pos
  if b = CR then expectChar buf (pos + 1) LF
  else if b = LF then .ok (pos + 1)
  else .error (.ret (-1))

/-- The first empty line of a request, if there is one. -/
def skipEmptyLine (buf : List UInt8) (pos : ℕ) : Res ℕ := do
  let b ← derefChecked buf pos
  if b = CR then expectChar buf (pos + 1) LF
  else if b = LF then .ok (pos + 1)
  else .ok pos

/-- `parse_request`. Each output is written when its scan returns. -/
def parseRequest (base : ℕ) (buf : List UInt8) (maxHeaders : ℕ) : EStateM Stop RequestMem ℕ := do
  let pos ← lift (skipEmptyLine buf 0)
  let ((ms, ml), p) ← lift (parseToken buf pos SP)
  modify fun mem => { mem with method := base + ms, methodLen := ml }
  let pos ← lift (skipSpaces buf p)
  let ((ps, pl), p) ← lift (advanceToken buf pos)
  modify fun mem => { mem with path := base + ps, pathLen := pl }
  let pos ← lift (skipSpaces buf p)
  -- the lengths are read back through the out-pointers
  let mem ← EStateM.get
  if mem.methodLen = 0 ∨ mem.pathLen = 0 then throw (.ret (-1))
  else
    let (v, pos) ← lift (parseHttpVersion buf pos)
    modify fun mem => { mem with minorVersion := v }
    let pos ← lift (endOfLine buf pos)
    zoom RequestMem.block (fun mem block => { mem with block := block })
      (parseHeaders base buf maxHeaders pos)

/-- The pre-check the three entry points begin with. -/
def precheck (buf : List UInt8) (lastLen : ℕ) : Res Unit := do
  if lastLen ≠ 0 then
    let _ ← isComplete buf lastLen
    .ok ()
  else .ok ()

/-- The return value of an entry point, unless it read outside the buffer. -/
def returned {σ : Type} : EStateM.Result Stop σ ℕ → Option (Int32 × σ)
  | .ok pos mem => some (Int32.ofNat pos, mem)
  | .error (.ret r) mem => some (r, mem)
  | .error .undefined _ => none

/-- `phr_parse_request` -/
def phrParseRequest (base : ℕ) (buf : List UInt8) (lastLen : ℕ) (mem : RequestMem) :
    Option (Int32 × RequestMem) :=
  let maxHeaders := mem.block.numHeaders
  let program : EStateM Stop RequestMem ℕ := do
    lift (precheck buf lastLen)
    parseRequest base buf maxHeaders
  returned <| program
    { method := 0, methodLen := 0, path := 0, pathLen := 0, minorVersion := -1,
      block := { mem.block with numHeaders := 0 } }

/-- `PARSE_INT_3(valp_)` on `status`. -/
def parseInt3 (buf : List UInt8) (pos : ℕ) : EStateM Stop ResponseMem ℕ := do
  let (res, pos) ← lift (parseInt buf pos 100)
  modify fun mem => { mem with status := res }
  let (res, pos) ← lift (parseInt buf pos 10)
  modify fun mem => { mem with status := mem.status + res }
  let (res, pos) ← lift (parseInt buf pos 1)
  modify fun mem => { mem with status := mem.status + res }
  pure pos

/-- `do { ++*msg; --*msg_len; } while (**msg == ' ');` -/
def stripSpaces (buf : List UInt8) (s : ℕ) : ℕ → Res Span
  -- `--*msg_len` would wrap
  | 0 => .error .undefined
  | l + 1 => do
    let b ← deref buf (s + 1)
    if b = SP then stripSpaces buf (s + 1) l else .ok (s + 1, l)

/-- What `parse_response` does with the reason line it has scanned. -/
def publishReason (base : ℕ) (buf : List UInt8) (ms ml : ℕ) : EStateM Stop ResponseMem Unit := do
  modify fun mem => { mem with msg := base + ms, msgLen := ml }
  if ml = 0 then pure ()
  else
    let b ← lift (deref buf ms)
    if b = SP then
      let (s, l) ← lift (stripSpaces buf ms ml)
      modify fun mem => { mem with msg := base + s, msgLen := l }
    else throw (.ret (-1))

/-- `parse_response` -/
def parseResponse (base : ℕ) (buf : List UInt8) (maxHeaders : ℕ) :
    EStateM Stop ResponseMem ℕ := do
  let (v, pos) ← lift (parseHttpVersion buf 0)
  modify fun mem => { mem with minorVersion := v }
  let b ← lift (deref buf pos)
  if b ≠ SP then throw (.ret (-1))
  else
    let pos ← lift (skipSpaces buf pos)
    if buf.length - pos < 4 then throw (.ret (-2))
    else
      let pos ← parseInt3 buf pos
      let ((ms, ml), p) ← lift (getTokenToEol buf pos)
      publishReason base buf ms ml
      zoom ResponseMem.block (fun mem block => { mem with block := block })
        (parseHeaders base buf maxHeaders p)

/-- `phr_parse_response` -/
def phrParseResponse (base : ℕ) (buf : List UInt8) (lastLen : ℕ) (mem : ResponseMem) :
    Option (Int32 × ResponseMem) :=
  let maxHeaders := mem.block.numHeaders
  let program : EStateM Stop ResponseMem ℕ := do
    lift (precheck buf lastLen)
    parseResponse base buf maxHeaders
  returned <| program
    { minorVersion := -1, status := 0, msg := 0, msgLen := 0,
      block := { mem.block with numHeaders := 0 } }

/-- `phr_parse_headers` -/
def phrParseHeaders (base : ℕ) (buf : List UInt8) (lastLen : ℕ) (mem : HeaderMem) :
    Option (Int32 × HeaderMem) :=
  let maxHeaders := mem.numHeaders
  let program : EStateM Stop HeaderMem ℕ := do
    lift (precheck buf lastLen)
    parseHeaders base buf maxHeaders 0
  returned <| program { mem with numHeaders := 0 }

end PicoHttpParser.Reference
