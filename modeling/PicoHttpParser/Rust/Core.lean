import PicoHttpParser.Lib.Program
import PicoHttpParser.Abi

/-!
The shared parsing core, `core.rs`.

A function that returns `Result<_, Error>` is an `Except`, and `?` is its
bind. A panic, from an index or a range outside its slice, is an outcome of
its own, which no function of the core catches. A function that takes
`&mut` arguments is an `EStateM` over what they point to: the writes made
before an error stay made.
-/

namespace PicoHttpParser.Rust

open Incremental

inductive Error where
  /-- Input is a strict prefix of a valid message: feed more bytes. -/
  | Partial
  /-- Input can never become valid no matter how it is extended. -/
  | Malformed
  deriving DecidableEq, Repr

/-- The ways a function of the core does not return a value. -/
inductive Fault where
  | err (e : Error)
  | panic
  deriving DecidableEq, Repr

abbrev Res := Except Fault

/-- `HeaderSink`: where parsed headers go. -/
class HeaderSink (S : Type) where
  capacity : S → ℕ
  setName : S → ℕ → Option Span → S
  setValue : S → ℕ → Span → S

/-- `buf.get(pos).ok_or(Error::Partial)?` -/
def get (buf : List UInt8) (pos : ℕ) : Res UInt8 :=
  match buf[pos]? with
  | none => .error (.err .Partial)
  | some b => .ok b

/-- `buf[pos]` -/
def index (buf : List UInt8) (pos : ℕ) : Res UInt8 :=
  match buf[pos]? with
  | none => .error .panic
  | some b => .ok b

/-- `buf.get(pos..pos + n)` -/
def getRange (buf : List UInt8) (pos n : ℕ) : Option (List UInt8) :=
  if pos + n ≤ buf.length then some ((buf.drop pos).take n) else none

/-! ### Byte classes -/

/-- One entry of `build_token_table`. -/
def tokenTableEntry (b : UInt8) : UInt8 :=
  if b = 0x21 ∨ b = 0x23 ∨ b = 0x24 ∨ b = 0x25 ∨ b = 0x26 ∨ b = 0x27 ∨ b = 0x2a ∨ b = 0x2b ∨
      b = 0x2d ∨ b = 0x2e ∨ b = 0x5e ∨ b = 0x5f ∨ b = 0x60 ∨ b = 0x7c ∨ b = 0x7e ∨
      (0x30 ≤ b ∧ b ≤ 0x39) ∨ (0x41 ≤ b ∧ b ≤ 0x5a) ∨ (0x61 ≤ b ∧ b ≤ 0x7a) then 1
  else 0

/-- `TOKEN_CHAR`, the table `build_token_table` builds. -/
def tokenChar : List UInt8 := (List.range 256).map fun b => tokenTableEntry (UInt8.ofNat b)

/-- `is_token_char`. The index is below 256. -/
def isTokenChar (b : UInt8) : Bool := tokenChar.getD b.toNat 0 != 0

/-- `is_printable_ascii`, in wrapping arithmetic. -/
def isPrintableAscii (b : UInt8) : Bool := b - 0x20 < 0x5f

def isAsciiDigit (b : UInt8) : Bool := 0x30 ≤ b && b ≤ 0x39

/-- `(b - b'0') as i32` -/
def digitValue (b : UInt8) : Int32 := Int32.ofNat (b - 0x30).toNat

/-! ### Expecting bytes -/

/-- `expect_byte`. The result is the advanced position. -/
def expectByte (buf : List UInt8) (pos : ℕ) (ch : UInt8) : Res ℕ :=
  match buf[pos]? with
  | none => .error (.err .Partial)
  | some b => if b = ch then .ok (pos + 1) else .error (.err .Malformed)

/-- The loop of `is_complete`. -/
def isCompleteFrom (buf : List UInt8) (pos retCnt : ℕ) : Res Unit :=
  match _h : buf[pos]? with
  | none => .error (.err .Partial)
  | some b =>
    if b = CR then
      match buf[pos + 1]? with
      | none => .error (.err .Partial)
      | some c =>
        if c = LF then
          if retCnt + 1 = 2 then .ok () else isCompleteFrom buf (pos + 2) (retCnt + 1)
        else .error (.err .Malformed)
    else if b = LF then
      if retCnt + 1 = 2 then .ok () else isCompleteFrom buf (pos + 1) (retCnt + 1)
    else isCompleteFrom buf (pos + 1) 0
  termination_by buf.length - pos
  decreasing_by
    all_goals
      have := (List.getElem?_eq_some_iff.mp _h).1
      omega

/-- `is_complete`. The subtraction of naturals saturates like the source's. -/
def isComplete (buf : List UInt8) (lastLen : ℕ) : Res Unit :=
  isCompleteFrom buf (lastLen - 3) 0

/-! ### Tokens -/

/-- The loop of `parse_token`. -/
def parseTokenFrom (buf : List UInt8) (nextChar : UInt8) (p : ℕ) : Res ℕ :=
  match _h : buf[p]? with
  | none => .error (.err .Partial)
  | some b =>
    if b = nextChar then .ok p
    else if !isTokenChar b then .error (.err .Malformed)
    else parseTokenFrom buf nextChar (p + 1)
  termination_by buf.length - p
  decreasing_by
    have := (List.getElem?_eq_some_iff.mp _h).1
    omega

/-- `parse_token` -/
def parseToken (buf : List UInt8) (pos : ℕ) (nextChar : UInt8) : Res (Span × ℕ) := do
  let p ← parseTokenFrom buf nextChar pos
  pure ((pos, p - pos), p)

/-! ### Values -/

/-- `SWAR_LO` -/
def swarLo : UInt64 := 0x0101010101010101

/-- `SWAR_HI` -/
def swarHi : UInt64 := 0x8080808080808080

/-- `u64::from_le_bytes` -/
def fromLeBytes (bs : List UInt8) : UInt64 := bs.foldr (fun b w => b.toUInt64 + 256 * w) 0

/-- `has_outside_printable` -/
def hasOutsidePrintable (x : UInt64) : Bool :=
  let less := (x - swarLo * 0x20) &&& ~~~x &&& swarHi
  let more := ((x + swarLo * (127 - 0x7e)) ||| x) &&& swarHi
  (less ||| more) != 0

/-- The first loop of `get_token_to_eol`, over windows of 16 bytes. -/
def prescan16 (buf : List UInt8) (p : ℕ) : ℕ :=
  match _h : getRange buf p 16 with
  | none => p
  | some w =>
    -- the two words of the window are tested one after the other
    if hasOutsidePrintable (fromLeBytes (w.take 8)) then p
    else if hasOutsidePrintable (fromLeBytes (w.drop 8)) then p + 8
    else prescan16 buf (p + 16)
  termination_by buf.length - p
  decreasing_by
    have : p + 16 ≤ buf.length := by
      by_contra hlen
      simp [getRange, hlen] at _h
    omega

/-- The second loop of `get_token_to_eol`, over windows of 8 bytes. -/
def prescan8 (buf : List UInt8) (p : ℕ) : ℕ :=
  match _h : getRange buf p 8 with
  | none => p
  | some w => if hasOutsidePrintable (fromLeBytes w) then p else prescan8 buf (p + 8)
  termination_by buf.length - p
  decreasing_by
    have : p + 8 ≤ buf.length := by
      by_contra hlen
      simp [getRange, hlen] at _h
    omega

/-- The last loop of `get_token_to_eol`, byte by byte. -/
def tokenToEolFrom (buf : List UInt8) (start p : ℕ) : Res (Span × ℕ) :=
  match _h : buf[p]? with
  | none => .error (.err .Partial)
  | some b =>
    if !isPrintableAscii b ∧ ((b < 0x20 ∧ b ≠ HTAB) ∨ b = DEL) then
      if b = CR then
        match buf[p + 1]? with
        | none => .error (.err .Partial)
        | some c => if c = LF then .ok ((start, p - start), p + 2) else .error (.err .Malformed)
      else if b = LF then .ok ((start, p - start), p + 1)
      else .error (.err .Malformed)
    else tokenToEolFrom buf start (p + 1)
  termination_by buf.length - p
  decreasing_by
    have := (List.getElem?_eq_some_iff.mp _h).1
    omega

/-- `get_token_to_eol` -/
def getTokenToEol (buf : List UInt8) (pos : ℕ) : Res (Span × ℕ) :=
  tokenToEolFrom buf pos (prescan8 buf (prescan16 buf pos))

/-- `parse_http_version`. The window is sliced after the length test. -/
def parseHttpVersion (buf : List UInt8) (pos : ℕ) : Res (Int32 × ℕ) :=
  if buf.length - pos < 9 then .error (.err .Partial)
  else
    match getRange buf pos 9 with
    | none => .error .panic
    | some w => do
      let d ← index w 7
      if w.take 7 ≠ [0x48, 0x54, 0x54, 0x50, 0x2f, 0x31, 0x2e] ∨ !isAsciiDigit d then
        .error (.err .Malformed)
      else .ok (digitValue d, pos + 8)

/-- The loop of `rtrim`, at `end - start = len`. -/
def rtrim (buf : List UInt8) (start : ℕ) : ℕ → Res ℕ
  | 0 => .ok 0
  | len + 1 => do
    let b ← index buf (start + len)
    if b = SP ∨ b = HTAB then rtrim buf start len else .ok (len + 1)

/-- The loop of `parse_headers` over optional whitespace. -/
def skipWhitespace (buf : List UInt8) (pos : ℕ) : Res ℕ :=
  match _h : buf[pos]? with
  | none => .error (.err .Partial)
  | some b => if b = SP ∨ b = HTAB then skipWhitespace buf (pos + 1) else .ok pos
  termination_by buf.length - pos
  decreasing_by
    have := (List.getElem?_eq_some_iff.mp _h).1
    omega

/-- The loop over SP that `skip_spaces` and `parse_response` share. -/
def skipSpacesFrom (buf : List UInt8) (pos : ℕ) : Res ℕ :=
  match _h : buf[pos]? with
  | none => .error (.err .Partial)
  | some b => if b = SP then skipSpacesFrom buf (pos + 1) else .ok pos
  termination_by buf.length - pos
  decreasing_by
    have := (List.getElem?_eq_some_iff.mp _h).1
    omega

/-! ### Where the loops leave off

The loop of `parse_headers` ends because every line it parses lies to the
right of the one before. -/

theorem le_prescan16 (buf : List UInt8) (p : ℕ) : p ≤ prescan16 buf p := by
  fun_induction prescan16 buf p <;> omega

theorem le_prescan8 (buf : List UInt8) (p : ℕ) : p ≤ prescan8 buf p := by
  fun_induction prescan8 buf p <;> omega

theorem tokenToEolFrom_bounds {buf : List UInt8} {start p q : ℕ} {v : Span}
    (h : tokenToEolFrom buf start p = .ok (v, q)) : p < q ∧ q ≤ buf.length := by
  fun_induction tokenToEolFrom buf start p with
  | case3 p _ _ hc =>
      have hlt := (List.getElem?_eq_some_iff.mp hc).1
      simp only [Except.ok.injEq, Prod.mk.injEq] at h
      omega
  | case5 p hb =>
      have hlt := (List.getElem?_eq_some_iff.mp hb).1
      simp only [Except.ok.injEq, Prod.mk.injEq] at h
      omega
  | case7 p _ _ _ ih =>
      have := ih h
      omega
  | _ => simp at h

theorem getTokenToEol_bounds {buf : List UInt8} {pos q : ℕ} {v : Span}
    (h : getTokenToEol buf pos = .ok (v, q)) : pos < q ∧ q ≤ buf.length := by
  have hle := (le_prescan16 buf pos).trans (le_prescan8 buf _)
  have hq := tokenToEolFrom_bounds h
  omega

theorem parseTokenFrom_le {buf : List UInt8} {nextChar : UInt8} {p q : ℕ}
    (h : parseTokenFrom buf nextChar p = .ok q) : p ≤ q := by
  fun_induction parseTokenFrom buf nextChar p with
  | case2 => simp_all
  | case4 p b _ _ _ ih =>
      have := ih h
      omega
  | _ => simp at h

theorem parseToken_le {buf : List UInt8} {nextChar : UInt8} {pos q : ℕ} {v : Span}
    (h : parseToken buf pos nextChar = .ok (v, q)) : pos ≤ q := by
  obtain ⟨p, hp, h⟩ := except_bind_eq_ok h
  obtain ⟨-, rfl⟩ := Prod.mk.inj (Except.ok.inj h)
  exact parseTokenFrom_le hp

theorem skipWhitespace_le {buf : List UInt8} {p q : ℕ}
    (h : skipWhitespace buf p = .ok q) : p ≤ q := by
  fun_induction skipWhitespace buf p with
  | case2 p b _ _ ih =>
      have := ih h
      omega
  | case3 => simp_all
  | _ => simp at h

/-! ### The header block -/

section

variable {S : Type} [HeaderSink S]

/-- `sink.set_name(i, name)` -/
def setName (i : ℕ) (name : Option Span) : EStateM Fault (S × ℕ) Unit :=
  modify fun st => (HeaderSink.setName st.1 i name, st.2)

/-- `sink.set_value(i, value)`, then `n += 1; *count = n` -/
def setValue (i : ℕ) (value : Span) : EStateM Fault (S × ℕ) Unit :=
  modify fun st => (HeaderSink.setValue st.1 i value, i + 1)

/-- One turn of the loop of `parse_headers`: past the blank line, which
ends it, or past one more header. -/
def headerTurn (buf : List UInt8) (max pos n : ℕ) : EStateM Fault (S × ℕ) (ℕ ⊕ ℕ) := do
  let b ← lift (get buf pos)
  if b = CR then
    let pos ← lift (expectByte buf (pos + 1) LF)
    pure (.inr pos)
  else if b = LF then pure (.inr (pos + 1))
  else if n = max then throw (.err .Malformed)
  else if n ≠ 0 ∧ (b = SP ∨ b = HTAB) then
    -- a continuation line, which the first line cannot be
    setName n none
    let ((vs, vl), p) ← lift (getTokenToEol buf pos)
    setValue n (vs, ← lift (rtrim buf vs vl))
    pure (.inl p)
  else
    let ((ns, nl), p) ← lift (parseToken buf pos 0x3a)
    -- the slot is written before the name is found to be empty
    setName n (some (ns, nl))
    if nl = 0 then throw (.err .Malformed)
    else
      let pos ← lift (skipWhitespace buf (p + 1))
      let ((vs, vl), p) ← lift (getTokenToEol buf pos)
      setValue n (vs, ← lift (rtrim buf vs vl))
      pure (.inl p)

theorem value_bounds {buf : List UInt8} {pos n pos' : ℕ} {st st' : S × ℕ}
    (h : (do let ((vs, vl), p) ← lift (getTokenToEol buf pos)
             setValue n (vs, ← lift (rtrim buf vs vl))
             pure (.inl p) : EStateM Fault (S × ℕ) (ℕ ⊕ ℕ)) st = .ok (.inl pos') st') :
    pos < pos' ∧ pos' ≤ buf.length := by
  obtain ⟨⟨⟨vs, vl⟩, p⟩, st₁, hv, h⟩ := bind_eq_ok h
  obtain ⟨n', st₂, -, h⟩ := bind_eq_ok h
  obtain ⟨u, st₃, -, h⟩ := bind_eq_ok h
  obtain rfl := Sum.inl.inj (EStateM.Result.ok.inj h).1
  exact getTokenToEol_bounds (lift_eq_ok hv).1

theorem headerTurn_bounds {buf : List UInt8} {max pos n pos' : ℕ} {st st' : S × ℕ}
    (h : headerTurn buf max pos n st = .ok (.inl pos') st') : pos < pos' ∧ pos' ≤ buf.length := by
  obtain ⟨b, st₁, -, h⟩ := bind_eq_ok h
  dsimp only at h
  split at h
  · obtain ⟨q, st₂, -, h⟩ := bind_eq_ok h
    exact absurd (EStateM.Result.ok.inj h).1 (by simp)
  split at h
  · exact absurd (EStateM.Result.ok.inj h).1 (by simp)
  split at h
  · cases h
  split at h
  · obtain ⟨-, st₂, -, h⟩ := bind_eq_ok h
    exact value_bounds h
  · obtain ⟨⟨⟨ns, nl⟩, p⟩, st₂, hname, h⟩ := bind_eq_ok h
    obtain ⟨-, st₃, -, h⟩ := bind_eq_ok h
    split at h
    · cases h
    obtain ⟨q, st₄, hws, h⟩ := bind_eq_ok h
    have hq := skipWhitespace_le (lift_eq_ok hws).1
    have hp := parseToken_le (lift_eq_ok hname).1
    have hv := value_bounds h
    omega

/-- The loop of `parse_headers`. -/
def parseHeadersFrom (buf : List UInt8) (max pos n : ℕ) : EStateM Fault (S × ℕ) ℕ := fun st =>
  match _h : headerTurn buf max pos n st with
  | .ok (.inl pos') st' => parseHeadersFrom buf max pos' (n + 1) st'
  | .ok (.inr pos') st' => .ok pos' st'
  | .error e st' => .error e st'
  termination_by buf.length - pos
  decreasing_by
    have := headerTurn_bounds _h
    omega

/-- `parse_headers`, over the sink and the count of completed headers. -/
def parseHeaders (buf : List UInt8) (pos : ℕ) : EStateM Fault (S × ℕ) ℕ := do
  let (sink, _) ← EStateM.get
  parseHeadersFrom buf (HeaderSink.capacity sink) pos 0

end

end PicoHttpParser.Rust
