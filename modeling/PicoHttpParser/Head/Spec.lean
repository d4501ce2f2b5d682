import PicoHttpParser.Lib.Growth
import PicoHttpParser.Abi
import Mathlib.Data.List.DropRight

/-!
Message heads, as readers.

This is what both programs are for, said once: the head of a message is read
from left to right, every output is an event, and the event is published
when the part it belongs to has been read. Neither program is written like
this. The port publishes from a record after the fact and the original
through its caller's pointers; both are shown elsewhere to be the program of
these readers.
-/

namespace PicoHttpParser.Head

open Incremental Incremental.Reader

/-! ### Bytes -/

/-- The `tchar` of RFC 7230: visible, and no delimiter. -/
def IsTokenByte (b : UInt8) : Prop :=
  0x21 ≤ b ∧ b ≤ 0x7e ∧
    b ∉ [0x22, 0x28, 0x29, 0x2c, 0x2f, 0x3a, 0x3b, 0x3c, 0x3d, 0x3e, 0x3f, 0x40, 0x5b, 0x5c,
      0x5d, 0x7b, 0x7d]

instance : DecidablePred IsTokenByte := fun _ => inferInstanceAs (Decidable (_ ∧ _))

theorem not_isTokenByte_sp : ¬IsTokenByte SP := by decide

theorem not_isTokenByte_colon : ¬IsTokenByte 0x3a := by decide

/-- A control byte, DEL included. -/
def IsControl (b : UInt8) : Prop := b < 0x20 ∨ b = DEL

instance : DecidablePred IsControl := fun _ => inferInstanceAs (Decidable (_ ∨ _))

/-- What a header value or a reason phrase is made of. -/
def IsTextByte (b : UInt8) : Prop := ¬IsControl b ∨ b = HTAB

instance : DecidablePred IsTextByte := fun _ => inferInstanceAs (Decidable (_ ∨ _))

def IsBlank (b : UInt8) : Prop := b = SP ∨ b = HTAB

instance : DecidablePred IsBlank := fun _ => inferInstanceAs (Decidable (_ ∨ _))

def IsDigit (b : UInt8) : Prop := 0x30 ≤ b ∧ b ≤ 0x39

instance : DecidablePred IsDigit := fun _ => inferInstanceAs (Decidable (_ ∧ _))

theorem isDigit_zero : IsDigit 0x30 := by decide

/-- The value of a digit. -/
def digit (b : UInt8) : Int32 := Int32.ofNat (b.toNat - 0x30)

/-! ### Events -/

/-- A header of the block: `none` as a name marks a continuation line. -/
inductive HeaderEvent where
  | name (i : ℕ) (name : Option Span)
  | value (i : ℕ) (value : Span)
  deriving DecidableEq

inductive Event where
  | method (s : Span)
  | path (s : Span)
  | version (v : Int32)
  | status (v : Int32)
  | msg (s : Span)
  | header (e : HeaderEvent)
  deriving DecidableEq

/-! ### Parts of a head -/

section

variable {ω : Type}

/-- CRLF or LF. -/
def eol : Reader UInt8 ω Unit := do
  let b ← next
  if b = CR then
    let c ← next
    if c = LF then pure () else reject
  else if b = LF then pure () else reject

/-- One empty line, if there is one. -/
def emptyLine : Reader UInt8 ω Unit := do
  let b ← peek
  if b = CR ∨ b = LF then eol else pure ()

def tokenAct (stop b : UInt8) : Act :=
  if b = stop then .stop else if IsTokenByte b then .skip else .bad

/-- A token, possibly empty, up to the byte `stop`. -/
def token (stop : UInt8) : Reader UInt8 ω Span := do
  let start ← position
  scan (tokenAct stop)
  let p ← position
  pure (start, p - start)

def targetAct (b : UInt8) : Act :=
  if b = SP then .stop else if IsControl b then .bad else .skip

/-- A request target, possibly empty, up to a space. -/
def target : Reader UInt8 ω Span := do
  let start ← position
  scan targetAct
  let p ← position
  pure (start, p - start)

/-- The byte at the position, which delimits, and a run behind it. -/
def skipPast (f : UInt8 → Act) : Reader UInt8 ω Unit := do
  let _ ← next
  scan f

def spaceAct (b : UInt8) : Act := if b = SP then .skip else .stop

/-- The space at the position and those behind it. -/
def spaces : Reader UInt8 ω Unit := skipPast spaceAct

def blankAct (b : UInt8) : Act := if IsBlank b then .skip else .stop

def textAct (b : UInt8) : Act := if IsTextByte b then .skip else .stop

/-- The rest of a line: where it starts, and its bytes. -/
def text : Reader UInt8 ω (ℕ × List UInt8) := do
  let start ← position
  let (bytes, _) ← captured (scan textAct)
  eol
  pure (start, bytes)

/-- The decision on the nine bytes of `HTTP/1.x` and what follows. -/
def versionOf (w : List UInt8) : Option Int32 × List ω :=
  if w.take 7 = [0x48, 0x54, 0x54, 0x50, 0x2f, 0x31, 0x2e] ∧ IsDigit (w.getD 7 0) then
    (some (digit (w.getD 7 0)), [])
  else (none, [])

/-- `HTTP/1.x`, which is decided on when one more byte is there. -/
def version : Reader UInt8 ω Int32 := window 9 8 versionOf

/-- The decision on three digits, published digit by digit. -/
def statusOf (w : List UInt8) : Option Unit × List Int32 :=
  let d (i : ℕ) := w.getD i 0
  if ¬IsDigit (d 0) then (none, [])
  else if ¬IsDigit (d 1) then (none, [100 * digit (d 0)])
  else if ¬IsDigit (d 2) then (none, [100 * digit (d 0) + 10 * digit (d 1)])
  else (some (), [100 * digit (d 0) + 10 * digit (d 1) + digit (d 2)])

/-- Three digits, which are decided on when one more byte is there. -/
def status : Reader UInt8 Int32 Unit := window 4 3 statusOf

end

/-! ### The pre-check -/

section

variable {ω : Type}

/-- One turn of the pre-check: a line end that is one of `cnt + 1` in a row,
or a byte that ends the row. -/
def completeTurn (cnt : ℕ) : Reader UInt8 ω (ℕ ⊕ Unit) := do
  let b ← next
  if b = CR then
    let c ← next
    if c = LF then pure (if cnt + 1 = 2 then .inr () else .inl (cnt + 1)) else reject
  else if b = LF then pure (if cnt + 1 = 2 then .inr () else .inl (cnt + 1))
  else pure (.inl 0)

/-- Anything, up to two line ends in a row. -/
def complete : Reader UInt8 ω Unit := iterate completeTurn 0

end

/-! ### The header block -/

/-- A value, without the blanks at its end. -/
def value (i : ℕ) : Reader UInt8 HeaderEvent Unit := do
  let (start, bytes) ← text
  emit (.value i (start, (bytes.rdropWhile fun b => decide (IsBlank b)).length))

/-- One header: a name and a value, or the continuation of a value. -/
def header (i : ℕ) (b : UInt8) : Reader UInt8 HeaderEvent Unit := do
  if i ≠ 0 ∧ IsBlank b then
    emit (.name i none)
    value i
  else
    let name ← token 0x3a
    emit (.name i (some name))
    if name.2 = 0 then reject
    else
      skipPast blankAct
      value i

/-- One turn: the blank line, or the `i`-th header if there is room for it. -/
def headerTurn (cap i : ℕ) : Reader UInt8 HeaderEvent (ℕ ⊕ Unit) := do
  let b ← peek
  if b = CR ∨ b = LF then
    eol
    pure (.inr ())
  else if i = cap then reject
  else
    header i b
    pure (.inl (i + 1))

/-- A header block with room for `cap` headers. -/
def headers (cap : ℕ) : Reader UInt8 HeaderEvent Unit := iterate (headerTurn cap) 0

/-! ### Heads -/

/-- The head of a request. -/
def request (cap : ℕ) : Reader UInt8 Event Unit := do
  emptyLine
  let method ← token SP
  emit (.method method)
  spaces
  let path ← target
  emit (.path path)
  spaces
  if method.2 = 0 ∨ path.2 = 0 then reject
  else
    let v ← version
    emit (.version v)
    eol
    mapEvents .header (headers cap)

/-- The reason phrase: empty, or spaces and text. -/
def reason (start : ℕ) (bytes : List UInt8) : Reader UInt8 Event Unit :=
  let kept := bytes.dropWhile fun b => decide (b = SP)
  match bytes with
  | [] => emit (.msg (start, 0))
  | b :: _ =>
    if b = SP then emit (.msg (start + (bytes.length - kept.length), kept.length))
    else do
      emit (.msg (start, bytes.length))
      reject

/-- The head of a response. -/
def response (cap : ℕ) : Reader UInt8 Event Unit := do
  let v ← version
  emit (.version v)
  let b ← peek
  if b ≠ SP then reject
  else
    spaces
    mapEvents .status status
    let (start, bytes) ← text
    reason start bytes
    mapEvents .header (headers cap)

end PicoHttpParser.Head
