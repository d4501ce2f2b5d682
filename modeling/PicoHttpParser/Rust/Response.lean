import PicoHttpParser.Rust.Core

/-!
The response parser, `response.rs`.
-/

namespace PicoHttpParser.Rust.Response

open Incremental

/-- `Progress`: the outputs published so far. -/
structure Progress where
  version : Option Int32 := none
  status : Option Int32 := none
  msg : Option Span := none
  headers : ℕ := 0
  deriving DecidableEq, Repr

/-- The loop of `parse_status` over the remaining digits, from the `i`-th on. -/
def parseStatusFrom (buf : List UInt8) (pos i : ℕ) (v : Int32) :
    List Int32 → EStateM Fault Progress Unit
  | [] => pure ()
  | mul :: muls => do
    let d ← lift (index buf (pos + i))
    if !isAsciiDigit d then throw (.err .Malformed)
    else
      modify fun prog => { prog with status := some (v + mul * digitValue d) }
      parseStatusFrom buf pos (i + 1) (v + mul * digitValue d) muls

/-- `parse_status` -/
def parseStatus (buf : List UInt8) (pos : ℕ) : EStateM Fault Progress ℕ := do
  if buf.length - pos < 4 then throw (.err .Partial)
  else
    parseStatusFrom buf pos 0 0 [100, 10, 1]
    pure (pos + 3)

/-- The first `match` of `parse_response`: one space is required. -/
def requireSpace (buf : List UInt8) (pos : ℕ) : Res Unit :=
  match buf[pos]? with
  | none => .error (.err .Partial)
  | some b => if b = SP then .ok () else .error (.err .Malformed)

/-- The loop of `parse_response` that strips the leading spaces of the reason. -/
def stripSpaces (buf : List UInt8) (s : ℕ) : ℕ → Res Span
  | 0 => .ok (s, 0)
  | l + 1 => do
    let b ← index buf s
    if b = SP then stripSpaces buf (s + 1) l else .ok (s, l + 1)

section

variable {S : Type} [HeaderSink S]

/-- The argument `prog` of `parse_status`. -/
def setProgress (st : S × Progress) (prog : Progress) : S × Progress := (st.1, prog)

/-- The arguments `sink` and `&mut prog.headers` of `parse_headers`. -/
def headerState (st : S × Progress) : S × ℕ := (st.1, st.2.headers)

def setHeaderState (st : S × Progress) (t : S × ℕ) : S × Progress :=
  (t.1, { st.2 with headers := t.2 })

/-- What `parse_response` does with the reason line it has scanned. -/
def publishReason (buf : List UInt8) (ms ml : ℕ) : EStateM Fault (S × Progress) Unit := do
  modify fun st => (st.1, { st.2 with msg := some (ms, ml) })
  if ml = 0 then pure ()
  else
    let b ← lift (index buf ms)
    -- published whole first, and again when it has been stripped
    if b = SP then
      let (s, l) ← lift (stripSpaces buf ms ml)
      modify fun st => (st.1, { st.2 with msg := some (s, l) })
    else throw (.err .Malformed)

/-- `parse_response` -/
def parseResponse (buf : List UInt8) (lastLen : ℕ) : EStateM Fault (S × Progress) ℕ := do
  lift (if lastLen ≠ 0 then isComplete buf lastLen else .ok ())
  let (minorVersion, pos) ← lift (parseHttpVersion buf 0)
  modify fun st => (st.1, { st.2 with version := some minorVersion })
  lift (requireSpace buf pos)
  let pos ← lift (skipSpacesFrom buf (pos + 1))
  let pos ← zoom Prod.snd setProgress (parseStatus buf pos)
  let ((ms, ml), p) ← lift (getTokenToEol buf pos)
  publishReason buf ms ml
  zoom headerState setHeaderState (parseHeaders buf p)

end

end PicoHttpParser.Rust.Response
