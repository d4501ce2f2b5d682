import PicoHttpParser.Rust.Core

/-!
The request parser, `request.rs`.
-/

namespace PicoHttpParser.Rust.Request

open Incremental

/-- `Progress`: the outputs published so far. -/
structure Progress where
  method : Option Span := none
  path : Option Span := none
  version : Option Int32 := none
  headers : ℕ := 0
  deriving DecidableEq, Repr

/-- The loop of `parse_path`. -/
def parsePathFrom (buf : List UInt8) (p : ℕ) : Res ℕ :=
  match _h : buf[p]? with
  | none => .error (.err .Partial)
  | some b =>
    if b = SP then .ok p
    else if ¬b - 0x20 < 0x5f ∧ (b < 0x20 ∨ b = DEL) then .error (.err .Malformed)
    else parsePathFrom buf (p + 1)
  termination_by buf.length - p
  decreasing_by
    have := (List.getElem?_eq_some_iff.mp _h).1
    omega

/-- `parse_path` -/
def parsePath (buf : List UInt8) (pos : ℕ) : Res (Span × ℕ) := do
  let p ← parsePathFrom buf pos
  pure ((pos, p - pos), p)

/-- `skip_spaces` -/
def skipSpaces (buf : List UInt8) (pos : ℕ) : Res ℕ := skipSpacesFrom buf (pos + 1)

/-- The first `match` of `parse_request`: one leading empty line. -/
def skipEmptyLine (buf : List UInt8) (pos : ℕ) : Res ℕ :=
  match buf[pos]? with
  | none => .error (.err .Partial)
  | some b =>
    if b = CR then
      match buf[pos + 1]? with
      | none => .error (.err .Partial)
      | some c => if c = LF then .ok (pos + 2) else .error (.err .Malformed)
    else if b = LF then .ok (pos + 1)
    else .ok pos

/-- The second `match` of `parse_request`: the end of the request line. -/
def endOfLine (buf : List UInt8) (pos : ℕ) : Res ℕ :=
  match buf[pos]? with
  | none => .error (.err .Partial)
  | some b =>
    if b = CR then
      match buf[pos + 1]? with
      | none => .error (.err .Partial)
      | some c => if c = LF then .ok (pos + 2) else .error (.err .Malformed)
    else if b = LF then .ok (pos + 1)
    else .error (.err .Malformed)

section

variable {S : Type} [HeaderSink S]

/-- The arguments `sink` and `&mut prog.headers` of `parse_headers`. -/
def headerState (st : S × Progress) : S × ℕ := (st.1, st.2.headers)

def setHeaderState (st : S × Progress) (t : S × ℕ) : S × Progress :=
  (t.1, { st.2 with headers := t.2 })

/-- `parse_request` -/
def parseRequest (buf : List UInt8) (lastLen : ℕ) : EStateM Fault (S × Progress) ℕ := do
  lift (if lastLen ≠ 0 then isComplete buf lastLen else .ok ())
  let pos ← lift (skipEmptyLine buf 0)
  let ((ms, ml), p) ← lift (parseToken buf pos SP)
  modify fun st => (st.1, { st.2 with method := some (ms, ml) })
  let pos ← lift (skipSpaces buf p)
  let ((ps, pl), p) ← lift (parsePath buf pos)
  modify fun st => (st.1, { st.2 with path := some (ps, pl) })
  let pos ← lift (skipSpaces buf p)
  -- both have been published by now, empty or not
  if ml = 0 ∨ pl = 0 then throw (.err .Malformed)
  else
    let (minorVersion, pos) ← lift (parseHttpVersion buf pos)
    modify fun st => (st.1, { st.2 with version := some minorVersion })
    let pos ← lift (endOfLine buf pos)
    zoom headerState setHeaderState (parseHeaders buf pos)

end

end PicoHttpParser.Rust.Request
