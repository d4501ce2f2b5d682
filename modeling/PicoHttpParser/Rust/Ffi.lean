import PicoHttpParser.Rust.Request
import PicoHttpParser.Rust.Response

/-!
The C surface of the head parsers, `ffi.rs`.

An argument structure holds the addresses a caller passes, the memory
behind them is a record, and `data` is the `len` bytes at `buf`. The inner
function answers `none` where the core panics; the exported one turns that
into `-1`, like its `catch_unwind`.
-/

namespace PicoHttpParser.Rust

open Incremental

/-- `as c_int`, which keeps the low 32 bits. -/
def asCInt (n : ℕ) : Int32 := Int32.ofNat n

/-- `RawSink`: headers go straight into the caller's array. -/
structure RawSink where
  base : ℕ
  slots : ℕ → PhrHeader
  cap : ℕ

/-- `RawSink::set_name` on one slot. -/
def RawSink.name (base : ℕ) (h : PhrHeader) : Option Span → PhrHeader
  | some (off, len) => { h with name := base + off, nameLen := len }
  | none => { h with name := 0, nameLen := 0 }

/-- `RawSink::set_value` on one slot. -/
def RawSink.value (base : ℕ) (h : PhrHeader) (value : Span) : PhrHeader :=
  { h with value := base + value.1, valueLen := value.2 }

instance : HeaderSink RawSink where
  capacity sink := sink.cap
  setName sink i name :=
    { sink with
      slots := Function.update sink.slots i (RawSink.name sink.base (sink.slots i) name) }
  setValue sink i value :=
    { sink with
      slots := Function.update sink.slots i (RawSink.value sink.base (sink.slots i) value) }

/-- What `catch_unwind` makes of the inner function's outcome. -/
def catchUnwind {σ : Type} : Option Int32 × σ → Int32 × σ
  | (some r, mem) => (r, mem)
  | (none, mem) => (-1, mem)

/-! ### `phr_parse_request` -/

/-- The pointers passed to `phr_parse_request`. -/
structure RequestArgs where
  buf : ℕ
  method : ℕ
  methodLen : ℕ
  path : ℕ
  pathLen : ℕ
  minorVersion : ℕ
  headers : ℕ
  numHeaders : ℕ

/-- The outputs are zeroed first. -/
def RequestMem.zeroed (mem : RequestMem) : RequestMem where
  method := 0
  methodLen := 0
  path := 0
  pathLen := 0
  minorVersion := -1
  block := { mem.block with numHeaders := 0 }

/-- What is published on success and error alike. -/
def publishRequest (base : ℕ) (mem : RequestMem) (sink : RawSink) (prog : Request.Progress) :
    RequestMem where
  method := match prog.method with | some (off, _) => base + off | none => mem.method
  methodLen := match prog.method with | some (_, len) => len | none => mem.methodLen
  path := match prog.path with | some (off, _) => base + off | none => mem.path
  pathLen := match prog.path with | some (_, len) => len | none => mem.pathLen
  minorVersion := match prog.version with | some v => v | none => mem.minorVersion
  block := { headers := sink.slots, numHeaders := prog.headers }

/-- `parse_request_inner` -/
def parseRequestInner (a : RequestArgs) (data : List UInt8) (lastLen : ℕ) (mem : RequestMem) :
    Option Int32 × RequestMem :=
  if a.method = 0 ∨ a.methodLen = 0 ∨ a.path = 0 ∨ a.pathLen = 0 ∨ a.minorVersion = 0 ∨
      a.numHeaders = 0 ∨ (data.length ≠ 0 ∧ a.buf = 0) then (some (-1), mem)
  else
    let max := mem.block.numHeaders
    -- the outputs are zeroed before the header array is looked at
    let mem := RequestMem.zeroed mem
    if max ≠ 0 ∧ a.headers = 0 then (some (-1), mem)
    else
      let sink : RawSink := { base := a.buf, slots := mem.block.headers, cap := max }
      match Request.parseRequest data lastLen (sink, {}) with
      | .ok consumed (sink, prog) => (some (asCInt consumed), publishRequest a.buf mem sink prog)
      | .error (.err .Partial) (sink, prog) => (some (-2), publishRequest a.buf mem sink prog)
      | .error (.err .Malformed) (sink, prog) => (some (-1), publishRequest a.buf mem sink prog)
      -- the slots were written through a pointer, so a panic does not undo them
      | .error .panic (sink, _) =>
        (none, { mem with block := { mem.block with headers := sink.slots } })

/-- `phr_parse_request` -/
def phrParseRequest (a : RequestArgs) (data : List UInt8) (lastLen : ℕ) (mem : RequestMem) :
    Int32 × RequestMem := catchUnwind (parseRequestInner a data lastLen mem)

/-! ### `phr_parse_response` -/

/-- The pointers passed to `phr_parse_response`. -/
structure ResponseArgs where
  buf : ℕ
  minorVersion : ℕ
  status : ℕ
  msg : ℕ
  msgLen : ℕ
  headers : ℕ
  numHeaders : ℕ

/-- The outputs are zeroed first. -/
def ResponseMem.zeroed (mem : ResponseMem) : ResponseMem where
  minorVersion := -1
  status := 0
  msg := 0
  msgLen := 0
  block := { mem.block with numHeaders := 0 }

/-- What is published on success and error alike. -/
def publishResponse (base : ℕ) (mem : ResponseMem) (sink : RawSink) (prog : Response.Progress) :
    ResponseMem where
  minorVersion := match prog.version with | some v => v | none => mem.minorVersion
  status := match prog.status with | some v => v | none => mem.status
  msg := match prog.msg with | some (off, _) => base + off | none => mem.msg
  msgLen := match prog.msg with | some (_, len) => len | none => mem.msgLen
  block := { headers := sink.slots, numHeaders := prog.headers }

/-- `parse_response_inner` -/
def parseResponseInner (a : ResponseArgs) (data : List UInt8) (lastLen : ℕ) (mem : ResponseMem) :
    Option Int32 × ResponseMem :=
  if a.minorVersion = 0 ∨ a.status = 0 ∨ a.msg = 0 ∨ a.msgLen = 0 ∨ a.numHeaders = 0 ∨
      (data.length ≠ 0 ∧ a.buf = 0) then (some (-1), mem)
  else
    let max := mem.block.numHeaders
    let mem := ResponseMem.zeroed mem
    if max ≠ 0 ∧ a.headers = 0 then (some (-1), mem)
    else
      let sink : RawSink := { base := a.buf, slots := mem.block.headers, cap := max }
      match Response.parseResponse data lastLen (sink, {}) with
      | .ok consumed (sink, prog) => (some (asCInt consumed), publishResponse a.buf mem sink prog)
      | .error (.err .Partial) (sink, prog) => (some (-2), publishResponse a.buf mem sink prog)
      | .error (.err .Malformed) (sink, prog) => (some (-1), publishResponse a.buf mem sink prog)
      | .error .panic (sink, _) =>
        (none, { mem with block := { mem.block with headers := sink.slots } })

/-- `phr_parse_response` -/
def phrParseResponse (a : ResponseArgs) (data : List UInt8) (lastLen : ℕ) (mem : ResponseMem) :
    Int32 × ResponseMem := catchUnwind (parseResponseInner a data lastLen mem)

/-! ### `phr_parse_headers` -/

/-- The pointers passed to `phr_parse_headers`. -/
structure HeadersArgs where
  buf : ℕ
  headers : ℕ
  numHeaders : ℕ

/-- `parse_headers_inner`, where the pre-check returns before the count is
published. -/
def parseHeadersInner (a : HeadersArgs) (data : List UInt8) (lastLen : ℕ) (mem : HeaderMem) :
    Option Int32 × HeaderMem :=
  if a.numHeaders = 0 ∨ (data.length ≠ 0 ∧ a.buf = 0) then (some (-1), mem)
  else
    let max := mem.numHeaders
    let mem := { mem with numHeaders := 0 }
    if max ≠ 0 ∧ a.headers = 0 then (some (-1), mem)
    else
      let sink : RawSink := { base := a.buf, slots := mem.headers, cap := max }
      match (if lastLen ≠ 0 then isComplete data lastLen else .ok () : Res Unit) with
      | .error (.err .Partial) => (some (-2), mem)
      | .error (.err .Malformed) => (some (-1), mem)
      | .error .panic => (none, mem)
      | .ok () =>
        match parseHeaders data 0 (sink, 0) with
        | .ok pos (sink, count) =>
          (some (asCInt pos), { headers := sink.slots, numHeaders := count })
        | .error (.err .Partial) (sink, count) =>
          (some (-2), { headers := sink.slots, numHeaders := count })
        | .error (.err .Malformed) (sink, count) =>
          (some (-1), { headers := sink.slots, numHeaders := count })
        | .error .panic (sink, _) => (none, { mem with headers := sink.slots })

/-- `phr_parse_headers` -/
def phrParseHeaders (a : HeadersArgs) (data : List UInt8) (lastLen : ℕ) (mem : HeaderMem) :
    Int32 × HeaderMem := catchUnwind (parseHeadersInner a data lastLen mem)

end PicoHttpParser.Rust
