import PicoHttpParser.Head.Calls
import PicoHttpParser.Chunk.Equivalence

/-!
A program and the library it is linked with.

`integ_http11.c` is built twice from the same source, with the original and
with the port. What it calls is a parameter here: a `Library` is the five entry
points, at the addresses of the program's variables, and a call without a
defined outcome has none. `Answers` says what both libraries have in common.
-/

namespace PicoHttpParser.Loopback

open Head Chunk
open Rust (DecodeMem)

/-- Why the program stops: `FAIL`, or what has no defined outcome. What it has
printed by then is not kept. -/
inductive Stop where
  | fail (text : String)
  | undefined
  deriving DecidableEq

/-- The bytes of a string literal. -/
def cBytes (s : String) : List UInt8 := s.toList.map fun c => UInt8.ofNat c.toNat

/-- A C string ends at its first null byte. -/
def cString (bs : List UInt8) : List UInt8 := bs.takeWhile fun b => b ≠ 0

/-- The addresses of the variables the program passes. -/
structure Frame where
  request : Rust.RequestArgs
  response : Rust.ResponseArgs
  /-- `h2` -/
  h2 : ℕ
  /-- `&n2` -/
  n2 : ℕ
  decode : Rust.DecodeArgs
  request_nonNull : RequestNonNull request
  response_nonNull : ResponseNonNull response
  h2_ne : h2 ≠ 0
  n2_ne : n2 ≠ 0
  decoder_ne : decode.decoder ≠ 0
  bufsz_ne : decode.bufsz ≠ 0
  cbuf_ne : decode.buf ≠ 0

/-- Addresses that the variables could have. -/
def someFrame : Frame where
  request := ⟨1000, 1, 2, 3, 4, 5, 6, 7⟩
  response := ⟨6000, 1, 2, 3, 4, 5, 6⟩
  h2 := 8
  n2 := 9
  decode := ⟨10, 12000, 11⟩
  request_nonNull := by constructor <;> decide
  response_nonNull := by constructor <;> decide
  h2_ne := by decide
  n2_ne := by decide
  decoder_ne := by decide
  bufsz_ne := by decide
  cbuf_ne := by decide

/-- The entry points. `phr_parse_headers` is called for the bytes behind the
first `off` of the server's buffer. -/
structure Library where
  parseRequest (buf : List UInt8) (lastLen : ℕ) (mem : RequestMem) : Option (Int32 × RequestMem)
  parseResponse (buf : List UInt8) (lastLen : ℕ) (mem : ResponseMem) :
    Option (Int32 × ResponseMem)
  parseHeaders (off : ℕ) (buf : List UInt8) (lastLen : ℕ) (mem : HeaderMem) :
    Option (Int32 × HeaderMem)
  decodeChunked (decoder : PhrChunkedDecoder) (buf : List UInt8) : Option (ℤ × DecodeMem)
  isInData (decoder : PhrChunkedDecoder) : Int32

/-- The port. -/
def port (fr : Frame) : Library where
  parseRequest buf lastLen mem := some (Rust.phrParseRequest fr.request buf lastLen mem)
  parseResponse buf lastLen mem := some (Rust.phrParseResponse fr.response buf lastLen mem)
  parseHeaders off buf lastLen mem :=
    some (Rust.phrParseHeaders ⟨fr.request.buf + off, fr.h2, fr.n2⟩ buf lastLen mem)
  decodeChunked decoder buf := some (Rust.phrDecodeChunked fr.decode decoder buf)
  isInData decoder := Rust.phrDecodeChunkedIsInData fr.decode.decoder decoder

/-- The original. -/
def original (fr : Frame) : Library where
  parseRequest := Reference.phrParseRequest fr.request.buf
  parseResponse := Reference.phrParseResponse fr.response.buf
  parseHeaders off := Reference.phrParseHeaders (fr.request.buf + off)
  decodeChunked decoder buf :=
    (Reference.Chunked.phrDecodeChunked decoder buf).map fun r => (r.1, ⟨r.2.1, r.2.2.1, r.2.2.2⟩)
  isInData decoder := if Reference.Chunked.phrDecodeChunkedIsInData decoder then 1 else 0

/-- What the program relies on: every call it makes has an outcome, and it is
this one. -/
structure Answers (fr : Frame) (lib : Library) : Prop where
  parseRequest {buf : List UInt8} {lastLen : ℕ} (h : lastLen ≤ buf.length) (mem : RequestMem) :
    lib.parseRequest buf lastLen mem =
      some (Head.answer (Original.Request.publish fr.request.buf) (request mem.block.numHeaders)
        buf lastLen (Rust.RequestMem.zeroed mem))
  parseResponse {buf : List UInt8} {lastLen : ℕ} (h : lastLen ≤ buf.length) (mem : ResponseMem) :
    lib.parseResponse buf lastLen mem =
      some (Head.answer (Original.Response.publish fr.response.buf)
        (response mem.block.numHeaders) buf lastLen (Rust.ResponseMem.zeroed mem))
  parseHeaders (off : ℕ) {buf : List UInt8} {lastLen : ℕ} (h : lastLen ≤ buf.length)
    (mem : HeaderMem) :
    lib.parseHeaders off buf lastLen mem =
      some (Head.answer (Original.publishHeader (fr.request.buf + off)) (headers mem.numHeaders)
        buf lastLen { mem with numHeaders := 0 })
  decodeChunked {d : PhrChunkedDecoder} (h : Valid d) (buf : List UInt8) :
    lib.decodeChunked d buf = some (Rust.phrDecodeChunked fr.decode d buf)
  isInData (d : PhrChunkedDecoder) : lib.isInData d = if Rust.Chunked.isInData d then 1 else 0

section

variable (fr : Frame)

theorem Frame.decode_nonNull (buf : List UInt8) : DecodeNonNull fr.decode buf :=
  ⟨fr.decoder_ne, fr.bufsz_ne, .inl fr.cbuf_ne⟩

theorem answers_port : Answers fr (port fr) where
  parseRequest h mem := congrArg some (port_request h fr.request_nonNull mem)
  parseResponse h mem := congrArg some (port_response h fr.response_nonNull mem)
  parseHeaders off _ _ h mem := by
    have hbuf : fr.request.buf + off ≠ 0 := fun h0 =>
      fr.request_nonNull.buf (Nat.eq_zero_of_add_eq_zero_right h0)
    exact congrArg some (port_headers h ⟨hbuf, fr.h2_ne, fr.n2_ne⟩ mem)
  decodeChunked _ _ := rfl
  isInData _ := if_neg fr.decoder_ne

theorem answers_original : Answers fr (original fr) where
  parseRequest h mem := original_request h fr.request.buf mem
  parseResponse h mem := original_response h fr.response.buf mem
  parseHeaders off _ _ h mem := original_headers h (fr.request.buf + off) mem
  decodeChunked h buf := by
    show Option.map _ _ = _
    rw [call_agrees h (fr.decode_nonNull buf)]
    rfl
  isInData _ := rfl

end

/-- Either of the two. -/
inductive Linked (fr : Frame) : Library → Prop
  | port : Linked fr (port fr)
  | original : Linked fr (original fr)

theorem Linked.answers {fr : Frame} {lib : Library} (h : Linked fr lib) : Answers fr lib := by
  cases h with
  | port => exact answers_port fr
  | original => exact answers_original fr

end PicoHttpParser.Loopback
