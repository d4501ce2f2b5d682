import Mathlib.Data.Nat.Notation
import Mathlib.Logic.Function.Basic

/-!
What both programs share: the bytes they compare with and the memory of
their caller.

A pointer is an address, `0` is the null pointer, and a pointer into the
input is the address of the input plus an offset. The header array is a
function from slot numbers, so that a write past the end of the array would
be a write like any other and would have to be ruled out by proof. A
`size_t` of the head parsers is a natural number: it counts bytes or
headers of a buffer in memory. The fields of the chunked decoder, which a
caller may fill with anything, have their width.
-/

namespace PicoHttpParser

abbrev CR : UInt8 := 0x0d
abbrev LF : UInt8 := 0x0a
abbrev SP : UInt8 := 0x20
abbrev HTAB : UInt8 := 0x09
abbrev DEL : UInt8 := 0x7f

/-- A property of bytes is decided by trying all of them. -/
theorem forall_byte {P : UInt8 → Prop} (h : ∀ n < 256, P (UInt8.ofNat n)) (b : UInt8) : P b := by
  have hb := h b.toNat b.toNat_lt
  rwa [UInt8.ofNat_toNat] at hb

/-- Offset and length of a part of the input. -/
abbrev Span := ℕ × ℕ

/-- `struct phr_header`. A null `name` marks a continuation line. -/
structure PhrHeader where
  name : ℕ
  nameLen : ℕ
  value : ℕ
  valueLen : ℕ
  deriving DecidableEq, Repr

/-- `struct phr_chunked_decoder`, to be zero-filled before the first use. -/
structure PhrChunkedDecoder where
  bytesLeftInChunk : UInt64
  consumeTrailer : Int8
  hexCount : Int8
  state : Int8
  totalRead : UInt64
  totalOverhead : UInt64
  deriving DecidableEq, Repr

/-- The part of the caller's memory the header parser writes to. On entry
`numHeaders` is the capacity of the array. -/
structure HeaderMem where
  headers : ℕ → PhrHeader
  numHeaders : ℕ

/-- What the out-pointers of `phr_parse_request` point to. -/
structure RequestMem where
  method : ℕ
  methodLen : ℕ
  path : ℕ
  pathLen : ℕ
  minorVersion : Int32
  block : HeaderMem

/-- What the out-pointers of `phr_parse_response` point to. -/
structure ResponseMem where
  minorVersion : Int32
  status : Int32
  msg : ℕ
  msgLen : ℕ
  block : HeaderMem

end PicoHttpParser
