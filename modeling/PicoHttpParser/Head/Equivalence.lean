import PicoHttpParser.Head.Calls

/-!
The two programs answer alike.

Called with addresses that are none of them null, and with a hint that does
not exceed the length of the input, both programs give the answer of one and
the same reader. In particular the original never reads outside its buffer
there, since it would then have no answer at all.
-/

namespace PicoHttpParser.Head

/-- Requests, and header blocks on their own. -/
theorem request_agrees {a : Rust.RequestArgs} (ha : RequestNonNull a) {b : Rust.HeadersArgs}
    (hb : HeadersNonNull b) {buf blockBuf : List UInt8} {lastLen blockLastLen : ℕ}
    (h : lastLen ≤ buf.length) (hblock : blockLastLen ≤ blockBuf.length) (mem : RequestMem)
    (block : HeaderMem) :
    Reference.phrParseRequest a.buf buf lastLen mem =
        some (Rust.phrParseRequest a buf lastLen mem) ∧
      Reference.phrParseHeaders b.buf blockBuf blockLastLen block =
        some (Rust.phrParseHeaders b blockBuf blockLastLen block) := by
  constructor
  · rw [original_request h, port_request h ha]
  · rw [original_headers hblock, port_headers hblock hb]

/-- A request that ends in the value of its second header: the name is
written, and the value is what it was before the call. -/
theorem request_agrees_half_written :
    let a : Rust.RequestArgs := ⟨1000, 1, 2, 3, 4, 5, 6, 7⟩
    let b : Rust.HeadersArgs := ⟨2000, 6, 7⟩
    let buf : List UInt8 := [71, 69, 84, 32, 47, 32, 72, 84, 84, 80, 47, 49, 46, 49, 13, 10,
      65, 58, 49, 13, 10, 66, 58, 50]
    let blockBuf : List UInt8 := [65, 58, 49, 10, 10]
    let mem : RequestMem := ⟨0, 0, 0, 0, 0, fun _ => ⟨11, 12, 13, 14⟩, 4⟩
    let r := Rust.phrParseRequest a buf 0 mem
    (r.1 = -2 ∧ r.2.block.numHeaders = 1 ∧ r.2.block.headers 0 = ⟨1016, 1, 1018, 1⟩ ∧
        r.2.block.headers 1 = ⟨1021, 1, 13, 14⟩) ∧
      Reference.phrParseRequest a.buf buf 0 mem = some r ∧
      Reference.phrParseHeaders b.buf blockBuf 3 mem.block =
        some (Rust.phrParseHeaders b blockBuf 3 mem.block) := by
  intro a b buf blockBuf mem r
  have ha : RequestNonNull a := by constructor <;> decide
  have hb : HeadersNonNull b := by constructor <;> decide
  exact ⟨by decide +kernel, request_agrees ha hb (by decide) (by decide) mem mem.block⟩

/-- Responses. -/
theorem response_agrees {a : Rust.ResponseArgs} (ha : ResponseNonNull a) {buf : List UInt8}
    {lastLen : ℕ} (h : lastLen ≤ buf.length) (mem : ResponseMem) :
    Reference.phrParseResponse a.buf buf lastLen mem =
      some (Rust.phrParseResponse a buf lastLen mem) := by
  rw [original_response h, port_response h ha]

/-- A response with a letter in its status: two digits are written. -/
theorem response_agrees_bad_status :
    let a : Rust.ResponseArgs := ⟨1000, 1, 2, 3, 4, 5, 6⟩
    let buf : List UInt8 := [72, 84, 84, 80, 47, 49, 46, 49, 32, 50, 49, 120, 32, 13, 10]
    let mem : ResponseMem := ⟨0, 0, 0, 0, fun _ => ⟨11, 12, 13, 14⟩, 4⟩
    let r := Rust.phrParseResponse a buf 0 mem
    (r.1 = -1 ∧ r.2.minorVersion = 1 ∧ r.2.status = 210 ∧ r.2.msg = 0) ∧
      Reference.phrParseResponse a.buf buf 0 mem = some r := by
  intro a buf mem r
  have ha : ResponseNonNull a := by constructor <;> decide
  exact ⟨by decide +kernel, response_agrees ha (by decide) mem⟩

end PicoHttpParser.Head
