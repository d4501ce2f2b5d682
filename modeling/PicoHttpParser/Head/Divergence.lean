import PicoHttpParser.Head.Calls

/-!
Where the two programs differ.

The port fails closed on calls for which the original is no program at all: it
turns null pointers down, and a hint that points behind the buffer makes it
wait. On every other call the two are the same function. A hint may exceed the
length by three, since the pre-check steps back that far.
-/

namespace PicoHttpParser.Head

open Incremental Incremental.Reader

/-- Every call of an entry point, by whether there is a null pointer that is
turned down at once, or a null array that has room. -/
structure Account {σ : Type} (null bare : Prop) (buf : List UInt8) (lastLen : ℕ) (mem zeroed : σ)
    (port : Int32 × σ) (original : Option (Int32 × σ)) : Prop where
  same : ¬null → ¬bare → lastLen ≤ buf.length + 3 → original = some port
  behind : ¬null → ¬bare → buf.length + 3 < lastLen → original = none ∧ port = (-2, zeroed)
  rejected : null → port = (-1, mem)
  arrayless : ¬null → bare → port = (-1, zeroed)

/-! ### Hints behind the buffer -/

section

variable {buf : List UInt8} {lastLen : ℕ} (h : buf.length + 3 < lastLen)

include h

theorem isComplete_far : Rust.isComplete buf lastLen = .error (.err .Partial) := by
  have hnone : buf[lastLen - 3]? = none := List.getElem?_eq_none_iff.mpr (by omega)
  rw [Rust.isComplete, Rust.isCompleteFrom]
  split
  · rfl
  · simp_all

/-- The port waits. -/
theorem gate_far :
    (if lastLen ≠ 0 then Rust.isComplete buf lastLen else .ok () : Rust.Res Unit) =
      .error (.err .Partial) := by
  rw [if_pos (by omega), isComplete_far h]

/-- The original reads what is behind its buffer: `CHECK_EOF` compares with
the end only. -/
theorem precheck_far : Reference.precheck buf lastLen = .error .undefined := by
  have hnone : buf[lastLen - 3]? = none := List.getElem?_eq_none_iff.mpr (by omega)
  have hend : Reference.checkEof buf (lastLen - 3) = .ok () := if_neg (by omega)
  have hturn : Reference.isCompleteTurn buf (lastLen - 3) 0 = .error .undefined := by
    rw [Reference.isCompleteTurn, Reference.derefChecked, hend, Reference.deref, hnone]
    rfl
  have hloop : Reference.isComplete buf lastLen = .error .undefined := by
    rw [Reference.isComplete, if_neg (by omega), Reference.isCompleteFrom]
    split
    · rename_i e he
      rw [hturn] at he
      exact congrArg Except.error (Except.error.inj he).symm
    · rename_i he
      rw [hturn] at he
      cases he
  rw [Reference.precheck, if_pos (by omega), hloop]
  rfl

theorem request_far (base : ℕ) (mem : RequestMem) :
    Reference.phrParseRequest base buf lastLen mem = none := by
  rw [Reference.phrParseRequest, precheck_far h]
  rfl

theorem response_far (base : ℕ) (mem : ResponseMem) :
    Reference.phrParseResponse base buf lastLen mem = none := by
  rw [Reference.phrParseResponse, precheck_far h]
  rfl

theorem headers_far (base : ℕ) (mem : HeaderMem) :
    Reference.phrParseHeaders base buf lastLen mem = none := by
  rw [Reference.phrParseHeaders, precheck_far h]
  rfl

end

/-! ### The entry points -/

theorem request_account (a : Rust.RequestArgs) (buf : List UInt8) (lastLen : ℕ)
    (mem : RequestMem) :
    Account (RequestNull a buf) (ArrayNull a.headers mem.block.numHeaders) buf lastLen mem
      (Rust.RequestMem.zeroed mem) (Rust.phrParseRequest a buf lastLen mem)
      (Reference.phrParseRequest a.buf buf lastLen mem) where
  same ha harray h := by rw [original_request_of_le h, port_request_of_le h ha harray]
  behind ha harray h := by
    refine ⟨request_far h _ _, ?_⟩
    rw [Rust.phrParseRequest, Rust.parseRequestInner, if_neg ha]
    dsimp only
    rw [if_neg harray, Rust.Request.parseRequest, gate_far h]
    rfl
  rejected ha := by
    rw [Rust.phrParseRequest, Rust.parseRequestInner, if_pos ha]
    rfl
  arrayless ha harray := by
    rw [Rust.phrParseRequest, Rust.parseRequestInner, if_neg ha]
    dsimp only
    rw [if_pos harray]
    rfl

theorem response_account (a : Rust.ResponseArgs) (buf : List UInt8) (lastLen : ℕ)
    (mem : ResponseMem) :
    Account (ResponseNull a buf) (ArrayNull a.headers mem.block.numHeaders) buf lastLen mem
      (Rust.ResponseMem.zeroed mem) (Rust.phrParseResponse a buf lastLen mem)
      (Reference.phrParseResponse a.buf buf lastLen mem) where
  same ha harray h := by rw [original_response_of_le h, port_response_of_le h ha harray]
  behind ha harray h := by
    refine ⟨response_far h _ _, ?_⟩
    rw [Rust.phrParseResponse, Rust.parseResponseInner, if_neg ha]
    dsimp only
    rw [if_neg harray, Rust.Response.parseResponse, gate_far h]
    rfl
  rejected ha := by
    rw [Rust.phrParseResponse, Rust.parseResponseInner, if_pos ha]
    rfl
  arrayless ha harray := by
    rw [Rust.phrParseResponse, Rust.parseResponseInner, if_neg ha]
    dsimp only
    rw [if_pos harray]
    rfl

theorem headers_account (a : Rust.HeadersArgs) (buf : List UInt8) (lastLen : ℕ)
    (mem : HeaderMem) :
    Account (HeadersNull a buf) (ArrayNull a.headers mem.numHeaders) buf lastLen mem
      { mem with numHeaders := 0 } (Rust.phrParseHeaders a buf lastLen mem)
      (Reference.phrParseHeaders a.buf buf lastLen mem) where
  same ha harray h := by rw [original_headers_of_le h, port_headers_of_le h ha harray]
  behind ha harray h := by
    refine ⟨headers_far h _ _, ?_⟩
    rw [Rust.phrParseHeaders, Rust.parseHeadersInner, if_neg ha]
    dsimp only
    rw [if_neg harray, gate_far h]
    rfl
  rejected ha := by
    rw [Rust.phrParseHeaders, Rust.parseHeadersInner, if_pos ha]
    rfl
  arrayless ha harray := by
    rw [Rust.phrParseHeaders, Rust.parseHeadersInner, if_neg ha]
    dsimp only
    rw [if_pos harray]
    rfl

/-- The list of differences is complete: every call of the three entry points
is either a run of the original or one of the three kinds of call at which the
port fails closed. -/
theorem head_divergence :
    (∀ (a : Rust.RequestArgs) (buf : List UInt8) (lastLen : ℕ) (mem : RequestMem),
      Account (RequestNull a buf) (ArrayNull a.headers mem.block.numHeaders) buf lastLen mem
        (Rust.RequestMem.zeroed mem) (Rust.phrParseRequest a buf lastLen mem)
        (Reference.phrParseRequest a.buf buf lastLen mem)) ∧
    (∀ (a : Rust.ResponseArgs) (buf : List UInt8) (lastLen : ℕ) (mem : ResponseMem),
      Account (ResponseNull a buf) (ArrayNull a.headers mem.block.numHeaders) buf lastLen mem
        (Rust.ResponseMem.zeroed mem) (Rust.phrParseResponse a buf lastLen mem)
        (Reference.phrParseResponse a.buf buf lastLen mem)) ∧
    ∀ (a : Rust.HeadersArgs) (buf : List UInt8) (lastLen : ℕ) (mem : HeaderMem),
      Account (HeadersNull a buf) (ArrayNull a.headers mem.numHeaders) buf lastLen mem
        { mem with numHeaders := 0 } (Rust.phrParseHeaders a buf lastLen mem)
        (Reference.phrParseHeaders a.buf buf lastLen mem) :=
  ⟨request_account, response_account, headers_account⟩

end PicoHttpParser.Head
