import PicoHttpParser.Head.Discipline
import PicoHttpParser.Head.Partial

/-!
What the return value tells a C caller.

The documented contract is a count of bytes, `-2` for a head that is not
finished and `-1` for one that is wrong. The count is a `usize` that is
narrowed to a `c_int`, and nothing keeps a head from being longer than a
`c_int` can count. The return value can be trusted where no such head is
accepted, and nowhere else.
-/

namespace PicoHttpParser.Head

open Incremental Incremental.Reader

/-! ### What an outcome is mapped to -/

section

variable {σ : Type} {r : EStateM.Result Rust.Fault σ ℕ}

/-- The return value for an outcome of the core. -/
def returnCode : EStateM.Result Rust.Fault σ ℕ → Int32
  | .ok n _ => Rust.asCInt n
  | .error (.err .Partial) _ => -2
  | .error (.err .Malformed) _ => -1
  | .error .panic _ => -1

/-- From the return value the outcome of the core can be told, and the count
is the one of the core. -/
structure Unambiguous (ret : Int32) (r : EStateM.Result Rust.Fault σ ℕ) : Prop where
  accepted : 0 ≤ ret ↔ ∃ n st, r = .ok n st
  consumed : ∀ n st, r = .ok n st → ret.toInt = n
  waiting : ret = -2 ↔ ∃ st, r = .error (.err .Partial) st
  rejected : ret = -1 ↔ ∃ st, r = .error (.err .Malformed) st

theorem toInt_asCInt {n : ℕ} : (Rust.asCInt n).toInt = n ↔ n < 2 ^ 31 := by
  constructor
  · intro h
    have hlt := (Rust.asCInt n).toInt_lt
    omega
  · exact Int32.toInt_ofNat_of_lt

/-- A count that fits is not an error. -/
theorem unambiguous_ok {n : ℕ} {st : σ} (hn : n < 2 ^ 31) :
    Unambiguous (returnCode (.ok n st)) (.ok n st : EStateM.Result Rust.Fault σ ℕ) := by
  have hint : (Rust.asCInt n).toInt = n := toInt_asCInt.mpr hn
  have hne (v : Int32) (hv : v.toInt < 0) : Rust.asCInt n ≠ v := by
    rintro rfl
    omega
  refine ⟨iff_of_true ?_ ⟨n, st, rfl⟩, ?_, ?_, ?_⟩
  · show 0 ≤ Rust.asCInt n
    rw [Int32.le_iff_toInt_le, hint]
    exact Int.natCast_nonneg n
  · rintro _ _ ⟨⟩
    exact hint
  · exact iff_of_false (hne _ (by decide)) nofun
  · exact iff_of_false (hne _ (by decide)) nofun

/-- The outcomes of the core, one by one. -/
@[elab_as_elim]
theorem outcome_cases {P : EStateM.Result Rust.Fault σ ℕ → Prop} (ok : ∀ n st, P (.ok n st))
    (waiting : ∀ st, P (.error (.err .Partial) st))
    (rejected : ∀ st, P (.error (.err .Malformed) st))
    (panicked : ∀ st, P (.error .panic st)) (r : EStateM.Result Rust.Fault σ ℕ) : P r := by
  cases r with
  | ok n st => exact ok n st
  | error f st =>
      cases f with
      | panic => exact panicked st
      | err e =>
          cases e with
          | Partial => exact waiting st
          | Malformed => exact rejected st

/-- The return value can be trusted where the count fits. -/
theorem unambiguous_iff (h : Exits (fun _ _ => True) r) :
    Unambiguous (returnCode r) r ↔ ∀ n st, r = .ok n st → n < 2 ^ 31 := by
  cases r using outcome_cases with
  | ok n st =>
      constructor
      · rintro hret n' st' ⟨⟩
        exact toInt_asCInt.mp (hret.consumed n st rfl)
      · intro hlt
        exact unambiguous_ok (hlt n st rfl)
  | waiting st =>
      refine iff_of_true ⟨?_, nofun, ?_, ?_⟩ nofun
      · exact iff_of_false (by decide : ¬(0 : Int32) ≤ -2) nofun
      · exact iff_of_true rfl ⟨st, rfl⟩
      · exact iff_of_false (by decide : (-2 : Int32) ≠ -1) nofun
  | rejected st =>
      refine iff_of_true ⟨?_, nofun, ?_, ?_⟩ nofun
      · exact iff_of_false (by decide : ¬(0 : Int32) ≤ -1) nofun
      · exact iff_of_false (by decide : (-1 : Int32) ≠ -2) nofun
      · exact iff_of_true rfl ⟨st, rfl⟩
  | panicked st => exact absurd h id

end

/-! ### What the core accepts behind the pre-check -/

section

variable {σ ω α : Type} {publish : σ → ω → σ} {p : Reader UInt8 ω Unit} {buf : List UInt8}
  {pos k lastLen : ℕ} {st : σ}

theorem exits_realize :
    Exits (fun _ _ => True)
      ((realize publish p buf pos >>= fun r => pure r.2 : EStateM Rust.Fault σ ℕ) st) := by
  rw [run_realize]
  obtain ⟨u, q, l, h⟩ | ⟨l, h⟩ | ⟨l, h⟩ := cases_read p buf pos <;>
    · rw [h]
      exact trivial

/-- Behind the pre-check a parser succeeds where the pre-check lets it run and
it succeeds by itself. -/
theorem gated_eq_ok {x : EStateM Rust.Fault σ ℕ} {n : ℕ} {st' : σ} :
    (do lift (if lastLen ≠ 0 then Rust.isComplete buf lastLen else .ok ())
        x : EStateM Rust.Fault σ ℕ) st = .ok n st' ↔
      (lastLen = 0 ∨ Rust.isComplete buf lastLen = .ok ()) ∧ x st = .ok n st' := by
  have hgate : (lastLen = 0 ∨ Rust.isComplete buf lastLen = .ok ()) ↔
      (if lastLen ≠ 0 then Rust.isComplete buf lastLen else .ok () : Rust.Res Unit) = .ok () := by
    by_cases hzero : lastLen = 0
    · simp [hzero]
    · simp [hzero]
  rw [hgate]
  generalize (if lastLen ≠ 0 then Rust.isComplete buf lastLen else .ok () : Rust.Res Unit) = gate
  show EStateM.bind _ _ st = _ ↔ _
  cases gate with
  | ok u => exact (and_iff_right rfl).symm
  | error f =>
      refine iff_of_false nofun ?_
      rintro ⟨hgate, -⟩
      cases hgate

/-- What the return value can be trusted to tell, in terms of the words that
the parser takes. -/
theorem unambiguous_gated {bytes : α → List UInt8} {events : α → List ω} {Room : α → Prop}
    {x : EStateM Rust.Fault σ ℕ} (hp : Reads k p)
    (htakes : ∀ {w r l}, Takes p buf 0 w r () l ↔
      buf = w ++ r ∧ ∃ x, w = bytes x ∧ Room x ∧ l = events x)
    (hx : x st = (realize publish p buf 0 >>= fun r => pure r.2 : EStateM Rust.Fault σ ℕ) st) :
    let r := (do lift (if lastLen ≠ 0 then Rust.isComplete buf lastLen else .ok ())
                 x : EStateM Rust.Fault σ ℕ) st
    Unambiguous (returnCode r) r ↔
      (lastLen = 0 ∨ Rust.isComplete buf lastLen = .ok () →
        ∀ h, Room h → bytes h <+: buf → (bytes h).length < 2 ^ 31) := by
  intro r
  have hexits : Exits (fun _ _ => True) r := exits_gated trivial (hx ▸ exits_realize) lastLen
  have hok (n : ℕ) : (∃ st', x st = .ok n st') ↔
      ∃ h, Room h ∧ bytes h <+: buf ∧ n = 0 + (bytes h).length := by
    rw [hx]
    exact run_words hp (Nat.zero_le _) htakes
  rw [unambiguous_iff hexits]
  constructor
  · intro hlt hgate h hroom hbytes
    obtain ⟨st', hst'⟩ := (hok _).mpr ⟨h, hroom, hbytes, rfl⟩
    have hlen := hlt _ st' (gated_eq_ok.mpr ⟨hgate, hst'⟩)
    omega
  · intro hlt n st' hrun
    obtain ⟨hgate, hst'⟩ := gated_eq_ok.mp hrun
    obtain ⟨h, hroom, hbytes, rfl⟩ := (hok n).mp ⟨st', hst'⟩
    rw [Nat.zero_add]
    exact hlt hgate h hroom hbytes

end

/-! ### The three functions -/

section

variable (data : List UInt8) (lastLen : ℕ)

/-- The addresses passed to `phr_parse_request` are valid: only an empty
buffer and an empty header array may be null. -/
structure RequestValid (a : Rust.RequestArgs) (mem : RequestMem) : Prop where
  buf : data ≠ [] → a.buf ≠ 0
  method : a.method ≠ 0
  methodLen : a.methodLen ≠ 0
  path : a.path ≠ 0
  pathLen : a.pathLen ≠ 0
  minorVersion : a.minorVersion ≠ 0
  headers : mem.block.numHeaders ≠ 0 → a.headers ≠ 0
  numHeaders : a.numHeaders ≠ 0

/-- The same for `phr_parse_response`. -/
structure ResponseValid (a : Rust.ResponseArgs) (mem : ResponseMem) : Prop where
  buf : data ≠ [] → a.buf ≠ 0
  minorVersion : a.minorVersion ≠ 0
  status : a.status ≠ 0
  msg : a.msg ≠ 0
  msgLen : a.msgLen ≠ 0
  headers : mem.block.numHeaders ≠ 0 → a.headers ≠ 0
  numHeaders : a.numHeaders ≠ 0

/-- The same for `phr_parse_headers`. -/
structure HeadersValid (a : Rust.HeadersArgs) (mem : HeaderMem) : Prop where
  buf : data ≠ [] → a.buf ≠ 0
  headers : mem.numHeaders ≠ 0 → a.headers ≠ 0
  numHeaders : a.numHeaders ≠ 0

/-- The sink that a call hands to the core. -/
def callSink (base : ℕ) (block : HeaderMem) : Rust.RawSink where
  base := base
  slots := block.headers
  cap := block.numHeaders

/-- What the core answers to `phr_parse_request`. -/
def requestOutcome (a : Rust.RequestArgs) (mem : RequestMem) :
    EStateM.Result Rust.Fault (Rust.RawSink × Rust.Request.Progress) ℕ :=
  Rust.Request.parseRequest data lastLen (callSink a.buf mem.block, {})

/-- What the core answers to `phr_parse_response`. -/
def responseOutcome (a : Rust.ResponseArgs) (mem : ResponseMem) :
    EStateM.Result Rust.Fault (Rust.RawSink × Rust.Response.Progress) ℕ :=
  Rust.Response.parseResponse data lastLen (callSink a.buf mem.block, {})

/-- What the core answers to `phr_parse_headers`, where the pre-check is a
call of its own. -/
def headersOutcome (a : Rust.HeadersArgs) (mem : HeaderMem) :
    EStateM.Result Rust.Fault (Rust.RawSink × ℕ) ℕ :=
  (do lift (if lastLen ≠ 0 then Rust.isComplete data lastLen else .ok ())
      Rust.parseHeaders data 0 : EStateM Rust.Fault (Rust.RawSink × ℕ) ℕ)
    (callSink a.buf mem, 0)

variable {data lastLen}

theorem phrParseRequest_returns {a : Rust.RequestArgs} {mem : RequestMem}
    (h : RequestValid data a mem) :
    (Rust.phrParseRequest a data lastLen mem).1 =
      returnCode (requestOutcome data lastLen a mem) := by
  rw [Rust.phrParseRequest, Rust.parseRequestInner, if_neg (by
    simpa [h.method, h.methodLen, h.path, h.pathLen, h.minorVersion, h.numHeaders] using h.buf)]
  dsimp only [Rust.RequestMem.zeroed]
  rw [if_neg (not_and.mpr h.headers), requestOutcome, callSink]
  generalize Rust.Request.parseRequest data lastLen ((_ : Rust.RawSink), _) = r
  cases r using outcome_cases <;> rfl

theorem phrParseResponse_returns {a : Rust.ResponseArgs} {mem : ResponseMem}
    (h : ResponseValid data a mem) :
    (Rust.phrParseResponse a data lastLen mem).1 =
      returnCode (responseOutcome data lastLen a mem) := by
  rw [Rust.phrParseResponse, Rust.parseResponseInner, if_neg (by
    simpa [h.minorVersion, h.status, h.msg, h.msgLen, h.numHeaders] using h.buf)]
  dsimp only [Rust.ResponseMem.zeroed]
  rw [if_neg (not_and.mpr h.headers), responseOutcome, callSink]
  generalize Rust.Response.parseResponse data lastLen ((_ : Rust.RawSink), _) = r
  cases r using outcome_cases <;> rfl

theorem phrParseHeaders_returns {a : Rust.HeadersArgs} {mem : HeaderMem}
    (h : HeadersValid data a mem) :
    (Rust.phrParseHeaders a data lastLen mem).1 =
      returnCode (headersOutcome data lastLen a mem) := by
  rw [Rust.phrParseHeaders, Rust.parseHeadersInner, if_neg (by simpa [h.numHeaders] using h.buf)]
  dsimp only
  rw [if_neg (not_and.mpr h.headers), headersOutcome, callSink]
  generalize (if lastLen ≠ 0 then Rust.isComplete data lastLen else .ok () : Rust.Res Unit) = gate
  cases gate with
  | error f =>
      cases f with
      | err e => cases e <;> rfl
      | panic => rfl
  | ok _ =>
      rw [lift_ok, pure_bind]
      dsimp only
      generalize Rust.parseHeaders data 0 ((_ : Rust.RawSink), _) = r
      cases r using outcome_cases <;> rfl

end

/-- The return value of a head parser tells the outcome of the core, and the
count, as long as the pre-check stops the call or the buffer does not begin
with a head of `2 ^ 31` bytes or more that there is room for. -/
theorem return_code_iff (data : List UInt8) (lastLen : ℕ) :
    (∀ (a : Rust.RequestArgs) (mem : RequestMem), RequestValid data a mem →
      (Unambiguous (Rust.phrParseRequest a data lastLen mem).1
          (requestOutcome data lastLen a mem) ↔
        (lastLen = 0 ∨ Rust.isComplete data lastLen = .ok () →
          ∀ head : RequestHead, head.block.lines.length ≤ mem.block.numHeaders →
            head.bytes <+: data → head.bytes.length < 2 ^ 31))) ∧
    (∀ (a : Rust.ResponseArgs) (mem : ResponseMem), ResponseValid data a mem →
      (Unambiguous (Rust.phrParseResponse a data lastLen mem).1
          (responseOutcome data lastLen a mem) ↔
        (lastLen = 0 ∨ Rust.isComplete data lastLen = .ok () →
          ∀ head : ResponseHead, head.block.lines.length ≤ mem.block.numHeaders →
            head.bytes <+: data → head.bytes.length < 2 ^ 31))) ∧
    ∀ (a : Rust.HeadersArgs) (mem : HeaderMem), HeadersValid data a mem →
      (Unambiguous (Rust.phrParseHeaders a data lastLen mem).1
          (headersOutcome data lastLen a mem) ↔
        (lastLen = 0 ∨ Rust.isComplete data lastLen = .ok () →
          ∀ block : HeaderBlock, block.lines.length ≤ mem.numHeaders →
            block.bytes <+: data → block.bytes.length < 2 ^ 31)) := by
  refine ⟨fun a mem h => ?_, fun a mem h => ?_, fun a mem h => ?_⟩
  · rw [phrParseRequest_returns h, requestOutcome, Port.Request.parseRequest_eq]
    exact unambiguous_gated (consumes_request _).reads takes_request rfl
  · rw [phrParseResponse_returns h, responseOutcome, Port.Response.parseResponse_eq]
    exact unambiguous_gated (consumes_response _).reads takes_response rfl
  · rw [phrParseHeaders_returns h, headersOutcome]
    exact unambiguous_gated (reads_headers _) (takes_headers (Nat.zero_le _))
      (Port.parseHeaders_eq _ _ _)

/-- In a buffer that is shorter no head is too long. -/
theorem return_code_iff_short :
    let data : List UInt8 := [71, 69, 84, 32, 47, 32, 72, 84, 84, 80, 47, 49, 46, 48, 10, 10]
    let block : HeaderMem := ⟨fun _ => ⟨0, 0, 0, 0⟩, 16⟩
    let request : Rust.RequestArgs := ⟨1, 2, 3, 4, 5, 6, 7, 8⟩
    let response : Rust.ResponseArgs := ⟨1, 2, 3, 4, 5, 6, 7⟩
    let headers : Rust.HeadersArgs := ⟨1, 2, 3⟩
    Unambiguous (Rust.phrParseRequest request data 0 ⟨0, 0, 0, 0, 0, block⟩).1
        (requestOutcome data 0 request ⟨0, 0, 0, 0, 0, block⟩) ∧
      Unambiguous (Rust.phrParseResponse response data 0 ⟨0, 0, 0, 0, block⟩).1
        (responseOutcome data 0 response ⟨0, 0, 0, 0, block⟩) ∧
      Unambiguous (Rust.phrParseHeaders headers data 0 block).1
        (headersOutcome data 0 headers block) := by
  intro data block request response headers
  have hshort (w : List UInt8) (hw : w <+: data) : w.length < 2 ^ 31 :=
    hw.length_le.trans_lt (by decide)
  obtain ⟨hrequest, hresponse, hheaders⟩ := return_code_iff data 0
  refine ⟨(hrequest request _ ?_).mpr fun _ head _ => hshort _,
    (hresponse response _ ?_).mpr fun _ head _ => hshort _,
    (hheaders headers _ ?_).mpr fun _ block _ => hshort _⟩
  · constructor <;> decide
  · constructor <;> decide
  · constructor <;> decide

/-! ### A head that is too long -/

/-- A head whose target is as long as one likes. -/
def longHead (k : ℕ) : RequestHead where
  lead := none
  method := [0x47, 0x45, 0x54]
  gap₁ := 0
  path := 0x2f :: List.replicate k 0x61
  gap₂ := 0
  version := 0x31
  eol := .lf
  block := emptyBlock
  isName := ⟨List.cons_ne_nil _ _, List.forall_mem_cons.mpr ⟨by decide,
    List.forall_mem_cons.mpr ⟨by decide, List.forall_mem_singleton.mpr (by decide)⟩⟩⟩
  isTarget := by
    refine ⟨List.cons_ne_nil _ _, List.forall_mem_cons.mpr ⟨by decide, fun b hb => ?_⟩⟩
    rw [List.eq_of_mem_replicate hb]
    decide
  isDigit := by decide

theorem length_longHead (k : ℕ) : (longHead k).bytes.length = k + 16 := by
  simp [RequestHead.bytes, longHead, leadBytes, length_spacesBytes, versionBytes, Eol.bytes,
    HeaderBlock.bytes, emptyBlock, linesBytes]
  omega

/-- A head is accepted as a whole, however long it is. -/
theorem requestOutcome_head (head : RequestHead) (a : Rust.RequestArgs) (mem : RequestMem)
    (hroom : head.block.lines.length ≤ mem.block.numHeaders) :
    ∃ st, requestOutcome head.bytes 0 a mem = .ok head.bytes.length st := by
  rw [requestOutcome, Port.Request.parseRequest_first]
  exact (run_words (consumes_request _).reads (Nat.zero_le _) takes_request).mpr
    ⟨head, hroom, List.prefix_refl _, (Nat.zero_add _).symm⟩

/-- A request of `2 ^ 32 - 2` bytes, without a header. The core accepts it, and
the caller is told that it is not finished. -/
theorem return_code_iff_wraps :
    let head := longHead (2 ^ 32 - 18)
    let a : Rust.RequestArgs := ⟨1, 2, 3, 4, 5, 6, 7, 8⟩
    let mem : RequestMem := ⟨0, 0, 0, 0, 0, fun _ => ⟨0, 0, 0, 0⟩, 16⟩
    head.bytes.length ≤ 2 ^ 63 - 1 ∧ RequestValid head.bytes a mem ∧
      (∃ st, requestOutcome head.bytes 0 a mem = .ok (2 ^ 32 - 2) st) ∧
      (Rust.phrParseRequest a head.bytes 0 mem).1 = -2 ∧
      ¬Unambiguous (Rust.phrParseRequest a head.bytes 0 mem).1
        (requestOutcome head.bytes 0 a mem) := by
  intro head a mem
  have hlen : head.bytes.length = 2 ^ 32 - 2 := length_longHead (2 ^ 32 - 18)
  have hvalid : RequestValid head.bytes a mem := by
    refine ⟨fun _ => ?_, ?_, ?_, ?_, ?_, ?_, fun _ => ?_, ?_⟩ <;> decide
  obtain ⟨st, hst⟩ := requestOutcome_head head a mem (Nat.zero_le _)
  rw [hlen] at hst
  have hret : (Rust.phrParseRequest a head.bytes 0 mem).1 = -2 := by
    rw [phrParseRequest_returns hvalid, hst]
    exact (by decide : Rust.asCInt (2 ^ 32 - 2) = -2)
  refine ⟨by rw [hlen]; decide, hvalid, ⟨st, hst⟩, hret, fun h => ?_⟩
  obtain ⟨st', hst'⟩ := h.waiting.mp hret
  rw [hst] at hst'
  cases hst'

end PicoHttpParser.Head
