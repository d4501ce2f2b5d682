import PicoHttpParser.Head.Port
import PicoHttpParser.Head.Original
import PicoHttpParser.Rust.Ffi

/-!
What a call answers.

An entry point runs the pre-check, then the parser, and what it leaves in
its caller's memory are the events of the parser, written one after the
other into zeroed outputs. Both programs do this and nothing else.
-/

namespace PicoHttpParser.Head

open Incremental Incremental.Reader

/-- The verdict of the pre-check, which is left out on a first call. -/
def precheck (buf : List UInt8) (lastLen : ℕ) : Verdict (Unit × ℕ) :=
  if lastLen = 0 then .done ((), 0)
  else ((complete : Reader UInt8 Empty Unit).read buf (lastLen - 3)).1

/-- A parser behind the pre-check. -/
def gated {ω : Type} (lastLen : ℕ) (p : Reader UInt8 ω Unit) : Reader UInt8 ω Unit where
  read buf pos :=
    match precheck buf lastLen with
    | .more => (.more, [])
    | .fail => (.fail, [])
    | .done _ => p.read buf pos

/-- The return value of an entry point. -/
def returned : Verdict (Unit × ℕ) → Int32
  | .done (_, n) => Int32.ofNat n
  | .more => -2
  | .fail => -1

/-- The return value of an entry point and the memory it leaves behind. -/
def answer {σ ω : Type} (publish : σ → ω → σ) (p : Reader UInt8 ω Unit) (buf : List UInt8)
    (lastLen : ℕ) (mem : σ) : Int32 × σ :=
  (returned ((gated lastLen p).read buf 0).1,
    ((gated lastLen p).read buf 0).2.foldl publish mem)

/-! ### The pre-check -/

section

variable {ε σ ω : Type} [Signals ε] {publish : σ → ω → σ}

theorem realize_complete (buf : List UInt8) (pos : ℕ) :
    (realize (fun _ (e : Empty) => e.elim) complete buf pos : EStateM ε σ (Unit × ℕ)) =
      lift ((complete : Reader UInt8 Empty Unit).read buf pos).1.settle :=
  realize_of_read (Prod.ext rfl (List.eq_nil_iff_forall_not_mem.mpr fun e => e.elim))

theorem realize_gated (lastLen : ℕ) (p : Reader UInt8 ω Unit) (buf : List UInt8) (pos : ℕ) :
    (lift (precheck buf lastLen).settle >>= fun _ => realize publish p buf pos :
        EStateM ε σ (Unit × ℕ)) =
      realize publish (gated lastLen p) buf pos := by
  funext st
  cases hpre : precheck buf lastLen with
  | more => simp only [realize, gated, hpre]; rfl
  | fail => simp only [realize, gated, hpre]; rfl
  | done r => simp only [realize, gated, hpre]; rfl

/-- A program that returns the position its reader reached. -/
theorem run_realize (p : Reader UInt8 ω Unit) (buf : List UInt8) (pos : ℕ) (st : σ) :
    (realize publish p buf pos >>= fun r => pure r.2 : EStateM ε σ ℕ) st =
      match (p.read buf pos).1 with
      | .done (_, n) => .ok n ((p.read buf pos).2.foldl publish st)
      | .more => .error Signals.more ((p.read buf pos).2.foldl publish st)
      | .fail => .error Signals.fail ((p.read buf pos).2.foldl publish st) := by
  show EStateM.bind _ _ st = _
  obtain ⟨a, q, l, h⟩ | ⟨l, h⟩ | ⟨l, h⟩ := cases_read p buf pos <;>
    simp only [EStateM.bind, realize, h]
  rfl

end

/-- The pre-check steps back three bytes, so a hint may exceed the length by
that. -/
theorem gate_eq_of_le {buf : List UInt8} {lastLen : ℕ} (h : lastLen ≤ buf.length + 3) :
    (if lastLen ≠ 0 then Rust.isComplete buf lastLen else .ok () : Rust.Res Unit) =
      (fun _ => ()) <$> (precheck buf lastLen).settle := by
  by_cases hzero : lastLen = 0
  · rw [if_neg (not_not.mpr hzero), precheck, if_pos hzero]
    rfl
  · refine lift_injective ?_
    rw [if_pos hzero, precheck, if_neg hzero, Rust.isComplete,
      Port.lift_isCompleteFrom (fun _ (e : Empty) => e.elim) buf 0 (lastLen - 3)
        (by omega), ← complete, realize_complete, lift_map]
    rfl

theorem gate_eq {buf : List UInt8} {lastLen : ℕ} (h : lastLen ≤ buf.length) :
    (if lastLen ≠ 0 then Rust.isComplete buf lastLen else .ok () : Rust.Res Unit) =
      (fun _ => ()) <$> (precheck buf lastLen).settle :=
  gate_eq_of_le (Nat.le_add_right_of_le h)

theorem precheck_eq {buf : List UInt8} {lastLen : ℕ} (h : lastLen ≤ buf.length + 3) :
    Reference.precheck buf lastLen = (fun _ => ()) <$> (precheck buf lastLen).settle := by
  by_cases hzero : lastLen = 0
  · rw [Reference.precheck, if_neg (not_not.mpr hzero), precheck, if_pos hzero]
    rfl
  · refine lift_injective ?_
    have hstart : (if lastLen < 3 then 0 else lastLen - 3) = lastLen - 3 := by
      split <;> omega
    rw [Reference.precheck, if_pos hzero, precheck, if_neg hzero, Reference.isComplete, hstart,
      lift_bind,
      Original.lift_isCompleteFrom (fun _ (e : Empty) => e.elim) buf 0 (lastLen - 3)
        (by omega), ← complete, realize_complete, bind_assoc, lift_map]
    rfl

/-! ### The port -/

section

variable {σ ω : Type} {publish : σ → ω → σ} {p : Reader UInt8 ω Unit} {buf : List UInt8}
  {pos n : ℕ} {st st' : σ}

theorem run_eq_ok :
    (realize publish p buf pos >>= fun r => pure r.2 : EStateM Rust.Fault σ ℕ) st = .ok n st' ↔
      ∃ l, p.read buf pos = (.done ((), n), l) ∧ st' = l.foldl publish st := by
  rw [run_realize]
  obtain ⟨u, q, l, h⟩ | ⟨l, h⟩ | ⟨l, h⟩ := cases_read p buf pos
  · rw [h]
    simp [eq_comm]
  · rw [h]
    simp
  · rw [h]
    simp

theorem run_eq_more :
    (realize publish p buf pos >>= fun r => pure r.2 : EStateM Rust.Fault σ ℕ) st =
        .error (.err .Partial) st' ↔
      ∃ l, p.read buf pos = (.more, l) ∧ st' = l.foldl publish st := by
  rw [run_realize]
  obtain ⟨u, q, l, h⟩ | ⟨l, h⟩ | ⟨l, h⟩ := cases_read p buf pos
  · rw [h]
    simp
  · rw [h]
    simp [eq_comm, Signals.more]
  · rw [h]
    simp [Signals.fail]

theorem run_eq_fail :
    (realize publish p buf pos >>= fun r => pure r.2 : EStateM Rust.Fault σ ℕ) st =
        .error (.err .Malformed) st' ↔
      ∃ l, p.read buf pos = (.fail, l) ∧ st' = l.foldl publish st := by
  rw [run_realize]
  obtain ⟨u, q, l, h⟩ | ⟨l, h⟩ | ⟨l, h⟩ := cases_read p buf pos
  · rw [h]
    simp
  · rw [h]
    simp [Signals.more]
  · rw [h]
    simp [eq_comm, Signals.fail]

end

theorem request_gated_of_le {S : Type} [Rust.HeaderSink S] (sink : S) {buf : List UInt8} {j : ℕ}
    (h : j ≤ buf.length + 3) :
    Rust.Request.parseRequest buf j (sink, {}) =
      (realize Port.Request.publish (gated j (request (Rust.HeaderSink.capacity sink))) buf 0 >>=
        fun r => pure r.2 : EStateM Rust.Fault (S × Rust.Request.Progress) ℕ) (sink, {}) := by
  rw [Port.Request.parseRequest_eq, gate_eq_of_le h, lift_map, bind_map_left, ← bind_assoc,
    realize_gated]

theorem request_gated {S : Type} [Rust.HeaderSink S] (sink : S) {buf : List UInt8} {j : ℕ}
    (h : j ≤ buf.length) :
    Rust.Request.parseRequest buf j (sink, {}) =
      (realize Port.Request.publish (gated j (request (Rust.HeaderSink.capacity sink))) buf 0 >>=
        fun r => pure r.2 : EStateM Rust.Fault (S × Rust.Request.Progress) ℕ) (sink, {}) :=
  request_gated_of_le sink (Nat.le_add_right_of_le h)

theorem response_gated_of_le {S : Type} [Rust.HeaderSink S] (sink : S) {buf : List UInt8} {j : ℕ}
    (h : j ≤ buf.length + 3) :
    Rust.Response.parseResponse buf j (sink, {}) =
      (realize Port.Response.publish (gated j (response (Rust.HeaderSink.capacity sink))) buf 0 >>=
        fun r => pure r.2 : EStateM Rust.Fault (S × Rust.Response.Progress) ℕ) (sink, {}) := by
  rw [Port.Response.parseResponse_eq, gate_eq_of_le h, lift_map, bind_map_left, ← bind_assoc,
    realize_gated]

theorem response_gated {S : Type} [Rust.HeaderSink S] (sink : S) {buf : List UInt8} {j : ℕ}
    (h : j ≤ buf.length) :
    Rust.Response.parseResponse buf j (sink, {}) =
      (realize Port.Response.publish (gated j (response (Rust.HeaderSink.capacity sink))) buf 0 >>=
        fun r => pure r.2 : EStateM Rust.Fault (S × Rust.Response.Progress) ℕ) (sink, {}) :=
  response_gated_of_le sink (Nat.le_add_right_of_le h)

theorem slots_name {base : ℕ} {sink : Rust.RawSink} (h : sink.base = base) (count i : ℕ)
    (name : Option Span) :
    Original.publishHeader base ⟨sink.slots, count⟩ (.name i name) =
      ⟨(Rust.HeaderSink.setName sink i name).slots, count⟩ := by
  subst h
  cases name <;> rfl

theorem slots_value {base : ℕ} {sink : Rust.RawSink} (h : sink.base = base) (count i : ℕ)
    (v : Span) :
    Original.publishHeader base ⟨sink.slots, count⟩ (.value i v) =
      ⟨(Rust.HeaderSink.setValue sink i v).slots, i + 1⟩ := by
  subst h
  rfl

theorem publishHeader_memory {base : ℕ} (st : Rust.RawSink × ℕ) (h : st.1.base = base)
    (e : HeaderEvent) :
    (Port.publishHeader st e).1.base = base ∧
      Original.publishHeader base ⟨st.1.slots, st.2⟩ e =
        ⟨(Port.publishHeader st e).1.slots, (Port.publishHeader st e).2⟩ := by
  cases e with
  | name i name => exact ⟨h, slots_name h _ i name⟩
  | value i v => exact ⟨h, slots_value h _ i v⟩

/-- Publishing from a record after the fact leaves the memory that writing
each event at once leaves. -/
theorem publishRequest_foldl (base : ℕ) (mem : RequestMem) (l : List Event)
    (st : Rust.RawSink × Rust.Request.Progress) (h : st.1.base = base) :
    Rust.publishRequest base mem (l.foldl Port.Request.publish st).1
        (l.foldl Port.Request.publish st).2 =
      l.foldl (Original.Request.publish base) (Rust.publishRequest base mem st.1 st.2) := by
  induction l generalizing st with
  | nil => rfl
  | cons e l ih =>
      have hstep : (Port.Request.publish st e).1.base = base ∧
          Rust.publishRequest base mem (Port.Request.publish st e).1
            (Port.Request.publish st e).2 =
          Original.Request.publish base (Rust.publishRequest base mem st.1 st.2) e := by
        cases e with
        | header e =>
            obtain ⟨hbase, hmem⟩ := publishHeader_memory (st.1, st.2.headers) h e
            exact ⟨hbase, congrArg
              (fun block => { Rust.publishRequest base mem st.1 st.2 with block := block })
              hmem.symm⟩
        | _ => exact ⟨h, rfl⟩
      rw [List.foldl_cons, List.foldl_cons, ih _ hstep.1, hstep.2]

theorem publishResponse_foldl (base : ℕ) (mem : ResponseMem) (l : List Event)
    (st : Rust.RawSink × Rust.Response.Progress) (h : st.1.base = base) :
    Rust.publishResponse base mem (l.foldl Port.Response.publish st).1
        (l.foldl Port.Response.publish st).2 =
      l.foldl (Original.Response.publish base) (Rust.publishResponse base mem st.1 st.2) := by
  induction l generalizing st with
  | nil => rfl
  | cons e l ih =>
      have hstep : (Port.Response.publish st e).1.base = base ∧
          Rust.publishResponse base mem (Port.Response.publish st e).1
            (Port.Response.publish st e).2 =
          Original.Response.publish base (Rust.publishResponse base mem st.1 st.2) e := by
        cases e with
        | header e =>
            obtain ⟨hbase, hmem⟩ := publishHeader_memory (st.1, st.2.headers) h e
            exact ⟨hbase, congrArg (fun block =>
              { Rust.publishResponse base mem st.1 st.2 with block := block }) hmem.symm⟩
        | _ => exact ⟨h, rfl⟩
      rw [List.foldl_cons, List.foldl_cons, ih _ hstep.1, hstep.2]

theorem publishHeaders_foldl (base : ℕ) (l : List HeaderEvent) (st : Rust.RawSink × ℕ)
    (h : st.1.base = base) :
    (⟨(l.foldl Port.publishHeader st).1.slots, (l.foldl Port.publishHeader st).2⟩ : HeaderMem) =
      l.foldl (Original.publishHeader base) ⟨st.1.slots, st.2⟩ := by
  induction l generalizing st with
  | nil => rfl
  | cons e l ih =>
      obtain ⟨hbase, hmem⟩ := publishHeader_memory st h e
      rw [List.foldl_cons, List.foldl_cons, ih _ hbase, hmem]

/-- The addresses a caller passes to `phr_parse_request` are addresses. -/
structure RequestNonNull (a : Rust.RequestArgs) : Prop where
  buf : a.buf ≠ 0
  method : a.method ≠ 0
  methodLen : a.methodLen ≠ 0
  path : a.path ≠ 0
  pathLen : a.pathLen ≠ 0
  minorVersion : a.minorVersion ≠ 0
  headers : a.headers ≠ 0
  numHeaders : a.numHeaders ≠ 0

/-- The addresses a caller passes to `phr_parse_response` are addresses. -/
structure ResponseNonNull (a : Rust.ResponseArgs) : Prop where
  buf : a.buf ≠ 0
  minorVersion : a.minorVersion ≠ 0
  status : a.status ≠ 0
  msg : a.msg ≠ 0
  msgLen : a.msgLen ≠ 0
  headers : a.headers ≠ 0
  numHeaders : a.numHeaders ≠ 0

/-- The addresses a caller passes to `phr_parse_headers` are addresses. -/
structure HeadersNonNull (a : Rust.HeadersArgs) : Prop where
  buf : a.buf ≠ 0
  headers : a.headers ≠ 0
  numHeaders : a.numHeaders ≠ 0

/-- The null pointers that `phr_parse_request` turns down before it writes
anything. -/
abbrev RequestNull (a : Rust.RequestArgs) (buf : List UInt8) : Prop :=
  a.method = 0 ∨ a.methodLen = 0 ∨ a.path = 0 ∨ a.pathLen = 0 ∨ a.minorVersion = 0 ∨
    a.numHeaders = 0 ∨ (buf.length ≠ 0 ∧ a.buf = 0)

/-- So does `phr_parse_response`. -/
abbrev ResponseNull (a : Rust.ResponseArgs) (buf : List UInt8) : Prop :=
  a.minorVersion = 0 ∨ a.status = 0 ∨ a.msg = 0 ∨ a.msgLen = 0 ∨ a.numHeaders = 0 ∨
    (buf.length ≠ 0 ∧ a.buf = 0)

/-- So does `phr_parse_headers`. -/
abbrev HeadersNull (a : Rust.HeadersArgs) (buf : List UInt8) : Prop :=
  a.numHeaders = 0 ∨ (buf.length ≠ 0 ∧ a.buf = 0)

/-- An array that has room for headers, and is not there. -/
abbrev ArrayNull (headers cap : ℕ) : Prop := cap ≠ 0 ∧ headers = 0

theorem RequestNonNull.not_null {a : Rust.RequestArgs} (ha : RequestNonNull a)
    (buf : List UInt8) : ¬RequestNull a buf := by
  simp [RequestNull, ha.buf, ha.method, ha.methodLen, ha.path, ha.pathLen, ha.minorVersion,
    ha.numHeaders]

theorem ResponseNonNull.not_null {a : Rust.ResponseArgs} (ha : ResponseNonNull a)
    (buf : List UInt8) : ¬ResponseNull a buf := by
  simp [ResponseNull, ha.buf, ha.minorVersion, ha.status, ha.msg, ha.msgLen, ha.numHeaders]

theorem HeadersNonNull.not_null {a : Rust.HeadersArgs} (ha : HeadersNonNull a)
    (buf : List UInt8) : ¬HeadersNull a buf := by
  simp [HeadersNull, ha.buf, ha.numHeaders]

theorem not_arrayNull {headers : ℕ} (h : headers ≠ 0) (cap : ℕ) : ¬ArrayNull headers cap :=
  fun hnull => h hnull.2

section

variable {buf : List UInt8} {lastLen : ℕ} (h : lastLen ≤ buf.length + 3)

include h

theorem port_request_of_le {a : Rust.RequestArgs} (ha : ¬RequestNull a buf) {mem : RequestMem}
    (harray : ¬ArrayNull a.headers mem.block.numHeaders) :
    Rust.phrParseRequest a buf lastLen mem =
      answer (Original.Request.publish a.buf) (request mem.block.numHeaders) buf lastLen
        (Rust.RequestMem.zeroed mem) := by
  rw [Rust.phrParseRequest, Rust.parseRequestInner, if_neg ha]
  dsimp only
  rw [if_neg harray, request_gated_of_le _ h, run_realize]
  have hfold := fun l => publishRequest_foldl a.buf (Rust.RequestMem.zeroed mem) l
    ({ base := a.buf, slots := mem.block.headers, cap := mem.block.numHeaders }, {}) rfl
  dsimp only [Rust.HeaderSink.capacity]
  rw [answer]
  rcases (gated lastLen (request mem.block.numHeaders)).read buf 0 with ⟨_ | _ | _, l⟩ <;>
    exact congrArg (Prod.mk _) (hfold l)

theorem port_response_of_le {a : Rust.ResponseArgs} (ha : ¬ResponseNull a buf) {mem : ResponseMem}
    (harray : ¬ArrayNull a.headers mem.block.numHeaders) :
    Rust.phrParseResponse a buf lastLen mem =
      answer (Original.Response.publish a.buf) (response mem.block.numHeaders) buf lastLen
        (Rust.ResponseMem.zeroed mem) := by
  rw [Rust.phrParseResponse, Rust.parseResponseInner, if_neg ha]
  dsimp only
  rw [if_neg harray, response_gated_of_le _ h, run_realize]
  have hfold := fun l => publishResponse_foldl a.buf (Rust.ResponseMem.zeroed mem) l
    ({ base := a.buf, slots := mem.block.headers, cap := mem.block.numHeaders }, {}) rfl
  dsimp only [Rust.HeaderSink.capacity]
  rw [answer]
  rcases (gated lastLen (response mem.block.numHeaders)).read buf 0 with ⟨_ | _ | _, l⟩ <;>
    exact congrArg (Prod.mk _) (hfold l)

theorem port_headers_of_le {a : Rust.HeadersArgs} (ha : ¬HeadersNull a buf) {mem : HeaderMem}
    (harray : ¬ArrayNull a.headers mem.numHeaders) :
    Rust.phrParseHeaders a buf lastLen mem =
      answer (Original.publishHeader a.buf) (headers mem.numHeaders) buf lastLen
        { mem with numHeaders := 0 } := by
  rw [Rust.phrParseHeaders, Rust.parseHeadersInner, if_neg ha]
  dsimp only
  rw [if_neg harray, answer]
  rw [gate_eq_of_le h]
  have hfold := fun l => publishHeaders_foldl a.buf l
    ({ base := a.buf, slots := mem.headers, cap := mem.numHeaders }, 0) rfl
  cases hpre : precheck buf lastLen with
  | more => simp only [gated, hpre]; rfl
  | fail => simp only [gated, hpre]; rfl
  | done r =>
      simp only [gated, hpre, Verdict.settle, Port.parseHeaders_eq, run_realize]
      rcases (headers mem.numHeaders).read buf 0 with ⟨_ | _ | _, l⟩ <;>
        exact congrArg (Prod.mk _) (hfold l)

/-! ### The original -/

theorem original_request_of_le (base : ℕ) (mem : RequestMem) :
    Reference.phrParseRequest base buf lastLen mem =
      some (answer (Original.Request.publish base) (request mem.block.numHeaders) buf lastLen
        (Rust.RequestMem.zeroed mem)) := by
  have hrun := AgreeOn.lift_bind (I := fun mem : RequestMem => mem.block.numHeaders = 0)
    (precheck buf lastLen).settle fun _ _ => Original.Request.parseRequest_agree base buf
      mem.block.numHeaders
  simp only [← bind_assoc, realize_gated] at hrun
  rw [Reference.phrParseRequest, precheck_eq h, lift_map]
  simp only [bind_map_left]
  rw [hrun.eq _ rfl, run_realize, answer]
  rcases (gated lastLen (request mem.block.numHeaders)).read buf 0 with ⟨_ | _ | _, l⟩ <;> rfl

theorem original_response_of_le (base : ℕ) (mem : ResponseMem) :
    Reference.phrParseResponse base buf lastLen mem =
      some (answer (Original.Response.publish base) (response mem.block.numHeaders) buf lastLen
        (Rust.ResponseMem.zeroed mem)) := by
  have hrun := AgreeOn.lift_bind (I := fun mem : ResponseMem => mem.block.numHeaders = 0)
    (precheck buf lastLen).settle fun _ _ => Original.Response.parseResponse_agree base
      buf mem.block.numHeaders
  simp only [← bind_assoc, realize_gated] at hrun
  rw [Reference.phrParseResponse, precheck_eq h, lift_map]
  simp only [bind_map_left]
  rw [hrun.eq _ rfl, run_realize, answer]
  rcases (gated lastLen (response mem.block.numHeaders)).read buf 0 with ⟨_ | _ | _, l⟩ <;> rfl

theorem original_headers_of_le (base : ℕ) (mem : HeaderMem) :
    Reference.phrParseHeaders base buf lastLen mem =
      some (answer (Original.publishHeader base) (headers mem.numHeaders) buf lastLen
        { mem with numHeaders := 0 }) := by
  have hrun := AgreeOn.lift_bind (I := fun mem : HeaderMem => mem.numHeaders = 0)
    (precheck buf lastLen).settle fun _ _ => Original.parseHeaders_agree base
      mem.numHeaders (Nat.zero_le buf.length)
  simp only [← bind_assoc, realize_gated] at hrun
  rw [Reference.phrParseHeaders, precheck_eq h, lift_map]
  simp only [bind_map_left]
  rw [hrun.eq _ rfl, run_realize, answer]
  rcases (gated lastLen (headers mem.numHeaders)).read buf 0 with ⟨_ | _ | _, l⟩ <;> rfl

end

/-! ### Hints within the buffer -/

section

variable {buf : List UInt8} {lastLen : ℕ} (h : lastLen ≤ buf.length)

include h

theorem port_request {a : Rust.RequestArgs} (ha : RequestNonNull a) (mem : RequestMem) :
    Rust.phrParseRequest a buf lastLen mem =
      answer (Original.Request.publish a.buf) (request mem.block.numHeaders) buf lastLen
        (Rust.RequestMem.zeroed mem) :=
  port_request_of_le (Nat.le_add_right_of_le h) (ha.not_null buf) (not_arrayNull ha.headers _)

theorem port_response {a : Rust.ResponseArgs} (ha : ResponseNonNull a) (mem : ResponseMem) :
    Rust.phrParseResponse a buf lastLen mem =
      answer (Original.Response.publish a.buf) (response mem.block.numHeaders) buf lastLen
        (Rust.ResponseMem.zeroed mem) :=
  port_response_of_le (Nat.le_add_right_of_le h) (ha.not_null buf) (not_arrayNull ha.headers _)

theorem port_headers {a : Rust.HeadersArgs} (ha : HeadersNonNull a) (mem : HeaderMem) :
    Rust.phrParseHeaders a buf lastLen mem =
      answer (Original.publishHeader a.buf) (headers mem.numHeaders) buf lastLen
        { mem with numHeaders := 0 } :=
  port_headers_of_le (Nat.le_add_right_of_le h) (ha.not_null buf) (not_arrayNull ha.headers _)

theorem original_request (base : ℕ) (mem : RequestMem) :
    Reference.phrParseRequest base buf lastLen mem =
      some (answer (Original.Request.publish base) (request mem.block.numHeaders) buf lastLen
        (Rust.RequestMem.zeroed mem)) :=
  original_request_of_le (Nat.le_add_right_of_le h) base mem

theorem original_response (base : ℕ) (mem : ResponseMem) :
    Reference.phrParseResponse base buf lastLen mem =
      some (answer (Original.Response.publish base) (response mem.block.numHeaders) buf lastLen
        (Rust.ResponseMem.zeroed mem)) :=
  original_response_of_le (Nat.le_add_right_of_le h) base mem

theorem original_headers (base : ℕ) (mem : HeaderMem) :
    Reference.phrParseHeaders base buf lastLen mem =
      some (answer (Original.publishHeader base) (headers mem.numHeaders) buf lastLen
        { mem with numHeaders := 0 }) :=
  original_headers_of_le (Nat.le_add_right_of_le h) base mem

end

end PicoHttpParser.Head
