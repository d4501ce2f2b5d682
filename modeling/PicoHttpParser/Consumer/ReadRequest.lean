import PicoHttpParser.Head.Words
import PicoHttpParser.Head.ReturnCode
import PicoHttpParser.Lib.Connection

/-!
The read loop for requests in `README.md`.

The example reads from a socket into a buffer of 4096 bytes, calls
`phr_parse_request` on what has arrived, and passes the length at the call
before as the hint. However the request is cut into reads, the loop ends with
it, and only a stream that begins with a request ends it so.
-/

namespace PicoHttpParser.Consumer

open Incremental Head

/-! ### The loop -/

/-- `sizeof(buf)` -/
abbrev bufSize : ℕ := 4096

/-- `sizeof(headers) / sizeof(headers[0])` -/
abbrev headersLen : ℕ := 100

/-- The first `buflen` bytes of `buf`, and the other variables of the
example. -/
structure RequestLoop where
  buf : List UInt8
  mem : RequestMem

/-- How the example goes on after the loop. -/
inductive RequestEnd where
  | parsed (pret : Int32) (buf : List UInt8) (mem : RequestMem)
  | parseError
  /-- `assert(pret == -2)` fails. -/
  | assertion
  | requestIsTooLong

/-- The loop behind its `read`. -/
def requestTurn (a : Rust.RequestArgs) (s : RequestLoop) (bs : List UInt8) :
    RequestLoop ⊕ RequestEnd :=
  let prevbuflen := s.buf.length
  let buf := s.buf ++ bs
  let mem := { s.mem with block := { s.mem.block with numHeaders := headersLen } }
  let r := Rust.phrParseRequest a buf prevbuflen mem
  if 0 < r.1 then .inr (.parsed r.1 buf r.2)
  else if r.1 = -1 then .inr .parseError
  else if r.1 ≠ -2 then .inr .assertion
  else if buf.length = bufSize then .inr .requestIsTooLong
  else .inl ⟨buf, r.2⟩

/-- The example. It is left in its loop by an I/O error. -/
def readRequest (a : Rust.RequestArgs) (mem : RequestMem) (segments : List (List UInt8)) :
    (RequestLoop ⊕ RequestEnd) × List (List UInt8) :=
  pull (fun s => bufSize - s.buf.length) (requestTurn a) ⟨[], mem⟩ segments

/-! ### What the loop keeps -/

/-- No request has been received. -/
abbrev NoRequest : List UInt8 → Prop :=
  NoWord RequestHead.bytes fun head => head.block.lines.length ≤ headersLen

/-- In the loop there is room to read into. -/
abbrev RequestWaits : List UInt8 → RequestLoop → Prop :=
  HeadWaits RequestHead.bytes (fun head => head.block.lines.length ≤ headersLen) RequestLoop.buf
    (bufSize - 1)

/-- The loop has received a request, and something of what follows it. -/
structure RequestParsed (base : ℕ) (got : List UInt8) (pret : Int32) (buf : List UInt8)
    (mem : RequestMem) : Prop where
  eq : buf = got
  le : buf.length ≤ bufSize
  head : ∃ (head : RequestHead) (rest : List UInt8), buf = head.bytes ++ rest ∧
    head.block.lines.length ≤ headersLen ∧ pret.toInt = head.bytes.length ∧
    requestFields base buf mem = head.fields

/-- What has been received when the loop is left. -/
def RequestEnds (base : ℕ) (got : List UInt8) : RequestEnd → Prop
  | .parsed pret buf mem => RequestParsed base got pret buf mem
  | .parseError => ∀ ext, NoRequest (got ++ ext)
  | .assertion => False
  | .requestIsTooLong => got.length = bufSize ∧ NoRequest got

section

variable {a : Rust.RequestArgs} (ha : RequestNonNull a)

include ha

theorem requestTurn_rule {got bs : List UInt8} {s : RequestLoop}
    (hlen : bs.length ≤ bufSize - s.buf.length) (hs : RequestWaits got s) :
    Sum.elim (RequestWaits (got ++ bs)) (RequestEnds a.buf (got ++ bs)) (requestTurn a s bs) := by
  obtain ⟨rfl, hroom, hnone⟩ := hs
  have hle : (s.buf ++ bs).length ≤ bufSize := by
    rw [List.length_append]
    omega
  have htold := (words_request headersLen).told (Original.Request.publish a.buf)
    (Rust.RequestMem.zeroed { s.mem with block := { s.mem.block with numHeaders := headersLen } })
    RequestHead.length_pos hnone (hle.trans_lt (by decide))
  unfold requestTurn
  dsimp only
  rw [port_request (List.prefix_append s.buf bs).length_le ha]
  generalize answer _ _ (s.buf ++ bs) _ _ = r at htold ⊢
  cases htold with
  | fail h =>
      dsimp only
      rw [if_neg (by decide), if_pos rfl]
      exact h
  | more h =>
      dsimp only
      rw [if_neg (by decide), if_neg (by decide), if_neg (by decide)]
      split
      · exact ⟨‹_›, h⟩
      · exact ⟨rfl, Nat.le_sub_one_of_lt (Nat.lt_of_le_of_ne hle ‹_›), h⟩
  | done hx hbuf hpos hret =>
      rw [if_pos hpos]
      refine ⟨rfl, hle, _, _, hbuf, hx, hret, ?_⟩
      rw [hbuf]
      exact requestFields_events ha.buf _ _ rfl

/-- The loop ends with a request exactly when the stream begins with one that
the buffer and the array have room for. It then shows that request, and holds
the bytes that follow it as far as they have been read. It gives up only on
what no continuation makes a request, on a full buffer, or at the end of the
stream. -/
theorem read_request (mem : RequestMem) (segments : List (List UInt8)) :
    let r := readRequest a mem segments
    (∀ pret buf m, r.1 = .inr (.parsed pret buf m) →
      segments.flatten = buf ++ r.2.flatten ∧ buf.length ≤ bufSize ∧
        ∃ (head : RequestHead) (rest : List UInt8), buf = head.bytes ++ rest ∧
          head.block.lines.length ≤ headersLen ∧ pret.toInt = head.bytes.length ∧
          requestFields a.buf buf m = head.fields) ∧
      ((∃ pret buf m, r.1 = .inr (.parsed pret buf m)) ↔
        ∃ head : RequestHead, head.block.lines.length ≤ headersLen ∧
          head.bytes.length ≤ bufSize ∧ head.bytes <+: segments.flatten) ∧
      (r.1 = .inr .parseError →
        ∃ got, got <+: segments.flatten ∧ ∀ ext, NoRequest (got ++ ext)) ∧
      (r.1 = .inr .requestIsTooLong →
        ∃ got, segments.flatten = got ++ r.2.flatten ∧ got.length = bufSize ∧ NoRequest got) ∧
      (∀ s, r.1 = .inl s → s.buf = segments.flatten) ∧
      r.1 ≠ .inr .assertion := by
  intro r
  obtain ⟨got, hstream, hresult, hclosed⟩ : ∃ got, Pulled _ segments.flatten RequestWaits
      (RequestEnds a.buf) got r :=
    headWaits_rule RequestHead.length_pos (requestTurn_rule ha) rfl segments
  have hgot : got <+: segments.flatten := ⟨_, hstream.symm⟩
  have hend (s : RequestLoop) (hs : r.1 = .inl s) : NoRequest got ∧ got = segments.flatten := by
    obtain ⟨⟨rfl, hle, hnone⟩, hwant | hleft⟩ := hclosed s hs
    · have hroom : bufSize - 1 < bufSize := by decide
      omega
    · rw [hleft, List.append_nil] at hstream
      exact ⟨hnone, hstream.symm⟩
  refine ⟨fun pret buf m hr => ?_, ⟨?_, ?_⟩, fun hr => ?_, fun hr => ?_, fun s hs => ?_,
    fun hr => ?_⟩
  · obtain ⟨rfl, hle, head⟩ := hresult _ hr
    exact ⟨hstream, hle, head⟩
  · rintro ⟨pret, buf, m, hr⟩
    obtain ⟨rfl, hle, head, rest, rfl, hlines, -, -⟩ := hresult _ hr
    have hfront := List.prefix_append head.bytes rest
    exact ⟨head, hlines, hfront.length_le.trans hle, hfront.trans hgot⟩
  · rintro ⟨head, hlines, hlen, hhead⟩
    -- the other ends have received no request, or cannot be continued to one
    cases hr : r.1 with
    | inl s =>
        obtain ⟨hnone, rfl⟩ := hend s hr
        exact absurd hhead (hnone head hlines)
    | inr e =>
        cases e with
        | parsed pret buf m => exact ⟨pret, buf, m, rfl⟩
        | parseError =>
            rw [hstream] at hhead
            exact absurd hhead (hresult _ hr _ head hlines)
        | assertion => exact (hresult _ hr).elim
        | requestIsTooLong =>
            obtain ⟨hfull, hnone⟩ := hresult _ hr
            exact absurd (List.prefix_of_prefix_length_le hhead hgot (hlen.trans hfull.ge))
              (hnone head hlines)
  · exact ⟨got, hgot, hresult _ hr⟩
  · obtain ⟨hfull, hnone⟩ := hresult _ hr
    exact ⟨got, hstream, hfull, hnone⟩
  · obtain ⟨hwaits, -⟩ := hclosed s hs
    exact hwaits.eq.trans (hend s hs).2
  · exact hresult _ hr

end

/-- A request in two reads, the second of which brings a byte of the next. -/
theorem read_request_two_reads :
    let a : Rust.RequestArgs := ⟨1000, 1, 2, 3, 4, 5, 6, 7⟩
    let mem : RequestMem := ⟨0, 0, 0, 0, 0, ⟨fun _ => ⟨11, 12, 13, 14⟩, 0⟩⟩
    let segments : List (List UInt8) := [[71, 69, 84, 32, 47, 97, 32, 72, 84, 84, 80],
      [47, 49, 46, 49, 10, 10, 71]]
    ∃ pret buf m, (readRequest a mem segments).1 = .inr (.parsed pret buf m) ∧
      requestFields a.buf buf m = ⟨[71, 69, 84], [47, 97], 1, []⟩ := by
  intro a mem segments
  have ha : RequestNonNull a := by constructor <;> decide
  obtain ⟨hparsed, hends, -⟩ := read_request ha mem segments
  have hfront : (longHead 1).bytes <+: segments.flatten := ⟨[71], by decide⟩
  obtain ⟨pret, buf, m, hr⟩ := hends.mpr ⟨longHead 1, Nat.zero_le _, by decide, hfront⟩
  obtain ⟨hstream, -, head, rest, rfl, -, -, hfields⟩ := hparsed pret buf m hr
  obtain ⟨r, hr'⟩ := hfront
  rw [← hr', List.append_assoc] at hstream
  obtain ⟨rfl, -⟩ := prefixFree_request _ _ _ _ hstream
  exact ⟨pret, _, m, hr, hfields⟩

end PicoHttpParser.Consumer
