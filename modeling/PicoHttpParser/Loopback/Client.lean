import PicoHttpParser.Loopback.Decode
import PicoHttpParser.Loopback.Head

/-!
The client of the loopback program.

`client_read_phase` receives a response: the head in reads of 16 bytes, each
followed by a call with the length at the call before, and then the body, of
which a part has been read along with the head. On every stream and for every
delivery it ends in one of a few ways, which `ClientEnds` lists with what the
peer has sent in each of them.
-/

namespace PicoHttpParser.Loopback

open Incremental Head Chunk

/-! ### The program -/

/-- `sizeof(rbuf)` -/
abbrev rbufSize : ℕ := 16

/-- What the client prints. -/
structure ClientReport where
  head : ResponseFields
  headlen : Int32
  decoded : ℕ
  leftover : ℤ
  body : List UInt8
  sawData : Bool

/-- The client's decode loop. -/
def client : Side where
  consumeTrailer := 1
  want := 7
  recvText := "client body EOF while incomplete"
  overflowText := "client decoded overflow"
  decodeText := "client body decode ret="

/-- The assignments in front of `phr_parse_response`. -/
def resetResponse (mem : ResponseMem) : ResponseMem :=
  ⟨-1, -1, 0, 0, { mem.block with numHeaders := headersLen }⟩

/-- The loop for the head, behind its `recv`. -/
def clientTurn (lib : Library) (s : HeadLoop ResponseMem) (bs : List UInt8) :
    HeadLoop ResponseMem ⊕ Except Stop (Int32 × HeadLoop ResponseMem) :=
  if bufSize < s.buf.length + bs.length then .inr (.error (.fail "client head overflow"))
  else headTurn lib.parseResponse resetResponse "client head parse ret=" s bs

/-- What the client does with the body. -/
def clientReport (head : ResponseFields) (ret : Int32) (r2 : ℤ) (d : DecodeLoop) :
    Except Stop ClientReport :=
  let body := cString d.decoded
  if body ≠ expected then .error (.fail "client body mismatch")
  else if r2 ≠ 0 then
    .error (.fail ("client leftover=" ++ toString r2 ++ ", want 0 (trailer consumed)"))
  else .ok ⟨head, ret, d.decoded.length, r2, body, d.sawData⟩

/-- The phase behind the head, of which `ret` bytes have been read, and
`carried` behind them. -/
def clientBody (lib : Library) (head : ResponseFields) (ret : Int32) (carried : List UInt8)
    (segments : List (List UInt8)) : Except Stop ClientReport × List (List UInt8) :=
  match decodeStage lib client carried segments with
  | (.error e, left) => (.error e, left)
  | (.ok (r2, d), left) => (clientReport head ret r2 d, left)

/-- `client_read_phase` -/
def clientReadPhase (fr : Frame) (lib : Library) (mem : ResponseMem)
    (segments : List (List UInt8)) : Except Stop ClientReport × List (List UInt8) :=
  match pull (fun _ => rbufSize) (clientTurn lib) ⟨[], mem⟩ segments with
  | (.inl _, left) => (.error (.fail "client head recv"), left)
  | (.inr (.error e), left) => (.error e, left)
  | (.inr (.ok (ret, s)), left) =>
    clientBody lib (responseFields fr.response.buf s.buf s.mem) ret
      (s.buf.drop ret.toInt.toNat) left

/-! ### The head -/

/-- No response has been received. -/
abbrev NoResponse : List UInt8 → Prop :=
  NoWord ResponseHead.bytes fun head => head.block.lines.length ≤ headersLen

abbrev ResponseWaits : List UInt8 → HeadLoop ResponseMem → Prop :=
  HeadWaits ResponseHead.bytes (fun head => head.block.lines.length ≤ headersLen) HeadLoop.buf
    bufSize

/-- How `got` ends the loop for the head. -/
inductive ResponseEnds (base : ℕ) (got : List UInt8) :
    Except Stop (Int32 × HeadLoop ResponseMem) → Prop
  | head {head : ResponseHead} {rest : List UInt8} {ret : Int32} {s : HeadLoop ResponseMem}
      (hle : got.length ≤ bufSize) (hgot : got = head.bytes ++ rest) (hbuf : s.buf = got)
      (hlines : head.block.lines.length ≤ headersLen) (hret : ret.toInt = head.bytes.length)
      (hfields : responseFields base s.buf s.mem = head.fields) :
      ResponseEnds base got (.ok (ret, s))
  | overflow {old : List UInt8} (hold : old <+: got) (hlt : bufSize < got.length)
      (hle : got.length ≤ old.length + rbufSize) (h : NoResponse old) :
      ResponseEnds base got (.error (.fail "client head overflow"))
  | malformed (h : ∀ ext, NoResponse (got ++ ext)) :
      ResponseEnds base got (.error (.fail ("client head parse ret=" ++ toString (-1 : Int32))))

section

variable {fr : Frame} {lib : Library} (hlib : Answers fr lib)

include hlib

theorem clientTurn_rule {got bs : List UInt8} {s : HeadLoop ResponseMem}
    (hlen : bs.length ≤ rbufSize) (hs : ResponseWaits got s) :
    Sum.elim (ResponseWaits (got ++ bs)) (ResponseEnds fr.response.buf (got ++ bs))
      (clientTurn lib s bs) := by
  obtain ⟨rfl, hle, hnone⟩ := hs
  unfold clientTurn
  split
  · rename_i hfull
    rw [← List.length_append] at hfull
    refine .overflow (List.prefix_append _ bs) hfull ?_ hnone
    rw [List.length_append]
    omega
  rename_i hroom
  rw [Nat.not_lt, ← List.length_append] at hroom
  have hturned : HeadTurned ResponseHead.bytes _ (fun s head =>
      responseFields fr.response.buf s.buf s.mem = head.fields) _ (s.buf ++ bs) bs.length _ :=
    headTurn_rule (words_response headersLen) ResponseHead.length_pos
      (fun h mem => hlib.parseResponse h (resetResponse mem))
      (fun head rest _ => responseFields_events fr.response_nonNull.buf head rest rfl)
      "client head parse ret=" hnone hroom
  generalize headTurn _ _ _ s bs = r at hturned ⊢
  cases hturned with
  | waits hbuf h => exact ⟨hbuf, hroom, h⟩
  | malformed h => exact .malformed h
  | head hbuf hgot hrest hx hret hshows => exact .head hroom hgot hbuf hx hret hshows

end

/-! ### The phase -/

/-- The ways in which the client ends, and what the stream `S` is in each of
them. -/
inductive ClientEnds (S : List UInt8) : Except Stop ClientReport × List (List UInt8) → Prop
  | received {head : ResponseHead} {body p : List UInt8} {left : List (List UInt8)} {ret : Int32}
      {saw : Bool} (hS : S = head.bytes ++ body ++ left.flatten)
      (hlen : head.bytes.length ≤ bufSize) (hlines : head.block.lines.length ≤ headersLen)
      (hret : ret.toInt = head.bytes.length) (hbody : ChunkedBody true body p)
      (hlt : p.length < decodedSize) (hp : cString p = expected) :
      ClientEnds S (.ok ⟨head.fields, ret, p.length, 0, expected, saw⟩, left)
  | headRecv {left : List (List UInt8)} (hle : S.length ≤ bufSize) (h : NoResponse S) :
      ClientEnds S (.error (.fail "client head recv"), left)
  | headOverflow {got : List UInt8} {left : List (List UInt8)} (hgot : got <+: S)
      (hlt : bufSize < got.length + rbufSize) (h : NoResponse got) :
      ClientEnds S (.error (.fail "client head overflow"), left)
  | headMalformed {got : List UInt8} {left : List (List UInt8)} (hgot : got <+: S)
      (h : ∀ ext, NoResponse (got ++ ext)) :
      ClientEnds S (.error (.fail ("client head parse ret=" ++ toString (-1 : Int32))), left)
  | bodyRecv {head : ResponseHead} {got : List UInt8} {left : List (List UInt8)}
      (hS : S = head.bytes ++ got) (h : Within 1 got) :
      ClientEnds S (.error (.fail "client body EOF while incomplete"), left)
  | bodyOverflow {head : ResponseHead} {got : List UInt8} {left : List (List UInt8)}
      (hgot : head.bytes ++ got <+: S) (h : decodedSize ≤ (payload 1 got).length) :
      ClientEnds S (.error (.fail "client decoded overflow"), left)
  | bodyRefused {head : ResponseHead} {got : List UInt8} {left : List (List UInt8)}
      (hgot : head.bytes ++ got <+: S) (h : Refused 1 got) :
      ClientEnds S (.error (.fail ("client body decode ret=" ++ toString (-1 : ℤ))), left)
  | mismatch {head : ResponseHead} {body p : List UInt8} {left : List (List UInt8)}
      (hgot : head.bytes ++ body <+: S) (hbody : ChunkedBody true body p)
      (hp : cString p ≠ expected) :
      ClientEnds S (.error (.fail "client body mismatch"), left)
  | leftover {head : ResponseHead} {body p rest : List UInt8} {left : List (List UInt8)}
      (hS : S = head.bytes ++ body ++ rest ++ left.flatten) (hbody : ChunkedBody true body p)
      (hrest : rest ≠ []) :
      ClientEnds S (.error (.fail ("client leftover=" ++ toString (rest.length : ℤ) ++
        ", want 0 (trailer consumed)")), left)

section

variable {fr : Frame} {lib : Library} (hlib : Answers fr lib)

include hlib

theorem clientBody_ends {head : ResponseHead} (hlen : head.bytes.length ≤ bufSize)
    (hlines : head.block.lines.length ≤ headersLen) {ret : Int32}
    (hret : ret.toInt = head.bytes.length) (carried : List UInt8)
    (segments : List (List UInt8)) :
    ClientEnds (head.bytes ++ (carried ++ segments.flatten))
      (clientBody lib head.fields ret carried segments) := by
  have hstaged := decodeStage_rule hlib client (by decide) carried segments
  unfold clientBody
  generalize decodeStage lib client carried segments = r at hstaged ⊢
  cases hstaged with
  | closed h => exact .bodyRecv rfl h
  | ends hS h =>
      rw [hS]
      cases h with
      | overflow h => exact .bodyOverflow ⟨_, List.append_assoc _ _ _⟩ h
      | refused h => exact .bodyRefused ⟨_, List.append_assoc _ _ _⟩ h
      | decoded hw hgot hp hlt hdata =>
          rename_i got left w p rest d
          subst hgot hp
          have hbody : ChunkedBody true w d.decoded := hw
          dsimp only
          unfold clientReport
          dsimp only
          split
          · have hfront : head.bytes ++ w <+: head.bytes ++ (w ++ rest ++ left.flatten) :=
              ⟨rest ++ left.flatten, by simp only [List.append_assoc]⟩
            exact .mismatch hfront hbody ‹_›
          rename_i hsame
          rw [ne_eq, not_not] at hsame
          split
          · rename_i hne
            have hS : head.bytes ++ (w ++ rest ++ left.flatten) =
                head.bytes ++ w ++ rest ++ left.flatten := by simp only [List.append_assoc]
            exact .leftover hS hbody fun h0 => hne (by rw [h0]; rfl)
          · rename_i hzero
            rw [ne_eq, not_not, Int.natCast_eq_zero, List.length_eq_zero_iff] at hzero
            subst hzero
            have hS : head.bytes ++ (w ++ [] ++ left.flatten) =
                head.bytes ++ w ++ left.flatten := by
              simp only [List.append_assoc, List.append_nil]
            rw [hsame]
            exact .received hS hlen hlines hret hbody hlt hsame

/-- On every stream, however it is delivered, the client ends in one of these
ways. -/
theorem client_ends (mem : ResponseMem) (segments : List (List UInt8)) :
    ClientEnds segments.flatten (clientReadPhase fr lib mem segments) := by
  obtain ⟨got, hstream, hresult, hclosed⟩ :=
    headWaits_rule ResponseHead.length_pos (clientTurn_rule hlib) (s := ⟨[], mem⟩) rfl segments
  unfold clientReadPhase
  generalize pull _ _ _ segments = r at hstream hresult hclosed ⊢
  obtain ⟨s | e, left⟩ := r
  · obtain ⟨⟨-, hle, hnone⟩, hzero | hleft⟩ := hclosed s rfl
    · exact absurd hzero (by decide)
    · rw [show left.flatten = [] from hleft, List.append_nil] at hstream
      exact .headRecv (hstream ▸ hle) (hstream ▸ hnone)
  have hgot : got <+: segments.flatten := ⟨_, hstream.symm⟩
  cases hresult e rfl with
  | overflow hold hlt hle h => exact .headOverflow (hold.trans hgot) (hlt.trans_le hle) h
  | malformed h => exact .headMalformed hgot h
  | head hle hgot' hbuf hlines hret hfields =>
      rename_i head rest ret s
      have hdrop : s.buf.drop ret.toInt.toNat = rest := by
        rw [hbuf, hgot', hret, Int.toNat_natCast, List.drop_left]
      rw [hgot', List.append_assoc] at hstream
      rw [hgot'] at hle
      dsimp only
      rw [hstream, hdrop, hfields]
      have hlen := (List.prefix_append head.bytes rest).length_le.trans hle
      exact clientBody_ends hlib hlen hlines hret rest left

end

/-- A response that the client is to receive: the buffer has room for its head
and for what is read along with it, and the overhead rule lets its body
through. -/
structure Receivable (head : ResponseHead) (body p : List UInt8) : Prop where
  room : head.bytes.length + rbufSize ≤ bufSize + 1
  lines : head.block.lines.length ≤ headersLen
  coding : ChunkedBody true body p
  lt : p.length < decodedSize
  same : cString p = expected
  thrift : ∀ got, got <+: body → got.length < body.length → ¬Costly 1 got

/-- Such a response, with nothing behind it, does not end in another way. -/
theorem ClientEnds.of_receivable {S : List UInt8}
    {r : Except Stop ClientReport × List (List UInt8)} (h : ClientEnds S r) {head : ResponseHead}
    {body p : List UInt8} (hS : S = head.bytes ++ body) (hr : Receivable head body p) :
    ∃ ret saw, r.1 = .ok ⟨head.fields, ret, p.length, 0, expected, saw⟩ ∧
      ret.toInt = head.bytes.length := by
  obtain ⟨hroom, hlines, hbody, hlt, hp, hthrift⟩ := hr
  have hhead : head.bytes <+: S := ⟨body, hS.symm⟩
  -- what is behind a head begins with the body
  have hbehind {head' : ResponseHead} {got : List UInt8} (hgot : head'.bytes ++ got <+: S) :
      head' = head ∧ got <+: body := by
    obtain ⟨ext, hext⟩ := hgot
    rw [hS, List.append_assoc] at hext
    obtain ⟨rfl, hrest⟩ := prefixFree_response _ _ _ _ hext
    exact ⟨rfl, ext, hrest⟩
  have hsame {head' : ResponseHead} {body' p' rest : List UInt8}
      (hbody' : ChunkedBody true body' p') (hS' : S = head'.bytes ++ body' ++ rest) :
      head' = head ∧ p' = p ∧ rest = [] := by
    obtain ⟨rfl, ext, hext⟩ := hbehind ⟨rest, hS'.symm⟩
    have hfree : body' ++ ext = body ++ [] := by rw [hext, List.append_nil]
    obtain ⟨rfl, hp', rfl⟩ := @prefixFree_body 1 _ _ _ _ _ _ hbody' hbody hfree
    exact ⟨rfl, hp', List.append_right_eq_self.mp (hS'.symm.trans hS)⟩
  cases h with
  | received hS' hlen hlines' hret hbody' hlt' hp' =>
      obtain ⟨rfl, rfl, -⟩ := hsame hbody' hS'
      exact ⟨_, _, rfl, hret⟩
  | headRecv hle h => exact absurd hhead (h head hlines)
  | headOverflow hgot hlt' h =>
      exact absurd (List.prefix_of_prefix_length_le hhead hgot (by omega)) (h head hlines)
  | headMalformed hgot h =>
      obtain ⟨ext, rfl⟩ := hgot
      exact absurd hhead (h ext head hlines)
  | bodyRecv hS' h =>
      obtain ⟨rfl, hgot⟩ := hbehind ⟨[], by rw [List.append_nil, hS']⟩
      have hgot' := (prefixFree_response _ _ _ _ (hS'.symm.trans hS)).2
      exact absurd (hgot' ▸ List.prefix_rfl) (h.noBody body p hbody)
  | bodyOverflow hgot h =>
      have hle := (payload_isPrefix (t := 1) hbody List.prefix_rfl (hbehind hgot).2).length_le
      omega
  | bodyRefused hgot h =>
      exact absurd h (not_refused (t := 1) hbody List.prefix_rfl hthrift (hbehind hgot).2)
  | mismatch hgot hbody' hne =>
      obtain ⟨rest, hrest⟩ := hgot
      obtain ⟨-, rfl, -⟩ := hsame hbody' hrest.symm
      exact absurd hp hne
  | leftover hS' hbody' hrest =>
      rw [List.append_assoc _ _ (List.flatten _)] at hS'
      obtain ⟨-, -, hnil⟩ := hsame hbody' hS'
      exact absurd (List.append_eq_nil_iff.mp hnil).1 hrest

/-- Built with either library, on every stream and for every delivery, the
client ends in one of the ways listed, and it receives every response it is
made for. -/
theorem client_read_phase {fr : Frame} {lib : Library} (hlib : Linked fr lib) (mem : ResponseMem)
    (segments : List (List UInt8)) :
    ClientEnds segments.flatten (clientReadPhase fr lib mem segments) ∧
      ∀ head body p, segments.flatten = head.bytes ++ body → Receivable head body p →
        ∃ ret saw, (clientReadPhase fr lib mem segments).1 =
            .ok ⟨head.fields, ret, p.length, 0, expected, saw⟩ ∧
          ret.toInt = head.bytes.length :=
  have hends := client_ends hlib.answers mem segments
  ⟨hends, fun _ _ _ hS hr => hends.of_receivable hS hr⟩

/-- A response in two segments, cut in its first line. -/
theorem client_read_phase_two_segments :
    let mem : ResponseMem := ⟨0, 0, 0, 0, fun _ => ⟨11, 12, 13, 14⟩, 0⟩
    let segments := [cBytes "HTTP/1.1 2",
      cBytes "00 OK\r\n\r\nb;x=1\r\nhello world\r\n0\r\nX: y\r\n\r\n"]
    ∃ ret saw, (clientReadPhase someFrame (original someFrame) mem segments).1 =
      .ok ⟨⟨1, 200, cBytes "OK", []⟩, ret, 11, 0, cBytes "hello world", saw⟩ := by
  intro mem segments
  let block : HeaderBlock := ⟨[], .crlf, fun line h => absurd h (Option.not_mem_none line)⟩
  let head : ResponseHead := ⟨0x31, 0, 0x32, 0x30, 0x30, cBytes " OK", .crlf, block, by decide,
    by decide, by decide +kernel⟩
  let body := cBytes "b;x=1\r\nhello world\r\n0\r\nX: y\r\n\r\n"
  have hbody : ChunkedBody ((1 : Int8) ≠ 0) body (cBytes "hello world") := by
    obtain ⟨w, hw, hbody⟩ : ∃ w, body = w ++ [] ∧
        ChunkedBody ((1 : Int8) ≠ 0) w (cBytes "hello world") :=
      reading_done_iff.mp (by decide +kernel)
    rw [hw, List.append_nil]
    exact hbody
  have hr : Receivable head body (cBytes "hello world") :=
    ⟨by decide +kernel, by decide, hbody, by decide +kernel, by decide +kernel, fun got hgot hne =>
      not_costly_of_short (t := 1) hbody (by decide +kernel) hgot hne⟩
  obtain ⟨ret, saw, h, -⟩ :=
    (client_read_phase (Linked.original : Linked someFrame _) mem segments).2 head body _
      (by decide +kernel) hr
  have hfields : head.fields = ⟨1, 200, cBytes "OK", []⟩ := by decide +kernel
  rw [hfields] at h
  exact ⟨ret, saw, h⟩

end PicoHttpParser.Loopback
