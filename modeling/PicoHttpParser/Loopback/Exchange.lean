import PicoHttpParser.Loopback.Client
import PicoHttpParser.Loopback.Delivery

/-!
The loopback program.

The client sends a request and an upload, the server serves them and replies
with a response, and the client receives it. The network cuts what is sent into
segments, and neither side sees where. Built with the original and with the
port the program prints the same, whatever is sent; on its own fixtures it
prints one thing or stops at one place, and which of the two depends on how the
request was delivered.
-/

namespace PicoHttpParser.Loopback

open Incremental Head Chunk

/-! ### Either library -/

section

variable {σ : Type}

theorem headTurn_congr {parse parse' : List UInt8 → ℕ → σ → Option (Int32 × σ)}
    (h : ∀ {buf : List UInt8} {lastLen : ℕ}, lastLen ≤ buf.length → ∀ mem,
      parse buf lastLen mem = parse' buf lastLen mem) (reset : σ → σ) (text : String) :
    headTurn parse reset text = headTurn parse' reset text := by
  funext s bs
  unfold headTurn
  dsimp only
  rw [h (List.prefix_append s.buf bs).length_le]

end

section

variable {fr : Frame} {lib lib' : Library} (hlib : Answers fr lib) (hlib' : Answers fr lib')

include hlib hlib'

theorem decodeTurn_congr (side : Side) {s : DecodeLoop} (hs : Valid s.dec) (bs : List UInt8) :
    decodeTurn lib side s bs = decodeTurn lib' side s bs := by
  unfold decodeTurn
  rw [hlib.decodeChunked hs, hlib'.decodeChunked hs]
  simp only [hlib.isInData, hlib'.isInData]

omit hlib' in
theorem decodeTurn_valid {side : Side} {s s' : DecodeLoop} (hs : Valid s.dec) {bs : List UInt8}
    (h : decodeTurn lib side s bs = .inl s') : Valid s'.dec := by
  have hnull := fr.decode_nonNull bs
  unfold decodeTurn at h
  rw [hlib.decodeChunked hs,
    Port.phrDecodeChunked_eq hnull.decoder hnull.bufsz hnull.buf hs] at h
  dsimp only at h
  split at h
  · cases h
  split at h
  · obtain rfl := Sum.inl.inj h
    exact valid_after s.dec bs
  split at h
  · cases h
  · cases h

theorem decodeStage_congr (side : Side) (carried : List UInt8) (segments : List (List UInt8)) :
    decodeStage lib side carried segments = decodeStage lib' side carried segments := by
  have hrecv {s : DecodeLoop} (hs : Valid s.dec) :
      decodeRecv lib side s segments = decodeRecv lib' side s segments := by
    have hpull : pull (fun _ => side.want) (decodeTurn lib side) s segments =
        pull (fun _ => side.want) (decodeTurn lib' side) s segments :=
      pull_congr (I := fun s : DecodeLoop => Valid s.dec)
        (fun s bs hs => decodeTurn_congr hlib hlib' side hs bs)
        (fun s bs s' hs h => decodeTurn_valid hlib hs h) hs segments
    unfold decodeRecv
    rw [hpull]
  have hstart : Valid side.start.dec := (accounts_zeroed side.consumeTrailer).valid
  unfold decodeStage
  rw [hrecv hstart, decodeTurn_congr hlib hlib' side hstart]
  split
  · rfl
  cases h : decodeTurn lib' side side.start carried with
  | inl s => exact hrecv (decodeTurn_valid hlib' hstart h)
  | inr r => rfl

theorem clientReadPhase_congr (mem : ResponseMem) (segments : List (List UInt8)) :
    clientReadPhase fr lib mem segments = clientReadPhase fr lib' mem segments := by
  have hturn : clientTurn lib = clientTurn lib' := by
    funext s bs
    unfold clientTurn
    rw [headTurn_congr fun h mem => (hlib.parseResponse h mem).trans
      (hlib'.parseResponse h mem).symm]
  have hbody : clientBody lib = clientBody lib' := by
    funext head ret carried segments
    unfold clientBody
    rw [decodeStage_congr hlib hlib']
  unfold clientReadPhase
  rw [hturn, hbody]

theorem runServer_congr (mem : RequestMem) (h2 : ℕ → PhrHeader) (segments : List (List UInt8)) :
    runServer fr lib mem h2 segments = runServer fr lib' mem h2 segments := by
  have hturn := headTurn_congr (fun h mem => (hlib.parseRequest h mem).trans
    (hlib'.parseRequest h mem).symm) resetRequest "server head parse ret="
  have hheaders : standaloneHeaders fr lib = standaloneHeaders fr lib' := by
    funext h2 headlen s
    unfold standaloneHeaders
    simp only [hlib.parseHeaders _ (Nat.zero_le _), hlib'.parseHeaders _ (Nat.zero_le _)]
  have hupload : serverUpload lib = serverUpload lib' := by
    funext head headlen standalone carried segments
    unfold serverUpload
    simp only [decodeStage_congr hlib hlib', hlib.isInData, hlib'.isInData]
  have hbody : serverBody fr lib = serverBody fr lib' := by
    funext h2 headlen s segments
    unfold serverBody
    rw [hheaders, hupload]
  unfold runServer
  rw [hturn, hbody]

end

/-! ### The program -/

/-- A connection: the segments in which what is sent arrives. -/
structure Connection where
  cut : List UInt8 → List (List UInt8)
  flatten_cut : ∀ bs, (cut bs).flatten = bs

/-- `REQ_HEAD` -/
def reqHead : List UInt8 := cBytes
  ("POST /submit?q=1 HTTP/1.1\r\n" ++ "Host: example.test\r\n" ++
    "Content-Type: text/plain\r\n" ++ "Content-Length: 11\r\n" ++ "X-Note: abc\r\n" ++
    " def\r\n" ++ "Connection: close\r\n" ++ "\r\n")

/-- `REQ_BODY` -/
def reqBody : List UInt8 := cBytes "hello world"

/-- `UPLOAD` -/
def upload : List UInt8 := cBytes "5\r\nhello\r\n6;ext=1\r\n world\r\n0\r\n\r\n"

/-- `RESP_HEAD` -/
def respHead : List UInt8 := cBytes
  ("HTTP/1.1 200 OK\r\n" ++ "Content-Type: text/plain\r\n" ++
    "Transfer-Encoding: chunked\r\n" ++ "\r\n")

/-- `RESP_CHUNKS` -/
def respChunks : List UInt8 := cBytes
  "5\r\nhello\r\n6;ext=1\r\n world\r\n0\r\nX-Trailer: yes\r\n\r\n"

/-- What `client_send_phase` sends. -/
def sent : List UInt8 := reqHead ++ (reqBody ++ upload)

/-- What the arrays of the program hold before they are written. -/
structure Memory where
  request : RequestMem
  h2 : ℕ → PhrHeader
  response : ResponseMem

/-- `main`, from the first connection that is accepted on. The reply is sent
when the server is done, and then the client receives it. -/
def main (fr : Frame) (lib : Library) (mem : Memory) (up down : Connection) :
    Except Stop (ServerReport × ClientReport) :=
  match (runServer fr lib mem.request mem.h2 (up.cut sent)).1 with
  | .error e => .error e
  | .ok served =>
    match (clientReadPhase fr lib mem.response (down.cut (respHead ++ respChunks))).1 with
    | .error e => .error e
    | .ok received => .ok (served, received)

/-- Built with the original and with the port, the two sides end in the same
way on every stream, and so does the program on every pair of connections. -/
theorem loopback_parity (fr : Frame) :
    (∀ mem h2 segments,
      runServer fr (original fr) mem h2 segments = runServer fr (port fr) mem h2 segments) ∧
      (∀ mem segments,
        clientReadPhase fr (original fr) mem segments =
          clientReadPhase fr (port fr) mem segments) ∧
      ∀ mem up down, main fr (original fr) mem up down = main fr (port fr) mem up down := by
  have hserver := runServer_congr (answers_original fr) (answers_port fr)
  have hclient := clientReadPhase_congr (answers_original fr) (answers_port fr)
  refine ⟨hserver, hclient, fun mem up down => ?_⟩
  unfold main
  rw [hserver, hclient]

/-! ### The fixtures -/

/-- The fields of `REQ_HEAD`. -/
def reqFields : RequestFields where
  method := cBytes "POST"
  path := cBytes "/submit?q=1"
  minorVersion := 1
  headers := [⟨some (cBytes "Host"), cBytes "example.test"⟩,
    ⟨some (cBytes "Content-Type"), cBytes "text/plain"⟩,
    ⟨some (cBytes "Content-Length"), cBytes "11"⟩, ⟨some (cBytes "X-Note"), cBytes "abc"⟩,
    ⟨none, cBytes " def"⟩, ⟨some (cBytes "Connection"), cBytes "close"⟩]

/-- The fields of `RESP_HEAD`. -/
def respFields : ResponseFields where
  minorVersion := 1
  status := 200
  msg := cBytes "OK"
  headers := [⟨some (cBytes "Content-Type"), cBytes "text/plain"⟩,
    ⟨some (cBytes "Transfer-Encoding"), cBytes "chunked"⟩]

theorem exists_reqHead : ∃ head : RequestHead, head.bytes = reqHead ∧ head.fields = reqFields ∧
    (head.block.bytes.length, head.block.lines.length) = (106, 6) ∧
      Servable head reqBody (cBytes "5\r\nhello\r\n6;ext=1\r\n world\r\n0\r\n") expected := by
  let host : HeaderLine := .named (cBytes "Host") (cBytes " example.test") .crlf
    ⟨by decide +kernel, by decide +kernel⟩ (by decide +kernel)
  let contentType : HeaderLine := .named (cBytes "Content-Type") (cBytes " text/plain") .crlf
    ⟨by decide +kernel, by decide +kernel⟩ (by decide +kernel)
  let contentLength : HeaderLine := .named (cBytes "Content-Length") (cBytes " 11") .crlf
    ⟨by decide +kernel, by decide +kernel⟩ (by decide +kernel)
  let note : HeaderLine := .named (cBytes "X-Note") (cBytes " abc") .crlf
    ⟨by decide +kernel, by decide +kernel⟩ (by decide +kernel)
  let more : HeaderLine := .continued (cBytes " def") .crlf (by decide +kernel)
    ⟨SP, by decide +kernel, .inl rfl⟩
  let connection : HeaderLine := .named (cBytes "Connection") (cBytes " close") .crlf
    ⟨by decide +kernel, by decide +kernel⟩ (by decide +kernel)
  let block : HeaderBlock := ⟨[host, contentType, contentLength, note, more, connection], .crlf,
    fun line h => by
      obtain rfl : host = line := Option.some.inj h
      exact id⟩
  let head : RequestHead := ⟨none, cBytes "POST", 0, cBytes "/submit?q=1", 0, 0x31, .crlf, block,
    ⟨by decide +kernel, by decide +kernel⟩, ⟨by decide +kernel, by decide +kernel⟩, by decide⟩
  obtain ⟨w, hw, hbody⟩ : ∃ w, cBytes "5\r\nhello\r\n6;ext=1\r\n world\r\n0\r\n" = w ++ [] ∧
      ChunkedBody ((0 : Int8) ≠ 0) w expected := reading_done_iff.mp (by decide +kernel)
  rw [List.append_nil] at hw
  have hlen : w.length ≤ 102400 := hw ▸ by decide +kernel
  rw [hw]
  exact ⟨head, by decide +kernel, by decide +kernel, by decide +kernel,
    ⟨by decide +kernel, by decide, ⟨(Option.some_ne_none _).symm, rfl,
      List.cons_ne_nil _ _⟩,
      ⟨11, by decide +kernel, by decide +kernel⟩, by decide +kernel, hbody, by decide +kernel,
      by decide +kernel, fun got hgot hne => not_costly_of_short hbody hlen hgot hne⟩⟩

theorem exists_respHead : ∃ head : ResponseHead, head.bytes = respHead ∧
    head.fields = respFields ∧ Receivable head respChunks expected := by
  let contentType : HeaderLine := .named (cBytes "Content-Type") (cBytes " text/plain") .crlf
    ⟨by decide +kernel, by decide +kernel⟩ (by decide +kernel)
  let coding : HeaderLine := .named (cBytes "Transfer-Encoding") (cBytes " chunked") .crlf
    ⟨by decide +kernel, by decide +kernel⟩ (by decide +kernel)
  let block : HeaderBlock := ⟨[contentType, coding], .crlf, fun line h => by
    obtain rfl : contentType = line := Option.some.inj h
    exact id⟩
  let head : ResponseHead := ⟨0x31, 0, 0x32, 0x30, 0x30, cBytes " OK", .crlf, block, by decide,
    by decide, by decide +kernel⟩
  obtain ⟨w, hw, hbody⟩ : ∃ w, respChunks = w ++ [] ∧ ChunkedBody ((1 : Int8) ≠ 0) w expected :=
    reading_done_iff.mp (by decide +kernel)
  rw [List.append_nil] at hw
  have hlen : w.length ≤ 102400 := hw ▸ by decide +kernel
  rw [hw]
  exact ⟨head, by decide +kernel, by decide +kernel,
    ⟨by decide +kernel, by decide, hbody, by decide +kernel, by decide +kernel,
      fun got hgot hne => not_costly_of_short hbody hlen hgot hne⟩⟩

/-! ### The exchange -/

/-- What the program prints when it succeeds: all is determined, except how
much of `UPLOAD` was read behind its last chunk, and whether a call has ended
within a chunk. -/
def Printed (r : Except Stop (ServerReport × ClientReport)) : Prop :=
  ∃ (leftover : ℕ) (saw : Bool), leftover ≤ 2 ∧
    r = .ok (⟨reqFields, 133, (106, 6), 11, leftover, expected, 0⟩,
      ⟨respFields, 73, 11, 0, expected, saw⟩)

section

variable {fr : Frame} {lib : Library} (hlib : Answers fr lib) (mem : Memory) (up down : Connection)

theorem sent_eq : sent = reqHead ++ (reqBody ++
    (cBytes "5\r\nhello\r\n6;ext=1\r\n world\r\n0\r\n" ++ [CR, LF])) := by
  have hupload : upload = cBytes "5\r\nhello\r\n6;ext=1\r\n world\r\n0\r\n" ++ [CR, LF] := by
    decide +kernel
  rw [sent, hupload]

include hlib

theorem client_receives : ∃ saw, (clientReadPhase fr lib mem.response
    (down.cut (respHead ++ respChunks))).1 = .ok ⟨respFields, 73, 11, 0, expected, saw⟩ := by
  obtain ⟨head, hbytes, hfields, hr⟩ := exists_respHead
  have hS : (down.cut (respHead ++ respChunks)).flatten = head.bytes ++ respChunks := by
    rw [down.flatten_cut, hbytes]
  obtain ⟨ret, saw, h, hret⟩ := (client_ends hlib mem.response _).of_receivable hS hr
  rw [hbytes] at hret
  have hret' : ret = 73 := Int32.toInt_inj.mp (hret.trans (by decide +kernel))
  rw [hfields, hret'] at h
  exact ⟨saw, h⟩

/-- The program is stopped in its server, or not at all. -/
theorem main_cases :
    (Printed (main fr lib mem up down) ∧
      ∃ report, (runServer fr lib mem.request mem.h2 (up.cut sent)).1 = .ok report) ∨
      (main fr lib mem up down = .error (.fail "head+body exceed buffered bytes") ∧
        (runServer fr lib mem.request mem.h2 (up.cut sent)).1 =
          .error (.fail "head+body exceed buffered bytes")) := by
  obtain ⟨head, hbytes, hfields, hlengths, hr⟩ := exists_reqHead
  obtain ⟨hblock, hlines⟩ := Prod.mk.inj hlengths
  have hS : (up.cut sent).flatten = head.bytes ++ (reqBody ++
      (cBytes "5\r\nhello\r\n6;ext=1\r\n world\r\n0\r\n" ++ [CR, LF])) := by
    rw [up.flatten_cut, hbytes, sent_eq]
  obtain ⟨saw, hclient⟩ := client_receives hlib mem down
  unfold main
  rcases (server_ends hlib mem.request mem.h2 _).of_servable hS hr with
    ⟨-, ret, leftover, hleft, hret, h⟩ | ⟨-, h⟩
  · rw [hbytes] at hret
    have hret' : ret = 133 := Int32.toInt_inj.mp (hret.trans (by decide +kernel))
    rw [hfields, hblock, hlines, hret'] at h
    rw [h, hclient]
    exact .inl ⟨⟨leftover, saw, hleft, rfl⟩, _, rfl⟩
  · rw [h]
    exact .inr ⟨rfl, rfl⟩

end

/-- Built with either library, the program prints the one transcript on every
pair of connections, or its server stops because it has not read the body along
with the head. It stops if the head arrives in segments of its own, and it
succeeds if all that the client sends has arrived before the server reads. -/
theorem loopback_exchange {fr : Frame} {lib : Library} (hlib : Linked fr lib) (mem : Memory)
    (up down : Connection) :
    (Printed (main fr lib mem up down) ∨
      main fr lib mem up down = .error (.fail "head+body exceed buffered bytes")) ∧
      (∀ A B, up.cut sent = A ++ B → A.flatten = reqHead →
        main fr lib mem up down = .error (.fail "head+body exceed buffered bytes")) ∧
      (up.cut sent = [sent] → Printed (main fr lib mem up down)) := by
  obtain ⟨head, hbytes, -, -, hr⟩ := exists_reqHead
  have hcases := main_cases hlib.answers mem up down
  refine ⟨hcases.imp And.left And.left, fun A B hcut hA => ?_, fun hcut => ?_⟩
  · have hall := up.flatten_cut sent
    rw [hcut, List.flatten_append, hA, sent_eq] at hall
    have hstop := runServer_alone hlib.answers hr mem.request mem.h2 (hA.trans hbytes.symm)
      (List.append_cancel_left hall) (by decide +kernel)
    rw [← hcut] at hstop
    rcases hcases with ⟨-, report, h⟩ | ⟨h, -⟩
    · rw [hstop] at h
      cases h
    · exact h
  · have hsent : sent = head.bytes ++ (reqBody ++
        (cBytes "5\r\nhello\r\n6;ext=1\r\n world\r\n0\r\n" ++ [CR, LF])) := by
      rw [hbytes, sent_eq]
    have hserved := (runServer_whole hlib.answers hr mem.request mem.h2 hsent).mpr (by
      rw [hbytes]
      decide +kernel)
    rcases hcases with ⟨h, -⟩ | ⟨-, h⟩
    · exact h
    · obtain ⟨report, hreport⟩ := hserved
      rw [hcut, hreport] at h
      cases h

/-- All at once, and with the head on its own. -/
theorem loopback_exchange_both :
    let mem : Memory := ⟨⟨0, 0, 0, 0, 0, fun _ => ⟨0, 0, 0, 0⟩, 0⟩, fun _ => ⟨0, 0, 0, 0⟩,
      ⟨0, 0, 0, 0, fun _ => ⟨0, 0, 0, 0⟩, 0⟩⟩
    let whole : Connection := ⟨fun bs => [bs], fun _ => List.flatten_singleton⟩
    let apart : Connection := ⟨fun bs => [bs.take 133, bs.drop 133], fun bs => by
      rw [List.flatten_cons, List.flatten_singleton, List.take_append_drop]⟩
    Printed (main someFrame (original someFrame) mem whole apart) ∧
      main someFrame (original someFrame) mem apart whole =
        .error (.fail "head+body exceed buffered bytes") := by
  intro mem whole apart
  have hhead : [sent.take 133].flatten = reqHead := by decide +kernel
  exact ⟨(loopback_exchange (Linked.original : Linked someFrame _) mem whole apart).2.2 rfl,
    (loopback_exchange (Linked.original : Linked someFrame _) mem apart whole).2.1 [sent.take 133]
      [sent.drop 133] rfl hhead⟩

end PicoHttpParser.Loopback
