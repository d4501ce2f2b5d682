import PicoHttpParser.Head.Capacity
import PicoHttpParser.Head.StartLine
import PicoHttpParser.Loopback.Decode
import PicoHttpParser.Loopback.Head

/-!
The server of the loopback program.

`run_server` receives a request in reads of 32 bytes, parses its header block a
second time on its own, steps over the body that `Content-Length` announces,
and decodes an upload that follows it. It steps over what it has in its buffer
only, so whether it serves a request depends on how much was read along with
the head. `ServerEnds` lists how it ends.
-/

namespace PicoHttpParser.Loopback

open Incremental Incremental.Reader Head Chunk

/-! ### The program -/

/-- `strstr` on the bytes in front of a null byte. -/
def strstr (needle : List UInt8) : List UInt8 → Option ℕ
  | [] => none
  | b :: bs =>
    if b = 0 then none
    else if needle.isPrefixOf (b :: bs) then some 0
    else (strstr needle bs).map (· + 1)

/-- The comparison of the first headers. -/
def SameHeader (base : ℕ) (buf : List UInt8) (h g : PhrHeader) : Prop :=
  h.nameLen = g.nameLen ∧ bytesAt base buf h.name h.nameLen = bytesAt base buf g.name h.nameLen ∧
    h.valueLen = g.valueLen ∧
    bytesAt base buf h.value h.valueLen = bytesAt base buf g.value h.valueLen

instance (base : ℕ) (buf : List UInt8) (h g : PhrHeader) : Decidable (SameHeader base buf h g) :=
  inferInstanceAs (Decidable (_ ∧ _))

/-- The header block is parsed on its own, from the first line end on. -/
def standaloneHeaders (fr : Frame) (lib : Library) (h2 : ℕ → PhrHeader) (headlen : Int32)
    (s : HeadLoop RequestMem) : Except Stop (Int32 × ℕ) :=
  match strstr [CR, LF] s.buf with
  -- the null pointer, and `+ 2`
  | none => .error .undefined
  | some i =>
    let hs := i + 2
    -- a block behind the head would have a length below zero
    if headlen.toInt.toNat < hs then .error .undefined
    else
      let hlen := headlen.toInt.toNat - hs
      match lib.parseHeaders hs ((s.buf.drop hs).take hlen) 0 ⟨h2, headersLen⟩ with
      | none => .error .undefined
      | some (hret, m) =>
        if hret ≠ Int32.ofNat hlen ∨ m.numHeaders ≠ s.mem.block.numHeaders then
          .error (.fail "standalone header parse disagrees")
        else if m.numHeaders = 0 ∨ (m.headers 0).name = 0 ∨
            ¬SameHeader fr.request.buf s.buf (m.headers 0) (s.mem.block.headers 0) then
          .error (.fail "standalone header content disagrees")
        else .ok (hret, m.numHeaders)

/-- The value of a `Content-Length`, from the digits in front of it on. -/
def contentLength (v : UInt64) : List UInt8 → Option UInt64
  | [] => some v
  | c :: cs => if c < 0x30 ∨ 0x39 < c then none else contentLength (v * 10 + (c - 0x30).toUInt64) cs

/-- `body_skip`. The last `Content-Length` counts. -/
def bodySkip (skip : UInt64) : List Field → Option UInt64
  | [] => some skip
  | f :: fs =>
    if f.name = some (cBytes "Content-Length") then
      match contentLength 0 f.value with
      | none => none
      | some v => bodySkip v fs
    else bodySkip skip fs

/-- Where the upload begins. A `size_t` wraps. -/
def uploadStart (headlen : ℕ) (skip : UInt64) : ℕ := (UInt64.ofNat headlen + skip).toNat

/-- What was read behind the body is carried over. -/
def carryOver (headlen : Int32) (headers : List Field) (buf : List UInt8) :
    Except Stop (List UInt8) :=
  match bodySkip 0 headers with
  | none => .error (.fail "bad content-length")
  | some skip =>
    let n := uploadStart headlen.toInt.toNat skip
    if buf.length < n then .error (.fail "head+body exceed buffered bytes")
    else if bufSize < buf.length - n then .error (.fail "carried tail overflow")
    else .ok (buf.drop n)

/-- The server's decode loop. -/
def server : Side where
  consumeTrailer := 0
  want := 24
  recvText := "server upload recv"
  overflowText := "decoded overflow"
  decodeText := "server upload decode ret="

/-- What the server prints. -/
structure ServerReport where
  head : RequestFields
  headlen : Int32
  standalone : Int32 × ℕ
  decoded : ℕ
  leftover : ℤ
  body : List UInt8
  inData : Int32

/-- The upload. -/
def serverUpload (lib : Library) (head : RequestFields) (headlen : Int32) (standalone : Int32 × ℕ)
    (carried : List UInt8) (segments : List (List UInt8)) :
    Except Stop ServerReport × List (List UInt8) :=
  match decodeStage lib server carried segments with
  | (.error e, left) => (.error e, left)
  | (.ok (r2, d), left) =>
    let body := cString d.decoded
    if body ≠ expected then (.error (.fail "upload body mismatch"), left)
    else (.ok ⟨head, headlen, standalone, d.decoded.length, r2, body, lib.isInData d.dec⟩, left)

/-- The server behind the loop for the head. -/
def serverBody (fr : Frame) (lib : Library) (h2 : ℕ → PhrHeader) (headlen : Int32)
    (s : HeadLoop RequestMem) (segments : List (List UInt8)) :
    Except Stop ServerReport × List (List UInt8) :=
  let head := requestFields fr.request.buf s.buf s.mem
  match standaloneHeaders fr lib h2 headlen s with
  | .error e => (.error e, segments)
  | .ok standalone =>
    match carryOver headlen head.headers s.buf with
    | .error e => (.error e, segments)
    | .ok carried => serverUpload lib head headlen standalone carried segments

/-- The assignments in front of `phr_parse_request`. -/
def resetRequest (mem : RequestMem) : RequestMem :=
  ⟨0, 0, 0, 0, -1, { mem.block with numHeaders := headersLen }⟩

/-- The length of a read. -/
abbrev readSize : ℕ := 32

/-- `run_server` up to its reply. -/
def runServer (fr : Frame) (lib : Library) (mem : RequestMem) (h2 : ℕ → PhrHeader)
    (segments : List (List UInt8)) : Except Stop ServerReport × List (List UInt8) :=
  match pull (fun s => min readSize (bufSize - s.buf.length))
      (headTurn lib.parseRequest resetRequest "server head parse ret=") ⟨[], mem⟩ segments with
  | (.inl _, left) => (.error (.fail "server recv"), left)
  | (.inr (.error e), left) => (.error e, left)
  | (.inr (.ok (ret, s)), left) => serverBody fr lib h2 ret s left

/-! ### The first line end -/

/-- Neither a null byte nor the begin of a line end. -/
def Inner (b : UInt8) : Prop := b ≠ 0 ∧ b ≠ CR

instance : DecidablePred Inner := fun _ => inferInstanceAs (Decidable (_ ∧ _))

theorem strstr_crlf {u : List UInt8} (hu : ∀ b ∈ u, Inner b) (v : List UInt8) :
    strstr [CR, LF] (u ++ CR :: LF :: v) = some u.length := by
  induction u with
  | nil => rfl
  | cons b u ih =>
      obtain ⟨⟨hzero, hcr⟩, hu⟩ := List.forall_mem_cons.mp hu
      have hne : ([CR, LF] : List UInt8).isPrefixOf (b :: (u ++ CR :: LF :: v)) = false := by
        rw [List.isPrefixOf, beq_eq_false_iff_ne.mpr (Ne.symm hcr), Bool.false_and]
      rw [List.cons_append, strstr, if_neg hzero, hne, if_neg Bool.false_ne_true, ih hu]
      rfl

/-- A head whose first line is the first that ends with CR and LF, and that has
a header. -/
structure Plain (head : RequestHead) : Prop where
  lead : head.lead ≠ some .crlf
  eol : head.eol = .crlf
  lines : head.block.lines ≠ []

theorem inner_of_token {b : UInt8} (h : IsTokenByte b) : Inner b :=
  forall_byte (P := fun b => IsTokenByte b → Inner b) (by decide +kernel) b h

theorem inner_of_visible {b : UInt8} (h : IsVisible b) : Inner b :=
  forall_byte (P := fun b => IsVisible b → Inner b) (by decide +kernel) b h

theorem inner_of_digit {b : UInt8} (h : IsDigit b) : Inner b :=
  forall_byte (P := fun b => IsDigit b → Inner b) (by decide +kernel) b h

theorem Plain.inner_lead {head : RequestHead} (h : Plain head) :
    ∀ b ∈ leadBytes head.lead, Inner b := by
  have hlead := h.lead
  cases hcase : head.lead with
  | none => exact fun _ hb => absurd hb List.not_mem_nil
  | some e =>
      cases e with
      | lf => exact List.forall_mem_singleton.mpr (by decide)
      | crlf => exact absurd hcase hlead

theorem strstr_head {head : RequestHead} (h : Plain head) (v : List UInt8) :
    ∃ i, strstr [CR, LF] (head.line ++ v) = some i ∧ i + 2 = head.line.length := by
  have hspaces (n : ℕ) : ∀ b ∈ spacesBytes n, Inner b := fun b hb => by
    rw [List.eq_of_mem_replicate hb]
    decide
  have hversion : ∀ b ∈ versionBytes head.version, Inner b := by
    simp only [versionBytes, List.forall_mem_cons]
    exact ⟨by decide, by decide, by decide, by decide, by decide, by decide, by decide,
      inner_of_digit head.isDigit, fun _ hb => absurd hb List.not_mem_nil⟩
  obtain ⟨u, hu⟩ : ∃ u, u = leadBytes head.lead ++ (head.method ++ (spacesBytes head.gap₁ ++
    (head.path ++ (spacesBytes head.gap₂ ++ versionBytes head.version)))) := ⟨_, rfl⟩
  have hinner : ∀ b ∈ u, Inner b := by
    simp only [hu, List.forall_mem_append]
    exact ⟨h.inner_lead, fun b hb => inner_of_token (head.isName.2 b hb), hspaces _,
      fun b hb => inner_of_visible (head.isTarget.2 b hb), hspaces _, hversion⟩
  have hline : head.line = u ++ [CR, LF] := by
    simp only [RequestHead.line, h.eol, hu, List.append_assoc, Eol.bytes]
  refine ⟨u.length, ?_, by rw [hline, List.length_append]; rfl⟩
  rw [hline, List.append_assoc]
  exact strstr_crlf hinner v

/-! ### The header block on its own -/

/-- What the memory of the loop shows when it is left. -/
structure ShowsRequest (base : ℕ) (s : HeadLoop RequestMem) (head : RequestHead) : Prop where
  fields : requestFields base s.buf s.mem = head.fields
  count : s.mem.block.numHeaders = head.block.lines.length
  first : ∀ line ∈ head.block.lines.head?,
    s.mem.block.headers 0 = slotHeader base (line.slot head.blockStart)

section

variable {base : ℕ}

/-- The first slot of a block. -/
theorem first_slot {mem : HeaderMem} {p : ℕ} {lines : List HeaderLine} {line : HeaderLine}
    (hline : line ∈ lines.head?) :
    ((slotEvents 0 (slots p lines)).foldl (Original.publishHeader base) mem).headers 0 =
      slotHeader base (line.slot p) := by
  cases lines with
  | nil => exact absurd hline (Option.not_mem_none line)
  | cons l lines =>
      obtain rfl : l = line := Option.some.inj hline
      rw [slots, headers_slotEvents]
      exact dif_pos ⟨le_rfl, Nat.succ_pos _⟩

theorem showsRequest (hbase : base ≠ 0) (head : RequestHead) (rest : List UInt8) {mem : RequestMem}
    (hmem : mem.block.numHeaders = 0) :
    ShowsRequest base
      ⟨head.bytes ++ rest, head.events.foldl (Original.Request.publish base) mem⟩ head := by
  have hblock : (head.events.foldl (Original.Request.publish base) mem).block =
      (slotEvents 0 (slots head.blockStart head.block.lines)).foldl (Original.publishHeader base)
        mem.block := by
    rw [RequestHead.events, List.foldl_cons, List.foldl_cons, List.foldl_cons,
      foldl_request_headers]
    rfl
  refine ⟨requestFields_events hbase head rest hmem, ?_, fun line hline => ?_⟩
  · dsimp only
    rw [hblock, numHeaders_slotEvents _ hmem, Nat.zero_add, length_slots]
  · dsimp only
    rw [hblock, first_slot hline]

/-- The slot of a line that is found behind `n` bytes of the input. -/
theorem slotHeader_behind (n : ℕ) (line : HeaderLine) :
    slotHeader (base + n) (line.slot 0) = slotHeader base (line.slot n) := by
  cases line with
  | named name text e hname htext =>
      simp only [slotHeader, HeaderLine.slot, Option.elim_some, Nat.add_zero, Nat.zero_add,
        Nat.add_assoc]
  | continued text e htext hblank =>
      simp only [slotHeader, HeaderLine.slot, Option.elim_none, Nat.add_zero]

end

/-- The answer to a block. -/
theorem answer_block {base : ℕ} (block : HeaderBlock)
    (hlines : block.lines.length ≤ headersLen) (mem : HeaderMem) :
    Head.answer (Original.publishHeader base) (headers headersLen) block.bytes 0 mem =
      (Int32.ofNat block.bytes.length,
        (slotEvents 0 (slots 0 block.lines)).foldl (Original.publishHeader base) mem) := by
  have htakes : Takes (headers headersLen) block.bytes 0 block.bytes [] () _ :=
    (takes_headers (Nat.zero_le _)).mpr ⟨(List.append_nil _).symm, block, rfl, hlines, rfl⟩
  have hread := htakes.read
  rw [Nat.zero_add] at hread
  rw [Head.answer, gated_zero, hread]
  rfl

/-- How the second parse fails. -/
theorem standaloneHeaders_error {fr : Frame} {lib : Library} {h2 : ℕ → PhrHeader} {headlen : Int32}
    {s : HeadLoop RequestMem} {e : Stop} (h : standaloneHeaders fr lib h2 headlen s = .error e) :
    e = .undefined ∨ e = .fail "standalone header parse disagrees" ∨
      e = .fail "standalone header content disagrees" := by
  unfold standaloneHeaders at h
  dsimp only at h
  split at h
  · exact .inl (Except.error.inj h).symm
  split at h
  · exact .inl (Except.error.inj h).symm
  split at h
  · exact .inl (Except.error.inj h).symm
  split at h
  · exact .inr (.inl (Except.error.inj h).symm)
  split at h
  · exact .inr (.inr (Except.error.inj h).symm)
  · cases h

/-- The second parse of a plain head agrees with the first. -/
theorem standaloneHeaders_plain {fr : Frame} {lib : Library} (hlib : Answers fr lib)
    (h2 : ℕ → PhrHeader) {head : RequestHead} (hplain : Plain head)
    (hlines : head.block.lines.length ≤ headersLen) {rest : List UInt8} {headlen : Int32}
    (hlen : headlen.toInt = head.bytes.length) {s : HeadLoop RequestMem}
    (hbuf : s.buf = head.bytes ++ rest) (hs : ShowsRequest fr.request.buf s head) :
    standaloneHeaders fr lib h2 headlen s =
      .ok (Int32.ofNat head.block.bytes.length, head.block.lines.length) := by
  rw [head.bytes_eq, List.append_assoc] at hbuf
  obtain ⟨i, hfound, hi⟩ := strstr_head hplain (head.block.bytes ++ rest)
  have hheadlen : headlen.toInt.toNat = head.line.length + head.block.bytes.length := by
    rw [hlen, Int.toNat_natCast, head.bytes_eq, List.length_append]
  have hrest : (s.buf.drop head.line.length).take head.block.bytes.length = head.block.bytes := by
    rw [hbuf, List.drop_left, List.take_left]
  obtain ⟨line, hline⟩ : ∃ line, line ∈ head.block.lines.head? := by
    obtain ⟨line, lines, h⟩ := List.exists_cons_of_ne_nil hplain.lines
    exact ⟨line, by rw [h]; rfl⟩
  have hfirst := hs.first line hline
  rw [← head.length_line, ← slotHeader_behind] at hfirst
  unfold standaloneHeaders
  rw [hbuf, hfound, ← hbuf]
  dsimp only
  rw [hi, hheadlen, if_neg (by omega), Nat.add_sub_cancel_left, hrest,
    hlib.parseHeaders _ (Nat.zero_le _), answer_block _ hlines]
  dsimp only
  rw [numHeaders_slotEvents _ rfl, Nat.zero_add, length_slots, first_slot hline, hs.count, hfirst]
  have hname : (slotHeader (fr.request.buf + head.line.length) (line.slot 0)).name ≠ 0 := by
    have hnamed := head.block.first line hline
    cases line with
    | named name text e hname htext =>
        exact Nat.ne_of_gt (Nat.add_pos_left (Nat.add_pos_left (Nat.pos_of_ne_zero
          fr.request_nonNull.buf) _) _)
    | continued text e htext hblank => exact absurd trivial hnamed
  have hcount : head.block.lines.length ≠ 0 := fun h0 =>
    hplain.lines (List.eq_nil_of_length_eq_zero h0)
  rw [if_neg (by simp), if_neg (by simp [hcount, hname, SameHeader])]

/-! ### What is carried over -/

theorem carryOver_of_skip {headlen : Int32} {n : ℕ} (hlen : headlen.toInt = n)
    {headers : List Field} {skip : UInt64} (hskip : bodySkip 0 headers = some skip)
    {buf : List UInt8} (hle : buf.length ≤ bufSize) :
    carryOver headlen headers buf =
      if buf.length < uploadStart n skip then .error (.fail "head+body exceed buffered bytes")
      else .ok (buf.drop (uploadStart n skip)) := by
  unfold carryOver
  rw [hskip, hlen, Int.toNat_natCast]
  dsimp only
  split
  · rfl
  · exact if_neg (by omega)

/-! ### What the loop for the head keeps -/

/-- No request has been received. -/
abbrev NoRequest : List UInt8 → Prop :=
  NoWord RequestHead.bytes fun head => head.block.lines.length ≤ headersLen

abbrev RequestWaits : List UInt8 → HeadLoop RequestMem → Prop :=
  HeadWaits RequestHead.bytes (fun head => head.block.lines.length ≤ headersLen) HeadLoop.buf
    bufSize

/-- How `got` ends the loop for the head. -/
inductive RequestEnds (base : ℕ) (got : List UInt8) :
    Except Stop (Int32 × HeadLoop RequestMem) → Prop
  | head {head : RequestHead} {rest : List UInt8} {ret : Int32} {s : HeadLoop RequestMem}
      (hle : got.length ≤ bufSize) (hgot : got = head.bytes ++ rest)
      (hrest : rest.length < readSize) (hbuf : s.buf = got)
      (hlines : head.block.lines.length ≤ headersLen)
      (hret : ret.toInt = head.bytes.length) (hshows : ShowsRequest base s head) :
      RequestEnds base got (.ok (ret, s))
  | malformed (h : ∀ ext, NoRequest (got ++ ext)) :
      RequestEnds base got (.error (.fail ("server head parse ret=" ++ toString (-1 : Int32))))

section

variable {fr : Frame} {lib : Library} (hlib : Answers fr lib)

include hlib

theorem serverTurn_rule {got bs : List UInt8} {s : HeadLoop RequestMem}
    (hlen : bs.length ≤ min readSize (bufSize - s.buf.length)) (hs : RequestWaits got s) :
    Sum.elim (RequestWaits (got ++ bs)) (RequestEnds fr.request.buf (got ++ bs))
      (headTurn lib.parseRequest resetRequest "server head parse ret=" s bs) := by
  obtain ⟨rfl, hle, hnone⟩ := hs
  have hroom : (s.buf ++ bs).length ≤ bufSize := by
    rw [List.length_append]
    omega
  have hturned : HeadTurned RequestHead.bytes _ (ShowsRequest fr.request.buf) _ (s.buf ++ bs)
      bs.length _ :=
    headTurn_rule (words_request headersLen) RequestHead.length_pos
      (fun h mem => hlib.parseRequest h (resetRequest mem))
      (fun head rest _ => showsRequest fr.request_nonNull.buf head rest rfl)
      "server head parse ret=" hnone hroom
  generalize headTurn _ _ _ s bs = r at hturned ⊢
  cases hturned with
  | waits hbuf h => exact ⟨hbuf, hroom, h⟩
  | malformed h => exact .malformed h
  | head hbuf hgot hrest hx hret hshows =>
      exact .head hroom hgot (by omega) hbuf hx hret hshows

end

/-! ### The server -/

/-- The ways in which the server ends, and what the stream `S` is in each of
them. -/
inductive ServerEnds (S : List UInt8) : Except Stop ServerReport × List (List UInt8) → Prop
  | served {head : RequestHead} {skip : UInt64} {body p rest : List UInt8}
      {left : List (List UInt8)} {ret : Int32} {standalone : Int32 × ℕ} (hhead : head.bytes <+: S)
      (hlen : head.bytes.length ≤ bufSize) (hlines : head.block.lines.length ≤ headersLen)
      (hret : ret.toInt = head.bytes.length)
      (hplain : Plain head →
        standalone = (Int32.ofNat head.block.bytes.length, head.block.lines.length))
      (hskip : bodySkip 0 head.block.fields = some skip)
      (hnear : uploadStart head.bytes.length skip < head.bytes.length + readSize)
      (hS : S.drop (uploadStart head.bytes.length skip) = body ++ rest ++ left.flatten)
      (hbody : ChunkedBody false body p) (hlt : p.length < decodedSize)
      (hp : cString p = expected) :
      ServerEnds S
        (.ok ⟨head.fields, ret, standalone, p.length, rest.length, expected, 0⟩, left)
  | headRecv {got : List UInt8} {left : List (List UInt8)} (hgot : got <+: S) (h : NoRequest got)
      (hend : got = S ∨ got.length = bufSize) :
      ServerEnds S (.error (.fail "server recv"), left)
  | headMalformed {got : List UInt8} {left : List (List UInt8)} (hgot : got <+: S)
      (h : ∀ ext, NoRequest (got ++ ext)) :
      ServerEnds S (.error (.fail ("server head parse ret=" ++ toString (-1 : Int32))), left)
  | unplain {head : RequestHead} {left : List (List UInt8)} {e : Stop} (hhead : head.bytes <+: S)
      (h : ¬Plain head) (he : e = .undefined ∨ e = .fail "standalone header parse disagrees" ∨
        e = .fail "standalone header content disagrees") : ServerEnds S (.error e, left)
  | badLength {head : RequestHead} {left : List (List UInt8)} (hhead : head.bytes <+: S)
      (h : bodySkip 0 head.block.fields = none) :
      ServerEnds S (.error (.fail "bad content-length"), left)
  | exceeds {head : RequestHead} {skip : UInt64} {got : List UInt8} {left : List (List UInt8)}
      (hgot : got <+: S) (hhead : head.bytes <+: got)
      (hnear : got.length < head.bytes.length + readSize)
      (hskip : bodySkip 0 head.block.fields = some skip)
      (hlt : got.length < uploadStart head.bytes.length skip) :
      ServerEnds S (.error (.fail "head+body exceed buffered bytes"), left)
  | uploadRecv {head : RequestHead} {skip : UInt64} {left : List (List UInt8)}
      (hhead : head.bytes <+: S) (hskip : bodySkip 0 head.block.fields = some skip)
      (h : Within 0 (S.drop (uploadStart head.bytes.length skip))) :
      ServerEnds S (.error (.fail "server upload recv"), left)
  | uploadOverflow {head : RequestHead} {skip : UInt64} {got : List UInt8}
      {left : List (List UInt8)} (hhead : head.bytes <+: S)
      (hskip : bodySkip 0 head.block.fields = some skip)
      (hgot : got <+: S.drop (uploadStart head.bytes.length skip))
      (h : decodedSize ≤ (payload 0 got).length) :
      ServerEnds S (.error (.fail "decoded overflow"), left)
  | uploadRefused {head : RequestHead} {skip : UInt64} {got : List UInt8}
      {left : List (List UInt8)} (hhead : head.bytes <+: S)
      (hskip : bodySkip 0 head.block.fields = some skip)
      (hgot : got <+: S.drop (uploadStart head.bytes.length skip)) (h : Refused 0 got) :
      ServerEnds S (.error (.fail ("server upload decode ret=" ++ toString (-1 : ℤ))), left)
  | mismatch {head : RequestHead} {skip : UInt64} {body p : List UInt8} {left : List (List UInt8)}
      (hhead : head.bytes <+: S) (hskip : bodySkip 0 head.block.fields = some skip)
      (hgot : body <+: S.drop (uploadStart head.bytes.length skip))
      (hbody : ChunkedBody false body p) (hp : cString p ≠ expected) :
      ServerEnds S (.error (.fail "upload body mismatch"), left)

section

variable {fr : Frame} {lib : Library} (hlib : Answers fr lib)

include hlib

/-- The upload, which is what is behind the body that was announced. -/
theorem serverUpload_ends {S : List UInt8} {head : RequestHead} (hhead : head.bytes <+: S)
    (hlen : head.bytes.length ≤ bufSize) (hlines : head.block.lines.length ≤ headersLen)
    {ret : Int32} (hret : ret.toInt = head.bytes.length) {standalone : Int32 × ℕ}
    (hplain : Plain head →
      standalone = (Int32.ofNat head.block.bytes.length, head.block.lines.length))
    {skip : UInt64} (hskip : bodySkip 0 head.block.fields = some skip)
    (hnear : uploadStart head.bytes.length skip < head.bytes.length + readSize)
    {carried : List UInt8} {segments : List (List UInt8)}
    (hS : S.drop (uploadStart head.bytes.length skip) = carried ++ segments.flatten) :
    ServerEnds S (serverUpload lib head.fields ret standalone carried segments) := by
  have hstaged := decodeStage_rule hlib server (by decide) carried segments
  rw [← hS] at hstaged
  unfold serverUpload
  generalize decodeStage lib server carried segments = r at hstaged ⊢
  cases hstaged with
  | closed h => exact .uploadRecv hhead hskip h
  | ends hS' h =>
      cases h with
      | overflow h => exact .uploadOverflow hhead hskip ⟨_, hS'.symm⟩ h
      | refused h => exact .uploadRefused hhead hskip ⟨_, hS'.symm⟩ h
      | decoded hw hgot hp hlt hdata =>
          rename_i got left w p rest d
          subst hgot hp
          have hbody : ChunkedBody false w d.decoded := hw
          dsimp only
          split
          · have hfront : w <+: S.drop (uploadStart head.bytes.length skip) :=
              ⟨rest ++ left.flatten, by rw [hS', List.append_assoc]⟩
            exact .mismatch hhead hskip hfront hbody ‹_›
          · rename_i hsame
            rw [ne_eq, not_not] at hsame
            rw [hsame, hlib.isInData, hdata]
            exact .served hhead hlen hlines hret hplain hskip hnear hS' hbody hlt hsame

theorem server_ends (mem : RequestMem) (h2 : ℕ → PhrHeader) (segments : List (List UInt8)) :
    ServerEnds segments.flatten (runServer fr lib mem h2 segments) := by
  obtain ⟨got, hstream, hresult, hclosed⟩ :=
    headWaits_rule RequestHead.length_pos (serverTurn_rule hlib) (s := ⟨[], mem⟩) rfl segments
  have hgot : got <+: segments.flatten := ⟨_, hstream.symm⟩
  unfold runServer
  generalize pull _ _ _ segments = r at hstream hresult hclosed ⊢
  obtain ⟨s | e, left⟩ := r
  · obtain ⟨⟨hbuf, hle, hnone⟩, hzero | hleft⟩ := hclosed s rfl
    · rw [hbuf] at hzero
      have hfull : bufSize - got.length = 0 :=
        (Nat.min_eq_zero_iff.mp hzero).resolve_left (by decide)
      exact .headRecv hgot hnone (.inr (Nat.le_antisymm hle (Nat.sub_eq_zero_iff_le.mp hfull)))
    · rw [show left.flatten = [] from hleft, List.append_nil] at hstream
      exact .headRecv hgot hnone (.inl hstream.symm)
  cases hresult e rfl with
  | malformed h => exact .headMalformed hgot h
  | head hle hgot' hrest hbuf hlines hret hshows =>
      rename_i head rest ret s
      have hfront : head.bytes <+: got := ⟨rest, hgot'.symm⟩
      have hhead := hfront.trans hgot
      have hlen := hfront.length_le.trans hle
      have htotal : got.length = head.bytes.length + rest.length := by
        rw [hgot', List.length_append]
      have hplain (h : Plain head) := standaloneHeaders_plain hlib h2 h hlines hret
        (hbuf.trans hgot') hshows
      dsimp only at hstream ⊢
      unfold serverBody
      dsimp only
      rw [hshows.fields]
      cases hstandalone : standaloneHeaders fr lib h2 ret s with
      | error e =>
          refine .unplain hhead (fun h => ?_) (standaloneHeaders_error hstandalone)
          rw [hplain h] at hstandalone
          cases hstandalone
      | ok standalone =>
          have hstandalone' (h : Plain head) := Except.ok.inj (hstandalone.symm.trans (hplain h))
          dsimp only
          rw [hbuf]
          cases hskip : bodySkip 0 head.fields.headers with
          | none =>
              unfold carryOver
              rw [hskip]
              exact .badLength hhead hskip
          | some skip =>
              rw [carryOver_of_skip hret hskip hle]
              by_cases hshort : got.length < uploadStart head.bytes.length skip
              · rw [if_pos hshort]
                exact .exceeds hgot hfront (by omega) hskip hshort
              · rw [if_neg hshort]
                refine serverUpload_ends hlib hhead hlen hlines hret hstandalone' hskip
                  (by omega) ?_
                rw [hstream, List.drop_append_of_le_length (Nat.not_lt.mp hshort)]

end

/-- A request that the server is to serve, with the body it announces and an
upload behind it. -/
structure Servable (head : RequestHead) (skipped body p : List UInt8) : Prop where
  room : head.bytes.length ≤ bufSize
  lines : head.block.lines.length ≤ headersLen
  plain : Plain head
  skip : ∃ skip : UInt64, bodySkip 0 head.block.fields = some skip ∧ skip.toNat = skipped.length
  size : head.bytes.length + skipped.length < 2 ^ 64
  coding : ChunkedBody false body p
  lt : p.length < decodedSize
  same : cString p = expected
  thrift : ∀ got, got <+: body → got.length < body.length → ¬Costly 0 got

theorem Servable.start {head : RequestHead} {skipped body p : List UInt8}
    (h : Servable head skipped body p) :
    ∃ skip, bodySkip 0 head.block.fields = some skip ∧
      uploadStart head.bytes.length skip = head.bytes.length + skipped.length := by
  obtain ⟨skip, hskip, hlength⟩ := h.skip
  have hhead : head.bytes.length < 2 ^ 64 := h.room.trans_lt (by decide)
  refine ⟨skip, hskip, ?_⟩
  rw [uploadStart, UInt64.toNat_add, UInt64.toNat_ofNat', hlength, Nat.mod_eq_of_lt hhead,
    Nat.mod_eq_of_lt h.size]

/-- The server serves such a request, or it has not read enough of it along
with the head. -/
theorem ServerEnds.of_servable {S : List UInt8} {r : Except Stop ServerReport × List (List UInt8)}
    (h : ServerEnds S r) {head : RequestHead} {skipped body p rest : List UInt8}
    (hS : S = head.bytes ++ (skipped ++ (body ++ rest))) (hr : Servable head skipped body p) :
    (skipped.length < readSize ∧ ∃ (ret : Int32) (leftover : ℕ), leftover ≤ rest.length ∧
      ret.toInt = head.bytes.length ∧
      r.1 = .ok ⟨head.fields, ret, (Int32.ofNat head.block.bytes.length, head.block.lines.length),
        p.length, leftover, expected, 0⟩) ∨
      (skipped ≠ [] ∧ r.1 = .error (.fail "head+body exceed buffered bytes")) := by
  obtain ⟨skip, hskip, hstart⟩ := hr.start
  obtain ⟨hroom, hlines, hplain, -, hsize, hbody, hlt, hp, hthrift⟩ := hr
  have hfront : head.bytes <+: S := ⟨_, hS.symm⟩
  have hdrop : S.drop (uploadStart head.bytes.length skip) = body ++ rest := by
    rw [hstart, hS, ← List.drop_drop, List.drop_left, List.drop_left]
  have hupload : body <+: S.drop (uploadStart head.bytes.length skip) := ⟨rest, hdrop.symm⟩
  have hsame {head' : RequestHead} (hhead : head'.bytes <+: S) : head' = head := by
    obtain ⟨ext, hext⟩ := hhead
    exact (prefixFree_request _ _ _ _ (hext.trans hS)).1
  cases h with
  | served hhead hlen hlines' hret hstandalone hskip' hnear hS' hbody' hlt' hp' =>
      obtain rfl := hsame hhead
      obtain rfl := Option.some.inj (hskip.symm.trans hskip')
      rw [hdrop, List.append_assoc] at hS'
      obtain ⟨-, rfl, hrest⟩ := @prefixFree_body 0 _ _ _ _ _ _ hbody hbody' hS'
      refine .inl ⟨by omega, _, _, ?_, hret, by rw [hstandalone hplain]⟩
      rw [hrest, List.length_append]
      exact Nat.le_add_right _ _
  | headRecv hgot hnone hend =>
      rcases hend with rfl | hfull
      · exact absurd hfront (hnone head hlines)
      · exact absurd (List.prefix_of_prefix_length_le hfront hgot (hroom.trans hfull.ge))
          (hnone head hlines)
  | headMalformed hgot hnone =>
      obtain ⟨ext, rfl⟩ := hgot
      exact absurd hfront (hnone ext head hlines)
  | unplain hhead hnot he => exact absurd (hsame hhead ▸ hplain) hnot
  | badLength hhead hnone =>
      rw [hsame hhead, hskip] at hnone
      cases hnone
  | exceeds hgot hhead hnear hskip' hshort =>
      obtain rfl := hsame (hhead.trans hgot)
      obtain rfl := Option.some.inj (hskip.symm.trans hskip')
      refine .inr ⟨?_, rfl⟩
      rintro rfl
      have hle := hhead.length_le
      rw [hstart, List.length_nil] at hshort
      omega
  | uploadRecv hhead hskip' h =>
      obtain rfl := hsame hhead
      obtain rfl := Option.some.inj (hskip.symm.trans hskip')
      exact absurd hupload (h.noBody body p hbody)
  | uploadOverflow hhead hskip' hgot h =>
      obtain rfl := hsame hhead
      obtain rfl := Option.some.inj (hskip.symm.trans hskip')
      have hle := (payload_isPrefix (t := 0) hbody hupload hgot).length_le
      omega
  | uploadRefused hhead hskip' hgot h =>
      obtain rfl := hsame hhead
      obtain rfl := Option.some.inj (hskip.symm.trans hskip')
      exact absurd h (not_refused (t := 0) hbody hupload hthrift hgot)
  | mismatch hhead hskip' hgot hbody' hne =>
      obtain rfl := hsame hhead
      obtain rfl := Option.some.inj (hskip.symm.trans hskip')
      obtain ⟨ext, hext⟩ := hgot
      obtain ⟨-, rfl, -⟩ := @prefixFree_body 0 _ _ _ _ _ _ hbody hbody' (hdrop.symm.trans hext.symm)
      exact absurd hp hne

/-- Built with either library, on every stream and for every delivery, the
server ends in one of the ways listed, and it serves every request it is made
for, unless the body that the request announces has not been read along with
its head. -/
theorem run_server {fr : Frame} {lib : Library} (hlib : Linked fr lib) (mem : RequestMem)
    (h2 : ℕ → PhrHeader) (segments : List (List UInt8)) :
    ServerEnds segments.flatten (runServer fr lib mem h2 segments) ∧
      ∀ head skipped body p rest,
        segments.flatten = head.bytes ++ (skipped ++ (body ++ rest)) →
          Servable head skipped body p →
            (skipped.length < readSize ∧ ∃ (ret : Int32) (leftover : ℕ),
              leftover ≤ rest.length ∧ ret.toInt = head.bytes.length ∧
              (runServer fr lib mem h2 segments).1 = .ok ⟨head.fields, ret,
                (Int32.ofNat head.block.bytes.length, head.block.lines.length), p.length,
                leftover, expected, 0⟩) ∨
              (skipped ≠ [] ∧ (runServer fr lib mem h2 segments).1 =
                .error (.fail "head+body exceed buffered bytes")) :=
  have hends := server_ends hlib.answers mem h2 segments
  ⟨hends, fun _ _ _ _ _ hS hr => hends.of_servable hS hr⟩

/-- A request without a body, in two segments, the second of which begins with
its blank line. -/
theorem run_server_two_segments :
    let mem : RequestMem := ⟨0, 0, 0, 0, 0, fun _ => ⟨11, 12, 13, 14⟩, 0⟩
    let segments := [cBytes "GET / HTTP/1.1\r\nHost:a\r\n",
      cBytes "\r\nb\r\nhello world\r\n0\r\n"]
    ∃ ret leftover, (runServer someFrame (port someFrame) mem mem.block.headers segments).1 =
      .ok ⟨⟨cBytes "GET", cBytes "/", 1, [⟨some (cBytes "Host"), cBytes "a"⟩]⟩, ret, (10, 1), 11,
        leftover, cBytes "hello world", 0⟩ := by
  intro mem segments
  let host : HeaderLine := .named (cBytes "Host") (cBytes "a") .crlf
    ⟨by decide +kernel, by decide +kernel⟩ (by decide +kernel)
  let block : HeaderBlock := ⟨[host], .crlf, fun line h => by
    obtain rfl : host = line := Option.some.inj h
    exact id⟩
  let head : RequestHead := ⟨none, cBytes "GET", 0, cBytes "/", 0, 0x31, .crlf, block,
    ⟨by decide +kernel, by decide +kernel⟩, ⟨by decide +kernel, by decide +kernel⟩, by decide⟩
  obtain ⟨w, hw, hbody⟩ : ∃ w, cBytes "b\r\nhello world\r\n0\r\n" = w ++ [] ∧
      ChunkedBody ((0 : Int8) ≠ 0) w (cBytes "hello world") :=
    reading_done_iff.mp (by decide +kernel)
  rw [List.append_nil] at hw
  have hlen : w.length ≤ 102400 := hw ▸ by decide +kernel
  have hr : Servable head [] w (cBytes "hello world") :=
    ⟨by decide +kernel, by decide, ⟨(Option.some_ne_none _).symm, rfl, List.cons_ne_nil _ _⟩,
      ⟨0, by decide +kernel, rfl⟩, by decide +kernel, hbody, by decide +kernel, by decide +kernel,
      fun got hgot hne => not_costly_of_short hbody hlen hgot hne⟩
  have hS : segments.flatten = head.bytes ++ ([] ++ (w ++ [])) := by
    rw [← hw]
    decide +kernel
  have hfields : head.fields =
      ⟨cBytes "GET", cBytes "/", 1, [⟨some (cBytes "Host"), cBytes "a"⟩]⟩ := by decide +kernel
  have hblock : block.bytes.length = 10 := by decide +kernel
  obtain ⟨-, hserves⟩ :=
    run_server (Linked.port : Linked someFrame _) mem mem.block.headers segments
  rcases hserves head [] w _ [] hS hr with
    ⟨-, ret, leftover, -, -, h⟩ | ⟨hne, -⟩
  · rw [hfields, show head.block.bytes.length = 10 from hblock] at h
    exact ⟨ret, leftover, h⟩
  · exact absurd rfl hne

end PicoHttpParser.Loopback
