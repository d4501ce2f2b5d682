import PicoHttpParser.Loopback.Server

/-!
How much the server has read.

The server steps over an announced body only if it is in the buffer, and what
is in the buffer when the head is complete is a matter of how the request was
delivered: with the head in segments of its own it is the head, and when all
has arrived it is what whole reads have brought.
-/

namespace PicoHttpParser.Loopback

open Incremental Head Chunk

/-- The bytes that are read for a head of `n`, when they have all arrived. -/
def readFor (n : ℕ) : ℕ := (n + (readSize - 1)) / readSize * readSize

theorem readFor_le {n k : ℕ} (hk : readSize ∣ k) (h : n ≤ k) : readFor n ≤ k := by
  obtain ⟨m, rfl⟩ := hk
  unfold readFor readSize at *
  omega

theorem le_readFor {n k : ℕ} (hk : readSize ∣ k) (h : k < n) : k + readSize ≤ readFor n := by
  obtain ⟨m, rfl⟩ := hk
  unfold readFor readSize at *
  omega

/-- `got` was read in reads that were as long as they could be. -/
def InReads (S got : List UInt8) : Prop := readSize ∣ got.length ∨ got = S

theorem serverTurn_whole {fr : Frame} {lib : Library} (hlib : Answers fr lib) {S : List UInt8}
    {head : RequestHead} (hfront : head.bytes <+: S)
    (hlines : head.block.lines.length ≤ headersLen) {got bs : List UInt8}
    {s : HeadLoop RequestMem} (hgot : got ++ bs <+: S)
    (hlen : bs.length ≤ min readSize (bufSize - s.buf.length))
    (hfull : bs.length = min readSize (bufSize - s.buf.length) ∨ got ++ bs = S)
    (hs : RequestWaits got s) (hreads : InReads S got) :
    Sum.elim (fun s => RequestWaits (got ++ bs) s ∧ InReads S (got ++ bs))
      (fun e => RequestEnds fr.request.buf (got ++ bs) e ∧ InReads S (got ++ bs) ∧
        (got ++ bs).length ≤ readFor head.bytes.length)
      (headTurn lib.parseRequest resetRequest "server head parse ret=" s bs) := by
  have hnone := hs.none
  have hgot' : got <+: S := (List.prefix_append got bs).trans hgot
  have hdvd : readSize ∣ got.length := by
    refine hreads.resolve_right ?_
    rintro rfl
    exact hnone head hlines hfront
  have hlt : got.length < head.bytes.length := by
    by_contra hle
    exact hnone head hlines (List.prefix_of_prefix_length_le hfront hgot' (Nat.not_lt.mp hle))
  have hreads' : InReads S (got ++ bs) := by
    refine hfull.imp_left fun hfull => ?_
    rw [List.length_append, hfull, hs.eq]
    refine Nat.dvd_add hdvd ?_
    have hroom := hs.le
    obtain ⟨m, hm⟩ := hdvd
    unfold readSize bufSize at *
    omega
  have hstep := serverTurn_rule hlib hlen hs
  cases h : headTurn lib.parseRequest resetRequest "server head parse ret=" s bs with
  | inl s' =>
      rw [h] at hstep
      exact ⟨hstep, hreads'⟩
  | inr e =>
      rw [h] at hstep
      refine ⟨hstep, hreads', ?_⟩
      have hle := le_readFor hdvd hlt
      have hread : bs.length ≤ readSize := hlen.trans (Nat.min_le_left _ _)
      rw [List.length_append]
      omega

section

variable {fr : Frame} {lib : Library} (hlib : Answers fr lib) {head : RequestHead}
  {skipped body p rest : List UInt8} (hr : Servable head skipped body p)

include hlib hr

/-- The request is served if the announced body has been read, and only then. -/
theorem serverBody_served (h2 : ℕ → PhrHeader) {got : List UInt8} {ret : Int32}
    {s : HeadLoop RequestMem} (hends : RequestEnds fr.request.buf got (.ok (ret, s)))
    {segments : List (List UInt8)}
    (hS : head.bytes ++ (skipped ++ (body ++ rest)) = got ++ segments.flatten) :
    (head.bytes.length + skipped.length ≤ got.length ∧
      ∃ report, (serverBody fr lib h2 ret s segments).1 = .ok report) ∨
      (got.length < head.bytes.length + skipped.length ∧
        (serverBody fr lib h2 ret s segments).1 =
          .error (.fail "head+body exceed buffered bytes")) := by
  obtain ⟨skip, hskip, hstart⟩ := hr.start
  cases hends with
  | head hle hgot hrest hbuf hlines hret hshows =>
      have hhead := hS
      rw [hgot, List.append_assoc] at hhead
      obtain ⟨rfl, -⟩ := prefixFree_request _ _ _ _ hhead
      have hcarry := carryOver_of_skip hret hskip hle
      rw [hstart] at hcarry
      unfold serverBody
      dsimp only
      rw [hshows.fields, hbuf,
        standaloneHeaders_plain hlib h2 hr.plain hlines hret (hbuf.trans hgot) hshows]
      dsimp only
      rw [show head.fields.headers = head.block.fields from rfl, hcarry]
      by_cases hshort : got.length < head.bytes.length + skipped.length
      · rw [if_pos hshort]
        exact .inr ⟨hshort, rfl⟩
      · rw [if_neg hshort]
        refine .inl ⟨Nat.not_lt.mp hshort, ?_⟩
        -- what is carried over and what is still to come begin with the upload
        have hdrop := congrArg (List.drop (head.bytes.length + skipped.length)) hS
        rw [← List.drop_drop, List.drop_left, List.drop_left,
          List.drop_append_of_le_length (Nat.not_lt.mp hshort)] at hdrop
        have hstaged := decodeStage_rule hlib server (by decide)
          (got.drop (head.bytes.length + skipped.length)) segments
        obtain ⟨r2, d, hok, hdecoded⟩ :=
          hstaged.decodes hr.coding ⟨rest, hdrop⟩ hr.lt hr.thrift
        dsimp only
        unfold serverUpload
        generalize decodeStage lib server _ segments = r at hok ⊢
        obtain ⟨r, left⟩ := r
        obtain rfl : r = .ok (r2, d) := hok
        dsimp only
        rw [if_neg (not_not.mpr (by rw [hdecoded, hr.same]))]
        exact ⟨_, rfl⟩

/-- A head that arrives in segments of its own is all that is read. -/
theorem runServer_alone (mem : RequestMem) (h2 : ℕ → PhrHeader) {A B : List (List UInt8)}
    (hA : A.flatten = head.bytes) (hB : B.flatten = skipped ++ (body ++ rest))
    (hne : skipped ≠ []) :
    (runServer fr lib mem h2 (A ++ B)).1 = .error (.fail "head+body exceed buffered bytes") := by
  obtain ⟨got, hstream, hresult, hclosed⟩ :=
    headWaits_rule RequestHead.length_pos (serverTurn_rule hlib) (s := ⟨[], mem⟩) rfl A
  rw [hA] at hstream
  have hgot : got <+: head.bytes := ⟨_, hstream.symm⟩
  unfold runServer
  cases hpull : pull (fun s => min readSize (bufSize - s.buf.length))
      (headTurn lib.parseRequest resetRequest "server head parse ret=") ⟨[], mem⟩ A with
  | mk r left =>
      rw [hpull] at hstream hresult hclosed
      dsimp only at hstream hresult hclosed
      have hwhole (h : head.bytes.length ≤ got.length) : got = head.bytes :=
        hgot.eq_of_length_le h
      cases r with
      | inl s =>
          -- without a result the head has been read
          exfalso
          obtain ⟨⟨hbuf, hle, hnone⟩, hzero | hleft⟩ := hclosed s rfl
          · rw [hbuf] at hzero
            have hfull : bufSize - got.length = 0 :=
              (Nat.min_eq_zero_iff.mp hzero).resolve_left (by decide)
            have hlen := hr.room.trans (Nat.sub_eq_zero_iff_le.mp hfull)
            exact hnone head hr.lines (hwhole hlen ▸ List.prefix_rfl)
          · rw [hleft, List.append_nil] at hstream
            exact hnone head hr.lines (hstream ▸ List.prefix_rfl)
      | inr e =>
          rw [pull_append hpull B]
          have hends := hresult e rfl
          cases e with
          | error e =>
              cases hends with
              | malformed h =>
                  obtain ⟨ext, hext⟩ := hgot
                  exact absurd (hext ▸ List.prefix_rfl) (h ext head hr.lines)
          | ok x =>
              obtain ⟨ret, s⟩ := x
              have hS : head.bytes ++ (skipped ++ (body ++ rest)) = got ++ (left ++ B).flatten := by
                rw [List.flatten_append, hB, ← List.append_assoc got, ← hstream]
              rcases serverBody_served hlib hr h2 hends hS with ⟨hlong, -⟩ | ⟨-, h⟩
              · have hpos := List.length_pos_iff.mpr hne
                have hle := hgot.length_le
                omega
              · exact h

/-- How much is read of a request that has arrived as a whole. -/
theorem serverHead_whole (mem : RequestMem) {S : List UInt8}
    (hS : S = head.bytes ++ (skipped ++ (body ++ rest))) :
    ∃ got ret s left, S = got ++ left.flatten ∧ RequestEnds fr.request.buf got (.ok (ret, s)) ∧
      (readFor head.bytes.length ≤ got.length ∨ got = S) ∧
      got.length ≤ readFor head.bytes.length ∧
      pull (fun s => min readSize (bufSize - s.buf.length))
        (headTurn lib.parseRequest resetRequest "server head parse ret=") ⟨[], mem⟩ [S] =
          (.inr (.ok (ret, s)), left) := by
  have hfront : head.bytes <+: S := ⟨_, hS.symm⟩
  have hstart : RequestWaits [] ⟨[], mem⟩ ∧ InReads S [] :=
    ⟨HeadWaits.start RequestHead.length_pos rfl, .inl (Nat.dvd_zero _)⟩
  obtain ⟨got, hstream, hresult, hclosed⟩ := pull_rule_whole
    (I := fun got s => RequestWaits got s ∧ InReads S got)
    (Q := fun got e => RequestEnds fr.request.buf got e ∧ InReads S got ∧
      got.length ≤ readFor head.bytes.length)
    (fun got s bs hgot hlen hfull hs =>
      serverTurn_whole hlib (s := s) hfront hr.lines hgot hlen hfull hs.1 hs.2) hstart
  have hgot : got <+: S := ⟨_, hstream.symm⟩
  generalize pull _ _ _ [S] = r at hstream hresult hclosed ⊢
  obtain ⟨s | e, left⟩ := r
  · exfalso
    obtain ⟨⟨⟨hbuf, hle, hnone⟩, -⟩, hzero | hleft⟩ := hclosed s rfl
    · rw [hbuf] at hzero
      have hfull : bufSize - got.length = 0 :=
        (Nat.min_eq_zero_iff.mp hzero).resolve_left (by decide)
      exact hnone head hr.lines (List.prefix_of_prefix_length_le hfront hgot
        (hr.room.trans (Nat.sub_eq_zero_iff_le.mp hfull)))
    · rw [show left.flatten = [] from hleft, List.append_nil] at hstream
      exact hnone head hr.lines (hstream ▸ hfront)
  obtain ⟨hends, hreads, hle⟩ := hresult e rfl
  cases e with
  | error e =>
      cases hends with
      | malformed h =>
          obtain ⟨ext, hext⟩ := hgot
          exact absurd (hext ▸ hfront) (h ext head hr.lines)
  | ok x =>
      obtain ⟨ret, s⟩ := x
      refine ⟨got, ret, s, left, hstream, hends, hreads.imp_left fun hdvd => ?_, hle, rfl⟩
      cases hends with
      | head hle hgot' hrest hbuf hlines hret hshows =>
          rename_i head' rest'
          have hhead := hstream
          rw [hgot', List.append_assoc, hS] at hhead
          obtain ⟨rfl, -⟩ := prefixFree_request _ _ _ _ hhead
          refine readFor_le hdvd ?_
          rw [hgot', List.length_append]
          exact Nat.le_add_right _ _

theorem runServer_whole (mem : RequestMem) (h2 : ℕ → PhrHeader) {S : List UInt8}
    (hS : S = head.bytes ++ (skipped ++ (body ++ rest))) :
    (∃ report, (runServer fr lib mem h2 [S]).1 = .ok report) ↔
      head.bytes.length + skipped.length ≤ readFor head.bytes.length := by
  obtain ⟨got, ret, s, left, hstream, hends, hmany, hfew, hpull⟩ :=
    serverHead_whole hlib hr mem hS
  have hserved := serverBody_served hlib hr h2 hends (hS.symm.trans hstream)
  have hlen := congrArg List.length hS
  rw [List.length_append, List.length_append] at hlen
  unfold runServer
  rw [hpull]
  dsimp only
  rcases hserved with ⟨hlong, h⟩ | ⟨hshort, h⟩
  · exact iff_of_true h (hlong.trans hfew)
  · refine iff_of_false ?_ ?_
    · rintro ⟨report, hreport⟩
      rw [h] at hreport
      cases hreport
    · rcases hmany with hmany | rfl
      · omega
      · omega

end

/-- Whether a request is served depends on how it arrives. If its head arrives
in segments of its own, and it announces a body, it is not. If it has arrived
as a whole, it is exactly when the body is read along with the head in reads
of 32 bytes. -/
theorem run_server_delivery {fr : Frame} {lib : Library} (hlib : Linked fr lib)
    {head : RequestHead} {skipped body p : List UInt8} (hr : Servable head skipped body p)
    (rest : List UInt8) (mem : RequestMem) (h2 : ℕ → PhrHeader) :
    (∀ A B : List (List UInt8), A.flatten = head.bytes →
      B.flatten = skipped ++ (body ++ rest) → skipped ≠ [] →
      (runServer fr lib mem h2 (A ++ B)).1 =
        .error (.fail "head+body exceed buffered bytes")) ∧
      ((∃ report, (runServer fr lib mem h2
          [head.bytes ++ (skipped ++ (body ++ rest))]).1 = .ok report) ↔
        head.bytes.length + skipped.length ≤ readFor head.bytes.length) :=
  ⟨fun _ _ hA hB hne => runServer_alone hlib.answers hr mem h2 hA hB hne,
    runServer_whole hlib.answers hr mem h2 rfl⟩

/-- A request with a body of two bytes: it is not served when its head comes
first, and it is when all of it comes at once. -/
theorem run_server_delivery_two_bytes :
    let mem : RequestMem := ⟨0, 0, 0, 0, 0, fun _ => ⟨11, 12, 13, 14⟩, 0⟩
    let head := cBytes "GET / HTTP/1.1\r\nContent-Length:2\r\n\r\n"
    let behind := cBytes "xyb\r\nhello world\r\n0\r\n"
    (runServer someFrame (port someFrame) mem mem.block.headers [head, behind]).1 =
        .error (.fail "head+body exceed buffered bytes") ∧
      ∃ report, (runServer someFrame (port someFrame) mem mem.block.headers
        [head ++ behind]).1 = .ok report := by
  intro mem head behind
  let line : HeaderLine := .named (cBytes "Content-Length") (cBytes "2") .crlf
    ⟨by decide +kernel, by decide +kernel⟩ (by decide +kernel)
  let block : HeaderBlock := ⟨[line], .crlf, fun l h => by
    obtain rfl : line = l := Option.some.inj h
    exact id⟩
  let request : RequestHead := ⟨none, cBytes "GET", 0, cBytes "/", 0, 0x31, .crlf, block,
    ⟨by decide +kernel, by decide +kernel⟩, ⟨by decide +kernel, by decide +kernel⟩, by decide⟩
  obtain ⟨w, hw, hbody⟩ : ∃ w, cBytes "b\r\nhello world\r\n0\r\n" = w ++ [] ∧
      ChunkedBody ((0 : Int8) ≠ 0) w (cBytes "hello world") :=
    reading_done_iff.mp (by decide +kernel)
  rw [List.append_nil] at hw
  have hlen : w.length ≤ 102400 := hw ▸ by decide +kernel
  have hr : Servable request (cBytes "xy") w (cBytes "hello world") :=
    ⟨by decide +kernel, by decide, ⟨(Option.some_ne_none _).symm, rfl, List.cons_ne_nil _ _⟩,
      ⟨2, by decide +kernel, by decide +kernel⟩, by decide +kernel, hbody, by decide +kernel,
      by decide +kernel, fun got hgot hne => not_costly_of_short hbody hlen hgot hne⟩
  have hbehind : behind = cBytes "xy" ++ (w ++ []) := by
    rw [← hw]
    decide +kernel
  have hhead : head = request.bytes := by decide +kernel
  obtain ⟨halone, hwhole⟩ :=
    run_server_delivery (Linked.port : Linked someFrame _) hr [] mem mem.block.headers
  rw [← hbehind, ← hhead] at hwhole
  refine ⟨halone [head] [behind] ?_ ?_ (by decide +kernel), hwhole.mpr (by decide +kernel)⟩
  · rw [List.flatten_singleton, hhead]
  · rw [List.flatten_singleton, hbehind]

end PicoHttpParser.Loopback
