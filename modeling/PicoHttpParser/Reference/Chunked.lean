import PicoHttpParser.Reference.Heads

/-!
The chunked decoder of `picohttpparser.c`.

Each `case` of the switch is a function, and one that falls through calls the
next. The fields of the decoder are written where the source writes them.
`break` returns to the loop, `goto Exit` and `goto Complete` are exceptions.
What the standard does not define, the failed assertion included, is an
outcome of its own.
-/

namespace PicoHttpParser.Reference.Chunked

open Incremental

/-- `decode_hex`, on a signed `char`. -/
def decodeHex (ch : ℤ) : ℤ :=
  if 0x30 ≤ ch ∧ ch ≤ 0x39 then ch - 0x30
  else if 0x41 ≤ ch ∧ ch ≤ 0x46 then ch - 0x41 + 0xa
  else if 0x61 ≤ ch ∧ ch ≤ 0x66 then ch - 0x61 + 0xa
  else -1

/-- The decoder, the buffer it rewrites and the local variables. -/
structure State where
  decoder : PhrChunkedDecoder
  buf : List UInt8
  src : ℕ
  dst : ℕ

/-- How control leaves the loop. -/
inductive Leave where
  | exit (ret : ℤ) (s : State)
  | complete (s : State)
  | undefined

abbrev Flow := Except Leave

/-- `decoder->_state = st` -/
def State.setState (s : State) (st : Int8) : State :=
  { s with decoder := { s.decoder with state := st } }

/-- `++src` -/
def State.next (s : State) : State := { s with src := s.src + 1 }

/-- `buf[src]` -/
def deref (s : State) : Flow UInt8 :=
  match s.buf[s.src]? with
  | none => throw .undefined
  | some b => pure b

/-- `if (dst != src) memmove(buf + dst, buf + src, n)` -/
def memmove (s : State) (n : ℕ) : Flow State :=
  if s.dst = s.src then pure s
  else if s.src + n ≤ s.buf.length ∧ s.dst + n ≤ s.buf.length then
    pure
      { s with buf := s.buf.take s.dst ++ (s.buf.drop s.src).take n ++ s.buf.drop (s.dst + n) }
  else throw .undefined

/-- `case CHUNKED_IN_CHUNK_DATA_EXPECT_LF` -/
def caseDataExpectLf (s : State) : Flow State :=
  if s.src = s.buf.length then throw (.exit (-2) s)
  else do
    let b ← deref s
    if b ≠ 0o12 then throw (.exit (-1) s)
    else pure (s.next.setState 0)

/-- `case CHUNKED_IN_CHUNK_DATA_EXPECT_CR` -/
def caseDataExpectCr (s : State) : Flow State :=
  if s.src = s.buf.length then throw (.exit (-2) s)
  else do
    let b ← deref s
    if b ≠ 0o15 then throw (.exit (-1) s)
    else caseDataExpectLf (s.next.setState 5)

/-- `case CHUNKED_IN_CHUNK_DATA` -/
def caseData (s : State) : Flow State :=
  let avail := s.buf.length - s.src
  let left := s.decoder.bytesLeftInChunk
  if avail < left.toNat then do
    let s ← memmove s avail
    throw (.exit (-2)
      { s with
        src := s.src + avail, dst := s.dst + avail
        decoder := { s.decoder with bytesLeftInChunk := left - UInt64.ofNat avail } })
  else do
    let s ← memmove s left.toNat
    caseDataExpectCr
      { s with
        src := s.src + left.toNat, dst := s.dst + left.toNat
        decoder := { s.decoder with bytesLeftInChunk := 0, state := 4 } }

/-- `case CHUNKED_IN_CHUNK_HEADER_EXPECT_LF` -/
def caseHeaderExpectLf (s : State) : Flow State :=
  if s.src = s.buf.length then throw (.exit (-2) s)
  else do
    let b ← deref s
    if b ≠ 0o12 then throw (.exit (-1) s)
    else
      let s := s.next
      if s.decoder.bytesLeftInChunk = 0 then
        if s.decoder.consumeTrailer ≠ 0 then pure (s.setState 6) else throw (.complete s)
      -- falls through
      else caseData (s.setState 3)

/-- A loop `for (;; ++src)` that looks for a byte, in front of which it
breaks. -/
def scanLoop (f : UInt8 → Reader.Act) (s : State) : Flow State :=
  if s.src = s.buf.length then throw (.exit (-2) s)
  else
    match _h : s.buf[s.src]? with
    | none => throw .undefined
    | some b =>
      match f b with
      | .stop => pure s
      | .bad => throw (.exit (-1) s)
      | .skip => scanLoop f { s with src := s.src + 1 }
  termination_by s.buf.length - s.src
  decreasing_by
    have := (List.getElem?_eq_some_iff.mp _h).1
    omega

/-- The loop of `case CHUNKED_IN_CHUNK_EXT`. -/
def extLoop : State → Flow State :=
  scanLoop fun b => if b = 0o15 then .stop else if b = 0o12 then .bad else .skip

/-- `case CHUNKED_IN_CHUNK_EXT` -/
def caseExt (s : State) : Flow State := do
  let s ← extLoop s
  caseHeaderExpectLf (s.next.setState 2)

/-- The loop of `case CHUNKED_IN_CHUNK_SIZE`. -/
def sizeLoop (s : State) : Flow State :=
  if s.src = s.buf.length then throw (.exit (-2) s)
  else
    match _h : s.buf[s.src]? with
    | none => throw .undefined
    | some b =>
      let v := decodeHex b.toInt8.toInt
      if v = -1 then
        if s.decoder.hexCount = 0 then throw (.exit (-1) s)
        else if b = 0x20 ∨ b = 0o11 ∨ b = 0x3b ∨ b = 0o12 ∨ b = 0o15 then pure s
        else throw (.exit (-1) s)
      else if s.decoder.hexCount = 16 then throw (.exit (-1) s)
      else
        sizeLoop
          { s with
            src := s.src + 1
            decoder :=
              { s.decoder with
                bytesLeftInChunk := s.decoder.bytesLeftInChunk * 16 + UInt64.ofNat v.toNat
                hexCount := s.decoder.hexCount + 1 } }
  termination_by s.buf.length - s.src
  decreasing_by
    have := (List.getElem?_eq_some_iff.mp _h).1
    omega

/-- `case CHUNKED_IN_CHUNK_SIZE` -/
def caseSize (s : State) : Flow State := do
  let s ← sizeLoop s
  caseExt { s with decoder := { s.decoder with hexCount := 0, state := 1 } }

/-- `case CHUNKED_IN_TRAILERS_LINE_MIDDLE` -/
def caseTrailersMiddle (s : State) : Flow State := do
  let s ← scanLoop (fun b => if b = 0o12 then .stop else .skip) s
  pure (s.next.setState 6)

/-- `case CHUNKED_IN_TRAILERS_LINE_HEAD` -/
def caseTrailersHead (s : State) : Flow State := do
  let s ← scanLoop (fun b => if b ≠ 0o15 then .stop else .skip) s
  let b ← deref s
  if b = 0o12 then throw (.complete s.next)
  else caseTrailersMiddle (s.next.setState 7)

/-- `switch (decoder->_state)` -/
def switch (s : State) : Flow State :=
  if s.decoder.state = 0 then caseSize s
  else if s.decoder.state = 1 then caseExt s
  else if s.decoder.state = 2 then caseHeaderExpectLf s
  else if s.decoder.state = 3 then caseData s
  else if s.decoder.state = 4 then caseDataExpectCr s
  else if s.decoder.state = 5 then caseDataExpectLf s
  else if s.decoder.state = 6 then caseTrailersHead s
  else if s.decoder.state = 7 then caseTrailersMiddle s
  -- `assert(!"decoder is corrupt")`
  else throw .undefined

/-! ### Where a turn of the loop leaves off -/

theorem sizeLoop_bounds {s s' : State} (h : sizeLoop s = .ok s') :
    s.src ≤ s'.src ∧ s'.buf = s.buf := by
  fun_induction sizeLoop s with
  | case4 =>
      obtain rfl := Except.ok.inj h
      exact ⟨le_rfl, rfl⟩
  | case7 s _ b _ v _ _ ih =>
      obtain ⟨hle, hbuf⟩ := ih h
      exact ⟨(Nat.le_succ _).trans hle, hbuf⟩
  | _ => cases h

theorem scanLoop_bounds {f : UInt8 → Reader.Act} {s s' : State} (h : scanLoop f s = .ok s') :
    s.src ≤ s'.src ∧ s'.src < s'.buf.length ∧ s'.buf = s.buf := by
  fun_induction scanLoop f s with
  | case3 s _ b hb =>
      obtain rfl := Except.ok.inj h
      exact ⟨le_rfl, (List.getElem?_eq_some_iff.mp hb).1, rfl⟩
  | case5 s _ b hb _ ih =>
      obtain ⟨hle, hlt, hbuf⟩ := ih h
      exact ⟨(Nat.le_succ _).trans hle, hlt, hbuf⟩
  | _ => cases h

/-- A turn has consumed a byte, and the buffer has its length. -/
structure Turned (s s' : State) : Prop where
  lt : s.src < s'.src
  le : s'.src ≤ s'.buf.length
  length : s'.buf.length = s.buf.length

theorem Turned.of_le {s s₁ s' : State} (h : Turned s₁ s') (hle : s.src ≤ s₁.src)
    (hlen : s₁.buf.length = s.buf.length) : Turned s s' where
  lt := hle.trans_lt h.lt
  le := h.le
  length := h.length.trans hlen

theorem lt_of_deref {s : State} {b : UInt8} (h : deref s = .ok b) : s.src < s.buf.length := by
  unfold deref at h
  split at h
  · cases h
  · rename_i hb
    exact (List.getElem?_eq_some_iff.mp hb).1

theorem memmove_eq_ok {s s' : State} {n : ℕ} (h : memmove s n = .ok s') :
    s'.src = s.src ∧ s'.buf.length = s.buf.length := by
  unfold memmove at h
  split at h
  · obtain rfl := Except.ok.inj h
    exact ⟨rfl, rfl⟩
  split at h
  · obtain rfl := Except.ok.inj h
    refine ⟨rfl, ?_⟩
    simp only [List.length_append, List.length_take, List.length_drop]
    omega
  · cases h

theorem caseDataExpectLf_turned {s s' : State} (h : caseDataExpectLf s = .ok s') :
    Turned s s' := by
  unfold caseDataExpectLf at h
  split at h
  · cases h
  obtain ⟨b, hb, h⟩ := except_bind_eq_ok h
  split at h
  · cases h
  · obtain rfl := Except.ok.inj h
    exact ⟨Nat.lt_succ_self _, lt_of_deref hb, rfl⟩

theorem caseDataExpectCr_turned {s s' : State} (h : caseDataExpectCr s = .ok s') :
    Turned s s' := by
  unfold caseDataExpectCr at h
  split at h
  · cases h
  obtain ⟨b, -, h⟩ := except_bind_eq_ok h
  split at h
  · cases h
  · exact (caseDataExpectLf_turned h).of_le (Nat.le_succ s.src) rfl

theorem caseData_turned {s s' : State} (h : caseData s = .ok s') : Turned s s' := by
  unfold caseData at h
  dsimp only at h
  split at h
  · obtain ⟨s₁, -, h⟩ := except_bind_eq_ok h
    cases h
  · obtain ⟨s₁, h₁, h⟩ := except_bind_eq_ok h
    obtain ⟨hsrc, hlen⟩ := memmove_eq_ok h₁
    exact (caseDataExpectCr_turned h).of_le (hsrc.ge.trans (Nat.le_add_right _ _)) hlen

theorem caseHeaderExpectLf_turned {s s' : State} (h : caseHeaderExpectLf s = .ok s') :
    Turned s s' := by
  unfold caseHeaderExpectLf at h
  split at h
  · cases h
  obtain ⟨b, hb, h⟩ := except_bind_eq_ok h
  split at h
  · cases h
  dsimp only at h
  split at h
  · split at h
    · obtain rfl := Except.ok.inj h
      exact ⟨Nat.lt_succ_self _, lt_of_deref hb, rfl⟩
    · cases h
  · exact (caseData_turned h).of_le (Nat.le_succ s.src) rfl

theorem caseExt_turned {s s' : State} (h : caseExt s = .ok s') : Turned s s' := by
  obtain ⟨s₁, h₁, h⟩ := except_bind_eq_ok h
  obtain ⟨hle, -, hbuf⟩ := scanLoop_bounds h₁
  exact (caseHeaderExpectLf_turned h).of_le (hle.trans (Nat.le_succ s₁.src))
    (congrArg List.length hbuf)

theorem caseSize_turned {s s' : State} (h : caseSize s = .ok s') : Turned s s' := by
  obtain ⟨s₁, h₁, h⟩ := except_bind_eq_ok h
  obtain ⟨hle, hbuf⟩ := sizeLoop_bounds h₁
  exact (caseExt_turned h).of_le hle (congrArg List.length hbuf)

theorem caseTrailersMiddle_turned {s s' : State} (h : caseTrailersMiddle s = .ok s') :
    Turned s s' := by
  obtain ⟨s₁, h₁, h⟩ := except_bind_eq_ok h
  obtain ⟨hle, hlt, hbuf⟩ := scanLoop_bounds h₁
  obtain rfl := Except.ok.inj h
  exact ⟨Nat.lt_succ_of_le hle, hlt, congrArg List.length hbuf⟩

theorem caseTrailersHead_turned {s s' : State} (h : caseTrailersHead s = .ok s') :
    Turned s s' := by
  obtain ⟨s₁, h₁, h⟩ := except_bind_eq_ok h
  obtain ⟨b, -, h⟩ := except_bind_eq_ok h
  obtain ⟨hle, -, hbuf⟩ := scanLoop_bounds h₁
  split at h
  · cases h
  · exact (caseTrailersMiddle_turned h).of_le (hle.trans (Nat.le_succ s₁.src))
      (congrArg List.length hbuf)

theorem switch_turned {s s' : State} (h : switch s = .ok s') : Turned s s' := by
  unfold switch at h
  split_ifs at h
  · exact caseSize_turned h
  · exact caseExt_turned h
  · exact caseHeaderExpectLf_turned h
  · exact caseData_turned h
  · exact caseDataExpectCr_turned h
  · exact caseDataExpectLf_turned h
  · exact caseTrailersHead_turned h
  · exact caseTrailersMiddle_turned h

/-! ### The decoder -/

/-- `while (1)` -/
def decodeFrom (s : State) : Leave :=
  match _h : switch s with
  | .error leave => leave
  | .ok s' => decodeFrom s'
  termination_by s.buf.length - s.src
  decreasing_by
    have hturned := switch_turned _h
    have hlt := hturned.lt
    have hle := hturned.le
    have hlen := hturned.length
    omega

/-- The code at the label `Exit`: the return value, the decoder, the buffer
and `*_bufsz`. -/
def exit (ret : ℤ) (s : State) : Option (ℤ × PhrChunkedDecoder × List UInt8 × ℕ) :=
  match memmove s (s.buf.length - s.src) with
  | .error _ => none
  | .ok s' =>
    if ret = -2 then
      let overhead := s.decoder.totalOverhead + UInt64.ofNat (s.buf.length - s.dst)
      let decoder := { s.decoder with totalOverhead := overhead }
      let ret :=
        if overhead ≥ 100 * 1024 ∧ decoder.totalRead - overhead < decoder.totalRead / 4 then -1
        else ret
      some (ret, decoder, s'.buf, s.dst)
    else some (ret, s.decoder, s'.buf, s.dst)

/-- `phr_decode_chunked`. A leftover is the length of a part of an object in
memory, which a `ssize_t` holds. -/
def phrDecodeChunked (decoder : PhrChunkedDecoder) (buf : List UInt8) :
    Option (ℤ × PhrChunkedDecoder × List UInt8 × ℕ) :=
  let decoder := { decoder with totalRead := decoder.totalRead + UInt64.ofNat buf.length }
  match decodeFrom { decoder := decoder, buf := buf, src := 0, dst := 0 } with
  | .exit ret s => exit ret s
  | .complete s => exit (buf.length - s.src : ℕ) s
  | .undefined => none

/-- `phr_decode_chunked_is_in_data` -/
def phrDecodeChunkedIsInData (decoder : PhrChunkedDecoder) : Bool := decoder.state == 3

end PicoHttpParser.Reference.Chunked
