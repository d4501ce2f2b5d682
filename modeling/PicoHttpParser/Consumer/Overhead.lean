import PicoHttpParser.Chunk.Encode

/-!
What the overhead rule costs an attacker.

`do_test_chunked_overhead` of `reference/test.c` feeds a decoder one small
chunk after the other, in three calls each, and its callers in the same file
try five shapes. It is a formula of the shape of the chunks which of them the
decoder gives up on, and when.
-/

namespace PicoHttpParser.Consumer

open Incremental Chunk

/-! ### The attacker -/

/-- How `do_test_chunked_overhead` is left: with a return value, or with an
assertion that fails, or by an access beyond its buffer. -/
inductive Exit where
  | ret (ret : ℤ)
  | assertion
  | undefined
  deriving DecidableEq

/-- `char buf[1024]` -/
def sizeofBuf : ℕ := 1024

/-- `bufsz = (size_t)snprintf(buf, sizeof(buf), ..)`: the `bufsz` bytes the
decoder is shown of `buf`. It ends in a null byte, and `bufsz` is the length of
the whole line. -/
def snprintf (line : List UInt8) : Except Exit (List UInt8) :=
  if sizeofBuf < line.length then throw .undefined
  else pure ((line.take (sizeofBuf - 1) ++ [0]).take line.length)

/-- `memset(buf, 'A', chunk_len); bufsz = chunk_len;` -/
def memset (chunkLen : ℕ) : Except Exit (List UInt8) :=
  if sizeofBuf < chunkLen then throw .undefined else pure (List.replicate chunkLen 0x41)

/-- `if ((ret = phr_decode_chunked(..)) != -2) goto Exit; assert(bufsz == n);` -/
def feed (a : Rust.DecodeArgs) (bs : List UInt8) (n : ℕ) (dec : PhrChunkedDecoder) :
    Except Exit PhrChunkedDecoder :=
  let r := Rust.phrDecodeChunked a dec bs
  if r.1 ≠ -2 then throw (.ret r.1)
  else if r.2.bufsz ≠ n then throw .assertion
  else pure r.2.decoder

/-- The loop over the chunks. -/
def feedChunks (a : Rust.DecodeArgs) (chunkLen : ℕ) (extra : List UInt8) :
    ℕ → PhrChunkedDecoder → Except Exit PhrChunkedDecoder
  | 0, dec => pure dec
  | chunkCount + 1, dec =>
    snprintf (chunkHead chunkLen extra) >>= fun line => feed a line 0 dec >>= fun dec =>
      memset chunkLen >>= fun data => feed a data chunkLen dec >>= fun dec =>
        feed a [CR, LF] 0 dec >>= feedChunks a chunkLen extra chunkCount

/-- `do_test_chunked_overhead`, linked with the port. `extra` is what the
string has in front of its null byte. -/
def doTestChunkedOverhead (a : Rust.DecodeArgs) (chunkLen chunkCount : ℕ) (extra : List UInt8) :
    Exit :=
  match feedChunks a chunkLen extra chunkCount (zeroed 0) with
  | .error e => e
  | .ok dec =>
    let r := Rust.phrDecodeChunked a dec [0x30, CR, LF, CR, LF]
    if r.2.bufsz ≠ 0 then .assertion else .ret r.1

/-! ### When it is found out -/

theorem snprintf_eq {line : List UInt8} (h : line.length < sizeofBuf) :
    snprintf line = pure line := by
  have htake : line.take (sizeofBuf - 1) = line := List.take_of_length_le (Nat.le_sub_one_of_lt h)
  rw [snprintf, if_neg (Nat.lt_asymm h), htake, List.take_left]

theorem memset_eq {chunkLen : ℕ} (h : chunkLen ≤ sizeofBuf) :
    memset chunkLen = pure (List.replicate chunkLen 0x41) := if_neg (Nat.not_lt.mpr h)

section

variable {a : Rust.DecodeArgs} (hdecoder : a.decoder ≠ 0) (hbufsz : a.bufsz ≠ 0) (hbuf : a.buf ≠ 0)

include hdecoder hbufsz hbuf

theorem feed_eq {t : Int8} {got bs : List UInt8} {n : ℕ} (hgot : Within t got)
    (hmore : Within t (got ++ bs))
    (hn : (payload t (got ++ bs)).length = (payload t got).length + n) :
    feed a bs n (after (zeroed t) got) =
      if Costly t (got ++ bs) then throw (.ret (-1)) else pure (after (zeroed t) (got ++ bs)) := by
  obtain ⟨hret, hdec, hlen⟩ := call_within ⟨hdecoder, hbufsz, .inl hbuf⟩ hgot hmore
  unfold feed
  dsimp only
  rw [hret, hdec]
  split
  · rw [if_pos (by decide)]
  · rw [if_neg (by decide), if_neg (by omega)]

end

section

variable {c : Piece} {k : ℕ}

/-- The stream after `k` of the chunks. -/
def fronts (c : Piece) (k : ℕ) : List UInt8 := front (List.replicate k c)

theorem fronts_succ : fronts c (k + 1) = fronts c k ++ c.bytes := by
  rw [fronts, List.replicate_succ', front_concat]
  rfl

theorem length_dataOf_replicate : (dataOf (List.replicate k c)).length = k * c.data.length := by
  rw [dataOf, List.map_replicate, List.length_flatten, List.map_replicate, List.sum_replicate_nat]

theorem length_fronts : (fronts c k).length = k * c.framing + k * c.data.length := by
  rw [fronts, length_front, List.map_replicate, List.sum_replicate_nat, length_dataOf_replicate]

/-- The line of the next chunk. -/
abbrev withHead (c : Piece) (k : ℕ) : List UInt8 := fronts c k ++ chunkHead c.data.length c.ext

/-- The line of the next chunk, and its data. -/
abbrev withData (c : Piece) (k : ℕ) : List UInt8 := withHead c k ++ c.data

theorem fronts_reading : Within 0 (fronts c k) ∧
    (payload 0 (fronts c k)).length = k * c.data.length := by
  obtain ⟨hwithin, hpayload⟩ := payload_front (t := 0) (List.replicate k c)
  exact ⟨hwithin, (congrArg _ hpayload).trans length_dataOf_replicate⟩

theorem withHead_reading : Within 0 (withHead c k) ∧
    (payload 0 (withHead c k)).length = k * c.data.length := by
  obtain ⟨hhead, hnone⟩ := payload_pieceHead (t := 0) c
  obtain ⟨hwithin, hpayload⟩ := payload_front_append (List.replicate k c) hhead
  refine ⟨hwithin, (congrArg _ hpayload).trans ?_⟩
  rw [hnone, List.append_nil, length_dataOf_replicate]

theorem withData_reading : Within 0 (withData c k) ∧
    (payload 0 (withData c k)).length = k * c.data.length + c.data.length := by
  obtain ⟨hdata, hall⟩ := payload_pieceData (t := 0) c
  obtain ⟨hwithin, hpayload⟩ := payload_front_append (List.replicate k c) hdata
  rw [← List.append_assoc] at hwithin hpayload
  refine ⟨hwithin, (congrArg _ hpayload).trans ?_⟩
  rw [hall, List.length_append, length_dataOf_replicate]

/-- The rule after so many bytes of framing and of data. -/
abbrev TooMuch (framing data : ℕ) : Prop := 102400 ≤ framing ∧ 3 * data + 4 ≤ framing

theorem costly_of_length {got : List UInt8} {framing data : ℕ} (hgot : Within 0 got)
    (hlen : got.length = framing + data) (hpayload : (payload 0 got).length = data)
    (hlt : framing + data < 2 ^ 64) : Costly 0 got ↔ TooMuch framing data := by
  rw [costly_iff hgot (hlen.trans_lt hlt), hlen, hpayload, Nat.add_sub_cancel]
  omega

/-- One of the three calls on chunk `k` is rejected. -/
def Stops (c : Piece) (k : ℕ) : Prop :=
  Costly 0 (withHead c k) ∨ Costly 0 (withData c k) ∨ Costly 0 (fronts c (k + 1))

instance (c : Piece) (k : ℕ) : Decidable (Stops c k) :=
  inferInstanceAs (Decidable (_ ∨ _ ∨ _))

/-- The call on the data is rejected only if the one on the line was. -/
theorem stops_iff {h : ℕ} (hh : (chunkHead c.data.length c.ext).length = h)
    (hlt : (k + 1) * (h + 2 + c.data.length) < 2 ^ 64) :
    Stops c k ↔ TooMuch (k * (h + 2) + h) (k * c.data.length) ∨
      TooMuch ((k + 1) * (h + 2)) ((k + 1) * c.data.length) := by
  have hframing : c.framing = h + 2 := congrArg (· + 2) hh
  have hfronts : (fronts c k).length = k * (h + 2) + k * c.data.length := by
    rw [length_fronts, hframing]
  have hfronts' : (fronts c (k + 1)).length = (k + 1) * (h + 2) + (k + 1) * c.data.length := by
    rw [length_fronts, hframing]
  have hhead : (withHead c k).length = k * (h + 2) + h + k * c.data.length := by
    rw [List.length_append, hfronts, hh]
    exact Nat.add_right_comm _ _ _
  have hdata : (withData c k).length =
      k * (h + 2) + h + (k * c.data.length + c.data.length) := by
    rw [List.length_append, hhead, Nat.add_assoc]
  have hsucc : (k + 1) * (h + 2) = k * (h + 2) + (h + 2) := Nat.succ_mul _ _
  have hsucc' : (k + 1) * c.data.length = k * c.data.length + c.data.length := Nat.succ_mul _ _
  rw [Nat.mul_add] at hlt
  rw [Stops, costly_of_length withHead_reading.1 hhead withHead_reading.2 (by omega),
    costly_of_length withData_reading.1 hdata withData_reading.2 (by omega),
    costly_of_length fronts_reading.1 hfronts' fronts_reading.2 (by omega)]
  omega

/-- Some call on the first `n` chunks is rejected. -/
theorem exists_stops_iff {h n : ℕ} (hh : (chunkHead c.data.length c.ext).length = h)
    (hlt : n * (h + 2 + c.data.length) < 2 ^ 64) :
    (∃ k < n, Stops c k) ↔ (∃ k < n, TooMuch (k * (h + 2) + h) (k * c.data.length)) ∨
      TooMuch (n * (h + 2)) (n * c.data.length) := by
  have hstops (k : ℕ) (hk : k < n) := stops_iff hh
    ((Nat.mul_le_mul_right (h + 2 + c.data.length) (Nat.succ_le_of_lt hk)).trans_lt hlt)
  constructor
  · rintro ⟨k, hk, hstop⟩
    rcases (hstops k hk).mp hstop with hhead | hfront
    · exact .inl ⟨k, hk, hhead⟩
    · -- behind the chunk, the line of the next one only makes it worse
      rcases Nat.lt_or_eq_of_le (Nat.succ_le_of_lt hk) with hlt' | rfl
      · exact .inl ⟨k + 1, hlt', hfront.1.trans (Nat.le_add_right _ _),
          hfront.2.trans (Nat.le_add_right _ _)⟩
      · exact .inr hfront
  · rintro (⟨k, hk, hhead⟩ | hall)
    · exact ⟨k, hk, (hstops k hk).mpr (.inl hhead)⟩
    · cases n with
      | zero =>
          rw [Nat.zero_mul] at hall
          exact absurd hall.1 (by decide)
      | succ n => exact ⟨n, Nat.lt_succ_self n, (hstops n (Nat.lt_succ_self n)).mpr (.inr hall)⟩

end

section

variable {a : Rust.DecodeArgs} (hdecoder : a.decoder ≠ 0) (hbufsz : a.bufsz ≠ 0) (hbuf : a.buf ≠ 0)

include hdecoder hbufsz hbuf

/-- One turn of the loop. -/
theorem feedChunks_succ {c : Piece} {L : ℕ} (hc : c.data = List.replicate L 0x41)
    (hmax : L ≤ sizeofBuf) (hline : (chunkHead L c.ext).length < sizeofBuf) (k n : ℕ) :
    feedChunks a L c.ext (n + 1) (after (zeroed 0) (fronts c k)) =
      if Stops c k then throw (.ret (-1))
      else feedChunks a L c.ext n (after (zeroed 0) (fronts c (k + 1))) := by
  have hL : c.data.length = L := by rw [hc, List.length_replicate]
  obtain ⟨hfront, hfront'⟩ := fronts_reading (c := c) (k := k)
  obtain ⟨hhead, hhead'⟩ := withHead_reading (c := c) (k := k)
  obtain ⟨hdata, hdata'⟩ := withData_reading (c := c) (k := k)
  obtain ⟨hnext, hnext'⟩ := fronts_reading (c := c) (k := k + 1)
  have hsucc : fronts c (k + 1) = withData c k ++ [CR, LF] := by
    rw [fronts_succ, Piece.bytes, withData, withHead, List.append_assoc, List.append_assoc,
      List.append_assoc]
  have h₁ := feed_eq hdecoder hbufsz hbuf (n := 0) hfront hhead (hhead'.trans hfront'.symm)
  have h₂ := feed_eq hdecoder hbufsz hbuf (n := L) hhead hdata (by rw [hdata', hhead', hL])
  have hnext₀ : Within 0 (withData c k ++ [CR, LF]) := hsucc ▸ hnext
  have h₃ := feed_eq hdecoder hbufsz hbuf (n := 0) hdata hnext₀ (by
    rw [← hsucc, hnext', hdata', Nat.succ_mul]
    rfl)
  rw [← hsucc] at h₃
  have hturn : feedChunks a L c.ext (n + 1) (after (zeroed 0) (fronts c k)) =
      feed a (chunkHead c.data.length c.ext) 0 (after (zeroed 0) (fronts c k)) >>= fun dec =>
        feed a c.data L dec >>= fun dec => feed a [CR, LF] 0 dec >>= feedChunks a L c.ext n := by
    rw [hL, hc, feedChunks, snprintf_eq hline, memset_eq hmax]
    rfl
  rw [hturn, h₁]
  by_cases hc₁ : Costly 0 (withHead c k)
  · rw [if_pos hc₁, if_pos (.inl hc₁)]
    rfl
  rw [if_neg hc₁, pure_bind, h₂]
  by_cases hc₂ : Costly 0 (withData c k)
  · rw [if_pos hc₂, if_pos (.inr (.inl hc₂))]
    rfl
  rw [if_neg hc₂, pure_bind, h₃]
  by_cases hc₃ : Costly 0 (fronts c (k + 1))
  · rw [if_pos hc₃, if_pos (.inr (.inr hc₃))]
    rfl
  rw [if_neg hc₃, pure_bind]
  exact (if_neg (not_or.mpr ⟨hc₁, not_or.mpr ⟨hc₂, hc₃⟩⟩)).symm

/-- The loop is left with the first call that is rejected. -/
theorem feedChunks_eq {c : Piece} {L : ℕ} (hc : c.data = List.replicate L 0x41)
    (hmax : L ≤ sizeofBuf) (hline : (chunkHead L c.ext).length < sizeofBuf) (k n : ℕ) :
    feedChunks a L c.ext n (after (zeroed 0) (fronts c k)) =
      if ∃ j < n, Stops c (k + j) then throw (.ret (-1))
      else pure (after (zeroed 0) (fronts c (k + n))) := by
  induction n generalizing k with
  | zero =>
      rw [if_neg (by rintro ⟨j, hj, -⟩; exact Nat.not_lt_zero j hj)]
      rfl
  | succ n ih =>
      rw [feedChunks_succ hdecoder hbufsz hbuf hc hmax hline]
      by_cases hstop : Stops c k
      · rw [if_pos hstop, if_pos ⟨0, Nat.succ_pos n, hstop⟩]
      · rw [if_neg hstop, ih, Nat.add_assoc, Nat.add_comm 1 n]
        have hshift : (∃ j < n, Stops c (k + 1 + j)) ↔ ∃ j < n + 1, Stops c (k + j) := by
          constructor
          · rintro ⟨j, hj, h⟩
            exact ⟨j + 1, Nat.succ_lt_succ hj, by rwa [Nat.add_assoc, Nat.add_comm 1] at h⟩
          · rintro ⟨j, hj, h⟩
            cases j with
            | zero => exact absurd h hstop
            | succ j =>
                exact ⟨j, Nat.lt_of_succ_lt_succ hj, by rwa [Nat.add_assoc, Nat.add_comm 1]⟩
        simp only [hshift]

/-- The last chunk completes the body, and two bytes are left over. -/
theorem last_call (c : Piece) (k : ℕ) :
    let r := Rust.phrDecodeChunked a (after (zeroed 0) (fronts c k)) [0x30, CR, LF, CR, LF]
    r.1 = 2 ∧ r.2.bufsz = 0 := by
  obtain ⟨hwithin, hpayload⟩ := payload_front (t := 0) (List.replicate k c)
  -- what follows whole chunks is read as at the beginning of a body
  have happend := (reading_front (t := 0) (List.replicate k c) [0x30, CR, LF, CR, LF]).symm.trans
    (reading_append_more hwithin _)
  have hending := congrArg Run.ending happend
  have hrest := congrArg Run.rest happend
  have hout := congrArg (fun r => r.out.length) happend
  simp only [Run.prepend_ending, Run.prepend_rest, Run.prepend_out, List.length_append,
    ← hpayload, payload] at hending hrest hout
  have hanswer : answer (after (zeroed 0) (fronts c k)) [0x30, CR, LF, CR, LF] = .ok 2 :=
    answer_eq_ok.mpr ⟨hending.symm, congrArg List.length hrest⟩
  rw [Port.phrDecodeChunked_eq hdecoder hbufsz (.inl hbuf) (valid_after _ _), hanswer]
  exact ⟨rfl, (Nat.add_left_cancel hout).symm⟩

/-- How `do_test_chunked_overhead` ends. -/
theorem doTestChunkedOverhead_eq {L n : ℕ} {extra : List UInt8} (hL : 1 ≤ L)
    (hmax : L ≤ sizeofBuf) (hextra : IsExtension extra)
    (hline : (chunkHead L extra).length < sizeofBuf)
    (hlen : n * ((chunkHead L extra).length + 2 + L) < 2 ^ 64) :
    doTestChunkedOverhead a L n extra =
      .ret (if (∃ k < n, TooMuch (k * ((chunkHead L extra).length + 2) + (chunkHead L extra).length)
          (k * L)) ∨ TooMuch (n * ((chunkHead L extra).length + 2)) (n * L)
        then -1 else 2) := by
  have hlt : L < 2 ^ 64 := hmax.trans_lt (by decide)
  let c : Piece := ⟨List.replicate L 0x41, extra, by
    rw [Ne, List.replicate_eq_nil_iff]
    exact Nat.one_le_iff_ne_zero.mp hL, by rwa [List.length_replicate], hextra⟩
  have hc : c.data.length = L := List.length_replicate
  have hloop := feedChunks_eq hdecoder hbufsz hbuf (c := c) rfl hmax hline 0 n
  have hstops := exists_stops_iff (c := c) (n := n) rfl (by rwa [hc])
  simp only [Nat.zero_add, hc, hstops] at hloop
  have hstart : after (zeroed 0) (fronts c 0) = zeroed 0 := rfl
  rw [hstart] at hloop
  obtain ⟨hret, hbufsz'⟩ := last_call hdecoder hbufsz hbuf c n
  unfold doTestChunkedOverhead
  split at hloop
  · rw [hloop, if_pos ‹_›]
    rfl
  · rw [hloop, if_neg ‹_›]
    exact (if_neg (not_not.mpr hbufsz')).trans (congrArg Exit.ret hret)

end

/-! ### Which attackers are found out -/

section

variable {L n : ℕ}

/-- Without an extension, chunks of two bytes and more are never too much. -/
theorem not_tooMuch_of_plain (hL : 2 ≤ L) (hmax : L ≤ 1024) {h : ℕ}
    (hh : (chunkHead L []).length = h) :
    ¬((∃ k < n, TooMuch (k * (h + 2) + h) (k * L)) ∨ TooMuch (n * (h + 2)) (n * L)) := by
  have hlt : L < 2 ^ 64 := hmax.trans_lt (by decide)
  let c : Piece := ⟨List.replicate L 0x41, [], by
    rw [Ne, List.replicate_eq_nil_iff]
    omega, by rwa [List.length_replicate], .empty⟩
  have hc : c.data.length = L := List.length_replicate
  have hframing : c.framing = h + 2 := by rw [Piece.framing, hc, ← hh]
  obtain ⟨hpays, hle⟩ := thrifty_of_plain (c := c) rfl (by rwa [hc])
  rw [hframing, hc] at hpays
  rw [hframing] at hle
  -- every chunk pays for its framing and a byte more
  have hk (k : ℕ) : ¬TooMuch (k * (h + 2) + h) (k * L) := by
    rintro ⟨hmany, hfew⟩
    have hpaid : k * (h + 2) + k ≤ 3 * (k * L) := by
      calc k * (h + 2) + k = k * (h + 2 + 1) := (Nat.mul_succ k _).symm
        _ ≤ k * (3 * L) := Nat.mul_le_mul_left k hpays
        _ = 3 * (k * L) := Nat.mul_left_comm k 3 L
    have hsmall : k * (h + 2) ≤ 318 * 320 := Nat.mul_le_mul (by omega) (by omega)
    omega
  rintro (⟨k, -, htoo⟩ | htoo)
  · exact hk k htoo
  · exact hk n ⟨htoo.1.trans (Nat.le_add_right _ _), htoo.2.trans (Nat.le_add_right _ _)⟩

/-- Chunks of one byte are. -/
theorem tooMuch_of_one : (∃ k < n, TooMuch (k * 5 + 3) (k * 1)) ∨ TooMuch (n * 5) (n * 1) ↔
    20480 ≤ n := by
  constructor
  · rintro (⟨k, hk, hmany, hfew⟩ | ⟨hmany, hfew⟩)
    · omega
    · omega
  · intro h
    exact .inr ⟨by omega, by omega⟩

end

/-- A peer that sends `n` chunks of `L` bytes, each with the extension
`extra`, gets an error exactly when at some point the framing so far exceeds
100 KiB and three times the data so far. Without an extension that never
happens to chunks of two bytes, and to chunks of one byte from 20480 on. The
line of a chunk and its data have to fit into the buffer. -/
theorem chunk_overhead_exact {a : Rust.DecodeArgs} (hdecoder : a.decoder ≠ 0)
    (hbufsz : a.bufsz ≠ 0) (hbuf : a.buf ≠ 0) {L n : ℕ} {extra : List UInt8} (hL : 1 ≤ L)
    (hmax : L ≤ 1024) (hextra : IsExtension extra) (hline : (chunkHead L extra).length < 1024)
    (hlen : n * ((chunkHead L extra).length + 2 + L) < 2 ^ 64) :
    let h := (chunkHead L extra).length
    doTestChunkedOverhead a L n extra =
        .ret (if (∃ k < n, 102400 ≤ k * (h + 2) + h ∧ 3 * (k * L) + 4 ≤ k * (h + 2) + h) ∨
            102400 ≤ n * (h + 2) ∧ 3 * (n * L) + 4 ≤ n * (h + 2)
          then -1 else 2) ∧
      (extra = [] → 2 ≤ L → doTestChunkedOverhead a L n extra = .ret 2) ∧
      (extra = [] → L = 1 → (doTestChunkedOverhead a L n extra = .ret (-1) ↔ 20480 ≤ n)) := by
  have heq := doTestChunkedOverhead_eq hdecoder hbufsz hbuf hL hmax hextra hline hlen
  refine ⟨heq, ?_, ?_⟩
  · rintro rfl htwo
    rw [heq, if_neg (not_tooMuch_of_plain htwo hmax rfl)]
  · rintro rfl rfl
    have hh : (chunkHead 1 []).length = 3 := by decide
    rw [heq, hh, ← tooMuch_of_one (n := n)]
    split
    · exact iff_of_true rfl ‹_›
    · exact iff_of_false (by decide) ‹_›

/-- A call of `test_chunked_overhead`. -/
theorem chunk_overhead_exact_one_byte :
    doTestChunkedOverhead ⟨1, 2, 3⟩ 1 1000000 [] = .ret (-1) := by
  obtain ⟨-, -, hone⟩ := chunk_overhead_exact (a := ⟨1, 2, 3⟩) (by decide) (by decide) (by decide)
    (L := 1) (n := 1000000) le_rfl (by decide) .empty (by decide) (by decide)
  exact (hone rfl rfl).mpr (by decide)

end PicoHttpParser.Consumer
