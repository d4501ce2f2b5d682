import PicoHttpParser.Chunk.Feed
import PicoHttpParser.Chunk.Spent
import PicoHttpParser.Lib.Connection
import PicoHttpParser.Loopback.Library

/-!
The decode loop of both sides.

Server and client hand the decoder what was read along with a head, and then
what they receive. Unlike the example in `README.md`, they copy what is decoded
elsewhere, and give up when that is full. The sides differ in how much they
read, in what the decoder does with trailers, and in the texts they print.
-/

namespace PicoHttpParser.Loopback

open Incremental Chunk

/-! ### The loop -/

/-- What both sides compare the body with. -/
def expected : List UInt8 := cBytes "hello world"

/-- What is a side's own. -/
structure Side where
  consumeTrailer : Int8
  want : ℕ
  recvText : String
  overflowText : String
  decodeText : String

/-- `sizeof(decoded)` -/
abbrev decodedSize : ℕ := 256

/-- `dec`, the first `dlen` bytes of `decoded`, and `saw_data`. -/
structure DecodeLoop where
  dec : PhrChunkedDecoder
  decoded : List UInt8
  sawData : Bool

def Side.start (side : Side) : DecodeLoop := ⟨zeroed side.consumeTrailer, [], false⟩

/-- The loop on the bytes it has got, with the leftover when the body ends. -/
def decodeTurn (lib : Library) (side : Side) (s : DecodeLoop) (bs : List UInt8) :
    DecodeLoop ⊕ Except Stop (ℤ × DecodeLoop) :=
  match lib.decodeChunked s.dec bs with
  | none => .inr (.error .undefined)
  | some (r2, m) =>
    let sawData := s.sawData || lib.isInData m.decoder != 0
    if 0 < m.bufsz ∧ decodedSize ≤ s.decoded.length + m.bufsz then
      .inr (.error (.fail side.overflowText))
    else
      let s : DecodeLoop := ⟨m.decoder, s.decoded ++ m.buf.take m.bufsz, sawData⟩
      if r2 = -2 then .inl s
      else if r2 < 0 then .inr (.error (.fail (side.decodeText ++ toString r2)))
      else .inr (.ok (r2, s))

/-- The loop when there is nothing left of what was read before. -/
def decodeRecv (lib : Library) (side : Side) (s : DecodeLoop) (segments : List (List UInt8)) :
    Except Stop (ℤ × DecodeLoop) × List (List UInt8) :=
  match pull (fun _ => side.want) (decodeTurn lib side) s segments with
  | (.inl _, left) => (.error (.fail side.recvText), left)
  | (.inr r, left) => (r, left)

/-- The loop, with what was read along with the head. -/
def decodeStage (lib : Library) (side : Side) (carried : List UInt8)
    (segments : List (List UInt8)) : Except Stop (ℤ × DecodeLoop) × List (List UInt8) :=
  if carried.length = 0 then decodeRecv lib side side.start segments
  else
    match decodeTurn lib side side.start carried with
    | .inl s => decodeRecv lib side s segments
    | .inr r => (r, segments)

/-! ### What the loop keeps -/

/-- `got` has been decoded, and is a part of a body. -/
structure DecodeWaits (t : Int8) (got : List UInt8) (s : DecodeLoop) : Prop where
  dec : s.dec = after (zeroed t) got
  within : Within t got
  decoded : s.decoded = payload t got
  lt : s.decoded.length < decodedSize

/-- How `got` ends the loop. -/
inductive DecodeEnds (side : Side) (got : List UInt8) : Except Stop (ℤ × DecodeLoop) → Prop
  | decoded {w p rest : List UInt8} {s : DecodeLoop}
      (hw : ChunkedBody (side.consumeTrailer ≠ 0) w p) (hgot : got = w ++ rest)
      (hp : s.decoded = p) (hlt : p.length < decodedSize)
      (hdata : Rust.Chunked.isInData s.dec = false) : DecodeEnds side got (.ok (rest.length, s))
  | overflow (h : decodedSize ≤ (payload side.consumeTrailer got).length) :
      DecodeEnds side got (.error (.fail side.overflowText))
  | refused (h : Refused side.consumeTrailer got) :
      DecodeEnds side got (.error (.fail (side.decodeText ++ toString (-1 : ℤ))))

/-- What comes of the stream `S`. -/
inductive Staged (side : Side) (S : List UInt8) :
    Except Stop (ℤ × DecodeLoop) × List (List UInt8) → Prop
  | ends {got : List UInt8} {r : Except Stop (ℤ × DecodeLoop)} {left : List (List UInt8)}
      (hS : S = got ++ left.flatten) (h : DecodeEnds side got r) : Staged side S (r, left)
  | closed {left : List (List UInt8)} (h : Within side.consumeTrailer S)
      (hlt : (payload side.consumeTrailer S).length < decodedSize) :
      Staged side S (.error (.fail side.recvText), left)

/-! ### One turn -/

section

variable {t : Int8} {got bs : List UInt8} {a : Rust.DecodeArgs} {d : PhrChunkedDecoder}

/-- What is decoded is payload. -/
theorem payload_call (ha : DecodeNonNull a bs) (hgot : Within t got) :
    payload t (got ++ bs) = payload t got ++
      (Rust.phrDecodeChunked a (after (zeroed t) got) bs).2.buf.take
        (Rust.phrDecodeChunked a (after (zeroed t) got) bs).2.bufsz := by
  rw [Port.phrDecodeChunked_eq ha.decoder ha.bufsz ha.buf (valid_after _ got), take_settled,
    payload, reading_append_more hgot, Run.prepend_out, payload]

theorem bufsz_le (ha : DecodeNonNull a bs) (hd : Valid d) :
    (Rust.phrDecodeChunked a d bs).2.bufsz ≤ (Rust.phrDecodeChunked a d bs).2.buf.length := by
  rw [Port.phrDecodeChunked_eq ha.decoder ha.bufsz ha.buf hd]
  dsimp only
  rw [length_settled]
  have hle := reading_le d bs
  omega

theorem not_inData_of_final (hd : Valid d) (h : Final d) : Rust.Chunked.isInData d = false := by
  have hcode : (config d).phase.code = d.state := code_phaseAt hd
  have hne : d.state ≠ 3 := by
    rw [← hcode]
    rcases h with ⟨-, hphase, -⟩ | hphase
    · rw [hphase]
      decide
    · rw [hphase]
      decide
  exact beq_eq_false_iff_ne.mpr hne

/-- Behind a body the decoder is not within a chunk. -/
theorem not_inData_of_done (ha : DecodeNonNull a bs) (hd : Valid d)
    (h : 0 ≤ (Rust.phrDecodeChunked a d bs).1) :
    Rust.Chunked.isInData (Rust.phrDecodeChunked a d bs).2.decoder = false := by
  rw [Port.phrDecodeChunked_eq ha.decoder ha.bufsz ha.buf hd] at h ⊢
  refine not_inData_of_final (valid_after d bs) (final_after ?_)
  cases hanswer : answer d bs with
  | ok l => exact (answer_eq_ok.mp hanswer).1
  | error e =>
      rw [hanswer] at h
      cases e with
      | Malformed => exact absurd h (by decide : ¬(0 : ℤ) ≤ -1)
      | Partial => exact absurd h (by decide : ¬(0 : ℤ) ≤ -2)

end

section

variable {fr : Frame} {lib : Library} (hlib : Answers fr lib) {side : Side}

include hlib

theorem decodeTurn_rule {got : List UInt8} {s : DecodeLoop}
    (hs : DecodeWaits side.consumeTrailer got s) (bs : List UInt8) :
    Sum.elim (DecodeWaits side.consumeTrailer (got ++ bs)) (DecodeEnds side (got ++ bs))
      (decodeTurn lib side s bs) := by
  obtain ⟨hdec, hwithin, hdecoded, hlt⟩ := hs
  have hvalid : Valid s.dec := hdec ▸ valid_after _ got
  have hfed := fed (fr.decode_nonNull bs) hwithin
  have hpayload := payload_call (fr.decode_nonNull bs) hwithin
  have hle := bufsz_le (fr.decode_nonNull bs) hvalid
  have hidle := not_inData_of_done (fr.decode_nonNull bs) hvalid
  rw [← hdec] at hfed hpayload
  rw [← hdecoded] at hpayload
  unfold decodeTurn
  rw [hlib.decodeChunked hvalid]
  dsimp only
  generalize Rust.phrDecodeChunked fr.decode s.dec bs = r at hfed hpayload hle hidle ⊢
  have hlength : (payload side.consumeTrailer (got ++ bs)).length =
      s.decoded.length + r.2.bufsz := by
    rw [hpayload, List.length_append, List.length_take_of_le hle]
  split
  · rename_i hfull
    exact .overflow (hlength ▸ hfull.2)
  rename_i hroom
  have hroom' : s.decoded.length + r.2.bufsz < decodedSize := by omega
  have hlt' : (s.decoded ++ r.2.buf.take r.2.bufsz).length < decodedSize := by
    rwa [← hpayload, hlength]
  cases hfed with
  | fail h => exact .refused (.inl h)
  | costly hwithin h => exact .refused (.inr ⟨hwithin, h⟩)
  | more hwithin hthrift hdecoder hlen hle' hout =>
      exact ⟨hdecoder, hwithin, hpayload.symm, hlt'⟩
  | done hw hgot hlen hle' hout hrest =>
      rename_i m w p rest
      rw [if_neg (by omega), if_neg (by omega)]
      rw [← hdecoded] at hout
      refine .decoded hw hgot hout.symm ?_ (hidle (Int.natCast_nonneg _))
      rw [hout]
      exact hlt'

/-! ### The stage -/

theorem decodeRecv_rule (hwant : side.want ≠ 0) {got S : List UInt8} {s : DecodeLoop}
    (hs : DecodeWaits side.consumeTrailer got s) {segments : List (List UInt8)}
    (hS : S = got ++ segments.flatten) : Staged side S (decodeRecv lib side s segments) := by
  obtain ⟨got', -, hstream, hresult, hclosed⟩ : ∃ got', got <+: got' ∧
      Pulled (fun _ => side.want) S (DecodeWaits side.consumeTrailer) (DecodeEnds side) got'
        (pull (fun _ => side.want) (decodeTurn lib side) s segments) :=
    pull_rule (fun got s bs _ _ _ hs => decodeTurn_rule hlib hs bs) hS hs
  unfold decodeRecv
  generalize pull _ _ s segments = r at hstream hresult hclosed ⊢
  obtain ⟨e | e, left⟩ := r
  · obtain ⟨hwaits, hzero | hleft⟩ := hclosed e rfl
    · exact absurd hzero hwant
    · rw [show left.flatten = [] from hleft, List.append_nil] at hstream
      exact .closed (hstream ▸ hwaits.within) (hstream ▸ hwaits.decoded ▸ hwaits.lt)
  · exact .ends hstream (hresult e rfl)

/-- The loop on what was carried over and what is received. -/
theorem decodeStage_rule (side : Side) (hwant : side.want ≠ 0) (carried : List UInt8)
    (segments : List (List UInt8)) :
    Staged side (carried ++ segments.flatten) (decodeStage lib side carried segments) := by
  have hstart : DecodeWaits side.consumeTrailer [] side.start :=
    ⟨rfl, within_nil, rfl, (by decide : 0 < decodedSize)⟩
  unfold decodeStage
  split
  · rename_i hnil
    rw [List.eq_nil_of_length_eq_zero hnil]
    exact decodeRecv_rule hlib hwant hstart rfl
  · have hturn := decodeTurn_rule hlib hstart carried
    rw [List.nil_append] at hturn
    cases hr : decodeTurn lib side side.start carried with
    | inl s =>
        rw [hr] at hturn
        exact decodeRecv_rule hlib hwant hturn rfl
    | inr r =>
        rw [hr] at hturn
        exact .ends rfl hturn

end

/-- A body that is let through is decoded. -/
theorem Staged.decodes {side : Side} {S : List UInt8}
    {r : Except Stop (ℤ × DecodeLoop) × List (List UInt8)} (h : Staged side S r) {w p : List UInt8}
    (hw : ChunkedBody (side.consumeTrailer ≠ 0) w p) (hfront : w <+: S)
    (hp : p.length < decodedSize)
    (hthrift : ∀ got, got <+: w → got.length < w.length → ¬Costly side.consumeTrailer got) :
    ∃ r2 d, r.1 = .ok (r2, d) ∧ d.decoded = p := by
  cases h with
  | ends hS h =>
      have hgot : _ <+: S := ⟨_, hS.symm⟩
      cases h with
      | decoded hw' hgot' hp' hlt hdata =>
          obtain ⟨ext, hext⟩ := hfront
          rw [hgot', List.append_assoc] at hS
          obtain ⟨-, rfl, -⟩ := prefixFree_body hw hw' (hext.trans hS)
          exact ⟨_, _, rfl, hp'⟩
      | overflow h =>
          have hle := (payload_isPrefix hw hfront hgot).length_le
          omega
      | refused h => exact absurd h (not_refused hw hfront hthrift hgot)
  | closed h => exact absurd hfront (h.noBody w p hw)

end PicoHttpParser.Loopback
