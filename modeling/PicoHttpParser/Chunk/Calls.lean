import PicoHttpParser.Chunk.Port
import PicoHttpParser.Chunk.Original

/-!
Whole calls of the two decoders.

A call resumes the machine where the decoder says it stopped, and what the
call answers, what it leaves in the decoder and what it leaves in the buffer
are functions of the run: `answer`, `after` and `settled`.
-/

namespace PicoHttpParser.Chunk

open Incremental

/-- The decoder is in one of its states. -/
def Valid (d : PhrChunkedDecoder) : Prop := 0 ≤ d.state ∧ d.state ≤ 7

instance : DecidablePred Valid := fun _ => inferInstanceAs (Decidable (_ ∧ _))

/-- The phase a decoder keeps a number for. -/
def phaseAt (st : Int8) : Phase :=
  if st = 0 then .size
  else if st = 1 then .ext
  else if st = 2 then .expectLf
  else if st = 3 then .data
  else if st = 4 then .dataCr
  else if st = 5 then .dataLf
  else if st = 6 then .trailHead
  else .trailMid

/-- The configuration a decoder remembers. -/
def config (d : PhrChunkedDecoder) : Config := ⟨phaseAt d.state, d.bytesLeftInChunk, d.hexCount⟩

theorem phaseAt_code (p : Phase) : phaseAt p.code = p := by cases p <;> rfl

theorem code_phaseAt {st : Int8} (h : 0 ≤ st ∧ st ≤ 7) : (phaseAt st).code = st := by
  have hall : ∀ n < 256, 0 ≤ Int8.ofNat n ∧ Int8.ofNat n ≤ 7 →
      (phaseAt (Int8.ofNat n)).code = Int8.ofNat n := by decide +kernel
  have hst := hall st.toBitVec.toNat st.toBitVec.isLt
  rw [show Int8.ofNat st.toBitVec.toNat = st from congrArg Int8.ofBitVec (by simp)] at hst
  exact hst h

theorem valid_code (p : Phase) : 0 ≤ p.code ∧ p.code ≤ 7 := by cases p <;> decide

@[simp] theorem config_store (d : PhrChunkedDecoder) (c : Config) : config (c.store d) = c := by
  rw [config, Config.store, phaseAt_code]

/-- What a decoder does with a buffer. It reads the buffer as it was passed
in and emits the payload on the side. -/
def reading (d : PhrChunkedDecoder) (B : List UInt8) : Run Config UInt8 UInt8 :=
  run (step (d.consumeTrailer ≠ 0)) (config d).enter B

section

variable {d : PhrChunkedDecoder} {B : List UInt8}

theorem step_emits {trailer : Bool} {c c' : Config} {b : UInt8} {out : List UInt8}
    (h : step trailer c b = .go c' out) : out.length ≤ 1 := by
  by_cases hdata : c.phase = .data
  · rw [step_data hdata] at h
    rw [← (Turn.go.inj h).2]
    exact le_rfl
  · rw [(step_go hdata h).1]
    exact Nat.zero_le 1

theorem reading_le (d : PhrChunkedDecoder) (B : List UInt8) :
    (reading d B).out.length + (reading d B).rest.length ≤ B.length :=
  length_out_le (fun _ _ _ _ h => step_emits h) _ B

theorem reading_rest (d : PhrChunkedDecoder) (B : List UInt8) :
    B.drop (B.length - (reading d B).rest.length) = (reading d B).rest :=
  (List.suffix_iff_eq_drop.mp (rest_suffix _ B)).symm

end

/-- The decoder after a call. -/
def after (d : PhrChunkedDecoder) (B : List UInt8) : PhrChunkedDecoder :=
  let r := reading d B
  { r.config.store d with
    totalRead := d.totalRead + UInt64.ofNat B.length
    totalOverhead :=
      if r.ending = .more then d.totalOverhead + UInt64.ofNat (B.length - r.out.length)
      else d.totalOverhead }

/-- The buffer after a call: the payload, what has not been read, and what
the buffer held behind them. -/
def settled (d : PhrChunkedDecoder) (B : List UInt8) : List UInt8 :=
  let r := reading d B
  r.out ++ r.rest ++ B.drop (r.out.length + r.rest.length)

section

variable (d : PhrChunkedDecoder) (B : List UInt8)

/-- The payload stands in front of what has not been read. -/
theorem reading_out_le :
    (reading d B).out.length ≤ B.length - (reading d B).rest.length := by
  have hle := reading_le d B
  omega

theorem sub_reading_rest :
    B.length - (B.length - (reading d B).rest.length) = (reading d B).rest.length := by
  have hle := reading_le d B
  omega

theorem held_reading : held B ((reading d B).out ++ (reading d B).rest) = settled d B := by
  rw [held, List.length_append, settled]

end

/-- Too much of what has been read was not payload. -/
def Excessive (d : PhrChunkedDecoder) : Prop :=
  100 * 1024 ≤ d.totalOverhead ∧ d.totalRead - d.totalOverhead < d.totalRead / 4

instance : DecidablePred Excessive := fun _ => inferInstanceAs (Decidable (_ ∧ _))

/-- The answer of a call. -/
def answer (d : PhrChunkedDecoder) (B : List UInt8) : Except Rust.Error ℕ :=
  match (reading d B).ending with
  | .done => .ok (reading d B).rest.length
  | .bad => .error .Malformed
  | .more => if Excessive (after d B) then .error .Malformed else .error .Partial

/-- The return value for an answer. -/
def ret : Except Rust.Error ℕ → ℤ
  | .ok leftover => leftover
  | .error .Partial => -2
  | .error .Malformed => -1

/-! ### The port -/

namespace Port

open Rust Rust.Chunked

section

variable {d : PhrChunkedDecoder} {B P : List UInt8} {c : Config} {src : ℕ}

theorem isOverhead_iff (d : PhrChunkedDecoder) : isOverhead d = true ↔ Excessive d := by
  rw [isOverhead, Excessive, Bool.and_eq_true, decide_eq_true_eq, decide_eq_true_eq]

theorem enter_eq (h : Valid d) : enter (countRead d B.length) B = locals B [] (config d) 0 := by
  rw [locals, config, code_phaseAt h]
  rfl

/-- The loop of a call runs the machine. -/
theorem decodeFrom_enter (h : Valid d) (B : List UInt8) :
    decodeFrom d.consumeTrailer (enter (countRead d B.length) B) =
      leave B (reading d B).ending (reading d B).out (reading d B).config
        (B.length - (reading d B).rest.length) := by
  rw [enter_eq h]
  exact (decodes d.consumeTrailer B).run [] (config d) 0 le_rfl (Nat.zero_le _)

/-- The tail move of the epilogue. -/
theorem moveDown_tail (hP : P.length ≤ src) (hsrc : src ≤ B.length) :
    moveDown (locals B P c src) ((locals B P c src).buf.length - src) =
      .ok (held B (P ++ B.drop src)) := by
  rw [locals, held_length (hP.trans hsrc)]
  have hmove := moveDown_locals (c := c) hP (Nat.add_sub_cancel' hsrc).le
  rwa [List.take_of_length_le List.length_drop.le] at hmove

theorem epilogue_locals (hP : P.length ≤ src) (hsrc : src ≤ B.length) (dec : PhrChunkedDecoder)
    (err : Option Error) :
    epilogue dec err (locals B P c src) =
      let buf := held B (P ++ B.drop src)
      let short := { c.store dec with
        totalOverhead := dec.totalOverhead + UInt64.ofNat (B.length - P.length) }
      match err with
      | none => .ok (.ok (B.length - src), P.length) (c.store dec, buf)
      | some .Malformed => .ok (.error .Malformed, P.length) (c.store dec, buf)
      | some .Partial =>
        .ok (if Excessive short then .error .Malformed else .error .Partial, P.length)
          (short, buf) := by
  have hlen : (locals B P c src).buf.length = B.length := held_length (hP.trans hsrc)
  have hmove := moveDown_tail (c := c) hP hsrc
  unfold epilogue
  dsimp only
  rw [show (locals B P c src).src = src from rfl, hmove, hlen]
  cases err with
  | none => rfl
  | some e =>
      cases e with
      | Malformed => rfl
      | Partial =>
          dsimp only
          by_cases hover : Excessive { c.store dec with
              totalOverhead := dec.totalOverhead + UInt64.ofNat (B.length - P.length) }
          · rw [if_pos hover]
            exact if_pos ((isOverhead_iff _).mpr hover)
          · rw [if_neg hover]
            exact if_neg fun h => hover ((isOverhead_iff _).mp h)

theorem decodeChunked_of_out {err : Option Error} {l : Locals}
    (h : decodeFrom d.consumeTrailer (enter (countRead d B.length) B) = .out err l) :
    decodeChunked (d, B) = epilogue (countRead d B.length) err l := by
  unfold decodeChunked
  dsimp only [countRead]
  rw [← countRead, h]

theorem decodeChunked_eq (h : Valid d) (B : List UInt8) :
    decodeChunked (d, B) =
      .ok (answer d B, (reading d B).out.length) (after d B, settled d B) := by
  have hP := reading_out_le d B
  have hsrc : B.length - (reading d B).rest.length ≤ B.length := Nat.sub_le _ _
  have hloop := decodeFrom_enter h B
  cases hending : (reading d B).ending with
  | more =>
      rw [hending] at hloop
      rw [decodeChunked_of_out hloop, epilogue_locals hP hsrc, reading_rest, held_reading,
        answer, after, hending]
      rfl
  | done =>
      rw [hending] at hloop
      rw [decodeChunked_of_out hloop, epilogue_locals hP hsrc, reading_rest, held_reading, answer,
        after, hending, sub_reading_rest]
      rfl
  | bad =>
      rw [hending] at hloop
      rw [decodeChunked_of_out hloop, epilogue_locals hP hsrc, reading_rest, held_reading,
        answer, after, hending]
      rfl

/-- A call of the port. -/
theorem phrDecodeChunked_eq {a : DecodeArgs} (hdecoder : a.decoder ≠ 0) (hbufsz : a.bufsz ≠ 0)
    (hbuf : a.buf ≠ 0 ∨ B = []) (h : Valid d) :
    phrDecodeChunked a d B =
      (ret (answer d B), ⟨after d B, settled d B, (reading d B).out.length⟩) := by
  have hnull : ¬(a.decoder = 0 ∨ a.bufsz = 0) := not_or.mpr ⟨hdecoder, hbufsz⟩
  have hnone : ¬(B.length ≠ 0 ∧ a.buf = 0) := by
    rintro ⟨hlen, h0⟩
    rcases hbuf with hbuf | rfl
    · exact hbuf h0
    · exact hlen rfl
  rw [phrDecodeChunked, if_neg hnull, if_neg hnone, decodeChunked_eq h]
  cases answer d B with
  | ok leftover => rfl
  | error e => cases e <;> rfl

end

end Port

/-! ### The original -/

namespace Original

open Reference Reference.Chunked

section

variable {d : PhrChunkedDecoder} {B P : List UInt8} {c : Config} {src : ℕ}

/-- What `phr_decode_chunked` counts on entry. -/
def counted (d : PhrChunkedDecoder) (B : List UInt8) : PhrChunkedDecoder :=
  { d with totalRead := d.totalRead + UInt64.ofNat B.length }

/-- The loop of a call runs the machine. -/
theorem decodeFrom_enter (h : Valid d) (B : List UInt8) :
    decodeFrom { decoder := counted d B, buf := B, src := 0, dst := 0 } =
      leave (counted d B) B (reading d B).ending (reading d B).out (reading d B).config
        (B.length - (reading d B).rest.length) := by
  have hstate : ({ decoder := counted d B, buf := B, src := 0, dst := 0 } : State) =
      state (counted d B) B [] (config d) 0 := by
    rw [state, config, Config.store, code_phaseAt h]
    rfl
  rw [hstate]
  exact (decodes (counted d B) B).run [] (config d) 0 le_rfl (Nat.zero_le _)

/-- The move at the label `Exit`. -/
theorem memmove_tail (hP : P.length ≤ src) (hsrc : src ≤ B.length) :
    memmove (state d B P c src) ((state d B P c src).buf.length - src) =
      .ok { state d B P c src with buf := held B (P ++ B.drop src) } := by
  have hlen : (state d B P c src).buf.length = B.length := held_length (hP.trans hsrc)
  have hmove := memmove_state (d := d) (c := c) hP (Nat.add_sub_cancel' hsrc).le
  rw [hlen]
  rwa [List.take_of_length_le List.length_drop.le] at hmove

theorem exit_of_ne (hP : P.length ≤ src) (hsrc : src ≤ B.length) {n : ℤ} (hn : n ≠ -2) :
    exit n (state d B P c src) =
      some (n, c.store d, held B (P ++ B.drop src), P.length) := by
  have hmove := memmove_tail (d := d) (c := c) hP hsrc
  unfold exit
  rw [show (state d B P c src).src = src from rfl, hmove]
  exact if_neg hn

theorem exit_more (hP : P.length ≤ src) (hsrc : src ≤ B.length) :
    exit (-2) (state d B P c src) =
      let short := { c.store d with
        totalOverhead := d.totalOverhead + UInt64.ofNat (B.length - P.length) }
      some (if Excessive short then -1 else -2, short, held B (P ++ B.drop src), P.length) := by
  have hlen : (state d B P c src).buf.length = B.length := held_length (hP.trans hsrc)
  have hmove := memmove_tail (d := d) (c := c) hP hsrc
  unfold exit
  rw [show (state d B P c src).src = src from rfl, hmove, hlen]
  rfl

/-- A call of the original. -/
theorem phrDecodeChunked_eq (h : Valid d) (B : List UInt8) :
    phrDecodeChunked d B =
      some (ret (answer d B), after d B, settled d B, (reading d B).out.length) := by
  have hP := reading_out_le d B
  have hsrc : B.length - (reading d B).rest.length ≤ B.length := Nat.sub_le _ _
  unfold phrDecodeChunked
  dsimp only
  rw [← counted, decodeFrom_enter h]
  cases hending : (reading d B).ending with
  | more =>
      show exit (-2) _ = _
      rw [exit_more hP hsrc, reading_rest, held_reading, answer, hending]
      have hshort : { (reading d B).config.store (counted d B) with
          totalOverhead :=
            (counted d B).totalOverhead + UInt64.ofNat (B.length - (reading d B).out.length) } =
          after d B := by
        rw [after, hending]
        rfl
      dsimp only
      rw [hshort]
      split
      · rfl
      · rfl
  | done =>
      show exit (B.length - (B.length - (reading d B).rest.length) : ℕ) _ = _
      rw [exit_of_ne hP hsrc (by omega), reading_rest, held_reading, answer, after,
        hending, sub_reading_rest]
      rfl
  | bad =>
      show exit (-1) _ = _
      rw [exit_of_ne hP hsrc (by decide), reading_rest, held_reading, answer, after,
        hending]
      rfl

end

end Original

end PicoHttpParser.Chunk
