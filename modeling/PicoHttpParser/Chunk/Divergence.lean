import PicoHttpParser.Chunk.Equivalence

/-!
Where the two decoders differ.

A decoder whose state is none of the eight is no decoder: the original is
undefined on it, and the port rejects every buffer and leaves it as it is. No
call makes such a decoder, and none repairs it.
-/

namespace PicoHttpParser.Chunk

open Rust (DecodeArgs DecodeMem)

/-- The null pointers that `phr_decode_chunked` turns down. An empty buffer
may be anywhere. -/
def NullCall (a : DecodeArgs) (B : List UInt8) : Prop :=
  (a.decoder = 0 ∨ a.bufsz = 0) ∨ (B.length ≠ 0 ∧ a.buf = 0)

instance (a : DecodeArgs) (B : List UInt8) : Decidable (NullCall a B) :=
  inferInstanceAs (Decidable (_ ∨ _))

/-- Every call of the decoder. -/
structure DecoderAccount (d : PhrChunkedDecoder) (a : DecodeArgs) (B : List UInt8) : Prop where
  same : ¬NullCall a B → Valid d → Reference.Chunked.phrDecodeChunked d B =
    some ((Rust.phrDecodeChunked a d B).1, (Rust.phrDecodeChunked a d B).2.decoder,
      (Rust.phrDecodeChunked a d B).2.buf, (Rust.phrDecodeChunked a d B).2.bufsz)
  forged : ¬NullCall a B → ¬Valid d → Reference.Chunked.phrDecodeChunked d B = none ∧
    Rust.phrDecodeChunked a d B = (-1, ⟨Rust.Chunked.countRead d B.length, B, B.length⟩)
  rejected : NullCall a B → Rust.phrDecodeChunked a d B = (-1, ⟨d, B, B.length⟩)

/-! ### Forged states -/

section

variable {d : PhrChunkedDecoder} (h : ¬Valid d)

include h

theorem ne_of_forged {st : Int8} (hst : 0 ≤ st ∧ st ≤ 7) : d.state ≠ st := by
  rintro rfl
  exact h hst

theorem chain_forged (consumeTrailer : Int8) {l : Rust.Chunked.Locals} (hl : l.st = d.state) :
    Rust.Chunked.chain consumeTrailer l = .error (.panic l) := by
  have hne {st : Int8} (hst : 0 ≤ st ∧ st ≤ 7) : l.st ≠ st := hl ▸ ne_of_forged h hst
  have hA : ¬(l.st = 0 ∨ l.st = 1 ∨ l.st = 2) := by
    rintro (h | h | h) <;> exact hne (by decide) h
  have hB : ¬(l.st = 3 ∨ l.st = 4 ∨ l.st = 5) := by
    rintro (h | h | h) <;> exact hne (by decide) h
  have hC : ¬(l.st = 6 ∨ l.st = 7) := by
    rintro (h | h) <;> exact hne (by decide) h
  rw [Rust.Chunked.chain, if_neg hA, if_neg hB, if_neg hC]
  rfl

theorem decodeChunked_forged (B : List UInt8) :
    Rust.Chunked.decodeChunked (d, B) =
      .error .panic (Rust.Chunked.countRead d B.length, B) := by
  have hloop := Port.decodeFrom_of_error (chain_forged h
    (Rust.Chunked.countRead d B.length).consumeTrailer
    (l := Rust.Chunked.enter (Rust.Chunked.countRead d B.length) B) rfl)
  unfold Rust.Chunked.decodeChunked
  dsimp only
  rw [hloop]
  rfl

theorem switch_forged {s : Reference.Chunked.State} (hs : s.decoder.state = d.state) :
    Reference.Chunked.switch s = .error .undefined := by
  have hne {st : Int8} (hst : 0 ≤ st ∧ st ≤ 7) := ne_of_forged h hst
  rw [Reference.Chunked.switch, hs, if_neg (hne (by decide)), if_neg (hne (by decide)),
    if_neg (hne (by decide)), if_neg (hne (by decide)), if_neg (hne (by decide)),
    if_neg (hne (by decide)), if_neg (hne (by decide)), if_neg (hne (by decide))]
  rfl

theorem original_forged (B : List UInt8) : Reference.Chunked.phrDecodeChunked d B = none := by
  rw [Reference.Chunked.phrDecodeChunked, Original.decodeFrom_of_error (switch_forged h rfl)]

end

/-! ### The entry point -/

theorem port_forged {d : PhrChunkedDecoder} (h : ¬Valid d) {a : DecodeArgs} {B : List UInt8}
    (ha : ¬NullCall a B) :
    Rust.phrDecodeChunked a d B = (-1, ⟨Rust.Chunked.countRead d B.length, B, B.length⟩) := by
  obtain ⟨hptr, hbuf⟩ := not_or.mp ha
  rw [Rust.phrDecodeChunked, if_neg hptr, if_neg hbuf, decodeChunked_forged h]

theorem port_null (d : PhrChunkedDecoder) {a : DecodeArgs} {B : List UInt8} (ha : NullCall a B) :
    Rust.phrDecodeChunked a d B = (-1, ⟨d, B, B.length⟩) := by
  rw [Rust.phrDecodeChunked]
  by_cases hptr : a.decoder = 0 ∨ a.bufsz = 0
  · rw [if_pos hptr]
  · rw [if_neg hptr, if_pos (ha.resolve_left hptr)]

theorem nonNull_of_not_null {a : DecodeArgs} {B : List UInt8} (ha : ¬NullCall a B) :
    DecodeNonNull a B := by
  obtain ⟨hptr, hbuf⟩ := not_or.mp ha
  obtain ⟨hdecoder, hbufsz⟩ := not_or.mp hptr
  refine ⟨hdecoder, hbufsz, ?_⟩
  by_cases hlen : B.length = 0
  · exact .inr (List.eq_nil_of_length_eq_zero hlen)
  · exact .inl fun hnull => hbuf ⟨hlen, hnull⟩

theorem decoder_account (d : PhrChunkedDecoder) (a : DecodeArgs) (B : List UInt8) :
    DecoderAccount d a B where
  same ha h := call_agrees h (nonNull_of_not_null ha)
  forged ha h := ⟨original_forged h B, port_forged h ha⟩
  rejected := port_null d

/-- No call makes or repairs a forged state. -/
theorem valid_call_iff (d : PhrChunkedDecoder) (a : DecodeArgs) (B : List UInt8) :
    Valid (Rust.phrDecodeChunked a d B).2.decoder ↔ Valid d := by
  by_cases ha : NullCall a B
  · rw [port_null d ha]
  by_cases h : Valid d
  · refine iff_of_true ?_ h
    have hnull := nonNull_of_not_null ha
    rw [Port.phrDecodeChunked_eq hnull.decoder hnull.bufsz hnull.buf h]
    exact valid_after d B
  · rw [port_forged h ha]
    exact Iff.rfl

/-! ### Runs of calls -/

/-- A forged decoder rejects every buffer of a run and leaves it as it is. -/
theorem forged_run {d : PhrChunkedDecoder} (h : ¬Valid d) (calls : List (DecodeArgs × List UInt8)) :
    List.Forall₂ (fun call r => r.1 = -1 ∧ r.2.buf = call.2 ∧ r.2.bufsz = call.2.length) calls
      (portCalls d calls) := by
  induction calls generalizing d with
  | nil => exact .nil
  | cons call calls ih =>
      obtain ⟨a, B⟩ := call
      have hforged : ¬Valid (Rust.phrDecodeChunked a d B).2.decoder :=
        fun hvalid => h ((valid_call_iff d a B).mp hvalid)
      refine .cons ?_ (ih hforged)
      by_cases ha : NullCall a B
      · rw [port_null d ha]
        exact ⟨rfl, rfl, rfl⟩
      · rw [port_forged h ha]
        exact ⟨rfl, rfl, rfl⟩

/-- The calls of a run that turn no null pointer down, and what they answer. -/
def effective (calls : List (DecodeArgs × List UInt8)) : List (DecodeArgs × List UInt8) :=
  calls.filter fun call => ¬NullCall call.1 call.2

def effectiveAnswers (calls : List (DecodeArgs × List UInt8)) (rs : List (ℤ × DecodeMem)) :
    List (ℤ × DecodeMem) :=
  ((calls.zip rs).filter fun p => ¬NullCall p.1.1 p.1.2).map Prod.snd

/-- The original has the same run without the calls that are turned down. -/
theorem effective_run {d : PhrChunkedDecoder} (h : Valid d)
    (calls : List (DecodeArgs × List UInt8)) :
    originalCalls d (effective calls) = some (effectiveAnswers calls (portCalls d calls)) := by
  induction calls generalizing d with
  | nil => rfl
  | cons call calls ih =>
      obtain ⟨a, B⟩ := call
      have hvalid := (valid_call_iff d a B).mpr h
      have hrest := ih hvalid
      unfold effective effectiveAnswers at hrest ⊢
      rw [portCalls, List.zip_cons_cons]
      by_cases ha : NullCall a B
      · rw [List.filter_cons_of_neg (by simpa using ha),
          List.filter_cons_of_neg (by simpa using ha)]
        rwa [port_null d ha] at hrest ⊢
      · rw [List.filter_cons_of_pos (by simpa using ha),
          List.filter_cons_of_pos (by simpa using ha), originalCalls,
          call_agrees h (nonNull_of_not_null ha)]
        dsimp only
        rw [hrest]
        rfl

/-- All there is to say about where the decoders differ, over whole runs of
calls with any pointers, on any decoder. -/
structure DecoderAccounts (d : PhrChunkedDecoder) : Prop where
  call : ∀ a B, DecoderAccount d a B
  keeps : ∀ a B, Valid (Rust.phrDecodeChunked a d B).2.decoder ↔ Valid d
  run : Valid d → ∀ calls,
    originalCalls d (effective calls) = some (effectiveAnswers calls (portCalls d calls))
  forged : ¬Valid d → ∀ calls,
    List.Forall₂ (fun call r => r.1 = -1 ∧ r.2.buf = call.2 ∧ r.2.bufsz = call.2.length) calls
      (portCalls d calls)
  query : ∀ decoder, Rust.phrDecodeChunkedIsInData decoder d =
    if decoder ≠ 0 ∧ Reference.Chunked.phrDecodeChunkedIsInData d then 1 else 0

theorem decoder_divergence (d : PhrChunkedDecoder) : DecoderAccounts d where
  call := decoder_account d
  keeps := valid_call_iff d
  run h calls := effective_run h calls
  forged h calls := forged_run h calls
  query decoder := by
    by_cases hdecoder : decoder = 0
    · rw [Rust.phrDecodeChunkedIsInData, if_pos hdecoder, if_neg fun h => h.1 hdecoder]
    · rw [Rust.phrDecodeChunkedIsInData, if_neg hdecoder]
      simp only [ne_eq, hdecoder, not_false_eq_true, true_and]
      rfl

end PicoHttpParser.Chunk
