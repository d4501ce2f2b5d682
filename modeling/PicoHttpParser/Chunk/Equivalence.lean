import PicoHttpParser.Chunk.Calls

/-!
The two decoders answer alike.

Called on a decoder in one of its states, whatever the counters hold, both
programs are the same function of the decoder and the buffer. Every call
leaves the decoder in one of its states, so the same goes for a run of calls.
-/

namespace PicoHttpParser.Chunk

open Rust (DecodeArgs DecodeMem)

/-- Pointers to something. An empty buffer may be anywhere. -/
structure DecodeNonNull (a : DecodeArgs) (B : List UInt8) : Prop where
  decoder : a.decoder ≠ 0
  bufsz : a.bufsz ≠ 0
  buf : a.buf ≠ 0 ∨ B = []

/-- Calls of the port, each on the decoder the last one left. -/
def portCalls (d : PhrChunkedDecoder) : List (DecodeArgs × List UInt8) → List (ℤ × DecodeMem)
  | [] => []
  | (a, B) :: calls =>
    let r := Rust.phrDecodeChunked a d B
    r :: portCalls r.2.decoder calls

/-- The same calls of the original. -/
def originalCalls (d : PhrChunkedDecoder) :
    List (DecodeArgs × List UInt8) → Option (List (ℤ × DecodeMem))
  | [] => some []
  | (_, B) :: calls =>
    match Reference.Chunked.phrDecodeChunked d B with
    | none => none
    | some (ret, d', buf, bufsz) =>
      (originalCalls d' calls).map fun rs => (ret, ⟨d', buf, bufsz⟩) :: rs

theorem valid_after (d : PhrChunkedDecoder) (B : List UInt8) : Valid (after d B) :=
  valid_code (reading d B).config.phase

/-- One call. -/
theorem call_agrees {d : PhrChunkedDecoder} (h : Valid d) {a : DecodeArgs} {B : List UInt8}
    (ha : DecodeNonNull a B) :
    Reference.Chunked.phrDecodeChunked d B =
      some ((Rust.phrDecodeChunked a d B).1, (Rust.phrDecodeChunked a d B).2.decoder,
        (Rust.phrDecodeChunked a d B).2.buf, (Rust.phrDecodeChunked a d B).2.bufsz) := by
  rw [Original.phrDecodeChunked_eq h, Port.phrDecodeChunked_eq ha.decoder ha.bufsz ha.buf h]

/-- Any number of calls, on any buffers. -/
theorem calls_agree {d : PhrChunkedDecoder} (h : Valid d)
    {calls : List (DecodeArgs × List UInt8)}
    (hcalls : ∀ call ∈ calls, DecodeNonNull call.1 call.2) :
    originalCalls d calls = some (portCalls d calls) := by
  induction calls generalizing d with
  | nil => rfl
  | cons call calls ih =>
      obtain ⟨a, B⟩ := call
      have ha : DecodeNonNull a B := hcalls (a, B) List.mem_cons_self
      have hvalid : Valid (Rust.phrDecodeChunked a d B).2.decoder := by
        rw [Port.phrDecodeChunked_eq ha.decoder ha.bufsz ha.buf h]
        exact valid_after d B
      rw [originalCalls, call_agrees h ha, portCalls]
      dsimp only
      rw [ih hvalid fun call hcall => hcalls call (List.mem_cons_of_mem _ hcall)]
      rfl

/-- The chunked decoders. -/
theorem decoder_agrees {d : PhrChunkedDecoder} (h : 0 ≤ d.state ∧ d.state ≤ 7) :
    (∀ (a : DecodeArgs) (B : List UInt8), DecodeNonNull a B →
        Reference.Chunked.phrDecodeChunked d B =
          some ((Rust.phrDecodeChunked a d B).1, (Rust.phrDecodeChunked a d B).2.decoder,
            (Rust.phrDecodeChunked a d B).2.buf, (Rust.phrDecodeChunked a d B).2.bufsz)) ∧
      ∀ calls : List (DecodeArgs × List UInt8),
        (∀ call ∈ calls, DecodeNonNull call.1 call.2) →
          originalCalls d calls = some (portCalls d calls) :=
  ⟨fun _ _ ha => call_agrees h ha, fun _ hcalls => calls_agree h hcalls⟩

/-- A decoder in the middle of a chunk, with counters that were never zero.
The first call ends in the line end of the chunk, the second rejects what
stands for a size, and the third finds the digit count where the second has
left it. -/
theorem decoder_agrees_dirty :
    let d : PhrChunkedDecoder := ⟨3, 1, 9, 3, 0xfffffffffffffff0, 7⟩
    let a : DecodeArgs := ⟨1000, 2000, 3000⟩
    let calls : List (DecodeArgs × List UInt8) :=
      [(a, [97, 98, 99, 13]), (a, [10, 49, 120]), (⟨1000, 0, 3000⟩, [])]
    (portCalls d calls).map Prod.fst = [-2, -1, -2] ∧
      Reference.Chunked.phrDecodeChunked d [97, 98, 99, 13] =
        some (-2, ⟨0, 1, 9, 5, 0xfffffffffffffff4, 8⟩, [97, 98, 99, 13], 3) ∧
      originalCalls d calls = some (portCalls d calls) := by
  intro d a calls
  have hcalls : ∀ call ∈ calls, DecodeNonNull call.1 call.2 := by
    rintro call hcall
    simp only [calls, List.mem_cons, List.not_mem_nil, or_false] at hcall
    rcases hcall with rfl | rfl | rfl
    · exact ⟨by decide, by decide, .inl (by decide)⟩
    · exact ⟨by decide, by decide, .inl (by decide)⟩
    · exact ⟨by decide, by decide, .inr rfl⟩
  have hagree := decoder_agrees (d := d) (by decide)
  refine ⟨by decide +kernel, ?_, hagree.2 calls hcalls⟩
  rw [hagree.1 a _ ⟨by decide, by decide, .inl (by decide)⟩]
  decide +kernel

end PicoHttpParser.Chunk
