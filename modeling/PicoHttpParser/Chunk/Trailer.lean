import PicoHttpParser.Chunk.Grammar
import PicoHttpParser.Head.Completion

/-!
Trailers, consumed or left.

The decoder can pass over a trailer section or leave it to its caller, who can
then parse it as a header block. A header block is a trailer section, and so
both ways end at the same byte.
-/

namespace PicoHttpParser.Chunk

open Incremental Rust Rust.Chunked

/-! ### A header block is a trailer section -/

theorem eol_bytes (e : Head.Eol) : ∃ n, e.bytes = List.replicate n CR ++ [LF] := by
  cases e with
  | lf => exact ⟨0, rfl⟩
  | crlf => exact ⟨1, rfl⟩

theorem replicate_ne_lf {n : ℕ} : ∀ x ∈ List.replicate n CR, x ≠ LF := by
  intro x hx
  rw [List.eq_of_mem_replicate hx]
  decide

theorem text_ne_lf {t : List UInt8} (ht : Head.IsText t) : ∀ x ∈ t, x ≠ LF := by
  rintro x hx rfl
  exact absurd (ht LF hx) (by decide)

theorem name_ne_lf {n : List UInt8} (hn : Head.IsName n) : ∀ x ∈ n, x ≠ LF := by
  rintro x hx rfl
  exact absurd (hn.2 LF hx) (by decide)

/-- A line of a header block ends with its only LF. -/
theorem line_bytes (line : Head.HeaderLine) :
    ∃ m, line.bytes = m ++ [LF] ∧ ∀ x ∈ m, x ≠ LF := by
  cases line with
  | named name text e hname htext =>
      obtain ⟨n, he⟩ := eol_bytes e
      refine ⟨name ++ 0x3a :: (text ++ List.replicate n CR), ?_, ?_⟩
      · simp [Head.HeaderLine.bytes, he]
      intro x hx
      rcases List.mem_append.mp hx with hx | hx
      · exact name_ne_lf hname x hx
      rcases List.mem_cons.mp hx with rfl | hx
      · decide
      rcases List.mem_append.mp hx with hx | hx
      · exact text_ne_lf htext x hx
      · exact replicate_ne_lf x hx
  | continued text e htext hblank =>
      obtain ⟨n, he⟩ := eol_bytes e
      refine ⟨text ++ List.replicate n CR, by simp [Head.HeaderLine.bytes, he], ?_⟩
      intro x hx
      rcases List.mem_append.mp hx with hx | hx
      · exact text_ne_lf htext x hx
      · exact replicate_ne_lf x hx

theorem trailerLine_of_line (line : Head.HeaderLine) : TrailerLine line.bytes := by
  obtain ⟨b, r, hb, hne⟩ := line.head
  obtain ⟨hcr, hlf⟩ := not_or.mp hne
  obtain ⟨m, hm, hmid⟩ := line_bytes line
  rw [hm] at hb ⊢
  cases m with
  | nil => exact absurd (List.cons.inj hb).1.symm hlf
  | cons c m =>
      obtain rfl : c = b := (List.cons.inj hb).1
      exact TrailerLine.mk 0 hcr hlf fun x hx => hmid x (List.mem_cons_of_mem c hx)

theorem trailerSection_of_block (block : Head.HeaderBlock) : TrailerSection block.bytes := by
  obtain ⟨n, hn⟩ := eol_bytes block.blank
  rw [Head.HeaderBlock.bytes, hn, ← List.append_assoc]
  refine TrailerSection.mk (fun l hl => ?_) n
  obtain ⟨line, -, rfl⟩ := List.mem_map.mp hl
  exact trailerLine_of_line line

/-! ### A body, and a trailer section behind it -/

section

variable {w tr T ext p : List UInt8}

theorem chunkedBody_append (hw : ChunkedBody false w p) (htr : TrailerSection tr) :
    ChunkedBody true (w ++ tr) p := by
  obtain ⟨hchunks, hlast, rfl⟩ := hw
  rw [List.append_nil]
  exact .mk hchunks hlast htr

theorem reading_trailer (hw : ChunkedBody false w p) (htr : TrailerSection tr)
    (r : List UInt8) :
    (reading (zeroed 1) (w ++ tr ++ r)).ending = .done ∧
      (reading (zeroed 1) (w ++ tr ++ r)).rest = r ∧
      (reading (zeroed 1) (w ++ tr ++ r)).out = p :=
  reading_done_iff.mpr ⟨w ++ tr, rfl, chunkedBody_append hw htr⟩

/-- What begins a trailer section, but does not end it, does not end the body. -/
theorem ending_of_trailer (hw : ChunkedBody false w p) (htr : TrailerSection (T ++ ext))
    (hext : ext ≠ []) : (reading (zeroed 1) (w ++ T)).ending = .more := by
  obtain ⟨-, hrest, -⟩ := reading_trailer hw htr []
  rw [List.append_nil, ← List.append_assoc] at hrest
  by_contra hended
  rw [reading_append_ended hended] at hrest
  exact hext (List.append_eq_nil_iff.mp hrest).2

/-- The body has been decoded when its trailer section begins. -/
theorem out_body (hw : ChunkedBody false w p) : (reading (zeroed 1) w).out = p := by
  have htr : TrailerSection [LF] := trailerSection_lf.mpr rfl
  have hmore : (reading (zeroed 1) w).ending = .more := by
    have h := ending_of_trailer (T := []) hw htr (List.cons_ne_nil LF [])
    rwa [List.append_nil] at h
  obtain ⟨hdone, -, hout⟩ := reading_trailer hw htr []
  rw [List.append_nil, reading_append_more hmore] at hdone hout
  have hnil : (reading (after (zeroed 1) w) [LF]).out = [] := out_of_done hdone
  rwa [Run.prepend_out, hnil, List.append_nil] at hout

/-- In front of the end of a trailer section nothing else is decoded. -/
theorem out_of_trailer (hw : ChunkedBody false w p) (htr : TrailerSection (T ++ ext)) :
    (reading (zeroed 1) (w ++ T)).out = p := by
  obtain ⟨-, -, hout⟩ := reading_trailer hw htr []
  rw [List.append_nil, ← List.append_assoc] at hout
  have hfirst : p <+: (reading (zeroed 1) (w ++ T)).out := by
    rw [← out_body hw]
    exact out_prefix _ w T
  have hlast : (reading (zeroed 1) (w ++ T)).out <+: p := by
    rw [← hout]
    exact out_prefix _ (w ++ T) ext
  exact hlast.eq_of_length_le hfirst.length_le

end

/-! ### The two ways -/

/-- The bytes behind the body, which the call has moved behind the payload. -/
def Call.leftover (c : Call) : List UInt8 :=
  match c.answer with
  | .ok l => (c.buf.drop c.decodedLen).take l
  | .error _ => []

section

variable {d : PhrChunkedDecoder} {B : List UInt8} {c : Call}

theorem leftover_of_done (h : Valid d) (hc : call d B = some c)
    (hdone : (reading d B).ending = .done) :
    c.answer = .ok (reading d B).rest.length ∧ c.leftover = (reading d B).rest := by
  have hanswer := answer_eq_ok.mpr ⟨hdone, rfl⟩
  rw [call_eq h] at hc
  obtain rfl := Option.some.inj hc
  refine ⟨hanswer, ?_⟩
  simp only [Call.leftover, hanswer, settled, List.append_assoc, List.drop_left, List.take_left]

end

section

variable {S : Type} [HeaderSink S] {sink : S} {w T p : List UInt8} {st : S × ℕ}

/-- The body ends where the header block does. -/
theorem reading_of_headers {m : ℕ} (hw : ChunkedBody false w p)
    (hT : parseHeaders T 0 (sink, 0) = .ok m st) :
    (reading (zeroed 1) (w ++ T)).ending = .done ∧ (reading (zeroed 1) (w ++ T)).rest = T.drop m ∧
      (reading (zeroed 1) (w ++ T)).out = p := by
  rw [Head.Port.parseHeaders_eq, Head.run_eq_ok] at hT
  obtain ⟨l, hread, -⟩ := hT
  obtain ⟨v, r, htakes, rfl⟩ := Reader.exists_takes (Head.reads_headers _) (Nat.zero_le _) hread
  have hrest : T.drop (0 + v.length) = r := htakes.drop
  obtain ⟨hsplit, block, rfl, -⟩ := (Head.takes_headers (Nat.zero_le _)).mp htakes
  rw [hrest, show T = block.bytes ++ r from hsplit, ← List.append_assoc]
  exact reading_trailer hw (trailerSection_of_block block) r

/-- The body has not ended where a header block has not. -/
theorem reading_of_headers_more (hw : ChunkedBody false w p)
    (hT : parseHeaders T 0 (sink, 0) = .error (.err .Partial) st) :
    (reading (zeroed 1) (w ++ T)).ending = .more ∧ (reading (zeroed 1) (w ++ T)).out = p := by
  rw [Head.Port.parseHeaders_eq, Head.run_eq_more] at hT
  obtain ⟨l, hread, -⟩ := hT
  obtain ⟨ext, block, hext, hroom⟩ := Head.waits_headers (Nat.zero_le _) ⟨l, hread⟩
  have hblock : T ++ ext = block.bytes := hext
  have hne : ext ≠ [] := by
    rintro rfl
    rw [List.append_nil] at hblock
    exact Head.not_accepted_before (Nat.zero_le _) (.inl hread) T List.prefix_rfl
      ⟨block, hblock.symm, hroom⟩
  have htr : TrailerSection (T ++ ext) := hblock ▸ trailerSection_of_block block
  exact ⟨ending_of_trailer hw htr hne, out_of_trailer hw htr⟩

end

/-- Where a decoder that leaves the trailer section to its caller has decoded a
body, one that consumes it decodes the same body. It stops where
`parse_headers` stops, and waits where that waits. -/
theorem trailers_agree {S : Type} [HeaderSink S] (B : List UInt8) (sink : S) {c : Call} {l : ℕ}
    (hc : call (zeroed 0) B = some c) (hanswer : c.answer = .ok l) :
    c.leftover.length = l ∧
      ∃ c', call (zeroed 1) B = some c' ∧
        (∀ m st, parseHeaders c.leftover 0 (sink, 0) = .ok m st →
          c'.answer = .ok (l - m) ∧ c'.decoded = c.decoded ∧ c'.leftover = c.leftover.drop m) ∧
        (∀ st, parseHeaders c.leftover 0 (sink, 0) = .error (.err .Partial) st →
          c'.exit = some .Partial ∧ c'.decoded = c.decoded) := by
  have hvalid (t : Int8) : Valid (zeroed t) := valid_code .size
  have r := reads_of_call (hvalid 0) hc
  obtain ⟨hdone, rfl⟩ := answer_eq_ok.mp (r.answer.symm.trans hanswer)
  obtain ⟨-, hleftover⟩ := leftover_of_done (hvalid 0) hc hdone
  obtain ⟨w, hB, hbody⟩ := reading_done_iff.mp ⟨hdone, rfl, rfl⟩
  rw [← r.decoded] at hbody
  rw [← hleftover] at hB ⊢
  obtain ⟨c', hc'⟩ : ∃ c', call (zeroed 1) B = some c' := ⟨_, call_eq (hvalid 1) B⟩
  have r' := reads_of_call (hvalid 1) hc'
  refine ⟨rfl, c', hc', fun m st hm => ?_, fun st hm => ?_⟩
  · obtain ⟨hdone', hrest', hout'⟩ := reading_of_headers hbody hm
    rw [← hB] at hdone' hrest' hout'
    obtain ⟨hanswer', hleftover'⟩ := leftover_of_done (hvalid 1) hc' hdone'
    rw [hanswer', hleftover', r'.decoded, hrest', hout', List.length_drop]
    exact ⟨rfl, rfl, rfl⟩
  · obtain ⟨hmore', hout'⟩ := reading_of_headers_more hbody hm
    rw [← hB] at hmore' hout'
    rw [r'.exit, r'.decoded, hmore', hout']
    exact ⟨rfl, rfl⟩

/-- The last chunk, and a trailer section with the next message behind it or
without its blank line. -/
theorem trailers_agree_pipelined :
    (∃ c', call (zeroed 1) [48, 13, 10, 65, 58, 49, 13, 10, 13, 10, 71] = some c' ∧
      c'.answer = .ok 1 ∧ c'.leftover = [71]) ∧
    ∃ c', call (zeroed 1) [48, 13, 10, 65, 58, 49, 13, 10] = some c' ∧
      c'.exit = some .Partial := by
  let sink : Head.LogSink := { capacity := 1 }
  let line : List Head.HeaderEvent := [.name 0 (some (0, 1)), .value 0 (2, 1)]
  let c₁ : Call := ⟨none, 3, 0, .ok 8, 0, ⟨0, 0, 0, 2, 11, 0⟩,
    [65, 58, 49, 13, 10, 13, 10, 71, 13, 10, 71]⟩
  let c₂ : Call := ⟨none, 3, 0, .ok 5, 0, ⟨0, 0, 0, 2, 8, 0⟩, [65, 58, 49, 13, 10, 49, 13, 10]⟩
  have hdone : ∃ st, parseHeaders c₁.leftover 0 (sink, 0) = .ok 7 st :=
    ⟨_, (Head.Port.parseHeaders_eq _ _ _).trans
      (Head.run_eq_ok.mpr ⟨line, by decide +kernel, rfl⟩)⟩
  have hmore : ∃ st, parseHeaders c₂.leftover 0 (sink, 0) = .error (.err .Partial) st :=
    ⟨_, (Head.Port.parseHeaders_eq _ _ _).trans
      (Head.run_eq_more.mpr ⟨line, by decide +kernel, rfl⟩)⟩
  have hc₁ : call (zeroed 0) [48, 13, 10, 65, 58, 49, 13, 10, 13, 10, 71] = some c₁ := by
    decide +kernel
  have hc₂ : call (zeroed 0) [48, 13, 10, 65, 58, 49, 13, 10] = some c₂ := by decide +kernel
  obtain ⟨-, c', hc', hagree, -⟩ := trailers_agree _ sink hc₁ rfl
  obtain ⟨-, c'', hc'', -, hwaits⟩ := trailers_agree _ sink hc₂ rfl
  obtain ⟨st, hst⟩ := hdone
  obtain ⟨st', hst'⟩ := hmore
  obtain ⟨hanswer, -, hleftover⟩ := hagree 7 st hst
  exact ⟨⟨c', hc', hanswer, hleftover⟩, c'', hc'', (hwaits st' hst').1⟩

end PicoHttpParser.Chunk
