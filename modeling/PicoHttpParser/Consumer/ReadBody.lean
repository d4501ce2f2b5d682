import PicoHttpParser.Chunk.Encode
import PicoHttpParser.Lib.Connection
import PicoHttpParser.Lib.Memory

/-!
The read loop for chunked bodies in `README.md`.

The example reads behind what it has decoded, and decodes in place, so that
only payload stays in the buffer and only payload makes it grow. However the
body is cut into reads, the buffer holds its data in the end, with the bytes
that follow the body behind them.
-/

namespace PicoHttpParser.Consumer

open Incremental Chunk

/-! ### The loop -/

/-- The size of the first allocation. -/
abbrev bodySize : ℕ := 4096

/-- The variables of the example. The contents of `buf` are in `mem`. -/
structure BodyLoop where
  decoder : PhrChunkedDecoder
  mem : ℕ → UInt8
  size : ℕ
  capacity : ℕ

/-- How the loop is left, other than by an I/O error. -/
inductive BodyEnd where
  | decoded (pret : ℤ) (s : BodyLoop)
  | parseError (s : BodyLoop)
  /-- `assert(pret >= 0)` fails. -/
  | assertion

/-- Expands the buffer if necessary. -/
def BodyLoop.grow (s : BodyLoop) : BodyLoop :=
  if s.size = s.capacity then { s with capacity := s.capacity * 2 } else s

/-- The loop behind its `read`. The buffer of a capacity is at `alloc` of it. -/
def bodyTurn (alloc : ℕ → ℕ) (a : Rust.DecodeArgs) (s : BodyLoop) (bs : List UInt8) :
    BodyLoop ⊕ BodyEnd :=
  let s := s.grow
  let mem := store s.mem s.size bs
  let r := Rust.phrDecodeChunked { a with buf := alloc s.capacity + s.size } s.decoder
    (load mem s.size bs.length)
  let s := { s with decoder := r.2.decoder, mem := store mem s.size r.2.buf }
  if r.1 = -1 then .inr (.parseError s)
  else
    let s := { s with size := s.size + r.2.bufsz }
    if r.1 = -2 then .inl s
    else if 0 ≤ r.1 then .inr (.decoded r.1 s)
    else .inr .assertion

/-- The loop when it is entered. `mem` is what `malloc` has returned. -/
def BodyLoop.start (consumeTrailer : Int8) (mem : ℕ → UInt8) : BodyLoop :=
  ⟨zeroed consumeTrailer, mem, 0, bodySize⟩

/-- The example, for either setting of `consume_trailer`. -/
def readBody (alloc : ℕ → ℕ) (a : Rust.DecodeArgs) (consumeTrailer : Int8) (mem : ℕ → UInt8)
    (segments : List (List UInt8)) : (BodyLoop ⊕ BodyEnd) × List (List UInt8) :=
  pull (fun s => s.grow.capacity - s.size) (bodyTurn alloc a) (.start consumeTrailer mem) segments

/-! ### What the loop keeps -/

/-- The buffer has room for the payload, and is at most twice as large. -/
structure BodyLoop.Roomy (s : BodyLoop) : Prop where
  min : bodySize ≤ s.capacity
  le : s.size ≤ s.capacity
  max : s.capacity = bodySize ∨ s.capacity ≤ 2 * s.size

/-- The buffer holds the payload of what has been received, and the decoder
is within the body. -/
structure BodyWaits (t : Int8) (got : List UInt8) (s : BodyLoop) : Prop where
  decoder : s.decoder = after (zeroed t) got
  within : Within t got
  out : load s.mem 0 s.size = payload t got
  roomy : s.Roomy

/-- The buffer holds the payload of a body, and in front of what it has not
been read into what follows the body. -/
structure BodyDecoded (t : Int8) (got : List UInt8) (pret : ℤ) (s : BodyLoop) : Prop where
  body : ∃ w p rest, ChunkedBody (t ≠ 0) w p ∧ got = w ++ rest ∧ pret = rest.length ∧
    load s.mem 0 s.size = p ∧ load s.mem s.size rest.length = rest
  roomy : s.Roomy

/-- What has been received when the loop is left. -/
def BodyEnds (t : Int8) (got : List UInt8) : BodyEnd → Prop
  | .decoded pret s => BodyDecoded t got pret s
  | .parseError s => ((∀ ext, NoBody t (got ++ ext)) ∨ Within t got ∧ Costly t got) ∧ s.Roomy
  | .assertion => False

/-- What the loop makes of the stream `S`. Where nothing can be read, the buffer
has been expanded already. -/
structure ReadsBody (t : Int8) (S : List UInt8) (r : (BodyLoop ⊕ BodyEnd) × List (List UInt8)) :
    Prop where
  decoded : ∀ pret s, r.1 = .inr (.decoded pret s) →
    (∃ w p rest, ChunkedBody (t ≠ 0) w p ∧ S = w ++ rest ++ r.2.flatten ∧ pret = rest.length ∧
      load s.mem 0 s.size = p ∧ load s.mem s.size rest.length = rest) ∧ s.Roomy
  decodes : ∀ w p, ChunkedBody (t ≠ 0) w p → w <+: S →
    (∀ got, got <+: w → got.length < w.length → ¬Costly t got) →
    ∃ pret s, r.1 = .inr (.decoded pret s)
  parseError : ∀ s, r.1 = .inr (.parseError s) →
    (∃ got, S = got ++ r.2.flatten ∧
      ((∀ ext, NoBody t (got ++ ext)) ∨ Within t got ∧ Costly t got)) ∧ s.Roomy
  ioError : ∀ s, r.1 = .inl s →
    r.2.flatten = [] ∧ NoBody t S ∧ load s.mem 0 s.size = payload t S ∧ s.Roomy ∧ s.grow.Roomy
  assertion : r.1 ≠ .inr .assertion

section

variable {t : Int8} {got bs : List UInt8} {s : BodyLoop}

theorem BodyLoop.grow_eq (s : BodyLoop) :
    s.grow.decoder = s.decoder ∧ s.grow.mem = s.mem ∧ s.grow.size = s.size := by
  unfold BodyLoop.grow
  split
  · exact ⟨rfl, rfl, rfl⟩
  · exact ⟨rfl, rfl, rfl⟩

/-- There is something to read into. -/
theorem BodyLoop.Roomy.grow (h : s.Roomy) : s.grow.Roomy ∧ s.size < s.grow.capacity := by
  obtain ⟨hmin, hle, hmax⟩ := h
  unfold BodyLoop.grow
  split
  · have hpos : 0 < bodySize := by decide
    refine ⟨⟨?_, ?_, .inr ?_⟩, ?_⟩
    all_goals dsimp only; omega
  · exact ⟨⟨hmin, hle, hmax⟩, by omega⟩

theorem BodyWaits.grow (h : BodyWaits t got s) : BodyWaits t got s.grow := by
  obtain ⟨hdecoder, hmem, hsize⟩ := s.grow_eq
  refine ⟨hdecoder.trans h.decoder, h.within, ?_, h.roomy.grow.1⟩
  rw [hmem, hsize]
  exact h.out

end

section

variable {alloc : ℕ → ℕ} {a : Rust.DecodeArgs} (hbuf : ∀ n, alloc n ≠ 0) (hdecoder : a.decoder ≠ 0)
  (hbufsz : a.bufsz ≠ 0)

include hbuf hdecoder hbufsz

theorem bodyTurn_rule {t : Int8} {got bs : List UInt8} {s : BodyLoop}
    (hlen : bs.length ≤ s.grow.capacity - s.size) (hs : BodyWaits t got s) :
    Sum.elim (BodyWaits t (got ++ bs)) (BodyEnds t (got ++ bs)) (bodyTurn alloc a s bs) := by
  have hgrow := hs.grow
  obtain ⟨-, -, hsize⟩ := s.grow_eq
  rw [← hsize] at hlen
  unfold bodyTurn
  dsimp only
  generalize s.grow = s at hgrow hlen
  obtain ⟨hd, hwithin, hout, hmin, hle, hmax⟩ := hgrow
  rw [hd, load_store]
  have hfed := @fed t got bs { a with buf := alloc s.capacity + s.size } ⟨hdecoder, hbufsz,
    .inl fun h0 => hbuf _ (Nat.eq_zero_of_add_eq_zero_right h0)⟩ hwithin
  generalize Rust.phrDecodeChunked _ _ bs = r at hfed ⊢
  cases hfed with
  | fail h =>
      rw [if_pos rfl]
      exact ⟨.inl h, hmin, hle, hmax⟩
  | costly hwithin h =>
      rw [if_pos rfl]
      exact ⟨.inr ⟨hwithin, h⟩, hmin, hle, hmax⟩
  | more hwithin hthrift hdecoder hmlen hmle hpayload =>
      dsimp only
      rw [if_neg (by decide), if_pos rfl]
      refine ⟨hdecoder, hwithin, ?_, hmin, ?_, ?_⟩
      · dsimp only
        rw [load_store_front (hmle.trans_eq hmlen.symm), load_store_of_le (Nat.zero_add _).le, hout]
        exact hpayload.symm
      · dsimp only
        omega
      · dsimp only
        omega
  | done hw hgot hmlen hmle hpayload hrest =>
      rename_i m w p rest
      rw [if_neg (by omega), if_neg (by omega), if_pos (Int.natCast_nonneg _)]
      refine ⟨⟨w, p, rest, hw, hgot, rfl, ?_, ?_⟩, hmin, ?_, ?_⟩
      · dsimp only
        rw [load_store_front (by omega), load_store_of_le (Nat.zero_add _).le, hout]
        exact hpayload.symm
      · dsimp only
        rw [load_store_part (by omega)]
        exact hrest
      · dsimp only
        omega
      · dsimp only
        omega

theorem readBody_rule (t : Int8) (mem : ℕ → UInt8) (segments : List (List UInt8)) :
    ∃ got, Pulled (fun s : BodyLoop => s.grow.capacity - s.size) segments.flatten (BodyWaits t)
      (BodyEnds t) got (readBody alloc a t mem segments) := by
  have hstart : BodyWaits t [] (.start t mem) :=
    ⟨rfl, within_nil, rfl, le_rfl, Nat.zero_le _, .inl rfl⟩
  obtain ⟨got, -, h⟩ := pull_rule (fun got s bs _ _ hlen hs =>
    bodyTurn_rule hbuf hdecoder hbufsz (s := s) hlen hs) rfl hstart
  exact ⟨got, h⟩

/-- What the example shows at its end. -/
theorem decoded_of_readBody {t : Int8} {mem : ℕ → UInt8} {segments : List (List UInt8)} {pret : ℤ}
    {s : BodyLoop} (hr : (readBody alloc a t mem segments).1 = .inr (.decoded pret s)) :
    (∃ w p rest, ChunkedBody (t ≠ 0) w p ∧
      segments.flatten = w ++ rest ++ (readBody alloc a t mem segments).2.flatten ∧
      pret = rest.length ∧ load s.mem 0 s.size = p ∧ load s.mem s.size rest.length = rest) ∧
      s.Roomy := by
  obtain ⟨got, hstream, hresult, -⟩ := readBody_rule hbuf hdecoder hbufsz t mem segments
  obtain ⟨⟨w, p, rest, hw, rfl, hp⟩, hroomy⟩ := hresult _ hr
  exact ⟨⟨w, p, rest, hw, hstream, hp⟩, hroomy⟩

/-- Without a result the stream has been read to its end. -/
theorem waits_of_readBody {t : Int8} {mem : ℕ → UInt8} {segments : List (List UInt8)}
    {s : BodyLoop} (hr : (readBody alloc a t mem segments).1 = .inl s) :
    (readBody alloc a t mem segments).2.flatten = [] ∧ BodyWaits t segments.flatten s := by
  obtain ⟨got, hstream, -, hclosed⟩ := readBody_rule hbuf hdecoder hbufsz t mem segments
  obtain ⟨hwaits, hwant | hleft⟩ := hclosed s hr
  · have hroom := hwaits.roomy.grow.2
    omega
  · rw [hleft, List.append_nil] at hstream
    exact ⟨hleft, hstream ▸ hwaits⟩

/-- The loop decodes a body that the overhead rule lets through. -/
theorem exists_decoded {t : Int8} (mem : ℕ → UInt8) {segments : List (List UInt8)}
    {w p : List UInt8} (hw : ChunkedBody (t ≠ 0) w p) (hfront : w <+: segments.flatten)
    (hthrift : ∀ got, got <+: w → got.length < w.length → ¬Costly t got) :
    ∃ pret s, (readBody alloc a t mem segments).1 = .inr (.decoded pret s) := by
  obtain ⟨got, hstream, hresult, -⟩ := readBody_rule hbuf hdecoder hbufsz t mem segments
  cases hr : (readBody alloc a t mem segments).1 with
  | inl s =>
      obtain ⟨-, hwaits⟩ := waits_of_readBody hbuf hdecoder hbufsz hr
      exact absurd hfront (hwaits.within.noBody w p hw)
  | inr e =>
      cases e with
      | decoded pret s => exact ⟨pret, s, rfl⟩
      | parseError s =>
          have hgot : got <+: segments.flatten := ⟨_, hstream.symm⟩
          exact absurd (hresult _ hr).1 (not_refused hw hfront hthrift hgot)
      | assertion => exact (hresult _ hr).elim

/-- Whatever `malloc` returns, the payload of a body in the chunked coding is
in the buffer when the loop ends, with the bytes behind the body behind it.
The loop ends so on every stream that begins with a body of which no part is
so costly that the overhead rule rejects it. It gives up only on what no
continuation makes a body, on such a part, or at the end of the stream, and
its buffer is at most twice as large as the payload. -/
theorem read_body (t : Int8) (mem : ℕ → UInt8) (segments : List (List UInt8)) :
    ReadsBody t segments.flatten (readBody alloc a t mem segments) where
  decoded _ _ hr := decoded_of_readBody hbuf hdecoder hbufsz hr
  decodes _ _ hw hfront hthrift := exists_decoded hbuf hdecoder hbufsz mem hw hfront hthrift
  parseError s hr := by
    obtain ⟨got, hstream, hresult, -⟩ := readBody_rule hbuf hdecoder hbufsz t mem segments
    obtain ⟨hrefused, hroomy⟩ := hresult _ hr
    exact ⟨⟨got, hstream, hrefused⟩, hroomy⟩
  ioError s hs := by
    obtain ⟨hleft, hwaits⟩ := waits_of_readBody hbuf hdecoder hbufsz hs
    exact ⟨hleft, hwaits.within.noBody, hwaits.out, hwaits.roomy, hwaits.roomy.grow.1⟩
  assertion hr := by
    obtain ⟨got, -, hresult, -⟩ := readBody_rule hbuf hdecoder hbufsz t mem segments
    exact hresult _ hr

end

/-- A body in two reads, cut in its chunk, with a byte of what follows it. -/
theorem read_body_two_reads :
    let segments : List (List UInt8) := [[51, 13, 10, 97, 98],
      [99, 13, 10, 48, 13, 10, 13, 10, 71]]
    ∃ pret s, (readBody (fun _ => 5000) ⟨1000, 2000, 3000⟩ 1 (fun _ => 7) segments).1 =
        .inr (.decoded pret s) ∧ load s.mem 0 s.size = [97, 98, 99] := by
  intro segments
  obtain ⟨hdecoded, hends, -, -, -⟩ := @read_body (fun _ => 5000) ⟨1000, 2000, 3000⟩
    (fun _ => by decide) (by decide) (by decide) 1 (fun _ => 7) segments
  obtain ⟨w, hsegments, hw⟩ : ∃ w, segments.flatten = w ++ [71] ∧
      ChunkedBody ((1 : Int8) ≠ 0) w [97, 98, 99] := reading_done_iff.mp (by decide +kernel)
  have hlen : w.length = 13 := by
    have h := congrArg List.length hsegments
    rw [List.length_append] at h
    exact Nat.succ.inj h.symm
  obtain ⟨pret, s, hr⟩ := hends w _ hw ⟨[71], hsegments.symm⟩ fun got hgot hne =>
    not_costly_of_short hw (hlen.trans_le (by decide)) hgot hne
  obtain ⟨⟨w', p', rest, hw', hsegments', -, hp, -⟩, -⟩ := hdecoded pret s hr
  rw [hsegments, List.append_assoc] at hsegments'
  obtain ⟨-, rfl, -⟩ := prefixFree_body hw hw' hsegments'
  exact ⟨pret, s, hr, hp⟩

/-! ### What a peer has written -/

section

variable {alloc : ℕ → ℕ} {a : Rust.DecodeArgs} (hbuf : ∀ n, alloc n ≠ 0) (hdecoder : a.decoder ≠ 0)
  (hbufsz : a.bufsz ≠ 0)

include hbuf hdecoder hbufsz

end

end PicoHttpParser.Consumer
