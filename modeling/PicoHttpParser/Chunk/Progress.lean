import PicoHttpParser.Lib.Passes
import PicoHttpParser.Chunk.Invariant

/-!
A decoder with dirty fields.

The bytes left and the digit count of a decoder that its caller has filled in
need not go together. What a call on it still keeps is where it reads and
writes: behind what it has written, within the buffer, and with a digit count
that does not wrap. Hence no call panics, and a pass of the loop that does not
leave it has consumed a byte.
-/

namespace PicoHttpParser.Chunk

open Incremental Rust Rust.Chunked

/-- The locals of a call on a buffer of `n` bytes are in range. -/
structure InRange (n : ℕ) (l : Locals) : Prop where
  state : 0 ≤ l.st ∧ l.st ≤ 7
  count : 0 ≤ l.hex ∧ l.hex ≤ 16
  behind : l.dst ≤ l.src
  within : l.src ≤ l.buf.length
  length : l.buf.length = n

/-- The loop is left in range, and not by a panic. -/
def Orderly (n : ℕ) : Break → Prop
  | .out _ l => InRange n l
  | .panic _ => False

/-! ### The functions of a chain -/

section

variable {n : ℕ} {l : Locals}

/-- In front of the end there is a byte to be read. -/
theorem InRange.lt (hl : InRange n l) (hend : l.src ≠ l.buf.length) : l.src < l.buf.length :=
  Nat.lt_of_le_of_ne hl.within hend

theorem obeys_byte (hlt : l.src < l.buf.length) :
    Obeys (Orderly n) (fun _ => True) (byte l) := by
  unfold byte
  rw [List.getElem?_eq_getElem hlt]
  exact .pure trivial

/-- What has been read may be moved down, as far as the buffer goes. -/
theorem obeys_moveDown (hl : InRange n l) {k : ℕ} (hk : l.src + k ≤ l.buf.length) :
    Obeys (Orderly n) (fun buf => buf.length = l.buf.length) (moveDown l k) := by
  have hdst : l.dst + k ≤ l.buf.length := (Nat.add_le_add_right hl.behind k).trans hk
  have hruns : Obeys (Orderly n) (fun _ => True) (moveDown l k) := by
    unfold moveDown
    split
    · exact .pure trivial
    · rw [if_pos ⟨hk, hdst⟩]
      exact .pure trivial
  exact ⟨fun buf hbuf => moveDown_length hbuf, hruns.error⟩

/-- A digit is counted. -/
theorem InRange.digit (hl : InRange n l) {v : UInt8} {l' : Locals} (h : Digit v l l') :
    InRange n l' := by
  obtain ⟨b, hb, -, hne, rfl⟩ := h
  exact ⟨hl.state, (count_succ hl.count hne).2, Nat.le_succ_of_le hl.behind,
    (List.getElem?_eq_some_iff.mp hb).1, hl.length⟩

theorem obeys_sizeLoop (hl : InRange n l) : Obeys (Orderly n) (InRange n) (sizeLoop l) := by
  fun_induction sizeLoop l with
  | case1 l => exact .throw hl
  | case2 l hend hnone =>
      exact absurd (hl.lt hend) (Nat.not_lt.mpr (List.getElem?_eq_none_iff.mp hnone))
  | case3 l => exact .throw hl
  | case4 l => exact .pure hl
  | case5 l => exact .throw hl
  | case6 l => exact .throw hl
  | case7 l hend b hb v hv hne ih => exact ih (hl.digit ⟨b, hb, hv, hne, rfl⟩)

/-- A scan stops in front of a byte that is there. -/
theorem obeys_scanLoop (f : UInt8 → Reader.Act) (hl : InRange n l) :
    Obeys (Orderly n) (fun l' => InRange n l' ∧ l'.src < l'.buf.length) (scanLoop f l) := by
  fun_induction scanLoop f l with
  | case1 l => exact .throw hl
  | case2 l hend hnone =>
      exact absurd (hl.lt hend) (Nat.not_lt.mpr (List.getElem?_eq_none_iff.mp hnone))
  | case3 l hend => exact .pure ⟨hl, hl.lt hend⟩
  | case4 l => exact .throw hl
  | case5 l hend b hb hskip ih =>
      exact ih ⟨hl.state, hl.count, Nat.le_succ_of_le hl.behind, hl.lt hend, hl.length⟩

/-- A byte has been consumed, and the state is another. -/
theorem InRange.consumed (hl : InRange n l) (hlt : l.src < l.buf.length) {st : Int8}
    (hst : 0 ≤ st ∧ st ≤ 7) : InRange n { l with src := l.src + 1, st := st } :=
  ⟨hst, hl.count, Nat.le_succ_of_le hl.behind, hlt, hl.length⟩

theorem obeys_expect (ch : UInt8) (hl : InRange n l) :
    Obeys (Orderly n) (InRange n) (expect ch l) := by
  unfold expect
  split
  · exact .throw hl
  · rename_i hend
    refine .bind (obeys_byte (hl.lt hend)) fun b _ => ?_
    split
    · exact .throw hl
    · exact .pure (hl.consumed (hl.lt hend) hl.state)

theorem InRange.to (hl : InRange n l) {st : Int8} (hst : 0 ≤ st ∧ st ≤ 7) :
    InRange n { l with st := st } :=
  ⟨hst, hl.count, hl.behind, hl.within, hl.length⟩

theorem obeys_size (hl : InRange n l) : Obeys (Orderly n) (InRange n) (size l) := by
  unfold size
  split
  · apply Obeys.bind (obeys_sizeLoop hl)
    intro l' hl'
    have hst : 0 ≤ stExt ∧ stExt ≤ 7 := by decide
    have hhex : (0 : Int8) ≤ 0 ∧ (0 : Int8) ≤ 16 := by decide
    exact .pure ⟨hst, hhex, hl'.behind, hl'.within, hl'.length⟩
  · exact .pure hl

theorem obeys_ext (hl : InRange n l) : Obeys (Orderly n) (InRange n) (ext l) := by
  unfold ext
  split
  · apply Obeys.bind (obeys_scanLoop _ hl)
    rintro l' ⟨hl', hlt⟩
    exact .pure (hl'.consumed hlt (by decide))
  · exact .pure hl

theorem obeys_chainA (t : Int8) (hl : InRange n l) :
    Obeys (Orderly n) (InRange n) (chainA t l) := by
  unfold chainA
  apply Obeys.bind (obeys_size hl)
  intro l₁ hl₁
  apply Obeys.bind (obeys_ext hl₁)
  intro l₂ hl₂
  apply Obeys.bind (obeys_expect LF hl₂)
  intro l₃ hl₃
  split
  · split
    · exact .pure (hl₃.to (by decide))
    · exact .throw hl₃
  · exact .pure (hl₃.to (by decide))

/-- A part of the chunk has been consumed and moved down. -/
theorem InRange.moved (hl : InRange n l) {k : ℕ} (hk : l.src + k ≤ l.buf.length) {st : Int8}
    (hst : 0 ≤ st ∧ st ≤ 7) (left : UInt64) {buf : List UInt8}
    (hbuf : buf.length = l.buf.length) : InRange n ⟨st, left, l.hex, l.src + k, l.dst + k, buf⟩ :=
  ⟨hst, hl.count, Nat.add_le_add_right hl.behind k, hk.trans hbuf.ge, hbuf.trans hl.length⟩

theorem obeys_data (hl : InRange n l) : Obeys (Orderly n) (InRange n) (data l) := by
  have havail : l.src + (l.buf.length - l.src) = l.buf.length := Nat.add_sub_of_le hl.within
  unfold data
  split
  · dsimp only
    split
    · exact .bind (obeys_moveDown hl havail.le) fun buf hbuf =>
        .throw (hl.moved havail.le hl.state _ hbuf)
    · rename_i hfull
      have hsrc : l.src + l.left.toNat ≤ l.buf.length := by omega
      exact .bind (obeys_moveDown hl hsrc) fun buf hbuf =>
        .pure (hl.moved hsrc (by decide) 0 hbuf)
  · exact .pure hl

theorem obeys_dataCr (hl : InRange n l) : Obeys (Orderly n) (InRange n) (dataCr l) := by
  unfold dataCr
  split
  · exact .bind (obeys_expect CR hl) fun l' hl' => .pure (hl'.to (by decide))
  · exact .pure hl

theorem obeys_chainB (hl : InRange n l) : Obeys (Orderly n) (InRange n) (chainB l) := by
  unfold chainB
  apply Obeys.bind (obeys_data hl)
  intro l₁ hl₁
  apply Obeys.bind (obeys_dataCr hl₁)
  intro l₂ hl₂
  exact .bind (obeys_expect LF hl₂) fun l₃ hl₃ => .pure (hl₃.to (by decide))

theorem obeys_trailHead (hl : InRange n l) : Obeys (Orderly n) (InRange n) (trailHead l) := by
  unfold trailHead
  split
  · apply Obeys.bind (obeys_scanLoop _ hl)
    rintro l' ⟨hl', hlt⟩
    refine .bind (obeys_byte hlt) fun b _ => ?_
    dsimp only
    split
    · exact .throw (hl'.consumed hlt hl'.state)
    · exact .pure (hl'.consumed hlt (by decide))
  · exact .pure hl

theorem obeys_trailMid (hl : InRange n l) : Obeys (Orderly n) (InRange n) (trailMid l) := by
  unfold trailMid
  split
  · apply Obeys.bind (obeys_scanLoop _ hl)
    rintro l' ⟨hl', hlt⟩
    exact .pure (hl'.consumed hlt (by decide))
  · exact .pure hl

theorem obeys_chain (t : Int8) (hl : InRange n l) :
    Obeys (Orderly n) (InRange n) (chain t l) := by
  unfold chain
  split
  · exact obeys_chainA t hl
  split
  · exact obeys_chainB hl
  split
  · exact .bind (obeys_trailHead hl) fun l' hl' => obeys_trailMid hl'
  · rename_i hsize hdata htrail
    -- there is a chain for every state
    rcases state_cases hl.state with h | h | h
    · exact absurd h hsize
    · exact absurd h hdata
    · exact absurd h htrail

end

/-! ### The loop -/

section

variable {n : ℕ} {t : Int8} {l : Locals} {b : Break}

/-- A pass that does not leave the loop has consumed a byte. -/
theorem obeys_pass (t : Int8) (hl : InRange n l) :
    Obeys (Orderly n) (fun l' => InRange n l' ∧ n - l'.src < n - l.src) (chain t l) := by
  refine (obeys_chain t hl).and_ok fun l' hpass => ?_
  obtain ⟨hlt, hle, hbuf⟩ := chain_bounds hpass
  have hlen := hl.length
  omega

/-- The loop that is cut off is the loop. -/
theorem decodeFrom_of_endsWithin {k : ℕ} (h : endsWithin (chain t) k l = some b) :
    decodeFrom t l = b := by
  induction k generalizing l with
  | zero => cases h
  | succ k ih =>
      rw [endsWithin] at h
      rw [decodeFrom]
      cases hpass : chain t l with
      | error b' =>
          rw [hpass] at h
          exact Option.some.inj h
      | ok l' =>
          rw [hpass] at h
          exact ih h

end

/-! ### Whole calls -/

section

variable {d : PhrChunkedDecoder} {B : List UInt8} {l : Locals}

theorem inRange_enter (hst : 0 ≤ d.state ∧ d.state ≤ 7) (hhex : 0 ≤ d.hexCount ∧ d.hexCount ≤ 16) :
    InRange B.length (enter (countRead d B.length) B) :=
  ⟨hst, hhex, le_rfl, Nat.zero_le _, rfl⟩

theorem inRange_heads (hst : 0 ≤ d.state ∧ d.state ≤ 7) (hhex : 0 ≤ d.hexCount ∧ d.hexCount ≤ 16)
    (h : Heads d B l) : InRange B.length l :=
  Obeys.reaches (fun _ hl => obeys_chain d.consumeTrailer hl) (inRange_enter hst hhex) h

end

/-- A call on a decoder whose state and digit count are in range returns,
whatever its other fields are. Its loop makes one pass a byte at most, and one
more; it reads, moves and counts in range, and there is a chain for every
state it is in. -/
theorem decode_chunked_returns {d : PhrChunkedDecoder} (hst : 0 ≤ d.state ∧ d.state ≤ 7)
    (hhex : 0 ≤ d.hexCount ∧ d.hexCount ≤ 16) (B : List UInt8) :
    (∃ r st, decodeChunked (d, B) = .ok r st) ∧
      (∃ e l, endsWithin (chain d.consumeTrailer) (B.length + 1)
          (enter (countRead d B.length) B) = some (.out e l) ∧
        decodeFrom d.consumeTrailer (enter (countRead d B.length) B) = .out e l ∧
        InRange B.length l) ∧
      (∀ l, Heads d B l → InRange B.length l ∧
        ((l.st = stSize ∨ l.st = stExt ∨ l.st = stExpectLf) ∨
          (l.st = stData ∨ l.st = stDataCr ∨ l.st = stDataLf) ∨
          l.st = stTrailHead ∨ l.st = stTrailMid) ∧
        (∀ l', chain d.consumeTrailer l ≠ .error (.panic l')) ∧
        (∀ l', chain d.consumeTrailer l = .ok l' → l.src < l'.src) ∧
        (l.st = stData → B.length - l.src < l.left.toNat →
          (l.left - UInt64.ofNat (B.length - l.src)).toNat =
            l.left.toNat - (B.length - l.src))) ∧
      ∀ l v, Accumulates d B l v →
        InRange B.length l ∧ (l.hex + 1).toInt = l.hex.toInt + 1 ∧ l.hex + 1 ≤ 16 := by
  have hstart : InRange B.length (enter (countRead d B.length) B) := inRange_enter hst hhex
  obtain ⟨b, hb, hleft⟩ := Obeys.exists_endsWithin (fun _ hl => obeys_pass d.consumeTrailer hl)
    hstart (Nat.lt_succ_self _)
  have hloop := decodeFrom_of_endsWithin hb
  refine ⟨⟨_, _, Port.decodeChunked_eq hst B⟩, ?_, ?_, ?_⟩
  · match b, hleft with
    | .out e l, hl => exact ⟨e, l, hb, hloop, hl⟩
  · intro l hl
    have hrange := inRange_heads hst hhex hl
    refine ⟨hrange, state_cases hrange.state, ?_, ?_, ?_⟩
    · intro l' hpanic
      exact (obeys_chain d.consumeTrailer hrange).error _ hpanic
    · intro l' hpass
      exact (chain_bounds hpass).1
    · intro _ hshort
      exact toNat_sub_ofNat hshort
  · rintro l v ⟨l₁, l₂, hhead, -, hdigits, b, -, -, hne, -⟩
    have hrange : InRange B.length l := by
      clear hne
      induction hdigits with
      | refl => exact inRange_heads hst hhex hhead
      | tail _ hdigit ih =>
          obtain ⟨v', hv'⟩ := hdigit
          exact ih.digit hv'
    obtain ⟨hint, -, hle⟩ := count_succ hrange.count hne
    exact ⟨hrange, hint, hle⟩

/-- A decoder with a count where none belongs, and in a chunk of no bytes. -/
theorem decode_chunked_returns_dirty :
    let d : PhrChunkedDecoder := ⟨0, 1, 5, 3, 0, 0⟩
    (∃ r st, decodeChunked (d, [13, 10, 50, 13]) = .ok r st) ∧
      ∃ e l, endsWithin (chain 1) 5 (enter (countRead d 4) [13, 10, 50, 13]) = some (.out e l) := by
  intro d
  obtain ⟨hreturns, ⟨e, l, hends, -⟩, -⟩ :=
    decode_chunked_returns (d := d) (by decide) (by decide) [13, 10, 50, 13]
  exact ⟨hreturns, e, l, hends⟩

end PicoHttpParser.Chunk
