import Mathlib.Data.Nat.Digits.Lemmas
import PicoHttpParser.Chunk.Feed

/-!
Writing the chunked coding.

What is written is in the grammar, and the machine reads it back piece by
piece. The overhead rule looks at the framing of all the chunks so far, so a
writer is safe from it, wherever the stream is cut, when every chunk pays for
its own framing.
-/

namespace PicoHttpParser.Chunk

open Incremental

/-! ### Sizes -/

/-- A digit of `%zx`. -/
def hexChar (v : ℕ) : UInt8 := if v < 10 then UInt8.ofNat (0x30 + v) else UInt8.ofNat (0x57 + v)

/-- `%zx` -/
def sizeDigits (n : ℕ) : List UInt8 :=
  if n = 0 then [hexChar 0] else (Nat.digits 16 n).reverse.map hexChar

section

variable {n : ℕ}

theorem hexDigit_hexChar : ∀ v < 16, hexDigit (hexChar v) = some v := by decide

theorem foldl_hexChar {ds : List ℕ} (h : ∀ d ∈ ds, d < 16) :
    numeral 0 (ds.reverse.map hexChar) = Nat.ofDigits 16 ds := by
  rw [numeral, List.map_reverse, List.foldl_reverse, List.foldr_map]
  induction ds with
  | nil => rfl
  | cons d ds ih =>
      obtain ⟨hd, hds⟩ := List.forall_mem_cons.mp h
      rw [List.foldr_cons, ih hds, hexDigit_hexChar d hd, Option.getD_some, Nat.ofDigits_cons,
        Nat.add_comm]

theorem sizeValue_sizeDigits (n : ℕ) : sizeValue (sizeDigits n) = n := by
  unfold sizeDigits
  split
  · rename_i h
    rw [h]
    decide
  · rw [sizeValue, foldl_hexChar fun d hd => Nat.digits_lt_base (by decide) hd, Nat.ofDigits_digits]

theorem length_sizeDigits_le {k : ℕ} (hk : 1 ≤ k) (h : n < 16 ^ k) :
    (sizeDigits n).length ≤ k := by
  unfold sizeDigits
  split
  · exact hk
  · rw [List.length_map, List.length_reverse]
    exact (Nat.digits_length_le_iff (by decide) n).mpr h

theorem isSize_sizeDigits (h : n < 2 ^ 64) : IsSize (sizeDigits n) := by
  refine ⟨?_, ?_, length_sizeDigits_le (by decide) h⟩
  · unfold sizeDigits
    split
    · exact List.forall_mem_singleton.mpr rfl
    · intro b hb
      obtain ⟨d, hd, rfl⟩ := List.mem_map.mp hb
      rw [hexDigit_hexChar d (Nat.digits_lt_base (by decide) (List.mem_reverse.mp hd))]
      rfl
  · unfold sizeDigits
    split
    · exact le_rfl
    · rename_i hne
      rw [List.length_map, List.length_reverse, Nat.one_le_iff_ne_zero, Ne,
        List.length_eq_zero_iff, Nat.digits_eq_nil_iff_eq_zero]
      exact hne

end

/-! ### Chunks -/

/-- The line in front of the data of a chunk. -/
def chunkHead (n : ℕ) (ext : List UInt8) : List UInt8 := sizeDigits n ++ ext ++ [CR, LF]

/-- What a chunk is written for. -/
structure Piece where
  data : List UInt8
  ext : List UInt8
  ne : data ≠ []
  lt : data.length < 2 ^ 64
  isExt : IsExtension ext

def Piece.bytes (c : Piece) : List UInt8 :=
  chunkHead c.data.length c.ext ++ c.data ++ [CR, LF]

/-- The bytes of a chunk that are not its data. -/
def Piece.framing (c : Piece) : ℕ := (chunkHead c.data.length c.ext).length + 2

/-- The chunks of a body. -/
def front (pieces : List Piece) : List UInt8 := (pieces.map Piece.bytes).flatten

/-- The data of the chunks. -/
def dataOf (pieces : List Piece) : List UInt8 := (pieces.map Piece.data).flatten

section

variable {pieces : List Piece} {c : Piece}

theorem front_cons : front (c :: pieces) = c.bytes ++ front pieces := rfl

theorem front_concat : front (pieces ++ [c]) = front pieces ++ c.bytes := by
  rw [front, List.map_append, List.flatten_append]
  exact congrArg _ (List.append_nil _)

theorem dataOf_cons : dataOf (c :: pieces) = c.data ++ dataOf pieces := rfl

theorem Piece.length_bytes (c : Piece) : c.bytes.length = c.framing + c.data.length := by
  rw [Piece.bytes, Piece.framing, List.length_append, List.length_append]
  exact Nat.add_right_comm _ _ _

theorem length_front (pieces : List Piece) :
    (front pieces).length = (pieces.map Piece.framing).sum + (dataOf pieces).length := by
  induction pieces with
  | nil => rfl
  | cons c pieces ih =>
      rw [front_cons, dataOf_cons, List.length_append, List.length_append, ih, c.length_bytes,
        List.map_cons, List.sum_cons]
      omega

end

/-! ### The machine reads it back -/

section

variable {trailer : Bool} {left : UInt64} {hex : Int8} {n k : ℕ} {ds e rest : List UInt8}

theorem run_digits (hdigits : ∀ b ∈ ds, (hexDigit b).isSome) (hk : k + ds.length ≤ 16)
    (hleft : left.toNat < 16 ^ k) (rest : List UInt8) :
    run (step trailer) ⟨.size, left, Int8.ofNat k⟩ (ds ++ rest) =
      run (step trailer) ⟨.size, UInt64.ofNat (numeral left.toNat ds), Int8.ofNat (k + ds.length)⟩
        rest := by
  induction ds generalizing left k with
  | nil =>
      rw [numeral, List.foldl_nil, UInt64.ofNat_toNat]
      rfl
  | cons b ds ih =>
      obtain ⟨hb, hds⟩ := List.forall_mem_cons.mp hdigits
      obtain ⟨v, hv⟩ := Option.isSome_iff_exists.mp hb
      rw [List.length_cons] at hk
      have hlt : k < 16 := by omega
      obtain ⟨hvalue, hbound⟩ := toNat_digit hlt hleft (hexDigit_lt hv)
      have hstep : step trailer ⟨.size, left, Int8.ofNat k⟩ b =
          .go ⟨.size, left * 16 + UInt64.ofNat v, Int8.ofNat (k + 1)⟩ [] := by
        rw [← ofNat_succ k hlt]
        simp only [step, hv]
        exact if_neg fun h => hlt.ne ((ofNat_count k hlt.le).2.2.mp h)
      rw [List.cons_append, run_cons_go hstep, ih hds (by omega) (by rwa [hvalue]), hvalue]
      have hnumeral : numeral left.toNat (b :: ds) = numeral (16 * left.toNat + v) ds := by
        rw [numeral, List.foldl_cons, hv]
        rfl
      rw [hnumeral, List.length_cons, Nat.add_assoc, Nat.add_comm 1]
      rfl

theorem run_ext (he : ∀ x ∈ e, x ≠ CR ∧ x ≠ LF) (rest : List UInt8) :
    run (step trailer) ⟨.ext, left, hex⟩ (e ++ CR :: rest) =
      run (step trailer) ⟨.expectLf, left, hex⟩ rest := by
  induction e with
  | nil =>
      have hstep : step trailer ⟨.ext, left, hex⟩ CR = .go ⟨.expectLf, left, hex⟩ [] := rfl
      exact run_cons_go hstep rest
  | cons x e ih =>
      obtain ⟨⟨hcr, hlf⟩, he⟩ := List.forall_mem_cons.mp he
      have hstep : step trailer ⟨.ext, left, hex⟩ x = .go ⟨.ext, left, hex⟩ [] := by
        simp only [step, stepExt, if_neg hcr, if_neg hlf]
      rw [List.cons_append, run_cons_go hstep]
      exact ih he

/-- The line of a size. -/
theorem run_chunkHead (hn : n < 2 ^ 64) (he : IsExtension e) (rest : List UInt8) :
    run (step trailer) ⟨.size, 0, 0⟩ (chunkHead n e ++ rest) =
      run (step trailer) ⟨.expectLf, UInt64.ofNat n, 0⟩ (LF :: rest) := by
  obtain ⟨hdigits, hpos, hle⟩ := isSize_sizeDigits hn
  have hrun := @run_digits trailer 0 0 _ hdigits ((Nat.zero_add _).trans_le hle) Nat.one_pos
    (e ++ CR :: LF :: rest)
  rw [Nat.zero_add] at hrun
  have hvalue : numeral (0 : UInt64).toNat (sizeDigits n) = n := sizeValue_sizeDigits n
  have hcount : Int8.ofNat (sizeDigits n).length ≠ 0 := fun h =>
    absurd ((ofNat_count _ hle).2.1.mp h) (Nat.one_le_iff_ne_zero.mp hpos)
  rw [hvalue] at hrun
  -- the byte that ends the size is read again as the first one of the extension
  obtain ⟨b, w, hb⟩ : ∃ b w, e ++ CR :: LF :: rest = b :: w := by
    cases e with
    | nil => exact ⟨_, _, rfl⟩
    | cons x e => exact ⟨_, _, rfl⟩
  have hends : EndsSize b := he.endsSize hb.symm
  have hstep : step trailer ⟨.size, UInt64.ofNat n, Int8.ofNat (sizeDigits n).length⟩ b =
      step trailer ⟨.ext, UInt64.ofNat n, 0⟩ b := by
    simp only [step, hexDigit_endsSize hends]
    exact if_neg (not_or.mpr ⟨hcount, not_not.mpr hends⟩)
  calc run (step trailer) ⟨.size, 0, 0⟩ (chunkHead n e ++ rest)
      = run (step trailer) ⟨.size, 0, 0⟩ (sizeDigits n ++ (e ++ CR :: LF :: rest)) := by
        simp [chunkHead]
    _ = run (step trailer) ⟨.size, UInt64.ofNat n, Int8.ofNat (sizeDigits n).length⟩ (b :: w) := by
        rw [← hb]
        exact hrun
    _ = run (step trailer) ⟨.ext, UInt64.ofNat n, 0⟩ (e ++ CR :: LF :: rest) := by
        rw [hb, run, run, hstep]
    _ = run (step trailer) ⟨.expectLf, UInt64.ofNat n, 0⟩ (LF :: rest) := run_ext he.ne _

variable {c : Piece}

/-- The line in front of the data. -/
theorem run_pieceHead (c : Piece) (rest : List UInt8) :
    run (step trailer) ⟨.size, 0, 0⟩ (chunkHead c.data.length c.ext ++ rest) =
      run (step trailer) ⟨.data, UInt64.ofNat c.data.length, 0⟩ rest := by
  have hne : UInt64.ofNat c.data.length ≠ 0 := by
    intro h
    have hzero : c.data.length = 0 := by
      rw [← Nat.mod_eq_of_lt c.lt, ← UInt64.toNat_ofNat', h]
      rfl
    exact c.ne (List.eq_nil_of_length_eq_zero hzero)
  have hstep : step trailer ⟨.expectLf, UInt64.ofNat c.data.length, 0⟩ LF =
      .go ⟨.data, UInt64.ofNat c.data.length, 0⟩ [] := by
    simp only [step, if_neg (not_not.mpr (Eq.refl LF)), if_pos hne]
  rw [run_chunkHead c.lt c.isExt, run_cons_go hstep]
  rfl

/-- The line in front of the data, and the data. -/
theorem run_pieceData (c : Piece) (rest : List UInt8) :
    run (step trailer) ⟨.size, 0, 0⟩ (chunkHead c.data.length c.ext ++ c.data ++ rest) =
      (run (step trailer) ⟨.dataCr, 0, 0⟩ rest).prepend c.data := by
  have hlen : c.data.length = (UInt64.ofNat c.data.length).toNat := by
    rw [UInt64.toNat_ofNat', Nat.mod_eq_of_lt c.lt]
  have hne : UInt64.ofNat c.data.length ≠ 0 := by
    intro h
    rw [h] at hlen
    exact c.ne (List.eq_nil_of_length_eq_zero hlen)
  rw [List.append_assoc, run_pieceHead]
  exact run_data_full rfl hne hlen rest

theorem run_piece (c : Piece) (rest : List UInt8) :
    run (step trailer) ⟨.size, 0, 0⟩ (c.bytes ++ rest) =
      (run (step trailer) ⟨.size, 0, 0⟩ rest).prepend c.data := by
  rw [Piece.bytes, List.append_assoc, run_pieceData]
  rfl

theorem run_front (pieces : List Piece) (rest : List UInt8) :
    run (step trailer) ⟨.size, 0, 0⟩ (front pieces ++ rest) =
      (run (step trailer) ⟨.size, 0, 0⟩ rest).prepend (dataOf pieces) := by
  induction pieces with
  | nil => rfl
  | cons c pieces ih =>
      rw [front_cons, List.append_assoc, run_piece, ih, Run.prepend_prepend]
      rfl

end

section

variable {t : Int8} {got got' : List UInt8}

theorem reading_front (pieces : List Piece) (rest : List UInt8) :
    reading (zeroed t) (front pieces ++ rest) =
      (reading (zeroed t) rest).prepend (dataOf pieces) :=
  run_front pieces rest

theorem payload_front_append (pieces : List Piece) {rest : List UInt8} (h : Within t rest) :
    Within t (front pieces ++ rest) ∧
      payload t (front pieces ++ rest) = dataOf pieces ++ payload t rest := by
  have hfront := reading_front (t := t) pieces rest
  constructor
  · rw [Within, hfront]
    exact h
  · rw [payload, hfront]
    rfl

/-- Whole chunks. -/
theorem payload_front (pieces : List Piece) :
    Within t (front pieces) ∧ payload t (front pieces) = dataOf pieces := by
  obtain ⟨hwithin, hpayload⟩ := payload_front_append pieces (within_nil (t := t))
  rw [List.append_nil] at hwithin hpayload
  exact ⟨hwithin, hpayload.trans (List.append_nil _)⟩

/-- The line in front of the data of a chunk. -/
theorem payload_pieceHead (c : Piece) :
    Within t (chunkHead c.data.length c.ext) ∧ payload t (chunkHead c.data.length c.ext) = [] := by
  have hrun : reading (zeroed t) (chunkHead c.data.length c.ext ++ []) = _ := run_pieceHead c []
  rw [List.append_nil] at hrun
  exact ⟨congrArg Run.ending hrun, congrArg Run.out hrun⟩

/-- The line and the data. -/
theorem payload_pieceData (c : Piece) :
    Within t (chunkHead c.data.length c.ext ++ c.data) ∧
      payload t (chunkHead c.data.length c.ext ++ c.data) = c.data := by
  have hrun : reading (zeroed t) (chunkHead c.data.length c.ext ++ c.data ++ []) = _ :=
    run_pieceData c []
  rw [List.append_nil] at hrun
  exact ⟨congrArg Run.ending hrun, (congrArg Run.out hrun).trans (List.append_nil _)⟩

/-! ### What framing costs -/

/-- The bytes of the stream so far that are not payload. -/
def overhead (t : Int8) (got : List UInt8) : ℕ := got.length - (payload t got).length

/-- The chunk pays for its framing. -/
structure Piece.Thrifty (c : Piece) : Prop where
  pays : c.framing + 1 ≤ 3 * c.data.length
  framing_le : c.framing ≤ 320

/-- A chunk without an extension pays for its framing from two bytes on. -/
theorem thrifty_of_plain {c : Piece} (hext : c.ext = []) (hlen : 2 ≤ c.data.length) :
    c.Thrifty := by
  have hframing : c.framing = (sizeDigits c.data.length).length + 4 := by
    rw [Piece.framing, chunkHead, hext, List.append_nil, List.length_append]
    rfl
  have hmax : (sizeDigits c.data.length).length ≤ 16 := (isSize_sizeDigits c.lt).le
  refine ⟨?_, by omega⟩
  rcases Nat.lt_or_ge c.data.length 16 with hlt | hge
  · have hone : (sizeDigits c.data.length).length ≤ 1 := length_sizeDigits_le le_rfl hlt
    omega
  · omega

end

end PicoHttpParser.Chunk
