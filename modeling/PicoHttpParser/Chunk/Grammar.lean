import PicoHttpParser.Lib.Language
import PicoHttpParser.Chunk.Stream

/-!
The chunked grammar.

The words of the grammar, and that a decoder which has not been called yet
accepts them and no others. The proof says what the machine accepts from
each of its configurations, `Lang`, and differentiates that by a byte.
-/

namespace PicoHttpParser.Chunk

open Incremental

/-! ### The grammar -/

/-- The value of the digits `ds` behind a numeral of the value `n`. -/
def numeral (n : ℕ) (ds : List UInt8) : ℕ :=
  ds.foldl (fun n b => 16 * n + (hexDigit b).getD 0) n

/-- A size: 1 to 16 hexadecimal digits. -/
structure IsSize (s : List UInt8) : Prop where
  digits : ∀ b ∈ s, (hexDigit b).isSome
  pos : 1 ≤ s.length
  le : s.length ≤ 16

/-- The value of a size. -/
def sizeValue (s : List UInt8) : ℕ := numeral 0 s

/-- An extension of a chunk. -/
inductive IsExtension : List UInt8 → Prop
  | empty : IsExtension []
  | cons {b : UInt8} {e : List UInt8} (hb : b = SP ∨ b = HTAB ∨ b = 0x3b)
      (he : ∀ x ∈ e, x ≠ CR ∧ x ≠ LF) : IsExtension (b :: e)

/-- A chunk, and its data. -/
inductive DataChunk : List UInt8 → List UInt8 → Prop
  | mk {s e data : List UInt8} (hs : IsSize s) (he : IsExtension e)
      (hlen : data.length = sizeValue s) (hne : data ≠ []) :
      DataChunk (s ++ e ++ [CR, LF] ++ data ++ [CR, LF]) data

/-- The chunk of size zero. -/
inductive LastChunk : List UInt8 → Prop
  | mk {s e : List UInt8} (hs : IsSize s) (he : IsExtension e) (hzero : sizeValue s = 0) :
      LastChunk (s ++ e ++ [CR, LF])

/-- A line of a trailer section. -/
inductive TrailerLine : List UInt8 → Prop
  | mk (n : ℕ) {b : UInt8} {m : List UInt8} (hcr : b ≠ CR) (hlf : b ≠ LF)
      (hm : ∀ x ∈ m, x ≠ LF) : TrailerLine (List.replicate n CR ++ b :: m ++ [LF])

/-- A trailer section. -/
inductive TrailerSection : List UInt8 → Prop
  | mk {ls : List (List UInt8)} (hls : ∀ l ∈ ls, TrailerLine l) (n : ℕ) :
      TrailerSection (ls.flatten ++ List.replicate n CR ++ [LF])

/-- A body in the chunked coding, with a trailer section or without, and the
data of its chunks. -/
inductive ChunkedBody (trailer : Bool) : List UInt8 → List UInt8 → Prop
  | mk {chunks : List (List UInt8 × List UInt8)} {last tr : List UInt8}
      (hchunks : ∀ c ∈ chunks, DataChunk c.1 c.2) (hlast : LastChunk last)
      (htr : if trailer then TrailerSection tr else tr = []) :
      ChunkedBody trailer ((chunks.map Prod.fst).flatten ++ last ++ tr)
        (chunks.map Prod.snd).flatten

/-! ### What is accepted from a configuration -/

/-- The end of a body, behind its last chunk. -/
def Ends (trailer : Bool) (w out : List UInt8) : Prop :=
  (if trailer then TrailerSection w else w = []) ∧ out = []

/-- A body from `n` bytes of payload on. -/
def Payload (trailer : Bool) (n : ℕ) (w out : List UInt8) : Prop :=
  ∃ data u out', data.length = n ∧ w = data ++ CR :: LF :: u ∧ out = data ++ out' ∧
    ChunkedBody trailer u out'

/-- A body behind the line of a size. -/
def BehindSize (trailer : Bool) (n : ℕ) (w out : List UInt8) : Prop :=
  if n = 0 then Ends trailer w out else Payload trailer n w out

/-- A body from within a size on, of which there have been `k` digits, with
the value `n`. -/
def InSize (trailer : Bool) (k n : ℕ) (w out : List UInt8) : Prop :=
  ∃ ds e u, (∀ b ∈ ds, (hexDigit b).isSome) ∧ 1 ≤ k + ds.length ∧ k + ds.length ≤ 16 ∧
    IsExtension e ∧ w = ds ++ e ++ CR :: LF :: u ∧ BehindSize trailer (numeral n ds) u out

theorem inSize_of_isSize {trailer : Bool} {s e u out : List UInt8} (hs : IsSize s)
    (he : IsExtension e) (hrest : BehindSize trailer (sizeValue s) u out) :
    InSize trailer 0 0 (s ++ e ++ CR :: LF :: u) out :=
  ⟨s, e, u, hs.digits, hs.pos.trans_eq (Nat.zero_add _).symm, (Nat.zero_add _).trans_le hs.le, he,
    rfl, hrest⟩

/-- A body is a chunk and a body, or a last chunk. -/
theorem chunkedBody_iff {trailer : Bool} {w out : List UInt8} :
    ChunkedBody trailer w out ↔ InSize trailer 0 0 w out := by
  constructor
  · rintro ⟨hchunks, hlast, htr⟩
    rename_i chunks last tr
    -- the first line of a body is the one of a chunk or of the last chunk
    cases chunks with
    | nil =>
        obtain ⟨hs, he, hzero⟩ := hlast
        rename_i s e
        have hends : BehindSize trailer (sizeValue s) tr [] := by
          rw [BehindSize, if_pos hzero]
          exact ⟨htr, rfl⟩
        simpa using inSize_of_isSize hs he hends
    | cons c chunks =>
        obtain ⟨cw, cd⟩ := c
        have hchunk : DataChunk cw cd := hchunks (cw, cd) List.mem_cons_self
        obtain ⟨hs, he, hlen, hne⟩ := hchunk
        rename_i s e
        have hbody := ChunkedBody.mk (fun c hc => hchunks c (List.mem_cons_of_mem _ hc)) hlast htr
        have hpos : sizeValue s ≠ 0 := by
          rw [← hlen]
          exact fun h0 => hne (List.eq_nil_of_length_eq_zero h0)
        have hpayload : BehindSize trailer (sizeValue s) _ _ :=
          (if_neg hpos).mpr ⟨cd, _, _, hlen, rfl, rfl, hbody⟩
        simpa using inSize_of_isSize hs he hpayload
  · rintro ⟨s, e, u, hdigits, hpos, hle, he, rfl, hrest⟩
    have hs : IsSize s := ⟨hdigits, by omega, by omega⟩
    unfold BehindSize at hrest
    split at hrest
    · rename_i hzero
      obtain ⟨htr, rfl⟩ := hrest
      have hbody := @ChunkedBody.mk trailer [] _ _ nofun (LastChunk.mk hs he hzero) htr
      simpa using hbody
    · rename_i hne
      obtain ⟨data, u, out', hlen, rfl, rfl, hbody⟩ := hrest
      obtain ⟨hchunks, hlast, htr⟩ := hbody
      rename_i chunks last tr
      have hdata : data ≠ [] := fun h0 => hne (by rw [← hlen, h0]; rfl)
      have hchunk := DataChunk.mk hs he hlen hdata
      have hbody := @ChunkedBody.mk trailer ((_, data) :: chunks) _ _
        (List.forall_mem_cons.mpr ⟨hchunk, hchunks⟩) hlast htr
      simpa using hbody

/-! ### Derivatives -/

section

variable {trailer : Bool} {n : ℕ} {b : UInt8} {w out : List UInt8}

theorem not_payload_nil : ¬Payload trailer n [] out := by
  rintro ⟨data, u, out', -, hw, -⟩
  cases data <;> cases hw

theorem payload_zero :
    Payload trailer 0 w out ↔ ∃ u, w = CR :: LF :: u ∧ ChunkedBody trailer u out := by
  constructor
  · rintro ⟨data, u, out', hlen, rfl, rfl, hbody⟩
    obtain rfl := List.eq_nil_of_length_eq_zero hlen
    exact ⟨u, rfl, hbody⟩
  · rintro ⟨u, rfl, hbody⟩
    exact ⟨[], u, out, rfl, rfl, rfl, hbody⟩

theorem payload_cons :
    Payload trailer (n + 1) (b :: w) out ↔ ∃ out', out = b :: out' ∧ Payload trailer n w out' := by
  constructor
  · rintro ⟨data, u, out', hlen, hw, rfl, hbody⟩
    cases data with
    | nil => cases hlen
    | cons x data =>
        obtain ⟨rfl, rfl⟩ := List.cons.inj hw
        exact ⟨data ++ out', rfl, data, u, out', Nat.succ.inj hlen, rfl, rfl, hbody⟩
  · rintro ⟨out', rfl, data, u, out'', rfl, rfl, rfl, hbody⟩
    exact ⟨b :: data, u, out'', rfl, rfl, rfl, hbody⟩

/-- The line end of the line of a size, and what stands behind it. -/
def BeforeLf (trailer : Bool) (n : ℕ) (out w : List UInt8) : Prop :=
  ∃ u, w = LF :: u ∧ BehindSize trailer n u out

theorem beforeLf_cons : BeforeLf trailer n out (LF :: w) ↔ BehindSize trailer n w out := by
  constructor
  · rintro ⟨u, hw, h⟩
    rwa [(List.cons.inj hw).2]
  · intro h
    exact ⟨w, rfl, h⟩

/-- A body from within an extension on. -/
def InExt (trailer : Bool) (n : ℕ) (out : List UInt8) : List UInt8 → Prop :=
  Until (fun x => x ≠ CR ∧ x ≠ LF) CR (BeforeLf trailer n out)

theorem not_inSize_nil {k : ℕ} : ¬InSize trailer k n [] out := by
  rintro ⟨ds, e, u, -, -, -, -, hw, -⟩
  have hlen := congrArg List.length hw
  simp at hlen

theorem hexDigit_endsSize : EndsSize b → hexDigit b = none := by
  rintro (rfl | rfl | rfl | rfl | rfl) <;> rfl

theorem IsExtension.ne {e : List UInt8} (he : IsExtension e) : ∀ x ∈ e, x ≠ CR ∧ x ≠ LF := by
  cases he with
  | empty => exact nofun
  | cons hb he =>
      rw [List.forall_mem_cons]
      refine ⟨?_, he⟩
      rcases hb with rfl | rfl | rfl
      · decide
      · decide
      · decide

theorem IsExtension.endsSize {e u : List UInt8} (he : IsExtension e) (h : b :: w = e ++ CR :: u) :
    EndsSize b := by
  cases he with
  | empty => exact .inr (.inr (.inr (.inr (List.cons.inj h).1)))
  | cons hb he =>
      rw [(List.cons.inj h).1]
      rcases hb with hb | hb | hb
      · exact .inl hb
      · exact .inr (.inl hb)
      · exact .inr (.inr (.inl hb))

theorem isExtension_of_endsSize {e u : List UInt8} (he : ∀ x ∈ e, x ≠ CR ∧ x ≠ LF)
    (h : b :: w = e ++ CR :: u) (hb : EndsSize b) : IsExtension e := by
  cases e with
  | nil => exact .empty
  | cons x e =>
      obtain ⟨⟨hcr, hlf⟩, he'⟩ := List.forall_mem_cons.mp he
      obtain rfl := (List.cons.inj h).1
      refine .cons ?_ he'
      rcases hb with hb | hb | hb | hb | hb
      · exact .inl hb
      · exact .inr (.inl hb)
      · exact .inr (.inr hb)
      · exact absurd hb hlf
      · exact absurd hb hcr

theorem inSize_cons_digit {k v : ℕ} (hv : hexDigit b = some v) :
    InSize trailer k n (b :: w) out ↔ InSize trailer (k + 1) (16 * n + v) w out := by
  have hvalue : ∀ ds, numeral n (b :: ds) = numeral (16 * n + v) ds := by
    intro ds
    rw [numeral, List.foldl_cons, hv]
    rfl
  constructor
  · rintro ⟨ds, e, u, hdigits, hpos, hle, he, hw, hrest⟩
    cases ds with
    | nil =>
        rw [hexDigit_endsSize (he.endsSize hw)] at hv
        cases hv
    | cons x ds =>
        obtain ⟨rfl, rfl⟩ := List.cons.inj hw
        rw [List.length_cons] at hle
        refine ⟨ds, e, u, fun x hx => hdigits x (List.mem_cons_of_mem _ hx), by omega, by omega, he,
          rfl, ?_⟩
        rwa [← hvalue]
  · rintro ⟨ds, e, u, hdigits, hpos, hle, he, rfl, hrest⟩
    refine ⟨b :: ds, e, u, List.forall_mem_cons.mpr ⟨by rw [hv]; rfl, hdigits⟩, ?_, ?_, he, rfl, ?_⟩
    · rw [List.length_cons]
      omega
    · rw [List.length_cons]
      omega
    · rwa [hvalue]

theorem inSize_cons_other {k : ℕ} (hk : k ≤ 16) (hb : hexDigit b = none) :
    InSize trailer k n (b :: w) out ↔
      1 ≤ k ∧ EndsSize b ∧ InExt trailer n out (b :: w) := by
  constructor
  · rintro ⟨ds, e, u, hdigits, hpos, hle, he, hw, hrest⟩
    cases ds with
    | nil => exact ⟨hpos, he.endsSize hw, e, LF :: u, he.ne, hw, u, rfl, hrest⟩
    | cons x ds =>
        have hx := hdigits x List.mem_cons_self
        rw [← (List.cons.inj hw).1, hb] at hx
        cases hx
  · rintro ⟨hpos, hends, e, u, he, hw, u', rfl, hrest⟩
    exact ⟨[], e, u', nofun, hpos, hk, isExtension_of_endsSize he hw hends, hw, hrest⟩

/-- A trailer section behind the CRs it begins with. -/
def BehindCrs (w : List UInt8) : Prop :=
  w = [LF] ∨ ∃ b u, b ≠ CR ∧ b ≠ LF ∧ w = b :: u ∧ Until (· ≠ LF) LF TrailerSection u

theorem trailerSection_iff :
    TrailerSection w ↔ ∃ k v, w = List.replicate k CR ++ v ∧ BehindCrs v := by
  constructor
  · rintro ⟨hls, k⟩
    rename_i ls
    cases ls with
    | nil => exact ⟨k, [LF], rfl, .inl rfl⟩
    | cons l ls =>
        obtain ⟨hl, hls'⟩ := List.forall_mem_cons.mp hls
        obtain ⟨k', hcr, hlf, hm⟩ := hl
        rename_i b m
        refine ⟨k', b :: (m ++ LF :: (ls.flatten ++ List.replicate k CR ++ [LF])), by simp, .inr ?_⟩
        exact ⟨b, _, hcr, hlf, rfl, m, _, hm, rfl, .mk hls' k⟩
  · rintro ⟨k, v, rfl, rfl | ⟨b, u, hcr, hlf, rfl, m, t, hm, rfl, ht⟩⟩
    · exact @TrailerSection.mk [] nofun k
    · obtain ⟨hls, k'⟩ := ht
      rename_i ls
      have hline := TrailerLine.mk k hcr hlf hm
      have hsection := TrailerSection.mk (List.forall_mem_cons.mpr ⟨hline, hls⟩) k'
      simpa using hsection

theorem trailerSection_cr : TrailerSection (CR :: w) ↔ TrailerSection w := by
  rw [trailerSection_iff, trailerSection_iff]
  constructor
  · rintro ⟨k, v, hw, hv⟩
    cases k with
    | zero =>
        obtain rfl : CR :: w = v := hw
        rcases hv with hv | ⟨b, u, hcr, -, hv, -⟩
        · cases hv
        · exact absurd (List.cons.inj hv).1.symm hcr
    | succ k => exact ⟨k, v, (List.cons.inj hw).2, hv⟩
  · rintro ⟨k, v, rfl, hv⟩
    exact ⟨k + 1, v, rfl, hv⟩

/-- A trailer section that does not begin with CR. -/
theorem trailerSection_cons (hcr : b ≠ CR) : TrailerSection (b :: w) ↔ BehindCrs (b :: w) := by
  rw [trailerSection_iff]
  constructor
  · rintro ⟨k, v, hw, hv⟩
    cases k with
    | zero =>
        obtain rfl : b :: w = v := hw
        exact hv
    | succ k => exact absurd (List.cons.inj hw).1 hcr
  · intro h
    exact ⟨0, b :: w, rfl, h⟩

theorem trailerSection_lf : TrailerSection (LF :: w) ↔ w = [] := by
  rw [trailerSection_cons (by decide)]
  constructor
  · rintro (h | ⟨b, u, -, hlf, h, -⟩)
    · exact (List.cons.inj h).2
    · exact absurd (List.cons.inj h).1.symm hlf
  · rintro rfl
    exact .inl rfl

theorem trailerSection_other (hcr : b ≠ CR) (hlf : b ≠ LF) :
    TrailerSection (b :: w) ↔ Until (· ≠ LF) LF TrailerSection w := by
  rw [trailerSection_cons hcr]
  constructor
  · rintro (h | ⟨b', u, -, -, h, hu⟩)
    · exact absurd (List.cons.inj h).1 hlf
    · rwa [(List.cons.inj h).2]
  · intro h
    exact .inr ⟨b, w, hcr, hlf, rfl, h⟩

theorem not_trailerSection_nil : ¬TrailerSection [] := by
  intro h
  generalize hw : ([] : List UInt8) = w at h
  obtain ⟨-, k⟩ := h
  have hlen := congrArg List.length hw
  simp at hlen

end

/-! ### The machine accepts the grammar -/

/-- What is accepted from a configuration, and the data of it. -/
def Lang (trailer : Bool) (c : Config) (w out : List UInt8) : Prop :=
  match c.phase with
  | .size => InSize trailer c.hex.toInt.toNat c.left.toNat w out
  | .ext => InExt trailer c.left.toNat out w
  | .expectLf => BeforeLf trailer c.left.toNat out w
  | .data => Payload trailer c.left.toNat w out
  | .dataCr => Payload trailer 0 w out
  | .dataLf => ∃ u, w = LF :: u ∧ ChunkedBody trailer u out
  | .trailHead => TrailerSection w ∧ out = []
  | .trailMid => Until (· ≠ LF) LF TrailerSection w ∧ out = []

/-- The configurations of a decoder that was zero-filled before its first
call. The digits of a size are counted, and their value does not wrap. -/
def Fresh (c : Config) : Prop :=
  match c.phase with
  | .size => ∃ k ≤ 16, c.hex = Int8.ofNat k ∧ c.left.toNat < 16 ^ k
  | .ext => c.hex = 0
  | .expectLf => c.hex = 0
  | .data => c.hex = 0 ∧ c.left ≠ 0
  | .dataCr => c.hex = 0 ∧ c.left = 0
  | .dataLf => c.hex = 0 ∧ c.left = 0
  | .trailHead => True
  | .trailMid => True

theorem hexDigit_lt {b : UInt8} {v : ℕ} (h : hexDigit b = some v) : v < 16 := by
  have hall : (hexDigit b).getD 0 < 16 :=
    forall_byte (P := fun b => (hexDigit b).getD 0 < 16) (by decide +kernel) b
  rwa [h] at hall

theorem ofNat_count : ∀ k ≤ 16, (Int8.ofNat k).toInt.toNat = k ∧ (Int8.ofNat k = 0 ↔ k = 0) ∧
    (Int8.ofNat k = 16 ↔ k = 16) := by decide

theorem ofNat_succ : ∀ k < 16, Int8.ofNat k + 1 = Int8.ofNat (k + 1) := by decide

/-- A digit within the width of a size does not make its value wrap. -/
theorem toNat_digit {left : UInt64} {k v : ℕ} (hk : k < 16) (hleft : left.toNat < 16 ^ k)
    (hv : v < 16) :
    (left * 16 + UInt64.ofNat v).toNat = 16 * left.toNat + v ∧
      16 * left.toNat + v < 16 ^ (k + 1) := by
  have hpow : 16 ^ (k + 1) = 16 * 16 ^ k := by rw [Nat.pow_succ, Nat.mul_comm]
  have hmax : 16 ^ (k + 1) ≤ 2 ^ 64 := by
    calc 16 ^ (k + 1) ≤ 16 ^ 16 := Nat.pow_le_pow_right (by decide) hk
      _ = 2 ^ 64 := by decide
  have hlt : 16 * left.toNat + v < 16 ^ (k + 1) := by omega
  refine ⟨?_, hlt⟩
  rw [UInt64.toNat_add, UInt64.toNat_mul, UInt64.toNat_ofNat']
  show (left.toNat * 16 % 2 ^ 64 + v % 2 ^ 64) % 2 ^ 64 = _
  omega

section

variable {trailer : Bool} {c : Config} {b : UInt8} {w out : List UInt8}

theorem accepts_ext (hc : c.phase = .ext) :
    InExt trailer c.left.toNat out (b :: w) ↔ (stepExt c b).Accepts (Lang trailer) w out := by
  obtain ⟨phase, left, hex⟩ := c
  obtain rfl : phase = .ext := hc
  unfold stepExt
  split_ifs with hcr hlf
  · rw [hcr, InExt, until_cons_self (by simp), Turn.accepts_go_nil]
    rfl
  · rw [InExt, until_cons_of_ne hcr]
    exact iff_of_false (fun h => h.1.2 hlf) id
  · rw [InExt, until_cons_of_ne hcr, Turn.accepts_go_nil]
    exact and_iff_right ⟨hcr, hlf⟩

theorem accepts_size (hc : c.phase = .size) (hfresh : Fresh c) :
    Lang trailer c (b :: w) out ↔ (step trailer c b).Accepts (Lang trailer) w out := by
  obtain ⟨phase, left, hex⟩ := c
  obtain rfl : phase = .size := hc
  obtain ⟨k, hk, rfl, hleft⟩ := hfresh
  obtain ⟨htoNat, hzero, hmax⟩ := ofNat_count k hk
  simp only [Lang, step, htoNat]
  cases hv : hexDigit b with
  | some v =>
      rw [inSize_cons_digit hv]
      -- a seventeenth digit is in no word, and the machine rejects it
      by_cases hfull : k = 16
      · dsimp only
        rw [if_pos (hmax.mpr hfull)]
        refine iff_of_false ?_ id
        rintro ⟨ds, e, u, -, -, hle, -⟩
        omega
      · have hlt : k < 16 := by omega
        have hvalue := (toNat_digit hlt hleft (hexDigit_lt hv)).1
        have hcount := (ofNat_count (k + 1) hlt).1
        dsimp only
        rw [if_neg (fun h => hfull (hmax.mp h)), Turn.accepts_go_nil, ofNat_succ k hlt, ← hvalue]
        simp only [Lang, hcount]
  | none =>
      rw [inSize_cons_other hk hv]
      dsimp only
      by_cases hnone : Int8.ofNat k = 0 ∨ ¬EndsSize b
      · rw [if_pos hnone]
        refine iff_of_false ?_ id
        rintro ⟨hpos, hends, -⟩
        rcases hnone with hk0 | hnot
        · rw [hzero.mp hk0] at hpos
          cases hpos
        · exact hnot hends
      · -- the byte that ends the size is the first one of the extension, or its CR
        rw [if_neg hnone, ← accepts_ext rfl]
        obtain ⟨hk0, hends⟩ := not_or.mp hnone
        have hpos : 1 ≤ k := Nat.one_le_iff_ne_zero.mpr fun h => hk0 (hzero.mpr h)
        rw [and_iff_right hpos, and_iff_right (not_not.mp hends)]

theorem accepts_expectLf (hc : c.phase = .expectLf) :
    Lang trailer c (b :: w) out ↔ (step trailer c b).Accepts (Lang trailer) w out := by
  obtain ⟨phase, left, hex⟩ := c
  obtain rfl : phase = .expectLf := hc
  have hleft : left.toNat = 0 ↔ left = 0 := by
    rw [← UInt64.toNat_inj]
    rfl
  simp only [Lang, step]
  by_cases hlf : b = LF
  · rw [if_neg (not_not.mpr hlf), hlf, beforeLf_cons, BehindSize]
    by_cases hzero : left = 0
    · rw [if_pos (hleft.mpr hzero), if_neg (not_not.mpr hzero), Ends]
      cases trailer with
      | true =>
          show Lang true ⟨.trailHead, left, hex⟩ w out ↔ _
          exact Turn.accepts_go_nil.symm
      | false => exact Iff.rfl
    · rw [if_neg (fun h => hzero (hleft.mp h)), if_pos hzero, Turn.accepts_go_nil]
      rfl
  · rw [if_pos hlf]
    refine iff_of_false ?_ id
    rintro ⟨u, hw, -⟩
    exact hlf (List.cons.inj hw).1

theorem lang_enter (left : UInt64) (hex : Int8) :
    Lang trailer (Config.enter ⟨.data, left, hex⟩) w out ↔ Payload trailer left.toNat w out := by
  unfold Config.enter
  split
  · rename_i h
    obtain rfl : left = 0 := h.2
    rfl
  · rfl

theorem accepts_data (hc : c.phase = .data) (hfresh : Fresh c) :
    Lang trailer c (b :: w) out ↔ (step trailer c b).Accepts (Lang trailer) w out := by
  obtain ⟨phase, left, hex⟩ := c
  obtain rfl : phase = .data := hc
  obtain ⟨-, hne⟩ := hfresh
  have hpos : left.toNat ≠ 0 := fun h => hne (UInt64.toNat_inj.mp h)
  have hsub : (left - 1).toNat = left.toNat - 1 := toNat_sub_one hne
  have hleft : left.toNat = (left - 1).toNat + 1 := by omega
  show Payload trailer left.toNat (b :: w) out ↔
    ∃ out', out = b :: out' ∧ Lang trailer (Config.enter ⟨.data, left - 1, hex⟩) w out'
  rw [hleft, payload_cons]
  simp only [lang_enter]

theorem accepts_dataCr (hc : c.phase = .dataCr) :
    Lang trailer c (b :: w) out ↔ (step trailer c b).Accepts (Lang trailer) w out := by
  obtain ⟨phase, left, hex⟩ := c
  obtain rfl : phase = .dataCr := hc
  simp only [Lang, step]
  rw [payload_zero]
  by_cases hcr : b = CR
  · rw [if_pos hcr, Turn.accepts_go_nil, hcr]
    constructor
    · rintro ⟨u, hw, hbody⟩
      exact ⟨u, (List.cons.inj hw).2, hbody⟩
    · rintro ⟨u, rfl, hbody⟩
      exact ⟨u, rfl, hbody⟩
  · rw [if_neg hcr]
    refine iff_of_false ?_ id
    rintro ⟨u, hw, -⟩
    exact hcr (List.cons.inj hw).1

theorem accepts_dataLf (hc : c.phase = .dataLf) (hfresh : Fresh c) :
    Lang trailer c (b :: w) out ↔ (step trailer c b).Accepts (Lang trailer) w out := by
  obtain ⟨phase, left, hex⟩ := c
  obtain rfl : phase = .dataLf := hc
  obtain ⟨rfl, rfl⟩ := hfresh
  simp only [Lang, step]
  by_cases hlf : b = LF
  · rw [if_pos hlf, Turn.accepts_go_nil, hlf]
    show _ ↔ InSize trailer 0 0 w out
    rw [← chunkedBody_iff]
    constructor
    · rintro ⟨u, hw, hbody⟩
      rwa [(List.cons.inj hw).2]
    · intro hbody
      exact ⟨w, rfl, hbody⟩
  · rw [if_neg hlf]
    refine iff_of_false ?_ id
    rintro ⟨u, hw, -⟩
    exact hlf (List.cons.inj hw).1

theorem accepts_trailHead (hc : c.phase = .trailHead) :
    Lang trailer c (b :: w) out ↔ (step trailer c b).Accepts (Lang trailer) w out := by
  obtain ⟨phase, left, hex⟩ := c
  obtain rfl : phase = .trailHead := hc
  simp only [Lang, step]
  split_ifs with hcr hlf
  · rw [hcr, trailerSection_cr, Turn.accepts_go_nil]
    rfl
  · rw [hlf, trailerSection_lf]
    rfl
  · rw [trailerSection_other hcr hlf, Turn.accepts_go_nil]
    rfl

theorem accepts_trailMid (hc : c.phase = .trailMid) :
    Lang trailer c (b :: w) out ↔ (step trailer c b).Accepts (Lang trailer) w out := by
  obtain ⟨phase, left, hex⟩ := c
  obtain rfl : phase = .trailMid := hc
  simp only [Lang, step]
  split_ifs with hlf
  · rw [hlf, until_cons_self (by simp), Turn.accepts_go_nil]
    rfl
  · rw [until_cons_of_ne hlf, and_iff_right hlf, Turn.accepts_go_nil]
    rfl

theorem fresh_stepExt {c' : Config} {emitted : List UInt8} (hphase : c.phase = .ext)
    (hfresh : Fresh c) (h : stepExt c b = .go c' emitted) : Fresh c' := by
  obtain ⟨phase, left, hex⟩ := c
  obtain rfl : phase = .ext := hphase
  unfold stepExt at h
  split_ifs at h
  · obtain ⟨rfl, -⟩ := Turn.go.inj h
    exact hfresh
  · obtain ⟨rfl, -⟩ := Turn.go.inj h
    exact hfresh

/-- Every turn keeps a configuration fresh. -/
theorem fresh_step {c' : Config} {emitted : List UInt8} (hfresh : Fresh c)
    (h : step trailer c b = .go c' emitted) : Fresh c' := by
  obtain ⟨phase, left, hex⟩ := c
  cases phase with
  | size =>
      obtain ⟨k, hk, rfl, hleft⟩ := hfresh
      have hmax := (ofNat_count k hk).2.2
      simp only [step] at h
      split at h
      · rename_i v hv
        split_ifs at h with hfull
        obtain ⟨rfl, -⟩ := Turn.go.inj h
        have hlt : k < 16 := by
          have hne : k ≠ 16 := fun h => hfull (hmax.mpr h)
          omega
        obtain ⟨hvalue, hbound⟩ := toNat_digit hlt hleft (hexDigit_lt hv)
        exact ⟨k + 1, hlt, ofNat_succ k hlt, hvalue.trans_lt hbound⟩
      · split_ifs at h
        exact fresh_stepExt (c := ⟨.ext, left, 0⟩) rfl rfl h
  | ext => exact fresh_stepExt rfl hfresh h
  | expectLf =>
      simp only [step] at h
      split_ifs at h with hlf hleft htrailer
      · obtain ⟨rfl, -⟩ := Turn.go.inj h
        exact ⟨hfresh, hleft⟩
      · obtain ⟨rfl, -⟩ := Turn.go.inj h
        trivial
  | data =>
      obtain ⟨rfl, hne⟩ := hfresh
      obtain ⟨rfl, -⟩ := Turn.go.inj h
      unfold Config.enter
      split
      · rename_i hend
        exact ⟨rfl, hend.2⟩
      · rename_i hend
        exact ⟨rfl, fun hzero => hend ⟨rfl, hzero⟩⟩
  | dataCr =>
      simp only [step] at h
      split_ifs at h
      obtain ⟨rfl, -⟩ := Turn.go.inj h
      exact hfresh
  | dataLf =>
      obtain ⟨rfl, rfl⟩ := hfresh
      simp only [step] at h
      split_ifs at h
      obtain ⟨rfl, -⟩ := Turn.go.inj h
      exact ⟨0, Nat.zero_le _, rfl, Nat.one_pos⟩
  | trailHead | trailMid =>
      simp only [step] at h
      split_ifs at h <;>
        (obtain ⟨rfl, -⟩ := Turn.go.inj h
         trivial)

theorem not_lang_nil : ¬Lang trailer c [] out := by
  obtain ⟨phase, left, hex⟩ := c
  cases phase with
  | size => exact not_inSize_nil
  | ext => exact not_until_nil
  | expectLf => exact nofun
  | data => exact not_payload_nil
  | dataCr => exact not_payload_nil
  | dataLf => exact nofun
  | trailHead => exact fun h => not_trailerSection_nil h.1
  | trailMid => exact fun h => not_until_nil h.1

/-- The machine accepts what `Lang` says. -/
theorem derives (trailer : Bool) : Derives (step trailer) Fresh (Lang trailer) where
  keeps _ _ _ _ hfresh h := fresh_step hfresh h
  nil _ _ _ := not_lang_nil
  cons c b w out hfresh := by
    cases hphase : c.phase with
    | size => exact accepts_size hphase hfresh
    | ext =>
        have hstep : step trailer c b = stepExt c b := by rw [step, hphase]
        rw [hstep, ← accepts_ext hphase, Lang, hphase]
    | expectLf => exact accepts_expectLf hphase
    | data => exact accepts_data hphase hfresh
    | dataCr => exact accepts_dataCr hphase
    | dataLf => exact accepts_dataLf hphase hfresh
    | trailHead => exact accepts_trailHead hphase
    | trailMid => exact accepts_trailMid hphase

end

/-- A reading of a new decoder that finishes has read a body and emitted its
data. -/
theorem reading_done_iff {consumeTrailer : Int8} {B rest data : List UInt8} :
    ((reading (zeroed consumeTrailer) B).ending = .done ∧
        (reading (zeroed consumeTrailer) B).rest = rest ∧
        (reading (zeroed consumeTrailer) B).out = data) ↔
      ∃ w, B = w ++ rest ∧ ChunkedBody (consumeTrailer ≠ 0) w data := by
  have hfresh : Fresh ⟨.size, 0, 0⟩ := ⟨0, Nat.zero_le _, rfl, Nat.one_pos⟩
  simp only [chunkedBody_iff]
  exact (derives (consumeTrailer ≠ 0)).run_done_iff hfresh

/-- A new decoder answers `Ok` with `leftover` and decodes `data` exactly
when the buffer is a body with that data and so many bytes behind it. -/
theorem decodes_grammar (consumeTrailer : Int8) (B : List UInt8) (leftover : ℕ)
    (data : List UInt8) :
    (∃ n d' B', Rust.Chunked.decodeChunked (zeroed consumeTrailer, B) =
        .ok (.ok leftover, n) (d', B') ∧ B'.take n = data) ↔
      ∃ w rest, B = w ++ rest ∧ rest.length = leftover ∧
        ChunkedBody (consumeTrailer ≠ 0) w data := by
  have hcall := Port.decodeChunked_eq (d := zeroed consumeTrailer) (valid_code .size) B
  constructor
  · rintro ⟨n, d', B', hok, rfl⟩
    obtain ⟨hret, hmem⟩ := EStateM.Result.ok.inj (hcall.symm.trans hok)
    obtain ⟨hanswer, rfl⟩ := Prod.mk.inj hret
    obtain ⟨-, rfl⟩ := Prod.mk.inj hmem
    obtain ⟨hdone, rfl⟩ := answer_eq_ok.mp hanswer
    obtain ⟨w, hw, hbody⟩ := reading_done_iff.mp ⟨hdone, rfl, rfl⟩
    exact ⟨w, _, hw, rfl, by rwa [take_settled]⟩
  · rintro ⟨w, rest, hw, rfl, hbody⟩
    obtain ⟨hdone, hrest, rfl⟩ := reading_done_iff.mpr ⟨w, hw, hbody⟩
    rw [answer_eq_ok.mpr ⟨hdone, congrArg List.length hrest.symm⟩] at hcall
    exact ⟨_, _, _, hcall, take_settled _ B⟩

end PicoHttpParser.Chunk
