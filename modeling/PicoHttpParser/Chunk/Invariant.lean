import PicoHttpParser.Chunk.Grammar
import Mathlib.Logic.Relation

/-!
What a decoder remembers, over whole runs.

The state, the bytes left in the chunk and the digit count of a decoder go
together differently in each state. Every function of `decode_chunked` keeps
them together, whether it returns or breaks out of the loop, and so do whole
calls, whatever they answer. It follows that a size is accumulated without
wrapping, over however many calls its digits arrive.
-/

namespace PicoHttpParser.Chunk

open Incremental Rust Rust.Chunked

/-- How the state, the bytes left and the digit count of a decoder go
together. -/
structure Coherent (st : Int8) (left : UInt64) (hex : Int8) : Prop where
  valid : 0 ≤ st ∧ st ≤ 7
  count : 0 ≤ hex ∧ hex ≤ 16
  counting : 0 < hex → st = stSize
  size : st = stSize → left.toNat < 16 ^ hex.toInt.toNat
  data : st = stData → 0 < left
  spent : st = stDataCr ∨ st = stDataLf ∨ st = stTrailHead ∨ st = stTrailMid → left = 0

/-- A digit count in its range, as a natural number. -/
theorem exists_count {hex : Int8} (h : 0 ≤ hex ∧ hex ≤ 16) : ∃ k ≤ 16, hex = Int8.ofNat k := by
  refine ⟨hex.toInt.toNat, ?_, (Int8.ofNat_toNatClampNeg hex h.1).symm⟩
  have hle := Int8.le_iff_toInt_le.mp h.2
  rw [show (16 : Int8).toInt = 16 from rfl] at hle
  omega

/-- A count that is not at its end is increased without wrapping. -/
theorem count_succ {hex : Int8} (h : 0 ≤ hex ∧ hex ≤ 16) (hne : hex ≠ 16) :
    (hex + 1).toInt = hex.toInt + 1 ∧ 0 ≤ hex + 1 ∧ hex + 1 ≤ 16 := by
  obtain ⟨k, hk, rfl⟩ := exists_count h
  have hlt : k < 16 := Nat.lt_of_le_of_ne hk fun h16 => hne (congrArg Int8.ofNat h16)
  have hall : ∀ k < 16, (Int8.ofNat k + 1).toInt = (Int8.ofNat k).toInt + 1 ∧
      0 ≤ Int8.ofNat k + 1 ∧ Int8.ofNat k + 1 ≤ 16 := by decide
  exact hall k hlt

/-- Every state is the business of one of the chains. -/
theorem state_cases {st : Int8} (h : 0 ≤ st ∧ st ≤ 7) :
    (st = stSize ∨ st = stExt ∨ st = stExpectLf) ∨
      (st = stData ∨ st = stDataCr ∨ st = stDataLf) ∨ st = stTrailHead ∨ st = stTrailMid := by
  rw [← code_phaseAt h]
  cases phaseAt st <;> decide

/-- The locals of a call are coherent. -/
abbrev Sound (l : Locals) : Prop := Coherent l.st l.left l.hex

namespace Coherent

variable {st : Int8} {left : UInt64} {hex : Int8}

/-- Between sizes no digits are counted. -/
theorem hex_eq_zero (h : Coherent st left hex) (hst : st ≠ stSize) : hex = 0 := by
  have hle : hex ≤ 0 := Int8.not_lt.mp fun hpos => hst (h.counting hpos)
  exact Int8.le_antisymm hle h.count.1

/-- In front of a size. -/
theorem newSize (hleft : left = 0) (hhex : hex = 0) : Coherent stSize left hex := by
  subst hleft hhex
  exact ⟨by decide, by decide, by decide, by decide, by decide, by decide⟩

/-- Behind a size, the bytes of the chunk are not limited. -/
theorem behindSize (hst : st = stExt ∨ st = stExpectLf) (hhex : hex = 0) :
    Coherent st left hex := by
  subst hhex
  rcases hst with rfl | rfl
  · exact ⟨by decide, by decide, by decide, nofun, nofun, fun h => absurd h (by decide)⟩
  · exact ⟨by decide, by decide, by decide, nofun, nofun, fun h => absurd h (by decide)⟩

theorem inData (hleft : 0 < left) (hhex : hex = 0) : Coherent stData left hex := by
  subst hhex
  exact ⟨by decide, by decide, by decide, nofun, fun _ => hleft, fun h => absurd h (by decide)⟩

/-- Behind the payload of a chunk, and in the trailer. -/
theorem behindData (hst : st = stDataCr ∨ st = stDataLf ∨ st = stTrailHead ∨ st = stTrailMid)
    (hleft : left = 0) (hhex : hex = 0) : Coherent st left hex := by
  subst hleft hhex
  rcases hst with rfl | rfl | rfl | rfl <;>
    exact ⟨by decide, by decide, by decide, nofun, nofun, fun _ => rfl⟩

end Coherent

/-! ### The loop over the digits of a size -/

/-- A turn of the loop, at a digit of value `v`. -/
def Digit (v : UInt8) (l l' : Locals) : Prop :=
  ∃ b, l.buf[l.src]? = some b ∧ hexVal b = some v ∧ l.hex ≠ 16 ∧
    l' = { l with left := l.left * 16 + v.toUInt64, hex := l.hex + 1, src := l.src + 1 }

section

variable {l l' : Locals} {v : UInt8}

theorem hexVal_lt {b : UInt8} (h : hexVal b = some v) : v.toNat < 16 := by
  apply hexDigit_lt (b := b)
  rw [Port.hexDigit_eq, h]
  rfl

/-- A digit is accumulated without wrapping. -/
theorem toNat_accumulate (hl : Sound l) (hst : l.st = stSize) (h : Digit v l l') :
    ∃ k < 16, l.hex = Int8.ofNat k ∧ l.left.toNat < 16 ^ k ∧
      (l.left * 16 + v.toUInt64).toNat = l.left.toNat * 16 + v.toNat ∧
      l.left.toNat * 16 + v.toNat < 16 ^ (k + 1) := by
  obtain ⟨b, -, hv, hne, -⟩ := h
  obtain ⟨k, hk, hhex⟩ := exists_count hl.count
  obtain ⟨htoNat, -, hmax⟩ := ofNat_count k hk
  have hlt : k < 16 := by
    have hk' : k ≠ 16 := fun h16 => hne (hhex.trans (hmax.mpr h16))
    omega
  have hleft : l.left.toNat < 16 ^ k := by
    have hsize := hl.size hst
    rwa [hhex, htoNat] at hsize
  obtain ⟨hvalue, hbound⟩ := toNat_digit hlt hleft (hexVal_lt hv)
  rw [Port.ofNat_toNat_toUInt64, Nat.mul_comm] at hvalue
  rw [Nat.mul_comm] at hbound
  exact ⟨k, hlt, hhex, hleft, hvalue, hbound⟩

theorem sound_digit (hl : Sound l) (hst : l.st = stSize) (h : Digit v l l') :
    Sound l' ∧ l'.st = stSize := by
  obtain ⟨k, hk, hhex, -, hvalue, hbound⟩ := toNat_accumulate hl hst h
  obtain ⟨b, -, -, hne, rfl⟩ := h
  refine ⟨?_, hst⟩
  have hcount : l.hex + 1 = Int8.ofNat (k + 1) := by rw [hhex, ofNat_succ k hk]
  exact
    { valid := hl.valid
      count := (count_succ hl.count hne).2
      counting := fun _ => hst
      size := fun _ => by
        dsimp only
        rw [hcount, (ofNat_count (k + 1) hk).1, hvalue]
        exact hbound
      data := fun h => absurd (hst.symm.trans h) (by decide)
      spent := fun h => by
        rcases h with h | h | h | h <;> exact absurd (hst.symm.trans h) (by decide) }

end

/-! ### The functions of a chain -/

/-- However `x` ends, short of a panic, the locals are sound, and `Q` holds of
what it returns. -/
structure Leaves {α : Type} (Q : α → Prop) (x : Chain α) : Prop where
  ok : ∀ a, x = .ok a → Q a
  out : ∀ e l, x = .error (.out e l) → Sound l

namespace Leaves

variable {α γ : Type} {Q : α → Prop} {R : γ → Prop} {l : Locals}

theorem pure {a : α} (h : Q a) : Leaves Q (Pure.pure a) where
  ok _ ha := by
    obtain rfl := Except.ok.inj ha
    exact h
  out _ _ ha := by cases ha

theorem out_of {e : Option Error} (h : Sound l) : Leaves Q (throw (.out e l)) where
  ok _ ha := by cases ha
  out _ _ ha := by
    obtain ⟨-, rfl⟩ := Break.out.inj (Except.error.inj ha)
    exact h

theorem panic : Leaves Q (throw (.panic l)) where
  ok _ ha := by cases ha
  out _ _ ha := by cases ha

theorem bind {x : Chain α} {f : α → Chain γ} (hx : Leaves Q x) (hf : ∀ a, Q a → Leaves R (f a)) :
    Leaves R (x >>= f) := by
  cases x with
  | error b =>
      refine ⟨nofun, fun e l h => hx.out e l ?_⟩
      exact congrArg Except.error (Except.error.inj h)
  | ok a => exact hf a (hx.ok a rfl)

end Leaves

section

variable {l : Locals}

theorem leaves_byte (l : Locals) : Leaves (fun _ => True) (byte l) := by
  unfold byte
  split
  · exact .panic
  · exact .pure trivial

theorem leaves_moveDown (l : Locals) (n : ℕ) : Leaves (fun _ => True) (moveDown l n) := by
  unfold moveDown
  split
  · exact .pure trivial
  · split
    · exact .pure trivial
    · exact .panic

theorem leaves_sizeLoop (hl : Sound l) (hst : l.st = stSize) :
    Leaves (fun l' => Sound l' ∧ l'.st = stSize) (sizeLoop l) := by
  fun_induction sizeLoop l with
  | case1 l => exact .out_of hl
  | case2 l => exact .panic
  | case3 l => exact .out_of hl
  | case4 l => exact .pure ⟨hl, hst⟩
  | case5 l => exact .out_of hl
  | case6 l => exact .out_of hl
  | case7 l _ b hb v hv hne ih =>
      obtain ⟨hl', hst'⟩ := sound_digit hl hst ⟨b, hb, hv, hne, rfl⟩
      exact ih hl' hst'

/-- A scan moves the position and nothing else. -/
theorem leaves_scanLoop (f : UInt8 → Reader.Act) (hl : Sound l) :
    Leaves (fun l' => Sound l' ∧ l'.st = l.st) (scanLoop f l) := by
  fun_induction scanLoop f l with
  | case1 l => exact .out_of hl
  | case2 l => exact .panic
  | case3 l => exact .pure ⟨hl, rfl⟩
  | case4 l => exact .out_of hl
  | case5 l _ b hb hskip ih => exact ih hl

theorem leaves_expect (ch : UInt8) (hl : Sound l) :
    Leaves (fun l' => Sound l' ∧ l' = { l with src := l.src + 1 }) (expect ch l) := by
  unfold expect
  split
  · exact .out_of hl
  · refine .bind (leaves_byte l) fun b _ => ?_
    split
    · exact .out_of hl
    · exact .pure ⟨hl, rfl⟩

theorem leaves_size (hl : Sound l) (hst : l.st = stSize ∨ l.st = stExt ∨ l.st = stExpectLf) :
    Leaves (fun l' => Sound l' ∧ (l'.st = stExt ∨ l'.st = stExpectLf)) (size l) := by
  unfold size
  split
  · rename_i hsize
    apply Leaves.bind (leaves_sizeLoop hl hsize)
    intro l' _
    exact .pure ⟨.behindSize (.inl rfl) rfl, .inl rfl⟩
  · rename_i hsize
    exact .pure ⟨hl, hst.resolve_left hsize⟩

theorem leaves_ext (hl : Sound l) (hst : l.st = stExt ∨ l.st = stExpectLf) :
    Leaves (fun l' => Sound l' ∧ l'.st = stExpectLf) (ext l) := by
  unfold ext
  split
  · rename_i hext
    apply Leaves.bind (leaves_scanLoop _ hl)
    rintro l' ⟨hl', hst'⟩
    have hhex : l'.hex = 0 := hl'.hex_eq_zero (by rw [hst', hext]; decide)
    exact .pure ⟨.behindSize (.inr rfl) hhex, rfl⟩
  · rename_i hext
    exact .pure ⟨hl, hst.resolve_left hext⟩

theorem leaves_chainA (t : Int8) (hl : Sound l)
    (hst : l.st = stSize ∨ l.st = stExt ∨ l.st = stExpectLf) :
    Leaves Sound (chainA t l) := by
  unfold chainA
  apply Leaves.bind (leaves_size hl hst)
  rintro l₁ ⟨hl₁, hst₁⟩
  apply Leaves.bind (leaves_ext hl₁ hst₁)
  rintro l₂ ⟨hl₂, hst₂⟩
  apply Leaves.bind (leaves_expect LF hl₂)
  rintro l₃ ⟨hl₃, rfl⟩
  have hhex : l₂.hex = 0 := hl₂.hex_eq_zero (by rw [hst₂]; decide)
  dsimp only
  split
  · rename_i hleft
    split
    · exact .pure (.behindData (.inr (.inr (.inl rfl))) hleft hhex)
    · exact .out_of hl₃
  · rename_i hleft
    exact .pure (.inData (UInt64.pos_iff_ne_zero.mpr hleft) hhex)

/-- What is left of a chunk when less has arrived. -/
theorem toNat_sub_ofNat {left : UInt64} {n : ℕ} (h : n < left.toNat) :
    (left - UInt64.ofNat n).toNat = left.toNat - n := by
  have hn : (UInt64.ofNat n).toNat = n := by
    rw [UInt64.toNat_ofNat']
    exact Nat.mod_eq_of_lt (h.trans left.toNat_lt)
  have hle : UInt64.ofNat n ≤ left := by
    rw [UInt64.le_iff_toNat_le, hn]
    exact h.le
  rw [UInt64.toNat_sub_of_le _ _ hle, hn]

theorem sub_ofNat_pos {left : UInt64} {n : ℕ} (h : n < left.toNat) :
    0 < left - UInt64.ofNat n := by
  rw [UInt64.lt_iff_toNat_lt, toNat_sub_ofNat h]
  exact Nat.sub_pos_of_lt h

theorem leaves_data (hl : Sound l) (hst : l.st = stData ∨ l.st = stDataCr ∨ l.st = stDataLf) :
    Leaves (fun l' => Sound l' ∧ (l'.st = stDataCr ∨ l'.st = stDataLf)) (data l) := by
  unfold data
  split
  · rename_i hdata
    have hhex : l.hex = 0 := hl.hex_eq_zero (by rw [hdata]; decide)
    dsimp only
    split
    · rename_i hshort
      apply Leaves.bind (leaves_moveDown l _)
      intro buf _
      apply Leaves.out_of
      dsimp only [Sound]
      rw [hdata]
      exact .inData (sub_ofNat_pos hshort) hhex
    · apply Leaves.bind (leaves_moveDown l _)
      intro buf _
      exact .pure ⟨.behindData (.inl rfl) rfl hhex, .inl rfl⟩
  · rename_i hdata
    exact .pure ⟨hl, hst.resolve_left hdata⟩

theorem leaves_dataCr (hl : Sound l) (hst : l.st = stDataCr ∨ l.st = stDataLf) :
    Leaves (fun l' => Sound l' ∧ l'.st = stDataLf) (dataCr l) := by
  unfold dataCr
  split
  · rename_i hcr
    apply Leaves.bind (leaves_expect CR hl)
    rintro l' ⟨hl', rfl⟩
    have hhex : l.hex = 0 := hl.hex_eq_zero (by rw [hcr]; decide)
    exact .pure ⟨.behindData (.inr (.inl rfl)) (hl.spent (.inl hcr)) hhex, rfl⟩
  · rename_i hcr
    exact .pure ⟨hl, hst.resolve_left hcr⟩

theorem leaves_chainB (hl : Sound l) (hst : l.st = stData ∨ l.st = stDataCr ∨ l.st = stDataLf) :
    Leaves Sound (chainB l) := by
  unfold chainB
  apply Leaves.bind (leaves_data hl hst)
  rintro l₁ ⟨hl₁, hst₁⟩
  apply Leaves.bind (leaves_dataCr hl₁ hst₁)
  rintro l₂ ⟨hl₂, hst₂⟩
  apply Leaves.bind (leaves_expect LF hl₂)
  rintro l₃ ⟨-, rfl⟩
  have hhex : l₂.hex = 0 := hl₂.hex_eq_zero (by rw [hst₂]; decide)
  exact .pure (.newSize (hl₂.spent (.inr (.inl hst₂))) hhex)

theorem leaves_trailHead (hl : Sound l) (hst : l.st = stTrailHead ∨ l.st = stTrailMid) :
    Leaves (fun l' => Sound l' ∧ l'.st = stTrailMid) (trailHead l) := by
  unfold trailHead
  split
  · rename_i hhead
    apply Leaves.bind (leaves_scanLoop _ hl)
    rintro l' ⟨hl', hst'⟩
    apply Leaves.bind (leaves_byte l')
    intro b _
    rw [hhead] at hst'
    have hhex : l'.hex = 0 := hl'.hex_eq_zero (by rw [hst']; decide)
    dsimp only
    split
    · exact .out_of hl'
    · exact .pure ⟨.behindData (.inr (.inr (.inr rfl))) (hl'.spent (.inr (.inr (.inl hst')))) hhex,
        rfl⟩
  · rename_i hhead
    exact .pure ⟨hl, hst.resolve_left hhead⟩

theorem leaves_trailMid (hl : Sound l) (hst : l.st = stTrailMid) : Leaves Sound (trailMid l) := by
  unfold trailMid
  rw [if_pos hst]
  apply Leaves.bind (leaves_scanLoop _ hl)
  rintro l' ⟨hl', hst'⟩
  rw [hst] at hst'
  have hhex : l'.hex = 0 := hl'.hex_eq_zero (by rw [hst']; decide)
  exact .pure (.behindData (.inr (.inr (.inl rfl))) (hl'.spent (.inr (.inr (.inr hst')))) hhex)

theorem leaves_chain (t : Int8) (hl : Sound l) : Leaves Sound (chain t l) := by
  unfold chain
  split
  · exact leaves_chainA t hl ‹_›
  split
  · exact leaves_chainB hl ‹_›
  split
  · exact .bind (leaves_trailHead hl ‹_›) fun l' hl' => leaves_trailMid hl'.1 hl'.2
  · exact .panic

/-- A call leaves its loop with sound locals. -/
theorem sound_decodeFrom {t : Int8} {e : Option Error} {l' : Locals} (hl : Sound l)
    (h : decodeFrom t l = .out e l') : Sound l' := by
  fun_induction decodeFrom t l with
  | case1 l b hb =>
      subst h
      exact (leaves_chain t hl).out e l' hb
  | case2 l l₁ hok ih => exact ih ((leaves_chain t hl).ok l₁ hok) h

end

/-! ### Whole calls -/

/-- A decoder that was zero-filled before its first call, after any calls on
any buffers, whatever they have answered. -/
inductive Reached (consumeTrailer : Int8) : PhrChunkedDecoder → Prop
  | zeroed : Reached consumeTrailer (zeroed consumeTrailer)
  | call {d : PhrChunkedDecoder} {B : List UInt8} {c : Call} (hd : Reached consumeTrailer d)
      (hc : Chunk.call d B = some c) : Reached consumeTrailer c.decoder

/-- The locals at the head of the loop `'out`, in a call on the buffer `B`. -/
def Heads (d : PhrChunkedDecoder) (B : List UInt8) : Locals → Prop :=
  Relation.ReflTransGen (fun l l' => chain d.consumeTrailer l = .ok l')
    (enter (countRead d B.length) B)

/-- In a call on the buffer `B` the loop over the digits of a size adds the
digit `v` to the locals `l`. -/
def Accumulates (d : PhrChunkedDecoder) (B : List UInt8) (l : Locals) (v : UInt8) : Prop :=
  ∃ l₁ l₂, Heads d B l₁ ∧ l₁.st = stSize ∧
    Relation.ReflTransGen (fun l l' => ∃ v, Digit v l l') l₁ l ∧ Digit v l l₂

section

variable {d : PhrChunkedDecoder} {B : List UInt8}

/-- A call leaves a decoder coherent. -/
theorem coherent_after (hd : Coherent d.state d.bytesLeftInChunk d.hexCount) (B : List UInt8) :
    Coherent (after d B).state (after d B).bytesLeftInChunk (after d B).hexCount := by
  have hloop := Port.decodeFrom_enter hd.valid B
  -- wherever the loop is left, it is left with these locals
  obtain ⟨e, he⟩ : ∃ e, decodeFrom d.consumeTrailer (enter (countRead d B.length) B) =
      .out e (Port.locals B (reading d B).out (reading d B).config
        (B.length - (reading d B).rest.length)) := by
    rw [hloop]
    cases (reading d B).ending with
    | more => exact ⟨_, rfl⟩
    | done => exact ⟨_, rfl⟩
    | bad => exact ⟨_, rfl⟩
  exact sound_decodeFrom (l := enter (countRead d B.length) B) hd he

theorem coherent_of_reached {t : Int8} (h : Reached t d) :
    Coherent d.state d.bytesLeftInChunk d.hexCount := by
  induction h with
  | zeroed => exact .newSize rfl rfl
  | call hd hc ih =>
      rw [(reads_of_call ih.valid hc).decoder]
      exact coherent_after ih _

theorem sound_heads {l : Locals} (hd : Coherent d.state d.bytesLeftInChunk d.hexCount)
    (h : Heads d B l) : Sound l := by
  induction h with
  | refl => exact hd
  | tail _ hok ih => exact (leaves_chain d.consumeTrailer ih).ok _ hok

theorem sound_accumulates {l : Locals} {v : UInt8}
    (hd : Coherent d.state d.bytesLeftInChunk d.hexCount) (h : Accumulates d B l v) :
    l.left.toNat * 16 + v.toNat < 2 ^ 64 := by
  obtain ⟨l₁, l₂, hhead, hst₁, hdigits, hdigit⟩ := h
  have hl : Sound l ∧ l.st = stSize := by
    clear hdigit
    induction hdigits with
    | refl => exact ⟨sound_heads hd hhead, hst₁⟩
    | tail _ hstep ih =>
        obtain ⟨v', hv'⟩ := hstep
        exact sound_digit ih.1 ih.2 hv'
  obtain ⟨k, hk, -, -, -, hbound⟩ := toNat_accumulate hl.1 hl.2 hdigit
  calc l.left.toNat * 16 + v.toNat < 16 ^ (k + 1) := hbound
    _ ≤ 16 ^ 16 := Nat.pow_le_pow_right (by decide) hk
    _ = 2 ^ 64 := by decide

/-- The next byte is payload exactly when the decoder says so. -/
theorem isInData_iff (hd : Coherent d.state d.bytesLeftInChunk d.hexCount) (b : UInt8) :
    isInData d = true ↔ (reading d [b]).out = [b] := by
  have hdata : isInData d = true ↔ d.state = stData := by rw [isInData, beq_iff_eq]
  rw [hdata, reading]
  constructor
  · intro hst
    have hphase : (config d).phase = .data := by rw [config, hst]; rfl
    have hleft : (config d).left ≠ 0 := UInt64.pos_iff_ne_zero.mp (hd.data hst)
    rw [Config.enter_of_entered fun _ => hleft, run_cons_go (step_data hphase b)]
    rfl
  · intro hout
    by_contra hst
    have hphase : (config d).phase ≠ .data := by
      intro hphase
      apply hst
      rw [← code_phaseAt hd.valid]
      exact congrArg Phase.code hphase
    rw [Config.enter_of_entered (Config.entered_of_ne hphase)] at hout
    cases hs : step (d.consumeTrailer ≠ 0) (config d) b with
    | go c' out =>
        rw [run_cons_go hs, (step_go hphase hs).1] at hout
        cases hout
    | finish c' => rw [run_cons_finish hs] at hout; cases hout
    | reject c' => rw [run_cons_reject hs] at hout; cases hout

end

/-- The invariant of a decoder, over any run of calls. Hence no size wraps,
`unreachable!` is not reached, and `phr_decode_chunked_is_in_data` foretells
what the next byte is. -/
theorem decoder_invariant {consumeTrailer : Int8} {d : PhrChunkedDecoder}
    (h : Reached consumeTrailer d) :
    (0 ≤ d.state ∧ d.state ≤ 7) ∧
      (0 ≤ d.hexCount ∧ d.hexCount ≤ 16) ∧ (0 < d.hexCount → d.state = stSize) ∧
      (d.state = stSize → d.bytesLeftInChunk.toNat < 16 ^ d.hexCount.toInt.toNat) ∧
      (d.state = stData → 0 < d.bytesLeftInChunk) ∧
      (d.state = stDataCr ∨ d.state = stDataLf ∨ d.state = stTrailHead ∨ d.state = stTrailMid →
        d.bytesLeftInChunk = 0) ∧
      (∀ B, ∃ c, call d B = some c) ∧
      (∀ B l, Heads d B l →
        (l.st = stSize ∨ l.st = stExt ∨ l.st = stExpectLf) ∨
          (l.st = stData ∨ l.st = stDataCr ∨ l.st = stDataLf) ∨
          l.st = stTrailHead ∨ l.st = stTrailMid) ∧
      (∀ B l v, Accumulates d B l v → l.left.toNat * 16 + v.toNat < 2 ^ 64) ∧
      ∀ b, isInData d = true ↔ ∃ c, call d [b] = some c ∧ c.decoded = [b] := by
  have hd := coherent_of_reached h
  refine ⟨hd.valid, hd.count, hd.counting, hd.size, hd.data, hd.spent, ?_, ?_, ?_, ?_⟩
  · intro B
    exact ⟨_, call_eq hd.valid B⟩
  · intro B l hl
    exact state_cases (sound_heads hd hl).valid
  · intro B l v hl
    exact sound_accumulates hd hl
  · intro b
    rw [isInData_iff hd]
    constructor
    · intro hout
      obtain ⟨c, hc⟩ : ∃ c, call d [b] = some c := ⟨_, call_eq hd.valid [b]⟩
      exact ⟨c, hc, (reads_of_call hd.valid hc).decoded.trans hout⟩
    · rintro ⟨c, hc, hdecoded⟩
      exact (reads_of_call hd.valid hc).decoded.symm.trans hdecoded

/-- A size that has been cut behind its first digit, and a byte that ends it
and is none. -/
theorem decoder_invariant_malformed :
    let c₁ : Call := ⟨some .Partial, 1, 0, .error .Partial, 0, ⟨2, 1, 1, 0, 1, 1⟩, [50]⟩
    let c₂ : Call := ⟨some .Malformed, 1, 0, .error .Malformed, 0, ⟨46, 1, 2, 0, 3, 1⟩, [71, 71]⟩
    call (zeroed 1) [50] = some c₁ ∧ call c₁.decoder [101, 71] = some c₂ ∧
      c₂.decoder.bytesLeftInChunk.toNat < 16 ^ 2 ∧
      (∀ B, ∃ c, call c₂.decoder B = some c) := by
  intro c₁ c₂
  have h₁ : call (zeroed 1) [50] = some c₁ := by decide +kernel
  have h₂ : call c₁.decoder [101, 71] = some c₂ := by decide +kernel
  have hreached : Reached 1 c₂.decoder := .call (.call .zeroed h₁) h₂
  obtain ⟨-, -, -, hsize, -, -, hcalls, -⟩ := decoder_invariant hreached
  exact ⟨h₁, h₂, hsize rfl, hcalls⟩

end PicoHttpParser.Chunk
