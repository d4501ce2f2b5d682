import PicoHttpParser.Chunk.Machine
import PicoHttpParser.Rust.Chunked

/-!
The chunked decoder of the port runs the machine.

A chain entered at one of its states does the work of that state and is then
the chain entered at the next one. These equations take the chains apart, so
that entering in the middle of one needs no argument of its own.
-/

namespace PicoHttpParser.Chunk.Port

open Incremental Rust Rust.Chunked

/-! ### The chains, state by state -/

section

variable {t : Int8} {l : Locals}

theorem chain_size (h : l.st = stSize) :
    chain t l = sizeLoop l >>= fun l => chain t { l with hex := 0, st := stExt } := by
  have hA : chain t l = chainA t l := if_pos (.inl h)
  rw [hA, chainA, size, if_pos h, bind_assoc]
  rfl

theorem chain_ext (h : l.st = stExt) :
    chain t l = extLoop l >>= fun l => chain t { l with src := l.src + 1, st := stExpectLf } := by
  have hA : chain t l = chainA t l := if_pos (.inr (.inl h))
  have hsize : size l = pure l := if_neg (by rw [h]; decide)
  rw [hA, chainA, hsize, pure_bind, ext, if_pos h, bind_assoc]
  rfl

theorem chain_expectLf (h : l.st = stExpectLf) :
    chain t l = expect LF l >>= fun l =>
      if l.left = 0 then
        if t ≠ 0 then pure { l with st := stTrailHead } else throw (.out none l)
      else pure { l with st := stData } := by
  have hA : chain t l = chainA t l := if_pos (.inr (.inr h))
  have hsize : size l = pure l := if_neg (by rw [h]; decide)
  have hext : ext l = pure l := if_neg (by rw [h]; decide)
  rw [hA, chainA, hsize, pure_bind, hext, pure_bind]

theorem chain_eq_chainB (h : l.st = stData ∨ l.st = stDataCr ∨ l.st = stDataLf) :
    chain t l = chainB l := by
  have hA : ¬(l.st = stSize ∨ l.st = stExt ∨ l.st = stExpectLf) := by
    rcases h with h | h | h <;> rw [h] <;> decide
  rw [chain, if_neg hA, if_pos h]

theorem chain_dataCr (h : l.st = stDataCr) :
    chain t l = expect CR l >>= fun l => chain t { l with st := stDataLf } := by
  have hdata : data l = pure l := if_neg (by rw [h]; decide)
  rw [chain_eq_chainB (.inr (.inl h)), chainB, hdata, pure_bind, dataCr, if_pos h, bind_assoc]
  rfl

theorem chain_dataLf (h : l.st = stDataLf) :
    chain t l = expect LF l >>= fun l => pure { l with st := stSize } := by
  have hdata : data l = pure l := if_neg (by rw [h]; decide)
  have hdataCr : dataCr l = pure l := if_neg (by rw [h]; decide)
  rw [chain_eq_chainB (.inr (.inr h)), chainB, hdata, pure_bind, hdataCr, pure_bind]

theorem chain_eq_chainC (h : l.st = stTrailHead ∨ l.st = stTrailMid) : chain t l = chainC l := by
  have hA : ¬(l.st = stSize ∨ l.st = stExt ∨ l.st = stExpectLf) := by
    rcases h with h | h <;> rw [h] <;> decide
  have hB : ¬(l.st = stData ∨ l.st = stDataCr ∨ l.st = stDataLf) := by
    rcases h with h | h <;> rw [h] <;> decide
  rw [chain, if_neg hA, if_neg hB, if_pos h]

theorem chain_trailHead (h : l.st = stTrailHead) :
    chain t l = scanLoop (fun b => if b ≠ CR then .stop else .skip) l >>= fun l =>
      byte l >>= fun b =>
        if b = LF then throw (.out none { l with src := l.src + 1 })
        else chain t { l with src := l.src + 1, st := stTrailMid } := by
  rw [chain_eq_chainC (.inl h), chainC, trailHead, if_pos h, bind_assoc]
  refine bind_congr fun l => ?_
  rw [bind_assoc]
  refine bind_congr fun b => ?_
  split
  · rfl
  · rfl

theorem chain_trailMid (h : l.st = stTrailMid) :
    chain t l = scanLoop (fun b => if b = LF then .stop else .skip) l >>= fun l =>
      pure { l with src := l.src + 1, st := stTrailHead } := by
  have hhead : trailHead l = pure l := if_neg (by rw [h]; decide)
  rw [chain_eq_chainC (.inr h), chainC, hhead, pure_bind, trailMid, if_pos h]

/-- A chain with payload to take. -/
theorem chain_data (h : l.st = stData) :
    chain t l =
      if l.buf.length - l.src < l.left.toNat then
        moveDown l (l.buf.length - l.src) >>= fun buf =>
          throw (.out (some .Partial)
            { l with
              buf := buf, src := l.src + (l.buf.length - l.src)
              dst := l.dst + (l.buf.length - l.src)
              left := l.left - UInt64.ofNat (l.buf.length - l.src) })
      else
        moveDown l l.left.toNat >>= fun buf =>
          chain t
            { l with
              buf := buf, src := l.src + l.left.toNat, dst := l.dst + l.left.toNat, left := 0
              st := stDataCr } := by
  rw [chain_eq_chainB (.inl h), chainB, data, if_pos h]
  dsimp only
  split
  · rw [bind_assoc]
    rfl
  · rw [bind_assoc]
    refine bind_congr fun buf => ?_
    rw [chain_eq_chainB (.inr (.inl rfl))]
    rfl

theorem decodeFrom_congr {l' : Locals} (h : chain t l = chain t l') :
    decodeFrom t l = decodeFrom t l' := by
  rw [decodeFrom, decodeFrom]
  split <;> split <;> simp_all

theorem decodeFrom_of_ok {l' : Locals} (h : chain t l = .ok l') :
    decodeFrom t l = decodeFrom t l' := by
  rw [decodeFrom, h]

theorem decodeFrom_of_error {b : Break} (h : chain t l = .error b) : decodeFrom t l = b := by
  rw [decodeFrom, h]

end

/-! ### The loops, byte by byte -/

section

variable {l : Locals} {b : UInt8}

theorem ne_length_of_some (h : l.buf[l.src]? = some b) : l.src ≠ l.buf.length :=
  (List.getElem?_eq_some_iff.mp h).1.ne

theorem byte_of_some (h : l.buf[l.src]? = some b) : byte l = pure b := by
  rw [byte, h]

theorem sizeLoop_end (h : l.src = l.buf.length) :
    sizeLoop l = throw (.out (some .Partial) l) := by
  rw [sizeLoop, if_pos h]

theorem sizeLoop_digit (h : l.buf[l.src]? = some b) {v : UInt8} (hv : hexVal b = some v) :
    sizeLoop l =
      if l.hex = 16 then throw (.out (some .Malformed) l)
      else
        sizeLoop
          { l with left := l.left * 16 + v.toUInt64, hex := l.hex + 1, src := l.src + 1 } := by
  conv_lhs => rw [sizeLoop]
  rw [if_neg (ne_length_of_some h)]
  split
  · simp_all
  · rename_i c hc
    obtain rfl : c = b := by simpa [hc] using h
    rw [hv]

theorem sizeLoop_other (h : l.buf[l.src]? = some b) (hv : hexVal b = none) :
    sizeLoop l =
      if l.hex = 0 then throw (.out (some .Malformed) l)
      else if EndsSize b then pure l
      else throw (.out (some .Malformed) l) := by
  rw [sizeLoop, if_neg (ne_length_of_some h)]
  split
  · simp_all
  · rename_i c hc
    obtain rfl : c = b := by simpa [hc] using h
    rw [hv]
    rfl

theorem scanLoop_end {f : UInt8 → Reader.Act} (h : l.src = l.buf.length) :
    scanLoop f l = throw (.out (some .Partial) l) := by
  rw [scanLoop, if_pos h]

theorem scanLoop_some {f : UInt8 → Reader.Act} (h : l.buf[l.src]? = some b) :
    scanLoop f l =
      match f b with
      | .stop => pure l
      | .bad => throw (.out (some .Malformed) l)
      | .skip => scanLoop f { l with src := l.src + 1 } := by
  rw [scanLoop, if_neg (ne_length_of_some h)]
  split
  · simp_all
  · rename_i c hc
    obtain rfl : c = b := by simpa [hc] using h
    rfl

theorem expect_end {ch : UInt8} (h : l.src = l.buf.length) :
    expect ch l = throw (.out (some .Partial) l) := by
  rw [expect, if_pos h]

theorem expect_some (ch : UInt8) (h : l.buf[l.src]? = some b) :
    expect ch l =
      if b = ch then pure { l with src := l.src + 1 } else throw (.out (some .Malformed) l) := by
  rw [expect, if_neg (ne_length_of_some h), byte_of_some h, pure_bind, ite_not]

end

theorem hexDigit_eq (b : UInt8) : hexDigit b = (hexVal b).map UInt8.toNat := by
  revert b
  exact forall_byte (by decide +kernel)

theorem ofNat_toNat_toUInt64 (v : UInt8) : UInt64.ofNat v.toNat = v.toUInt64 := by
  apply UInt64.toNat_inj.mp
  rw [UInt8.toNat_toUInt64, UInt64.toNat_ofNat']
  exact Nat.mod_eq_of_lt (v.toNat_lt.trans (by decide))

/-! ### The loop as a whole -/

section

variable {t : Int8} {B P : List UInt8} {c : Config} {src : ℕ} {b : UInt8}

/-- The locals when the machine is in the configuration `c` and has emitted
`P`. -/
def locals (B P : List UInt8) (c : Config) (src : ℕ) : Locals where
  st := c.phase.code
  left := c.left
  hex := c.hex
  src := src
  dst := P.length
  buf := held B P

/-- How the loop leaves when the machine has ended. -/
def leave (B : List UInt8) (e : Ending) (P : List UInt8) (c : Config) (src : ℕ) : Break :=
  match e with
  | .more => .out (some .Partial) (locals B P c src)
  | .done => .out none (locals B P c src)
  | .bad => .out (some .Malformed) (locals B P c src)

theorem moveDown_locals (hP : P.length ≤ src) {n : ℕ} (hn : src + n ≤ B.length) :
    moveDown (locals B P c src) n = .ok (held B (P ++ (B.drop src).take n)) := by
  have hlen : (held B P).length = B.length := held_length (by omega)
  unfold moveDown
  split
  · rename_i heq
    obtain rfl : P.length = src := heq
    rw [held_same]
    rfl
  · rw [if_pos ⟨hn.trans_eq hlen.symm, by rw [locals, hlen]; dsimp only; omega⟩]
    exact congrArg Except.ok (held_move hP hn)

theorem decodeFrom_atEnd (hP : P.length ≤ B.length) (hc : c.phase ≠ .data) :
    decodeFrom t (locals B P c B.length) = leave B .more P c B.length := by
  have hend : (locals B P c B.length).src = (locals B P c B.length).buf.length :=
    (held_length hP).symm
  apply decodeFrom_of_error
  obtain ⟨phase, left, hex⟩ := c
  cases phase with
  | size => rw [chain_size rfl, sizeLoop_end hend]; rfl
  | ext => rw [chain_ext rfl, extLoop, scanLoop_end hend]; rfl
  | expectLf => rw [chain_expectLf rfl, expect_end hend]; rfl
  | data => exact absurd rfl hc
  | dataCr => rw [chain_dataCr rfl, expect_end hend]; rfl
  | dataLf => rw [chain_dataLf rfl, expect_end hend]; rfl
  | trailHead => rw [chain_trailHead rfl, scanLoop_end hend]; rfl
  | trailMid => rw [chain_trailMid rfl, scanLoop_end hend]; rfl

/-- What the loop does when the machine makes a turn. -/
def Follows (t : Int8) (B P : List UInt8) (c : Config) (src : ℕ) (b : UInt8) : Prop :=
  decodeFrom t (locals B P c src) =
    match step (t ≠ 0) c b with
    | .go c' _ => decodeFrom t (locals B P c' (src + 1))
    | .finish c' => leave B .done P c' (src + 1)
    | .reject c' => leave B .bad P c' src

theorem follows_ext (hb : (locals B P c src).buf[src]? = some b) (hc : c.phase = .ext) :
    decodeFrom t (locals B P c src) =
      match stepExt c b with
      | .go c' _ => decodeFrom t (locals B P c' (src + 1))
      | .finish c' => leave B .done P c' (src + 1)
      | .reject c' => leave B .bad P c' src := by
  obtain ⟨phase, left, hex⟩ := c
  obtain rfl : phase = .ext := hc
  have hscan := scanLoop_some (l := locals B P ⟨.ext, left, hex⟩ src)
    (f := fun b => if b = CR then .stop else if b = LF then .bad else .skip) hb
  unfold stepExt
  split_ifs with hcr hlf
  · apply decodeFrom_congr
    rw [chain_ext rfl, extLoop, hscan, if_pos hcr]
    rfl
  · apply decodeFrom_of_error
    rw [chain_ext rfl, extLoop, hscan, if_neg hcr, if_pos hlf]
    rfl
  · apply decodeFrom_congr
    rw [chain_ext rfl, extLoop, hscan, if_neg hcr, if_neg hlf, chain_ext rfl]
    rfl

theorem follows_size (hb : (locals B P c src).buf[src]? = some b) (hc : c.phase = .size) :
    Follows t B P c src b := by
  obtain ⟨phase, left, hex⟩ := c
  obtain rfl : phase = .size := hc
  simp only [Follows, step, hexDigit_eq]
  have hsize := chain_size (t := t) (l := locals B P ⟨.size, left, hex⟩ src) rfl
  cases hv : hexVal b with
  | some v =>
      have hloop := sizeLoop_digit hb hv
      simp only [Option.map_some]
      by_cases hhex : hex = 16
      · rw [if_pos hhex]
        apply decodeFrom_of_error
        rw [hsize, hloop.trans (if_pos hhex)]
        rfl
      · rw [if_neg hhex, ofNat_toNat_toUInt64]
        apply decodeFrom_congr
        rw [hsize, hloop.trans (if_neg hhex), chain_size rfl]
        rfl
  | none =>
      have hloop := sizeLoop_other hb hv
      simp only [Option.map_none]
      by_cases hhex : hex = 0
      · rw [if_pos (.inl hhex)]
        apply decodeFrom_of_error
        rw [hsize, hloop.trans (if_pos hhex)]
        rfl
      replace hloop := hloop.trans (if_neg hhex)
      by_cases hends : EndsSize b
      · -- the byte is not consumed: the loop over the extension reads it again
        rw [if_neg (not_or.mpr ⟨hhex, not_not.mpr hends⟩),
          ← follows_ext (c := ⟨.ext, left, 0⟩) hb rfl]
        apply decodeFrom_congr
        rw [hsize, hloop.trans (if_pos hends)]
        rfl
      · rw [if_pos (.inr hends)]
        apply decodeFrom_of_error
        rw [hsize, hloop.trans (if_neg hends)]
        rfl

theorem follows_expectLf (hb : (locals B P c src).buf[src]? = some b) (hc : c.phase = .expectLf) :
    Follows t B P c src b := by
  obtain ⟨phase, left, hex⟩ := c
  obtain rfl : phase = .expectLf := hc
  have hexpect := chain_expectLf (t := t) (l := locals B P ⟨.expectLf, left, hex⟩ src) rfl
  have hstep := expect_some LF hb
  simp only [Follows, step]
  by_cases hlf : b = LF
  · rw [if_neg (not_not.mpr hlf)]
    rw [hstep.trans (if_pos hlf), pure_bind] at hexpect
    by_cases hleft : left = 0
    · rw [if_neg (not_not.mpr hleft)]
      by_cases ht : t = 0
      · rw [if_neg (by simpa using ht)]
        apply decodeFrom_of_error
        exact hexpect.trans ((if_pos hleft).trans (if_neg (not_not.mpr ht)))
      · rw [if_pos (by simpa using ht)]
        apply decodeFrom_of_ok
        exact hexpect.trans ((if_pos hleft).trans (if_pos ht))
    · rw [if_pos hleft]
      apply decodeFrom_of_ok
      exact hexpect.trans (if_neg hleft)
  · rw [if_pos hlf]
    apply decodeFrom_of_error
    rw [hexpect, hstep.trans (if_neg hlf)]
    rfl

theorem follows_dataCr (hb : (locals B P c src).buf[src]? = some b) (hc : c.phase = .dataCr) :
    Follows t B P c src b := by
  obtain ⟨phase, left, hex⟩ := c
  obtain rfl : phase = .dataCr := hc
  have hexpect := chain_dataCr (t := t) (l := locals B P ⟨.dataCr, left, hex⟩ src) rfl
  have hstep := expect_some CR hb
  simp only [Follows, step]
  by_cases hcr : b = CR
  · rw [if_pos hcr]
    apply decodeFrom_congr
    rw [hexpect, hstep.trans (if_pos hcr)]
    rfl
  · rw [if_neg hcr]
    apply decodeFrom_of_error
    rw [hexpect, hstep.trans (if_neg hcr)]
    rfl

theorem follows_dataLf (hb : (locals B P c src).buf[src]? = some b) (hc : c.phase = .dataLf) :
    Follows t B P c src b := by
  obtain ⟨phase, left, hex⟩ := c
  obtain rfl : phase = .dataLf := hc
  have hexpect := chain_dataLf (t := t) (l := locals B P ⟨.dataLf, left, hex⟩ src) rfl
  have hstep := expect_some LF hb
  simp only [Follows, step]
  by_cases hlf : b = LF
  · rw [if_pos hlf]
    apply decodeFrom_of_ok
    rw [hexpect, hstep.trans (if_pos hlf)]
    rfl
  · rw [if_neg hlf]
    apply decodeFrom_of_error
    rw [hexpect, hstep.trans (if_neg hlf)]
    rfl

theorem follows_trailHead (hb : (locals B P c src).buf[src]? = some b)
    (hc : c.phase = .trailHead) : Follows t B P c src b := by
  obtain ⟨phase, left, hex⟩ := c
  obtain rfl : phase = .trailHead := hc
  have hhead := chain_trailHead (t := t) (l := locals B P ⟨.trailHead, left, hex⟩ src) rfl
  have hscan := scanLoop_some (f := fun b => if b ≠ CR then .stop else .skip) hb
  have hbyte := byte_of_some hb
  simp only [Follows, step]
  by_cases hcr : b = CR
  · rw [if_pos hcr]
    apply decodeFrom_congr
    rw [hhead, hscan, if_neg (not_not.mpr hcr), chain_trailHead rfl]
    rfl
  rw [hscan, if_pos hcr] at hhead
  change _ = (byte _ >>= _) at hhead
  rw [hbyte, pure_bind] at hhead
  rw [if_neg hcr]
  by_cases hlf : b = LF
  · rw [if_pos hlf]
    apply decodeFrom_of_error
    exact hhead.trans (if_pos hlf)
  · rw [if_neg hlf]
    apply decodeFrom_congr
    exact hhead.trans (if_neg hlf)

theorem follows_trailMid (hb : (locals B P c src).buf[src]? = some b)
    (hc : c.phase = .trailMid) : Follows t B P c src b := by
  obtain ⟨phase, left, hex⟩ := c
  obtain rfl : phase = .trailMid := hc
  have hmid := chain_trailMid (t := t) (l := locals B P ⟨.trailMid, left, hex⟩ src) rfl
  have hscan := scanLoop_some (f := fun b => if b = LF then .stop else .skip) hb
  simp only [Follows, step]
  by_cases hlf : b = LF
  · rw [if_pos hlf]
    apply decodeFrom_of_ok
    rw [hmid, hscan, if_pos hlf]
    rfl
  · rw [if_neg hlf]
    apply decodeFrom_congr
    rw [hmid, hscan, if_neg hlf, chain_trailMid rfl]
    rfl

theorem locals_append (B P : List UInt8) (c : Config) (src : ℕ) {xs : List UInt8} {n : ℕ}
    (hn : xs.length = n) :
    ({ st := c.phase.code, left := c.left, hex := c.hex, src := src, dst := P.length + n
       buf := held B (P ++ xs) } : Locals) = locals B (P ++ xs) c src := by
  rw [locals, List.length_append, hn]

theorem chain_locals_data (hP : P.length ≤ src) (hsrc : src ≤ B.length) (hc : c.phase = .data) :
    chain t (locals B P c src) =
      if B.length - src < c.left.toNat then
        throw (leave B .more (P ++ B.drop src)
          { c with left := c.left - UInt64.ofNat (B.length - src) } B.length)
      else
        chain t (locals B (P ++ (B.drop src).take c.left.toNat)
          { c with phase := .dataCr, left := 0 } (src + c.left.toNat)) := by
  obtain ⟨phase, left, hex⟩ := c
  obtain rfl : phase = .data := hc
  have hlen : (locals B P ⟨.data, left, hex⟩ src).buf.length -
      (locals B P ⟨.data, left, hex⟩ src).src = B.length - src := by
    rw [locals, held_length (hP.trans hsrc)]
  have hdrop : (B.drop src).length = B.length - src := List.length_drop
  have hdata := chain_data (t := t) (l := locals B P ⟨.data, left, hex⟩ src) rfl
  rw [hlen] at hdata
  by_cases hlt : B.length - src < left.toNat
  · have hend : src + (B.length - src) = B.length := Nat.add_sub_cancel' hsrc
    have hmove := moveDown_locals (c := ⟨.data, left, hex⟩) hP hend.le
    rw [List.take_of_length_le hdrop.le] at hmove
    have happend := locals_append B P ⟨.data, left - UInt64.ofNat (B.length - src), hex⟩
      (src + (B.length - src)) hdrop
    refine hdata.trans ((if_pos hlt).trans (Eq.trans ?_ (if_pos hlt).symm))
    rw [hmove]
    refine (congrArg (fun l => (throw (.out (some .Partial) l) : Chain Locals)) happend).trans ?_
    rw [hend]
    rfl
  · have hle : left.toNat ≤ B.length - src := Nat.le_of_not_lt hlt
    have hmove := moveDown_locals (B := B) (c := ⟨.data, left, hex⟩) (n := left.toNat) hP
      (by omega)
    have htake : ((B.drop src).take left.toNat).length = left.toNat :=
      length_take_drop (by omega)
    have happend := locals_append B P ⟨.dataCr, 0, hex⟩ (src + left.toNat) htake
    refine hdata.trans ((if_neg hlt).trans (Eq.trans ?_ (if_neg hlt).symm))
    rw [← happend]
    show moveDown _ left.toNat >>= _ = _
    rw [hmove]
    rfl

/-- The loop of the port decodes. -/
theorem decodes (t : Int8) (B : List UInt8) :
    Decodes (t ≠ 0) B (fun P c src => decodeFrom t (locals B P c src)) (leave B) where
  atEnd P c hP hc := decodeFrom_atEnd hP hc
  byte P c src b hP hb hc := by
    have hget : (locals B P c src).buf[src]? = some b := (held_get hP).trans hb
    cases hphase : c.phase with
    | size => exact follows_size hget hphase
    | ext =>
        have hstep : step (t ≠ 0) c b = stepExt c b := by rw [step, hphase]
        rw [hstep]
        exact follows_ext hget hphase
    | expectLf => exact follows_expectLf hget hphase
    | data => exact absurd hphase hc
    | dataCr => exact follows_dataCr hget hphase
    | dataLf => exact follows_dataLf hget hphase
    | trailHead => exact follows_trailHead hget hphase
    | trailMid => exact follows_trailMid hget hphase
  noData P c src hP hsrc hc hleft := by
    have hdata := chain_locals_data (t := t) hP hsrc hc
    have hzero : c.left.toNat = 0 := by rw [hleft]; rfl
    apply decodeFrom_congr
    rw [hdata, hzero, if_neg (Nat.not_lt_zero _), List.take_zero, List.append_nil, ← hleft]
    rfl
  short P c src hP hsrc hc hlt :=
    decodeFrom_of_error ((chain_locals_data hP hsrc hc).trans (if_pos hlt))
  full P c src hP hsrc hc hne hle :=
    decodeFrom_congr ((chain_locals_data hP hsrc hc).trans (if_neg (Nat.not_lt.mpr hle)))

end

end PicoHttpParser.Chunk.Port
