import PicoHttpParser.Chunk.Machine
import PicoHttpParser.Reference.Chunked

/-!
The chunked decoder of the original runs the machine.

A case that falls through is the switch on the next state, once that state
has been stored. So the equations of this file are the ones of the port,
although the original does not return to the loop where the port does.
-/

namespace PicoHttpParser.Chunk.Original

open Incremental Reference Reference.Chunked

/-! ### The switch, case by case -/

section

variable {s : State}

theorem switch_size (h : s.decoder.state = 0) :
    switch s = sizeLoop s >>= fun s =>
      switch { s with decoder := { s.decoder with hexCount := 0, state := 1 } } :=
  if_pos h

theorem switch_ext (h : s.decoder.state = 1) :
    switch s = extLoop s >>= fun s => switch (s.next.setState 2) := by
  rw [switch, h]
  rfl

theorem switch_data (h : s.decoder.state = 3) : switch s = caseData s := by
  rw [switch, h]
  rfl

theorem switch_dataCr (h : s.decoder.state = 4) : switch s = caseDataExpectCr s := by
  rw [switch, h]
  rfl

theorem switch_dataLf (h : s.decoder.state = 5) : switch s = caseDataExpectLf s := by
  rw [switch, h]
  rfl

theorem switch_expectLf (h : s.decoder.state = 2) : switch s = caseHeaderExpectLf s := by
  rw [switch, h]
  rfl

theorem switch_trailHead (h : s.decoder.state = 6) :
    switch s = scanLoop (fun b => if b ≠ 0o15 then .stop else .skip) s >>= fun s =>
      Chunked.deref s >>= fun b =>
        if b = 0o12 then throw (.complete s.next) else switch (s.next.setState 7) := by
  rw [switch, h]
  rfl

theorem switch_trailMid (h : s.decoder.state = 7) :
    switch s = scanLoop (fun b => if b = 0o12 then .stop else .skip) s >>= fun s =>
      pure (s.next.setState 6) := by
  rw [switch, h]
  rfl

theorem decodeFrom_congr {s' : State} (h : switch s = switch s') :
    decodeFrom s = decodeFrom s' := by
  rw [decodeFrom, decodeFrom]
  split <;> split <;> simp_all

theorem decodeFrom_of_ok {s' : State} (h : switch s = .ok s') : decodeFrom s = decodeFrom s' := by
  rw [decodeFrom, h]

theorem decodeFrom_of_error {l : Leave} (h : switch s = .error l) : decodeFrom s = l := by
  rw [decodeFrom, h]

end

/-! ### The loops, byte by byte -/

section

variable {s : State} {b : UInt8}

theorem ne_length_of_some (h : s.buf[s.src]? = some b) : s.src ≠ s.buf.length :=
  (List.getElem?_eq_some_iff.mp h).1.ne

theorem deref_of_some (h : s.buf[s.src]? = some b) : Chunked.deref s = pure b := by
  rw [Chunked.deref, h]

theorem decodeHex_eq (b : UInt8) :
    decodeHex b.toInt8.toInt =
      match hexDigit b with
      | some v => (v : ℤ)
      | none => -1 := by
  revert b
  exact forall_byte (by decide +kernel)

theorem sizeLoop_end (h : s.src = s.buf.length) : sizeLoop s = throw (.exit (-2) s) := by
  rw [sizeLoop, if_pos h]

theorem sizeLoop_digit (h : s.buf[s.src]? = some b) {v : ℕ} (hv : hexDigit b = some v) :
    sizeLoop s =
      if s.decoder.hexCount = 16 then throw (.exit (-1) s)
      else
        sizeLoop
          { s with
            src := s.src + 1
            decoder :=
              { s.decoder with
                bytesLeftInChunk := s.decoder.bytesLeftInChunk * 16 + UInt64.ofNat v
                hexCount := s.decoder.hexCount + 1 } } := by
  conv_lhs => rw [sizeLoop]
  rw [if_neg (ne_length_of_some h)]
  split
  · simp_all
  · rename_i c hc
    obtain rfl : c = b := by simpa [hc] using h
    have hne : (v : ℤ) ≠ -1 := by omega
    rw [decodeHex_eq, hv]
    exact if_neg hne

theorem sizeLoop_other (h : s.buf[s.src]? = some b) (hv : hexDigit b = none) :
    sizeLoop s =
      if s.decoder.hexCount = 0 then throw (.exit (-1) s)
      else if EndsSize b then pure s
      else throw (.exit (-1) s) := by
  rw [sizeLoop, if_neg (ne_length_of_some h)]
  split
  · simp_all
  · rename_i c hc
    obtain rfl : c = b := by simpa [hc] using h
    rw [decodeHex_eq, hv]
    rfl

theorem scanLoop_end {f : UInt8 → Reader.Act} (h : s.src = s.buf.length) :
    scanLoop f s = throw (.exit (-2) s) := by
  rw [scanLoop, if_pos h]

theorem scanLoop_some {f : UInt8 → Reader.Act} (h : s.buf[s.src]? = some b) :
    scanLoop f s =
      match f b with
      | .stop => pure s
      | .bad => throw (.exit (-1) s)
      | .skip => scanLoop f s.next := by
  rw [scanLoop, if_neg (ne_length_of_some h)]
  split
  · simp_all
  · rename_i c hc
    obtain rfl : c = b := by simpa [hc] using h
    rfl

theorem caseHeaderExpectLf_some (h : s.buf[s.src]? = some b) :
    caseHeaderExpectLf s =
      if b ≠ LF then throw (.exit (-1) s)
      else if s.decoder.bytesLeftInChunk = 0 then
        if s.decoder.consumeTrailer ≠ 0 then pure (s.next.setState 6) else throw (.complete s.next)
      else caseData (s.next.setState 3) := by
  rw [caseHeaderExpectLf, if_neg (ne_length_of_some h), deref_of_some h]
  rfl

theorem caseDataExpectCr_some (h : s.buf[s.src]? = some b) :
    caseDataExpectCr s =
      if b ≠ CR then throw (.exit (-1) s) else caseDataExpectLf (s.next.setState 5) := by
  rw [caseDataExpectCr, if_neg (ne_length_of_some h), deref_of_some h]
  rfl

theorem caseDataExpectLf_some (h : s.buf[s.src]? = some b) :
    caseDataExpectLf s =
      if b ≠ LF then throw (.exit (-1) s) else pure (s.next.setState 0) := by
  rw [caseDataExpectLf, if_neg (ne_length_of_some h), deref_of_some h]
  rfl

end

/-! ### The loop as a whole -/

section

variable {d : PhrChunkedDecoder} {B P : List UInt8} {c : Config} {src : ℕ} {b : UInt8}

/-- The state when the machine is in the configuration `c` and has emitted
`P`. -/
def state (d : PhrChunkedDecoder) (B P : List UInt8) (c : Config) (src : ℕ) : State where
  decoder := c.store d
  buf := held B P
  src := src
  dst := P.length

/-- How the loop leaves when the machine has ended. -/
def leave (d : PhrChunkedDecoder) (B : List UInt8) (e : Ending) (P : List UInt8) (c : Config)
    (src : ℕ) : Leave :=
  match e with
  | .more => .exit (-2) (state d B P c src)
  | .done => .complete (state d B P c src)
  | .bad => .exit (-1) (state d B P c src)

theorem memmove_state (hP : P.length ≤ src) {n : ℕ} (hn : src + n ≤ B.length) :
    memmove (state d B P c src) n =
      .ok { state d B P c src with buf := held B (P ++ (B.drop src).take n) } := by
  have hlen : (held B P).length = B.length := held_length (by omega)
  unfold memmove
  split
  · rename_i heq
    obtain rfl : P.length = src := heq
    rw [held_same]
    rfl
  · rw [if_pos ⟨hn.trans_eq hlen.symm, by rw [state, hlen]; dsimp only; omega⟩]
    exact congrArg (fun buf => Except.ok { state d B P c src with buf := buf }) (held_move hP hn)

theorem decodeFrom_atEnd (hP : P.length ≤ B.length) (hc : c.phase ≠ .data) :
    decodeFrom (state d B P c B.length) = leave d B .more P c B.length := by
  have hend : (state d B P c B.length).src = (state d B P c B.length).buf.length :=
    (held_length hP).symm
  apply decodeFrom_of_error
  obtain ⟨phase, left, hex⟩ := c
  cases phase with
  | size => rw [switch_size rfl, sizeLoop_end hend]; rfl
  | ext => rw [switch_ext rfl, extLoop, scanLoop_end hend]; rfl
  | expectLf => exact (switch_expectLf rfl).trans (if_pos hend)
  | data => exact absurd rfl hc
  | dataCr => exact (switch_dataCr rfl).trans (if_pos hend)
  | dataLf => exact (switch_dataLf rfl).trans (if_pos hend)
  | trailHead => rw [switch_trailHead rfl, scanLoop_end hend]; rfl
  | trailMid => rw [switch_trailMid rfl, scanLoop_end hend]; rfl

/-- What the loop does when the machine makes a turn. -/
def Follows (d : PhrChunkedDecoder) (B P : List UInt8) (c : Config) (src : ℕ) (b : UInt8) :
    Prop :=
  decodeFrom (state d B P c src) =
    match step (d.consumeTrailer ≠ 0) c b with
    | .go c' _ => decodeFrom (state d B P c' (src + 1))
    | .finish c' => leave d B .done P c' (src + 1)
    | .reject c' => leave d B .bad P c' src

theorem follows_ext (hb : (state d B P c src).buf[src]? = some b) (hc : c.phase = .ext) :
    decodeFrom (state d B P c src) =
      match stepExt c b with
      | .go c' _ => decodeFrom (state d B P c' (src + 1))
      | .finish c' => leave d B .done P c' (src + 1)
      | .reject c' => leave d B .bad P c' src := by
  obtain ⟨phase, left, hex⟩ := c
  obtain rfl : phase = .ext := hc
  have hscan := scanLoop_some (s := state d B P ⟨.ext, left, hex⟩ src)
    (f := fun b => if b = 0o15 then .stop else if b = 0o12 then .bad else .skip) hb
  unfold stepExt
  split_ifs with hcr hlf
  · apply decodeFrom_congr
    rw [switch_ext rfl, extLoop, hscan, if_pos hcr]
    rfl
  · apply decodeFrom_of_error
    rw [switch_ext rfl, extLoop, hscan, if_neg hcr, if_pos hlf]
    rfl
  · apply decodeFrom_congr
    rw [switch_ext rfl, extLoop, hscan, if_neg hcr, if_neg hlf, switch_ext rfl]
    rfl

theorem follows_size (hb : (state d B P c src).buf[src]? = some b) (hc : c.phase = .size) :
    Follows d B P c src b := by
  obtain ⟨phase, left, hex⟩ := c
  obtain rfl : phase = .size := hc
  simp only [Follows, step]
  have hsize := switch_size (s := state d B P ⟨.size, left, hex⟩ src) rfl
  cases hv : hexDigit b with
  | some v =>
      have hloop := sizeLoop_digit (s := state d B P ⟨.size, left, hex⟩ src) hb hv
      by_cases hhex : hex = 16
      · simp only [if_pos hhex]
        apply decodeFrom_of_error
        rw [hsize, hloop.trans (if_pos hhex)]
        rfl
      · simp only [if_neg hhex]
        apply decodeFrom_congr
        rw [hsize, hloop.trans (if_neg hhex), switch_size rfl]
        rfl
  | none =>
      have hloop := sizeLoop_other (s := state d B P ⟨.size, left, hex⟩ src) hb hv
      by_cases hhex : hex = 0
      · simp only [if_pos (Or.inl hhex)]
        apply decodeFrom_of_error
        rw [hsize, hloop.trans (if_pos hhex)]
        rfl
      replace hloop := hloop.trans (if_neg hhex)
      by_cases hends : EndsSize b
      · simp only [if_neg (not_or.mpr ⟨hhex, not_not.mpr hends⟩)]
        rw [← follows_ext (c := ⟨.ext, left, 0⟩) hb rfl]
        apply decodeFrom_congr
        rw [hsize, hloop.trans (if_pos hends)]
        rfl
      · simp only [if_pos (Or.inr hends)]
        apply decodeFrom_of_error
        rw [hsize, hloop.trans (if_neg hends)]
        rfl

theorem follows_expectLf (hb : (state d B P c src).buf[src]? = some b)
    (hc : c.phase = .expectLf) : Follows d B P c src b := by
  obtain ⟨phase, left, hex⟩ := c
  obtain rfl : phase = .expectLf := hc
  have hcase := caseHeaderExpectLf_some (s := state d B P ⟨.expectLf, left, hex⟩ src) hb
  rw [← switch_expectLf rfl] at hcase
  simp only [Follows, step]
  by_cases hlf : b = LF
  · rw [if_neg (not_not.mpr hlf)]
    replace hcase := hcase.trans (if_neg (not_not.mpr hlf))
    by_cases hleft : left = 0
    · rw [if_neg (not_not.mpr hleft)]
      replace hcase := hcase.trans (if_pos hleft)
      by_cases ht : d.consumeTrailer = 0
      · rw [if_neg (by simpa using ht)]
        apply decodeFrom_of_error
        exact hcase.trans (if_neg (not_not.mpr ht))
      · rw [if_pos (by simpa using ht)]
        apply decodeFrom_of_ok
        exact hcase.trans (if_pos ht)
    · -- the original goes on in the same turn of its loop
      rw [if_pos hleft]
      apply decodeFrom_congr
      exact (hcase.trans (if_neg hleft)).trans (switch_data rfl).symm
  · rw [if_pos hlf]
    apply decodeFrom_of_error
    exact hcase.trans (if_pos hlf)

theorem follows_dataCr (hb : (state d B P c src).buf[src]? = some b) (hc : c.phase = .dataCr) :
    Follows d B P c src b := by
  obtain ⟨phase, left, hex⟩ := c
  obtain rfl : phase = .dataCr := hc
  have hcase := caseDataExpectCr_some (s := state d B P ⟨.dataCr, left, hex⟩ src) hb
  rw [← switch_dataCr rfl] at hcase
  simp only [Follows, step]
  by_cases hcr : b = CR
  · rw [if_pos hcr]
    apply decodeFrom_congr
    exact (hcase.trans (if_neg (not_not.mpr hcr))).trans (switch_dataLf rfl).symm
  · rw [if_neg hcr]
    apply decodeFrom_of_error
    exact hcase.trans (if_pos hcr)

theorem follows_dataLf (hb : (state d B P c src).buf[src]? = some b) (hc : c.phase = .dataLf) :
    Follows d B P c src b := by
  obtain ⟨phase, left, hex⟩ := c
  obtain rfl : phase = .dataLf := hc
  have hcase := caseDataExpectLf_some (s := state d B P ⟨.dataLf, left, hex⟩ src) hb
  rw [← switch_dataLf rfl] at hcase
  simp only [Follows, step]
  by_cases hlf : b = LF
  · rw [if_pos hlf]
    apply decodeFrom_of_ok
    exact hcase.trans (if_neg (not_not.mpr hlf))
  · rw [if_neg hlf]
    apply decodeFrom_of_error
    exact hcase.trans (if_pos hlf)

theorem follows_trailHead (hb : (state d B P c src).buf[src]? = some b)
    (hc : c.phase = .trailHead) : Follows d B P c src b := by
  obtain ⟨phase, left, hex⟩ := c
  obtain rfl : phase = .trailHead := hc
  have hhead := switch_trailHead (s := state d B P ⟨.trailHead, left, hex⟩ src) rfl
  have hscan := scanLoop_some (s := state d B P ⟨.trailHead, left, hex⟩ src)
    (f := fun b => if b ≠ 0o15 then .stop else .skip) hb
  have hderef := deref_of_some (s := state d B P ⟨.trailHead, left, hex⟩ src) hb
  simp only [Follows, step]
  by_cases hcr : b = CR
  · rw [if_pos hcr]
    apply decodeFrom_congr
    rw [hhead, hscan, if_neg (not_not.mpr hcr), switch_trailHead rfl]
    rfl
  rw [hscan, if_pos hcr] at hhead
  change _ = (Chunked.deref _ >>= _) at hhead
  rw [hderef, pure_bind] at hhead
  rw [if_neg hcr]
  by_cases hlf : b = LF
  · rw [if_pos hlf]
    apply decodeFrom_of_error
    exact hhead.trans (if_pos hlf)
  · rw [if_neg hlf]
    apply decodeFrom_congr
    exact hhead.trans (if_neg hlf)

theorem follows_trailMid (hb : (state d B P c src).buf[src]? = some b)
    (hc : c.phase = .trailMid) : Follows d B P c src b := by
  obtain ⟨phase, left, hex⟩ := c
  obtain rfl : phase = .trailMid := hc
  have hmid := switch_trailMid (s := state d B P ⟨.trailMid, left, hex⟩ src) rfl
  have hscan := scanLoop_some (s := state d B P ⟨.trailMid, left, hex⟩ src)
    (f := fun b => if b = 0o12 then .stop else .skip) hb
  simp only [Follows, step]
  by_cases hlf : b = LF
  · rw [if_pos hlf]
    apply decodeFrom_of_ok
    rw [hmid, hscan, if_pos hlf]
    rfl
  · rw [if_neg hlf]
    apply decodeFrom_congr
    rw [hmid, hscan, if_neg hlf, switch_trailMid rfl]
    rfl

theorem state_append (d : PhrChunkedDecoder) (B P : List UInt8) (c : Config) (src : ℕ)
    {xs : List UInt8} {n : ℕ} (hn : xs.length = n) :
    ({ decoder := c.store d, buf := held B (P ++ xs), src := src, dst := P.length + n } : State) =
      state d B (P ++ xs) c src := by
  rw [state, List.length_append, hn]

theorem switch_state_data (hP : P.length ≤ src) (hsrc : src ≤ B.length) (hc : c.phase = .data) :
    switch (state d B P c src) =
      if B.length - src < c.left.toNat then
        throw (leave d B .more (P ++ B.drop src)
          { c with left := c.left - UInt64.ofNat (B.length - src) } B.length)
      else
        switch (state d B (P ++ (B.drop src).take c.left.toNat)
          { c with phase := .dataCr, left := 0 } (src + c.left.toNat)) := by
  obtain ⟨phase, left, hex⟩ := c
  obtain rfl : phase = .data := hc
  have hlen : (state d B P ⟨.data, left, hex⟩ src).buf.length -
      (state d B P ⟨.data, left, hex⟩ src).src = B.length - src := by
    rw [state, held_length (hP.trans hsrc)]
  have hdrop : (B.drop src).length = B.length - src := List.length_drop
  have hdata := switch_data (s := state d B P ⟨.data, left, hex⟩ src) rfl
  rw [caseData, hlen] at hdata
  by_cases hlt : B.length - src < left.toNat
  · have hend : src + (B.length - src) = B.length := Nat.add_sub_cancel' hsrc
    have hmove := memmove_state (d := d) (c := ⟨.data, left, hex⟩) hP hend.le
    rw [List.take_of_length_le hdrop.le] at hmove
    have happend := state_append d B P ⟨.data, left - UInt64.ofNat (B.length - src), hex⟩
      (src + (B.length - src)) hdrop
    refine hdata.trans ((if_pos hlt).trans (Eq.trans ?_ (if_pos hlt).symm))
    rw [hmove]
    refine (congrArg (fun s => (throw (.exit (-2) s) : Flow State)) happend).trans ?_
    rw [hend]
    rfl
  · have hle : left.toNat ≤ B.length - src := Nat.le_of_not_lt hlt
    have hmove := memmove_state (d := d) (B := B) (c := ⟨.data, left, hex⟩) (n := left.toNat) hP
      (by omega)
    have htake : ((B.drop src).take left.toNat).length = left.toNat :=
      length_take_drop (by omega)
    have happend := state_append d B P ⟨.dataCr, 0, hex⟩ (src + left.toNat) htake
    refine hdata.trans ((if_neg hlt).trans (Eq.trans ?_ (if_neg hlt).symm))
    rw [← happend, switch_dataCr rfl]
    show memmove _ left.toNat >>= _ = _
    rw [hmove]
    rfl

/-- The loop of the original decodes. -/
theorem decodes (d : PhrChunkedDecoder) (B : List UInt8) :
    Decodes (d.consumeTrailer ≠ 0) B (fun P c src => decodeFrom (state d B P c src))
      (leave d B) where
  atEnd P c hP hc := decodeFrom_atEnd hP hc
  byte P c src b hP hb hc := by
    have hget : (state d B P c src).buf[src]? = some b := (held_get hP).trans hb
    cases hphase : c.phase with
    | size => exact follows_size hget hphase
    | ext =>
        have hstep : step (d.consumeTrailer ≠ 0) c b = stepExt c b := by rw [step, hphase]
        rw [hstep]
        exact follows_ext hget hphase
    | expectLf => exact follows_expectLf hget hphase
    | data => exact absurd hphase hc
    | dataCr => exact follows_dataCr hget hphase
    | dataLf => exact follows_dataLf hget hphase
    | trailHead => exact follows_trailHead hget hphase
    | trailMid => exact follows_trailMid hget hphase
  noData P c src hP hsrc hc hleft := by
    have hdata := switch_state_data (d := d) hP hsrc hc
    have hzero : c.left.toNat = 0 := by rw [hleft]; rfl
    apply decodeFrom_congr
    rw [hdata, hzero, if_neg (Nat.not_lt_zero _), List.take_zero, List.append_nil, ← hleft]
    rfl
  short P c src hP hsrc hc hlt :=
    decodeFrom_of_error ((switch_state_data hP hsrc hc).trans (if_pos hlt))
  full P c src hP hsrc hc hne hle :=
    decodeFrom_congr ((switch_state_data hP hsrc hc).trans (if_neg (Nat.not_lt.mpr hle)))

end

end PicoHttpParser.Chunk.Original
