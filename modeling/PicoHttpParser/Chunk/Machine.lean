import PicoHttpParser.Lib.Transducer
import PicoHttpParser.Abi

/-!
The chunked coding, byte by byte.

Neither program looks like this: both read payload a chunk at a time, and
both keep what they have decoded in front of what they have not read, in one
buffer. The machine of this file reads one byte at a time and emits the
payload on the side. What a program has to do to be this machine is said by
`Decodes`, and `Decodes.run` is the one induction both programs share.
-/

namespace PicoHttpParser.Chunk

open Incremental

/-- Where in the coding the decoder is. -/
inductive Phase where
  | size
  | ext
  | expectLf
  | data
  | dataCr
  | dataLf
  | trailHead
  | trailMid
  deriving DecidableEq, Repr

/-- The number a decoder keeps for a phase. -/
def Phase.code : Phase → Int8
  | .size => 0
  | .ext => 1
  | .expectLf => 2
  | .data => 3
  | .dataCr => 4
  | .dataLf => 5
  | .trailHead => 6
  | .trailMid => 7

/-- What a decoder remembers of the coding between two bytes. -/
structure Config where
  phase : Phase
  left : UInt64
  hex : Int8
  deriving DecidableEq, Repr

/-- A decoder whose configuration is `c`. -/
def Config.store (d : PhrChunkedDecoder) (c : Config) : PhrChunkedDecoder :=
  { d with state := c.phase.code, bytesLeftInChunk := c.left, hexCount := c.hex }

/-- At the end of the payload of a chunk its line end is due. -/
def Config.enter (c : Config) : Config :=
  if c.phase = .data ∧ c.left = 0 then { c with phase := .dataCr } else c

/-- The value of a hexadecimal digit of either case. -/
def hexDigit (b : UInt8) : Option ℕ :=
  if 0x30 ≤ b ∧ b ≤ 0x39 then some (b.toNat - 0x30)
  else if 0x41 ≤ b ∧ b ≤ 0x46 then some (b.toNat - 0x37)
  else if 0x61 ≤ b ∧ b ≤ 0x66 then some (b.toNat - 0x57)
  else none

/-- What may follow the digits of a size. -/
def EndsSize (b : UInt8) : Prop := b = SP ∨ b = HTAB ∨ b = 0x3b ∨ b = LF ∨ b = CR

instance : DecidablePred EndsSize := fun _ => inferInstanceAs (Decidable (_ ∨ _))

/-- A byte of an extension. -/
def stepExt (c : Config) (b : UInt8) : Turn Config UInt8 :=
  if b = CR then .go { c with phase := .expectLf } []
  else if b = LF then .reject c
  else .go c []

/-- A byte of the coding. With a trailer to consume the last chunk is not
the end. -/
def step (trailer : Bool) (c : Config) (b : UInt8) : Turn Config UInt8 :=
  match c.phase with
  | .size =>
    match hexDigit b with
    | some v =>
      if c.hex = 16 then .reject c
      else .go { c with left := c.left * 16 + UInt64.ofNat v, hex := c.hex + 1 } []
    | none =>
      if c.hex = 0 ∨ ¬EndsSize b then .reject c
      else stepExt { c with phase := .ext, hex := 0 } b
  | .ext => stepExt c b
  | .expectLf =>
    if b ≠ LF then .reject c
    else if c.left ≠ 0 then .go { c with phase := .data } []
    else if trailer then .go { c with phase := .trailHead } []
    else .finish c
  | .data => .go { c with left := c.left - 1 }.enter [b]
  | .dataCr => if b = CR then .go { c with phase := .dataLf } [] else .reject c
  | .dataLf => if b = LF then .go { c with phase := .size } [] else .reject c
  | .trailHead =>
    if b = CR then .go c []
    else if b = LF then .finish c
    else .go { c with phase := .trailMid } []
  | .trailMid => if b = LF then .go { c with phase := .trailHead } [] else .go c []

/-! ### Payload -/

/-- There is payload left to read when the phase says so. -/
def Config.Entered (c : Config) : Prop := c.phase = .data → c.left ≠ 0

theorem Config.entered_enter (c : Config) : c.enter.Entered := by
  unfold Config.enter Config.Entered
  split
  · exact nofun
  · rename_i h
    intro hphase hleft
    exact h ⟨hphase, hleft⟩

theorem Config.entered_of_ne {c : Config} (h : c.phase ≠ .data) : c.Entered :=
  fun hphase => absurd hphase h

theorem Config.enter_of_entered {c : Config} (h : c.Entered) : c.enter = c :=
  if_neg fun hc => h hc.1 hc.2

section

variable {trailer : Bool}

theorem step_data {c : Config} (h : c.phase = .data) (b : UInt8) :
    step trailer c b = .go { c with left := c.left - 1 }.enter [b] := by
  rw [step, h]

theorem toNat_sub_one {x : UInt64} (h : x ≠ 0) : (x - 1).toNat = x.toNat - 1 := by
  have hpos : x.toNat ≠ 0 := fun h0 => h (UInt64.toNat_inj.mp h0)
  have hle : (1 : UInt64) ≤ x :=
    UInt64.le_iff_toNat_le.mpr (Nat.one_le_iff_ne_zero.mpr hpos)
  exact UInt64.toNat_sub_of_le x 1 hle

theorem sub_ofNat_succ (x : UInt64) (n : ℕ) :
    x - 1 - UInt64.ofNat n = x - UInt64.ofNat (n + 1) := by
  rw [UInt64.ofNat_add]
  grind

theorem ne_zero_of_lt {x : UInt64} {n : ℕ} (h : n < x.toNat) : x ≠ 0 := by
  rintro rfl
  exact absurd h (Nat.not_lt_zero n)

/-- Payload that ends before the chunk does. -/
theorem run_data_short {c : Config} (h : c.phase = .data) {bs : List UInt8}
    (hlen : bs.length < c.left.toNat) :
    run (step trailer) c bs =
      ⟨.more, { c with left := c.left - UInt64.ofNat bs.length }, bs, []⟩ := by
  induction bs generalizing c with
  | nil => simp
  | cons b bs ih =>
      rw [List.length_cons] at hlen
      have hleft := toNat_sub_one (ne_zero_of_lt hlen)
      have hlt : bs.length < (c.left - 1).toNat := by omega
      rw [run_cons_go (step_data h b), Config.enter_of_entered fun _ => ne_zero_of_lt hlt,
        ih (c := { c with left := c.left - 1 }) h hlt, List.length_cons, ← sub_ofNat_succ]
      rfl

/-- The payload of a chunk. -/
theorem run_data_full {c : Config} (h : c.phase = .data) (hne : c.left ≠ 0) {bs : List UInt8}
    (hlen : bs.length = c.left.toNat) (rest : List UInt8) :
    run (step trailer) c (bs ++ rest) =
      (run (step trailer) { c with phase := .dataCr, left := 0 } rest).prepend bs := by
  induction bs generalizing c with
  | nil => exact absurd (UInt64.toNat_inj.mp hlen.symm) hne
  | cons b bs ih =>
      rw [List.length_cons] at hlen
      have hleft := toNat_sub_one hne
      rw [List.cons_append, run_cons_go (step_data h b)]
      -- the last byte of the payload takes the machine to the line end
      by_cases hlast : c.left - 1 = 0
      · have hzero : (c.left - 1).toNat = 0 := by rw [hlast]; rfl
        obtain rfl : bs = [] := List.eq_nil_of_length_eq_zero (by omega)
        rw [Config.enter, if_pos ⟨h, hlast⟩, hlast]
        rfl
      · rw [Config.enter_of_entered fun _ => hlast,
          ih (c := { c with left := c.left - 1 }) h hlast (by dsimp only; omega),
          Run.prepend_prepend]
        rfl

end

/-! ### Programs -/

/-- The buffer of a program: the payload `P` stands in front, and the rest is
what it was. -/
def held (B P : List UInt8) : List UInt8 := P ++ B.drop P.length

section

variable {B P : List UInt8} {src : ℕ}

theorem held_length (h : P.length ≤ B.length) : (held B P).length = B.length := by
  rw [held, List.length_append, List.length_drop]
  omega

theorem held_get (h : P.length ≤ src) : (held B P)[src]? = B[src]? := by
  rw [held, List.getElem?_append_right h, List.getElem?_drop, Nat.add_sub_cancel' h]

theorem held_drop (h : P.length ≤ src) : (held B P).drop src = B.drop src := by
  rw [held, List.drop_append, List.drop_of_length_le h, List.nil_append, List.drop_drop,
    Nat.add_sub_cancel' h]

theorem length_take_drop {n : ℕ} (hn : src + n ≤ B.length) :
    ((B.drop src).take n).length = n := by
  rw [List.length_take, List.length_drop]
  omega

/-- A move of `n` bytes down to the payload appends them to it. -/
theorem held_move (hP : P.length ≤ src) {n : ℕ} (hn : src + n ≤ B.length) :
    (held B P).take P.length ++ ((held B P).drop src).take n ++ (held B P).drop (P.length + n) =
      held B (P ++ (B.drop src).take n) := by
  rw [held_drop hP, held_drop (Nat.le_add_right _ _), held, List.take_left, held,
    List.length_append, length_take_drop hn]

/-- A move of bytes that are already in place. -/
theorem held_same {n : ℕ} : held B (P ++ (B.drop P.length).take n) = held B P := by
  rw [held, held, List.append_assoc, List.length_append, ← List.drop_drop, List.length_take]
  congr 1
  rcases Nat.le_total n (B.drop P.length).length with h | h
  · rw [Nat.min_eq_left h, List.take_append_drop]
  · rw [Nat.min_eq_right h, List.take_of_length_le h, List.drop_length, List.append_nil]

end

section

variable {ρ : Type}

/-- What a program has to do to decode the buffer `B`. It holds the payload
`P` in front of what it has not read, is in the configuration `c` and reads
at `src`; `D` is what it does from there, and `leave` is how it leaves. It
takes payload in one piece. -/
structure Decodes (trailer : Bool) (B : List UInt8) (D : List UInt8 → Config → ℕ → ρ)
    (leave : Ending → List UInt8 → Config → ℕ → ρ) : Prop where
  atEnd : ∀ P c, P.length ≤ B.length → c.phase ≠ .data →
    D P c B.length = leave .more P c B.length
  byte : ∀ P c src b, P.length ≤ src → B[src]? = some b → c.phase ≠ .data →
    D P c src =
      match step trailer c b with
      | .go c' _ => D P c' (src + 1)
      | .finish c' => leave .done P c' (src + 1)
      | .reject c' => leave .bad P c' src
  noData : ∀ P c src, P.length ≤ src → src ≤ B.length → c.phase = .data → c.left = 0 →
    D P c src = D P { c with phase := .dataCr } src
  short : ∀ P c src, P.length ≤ src → src ≤ B.length → c.phase = .data →
    B.length - src < c.left.toNat →
    D P c src =
      leave .more (P ++ B.drop src) { c with left := c.left - UInt64.ofNat (B.length - src) }
        B.length
  full : ∀ P c src, P.length ≤ src → src ≤ B.length → c.phase = .data → c.left ≠ 0 →
    c.left.toNat ≤ B.length - src →
    D P c src =
      D (P ++ (B.drop src).take c.left.toNat) { c with phase := .dataCr, left := 0 }
        (src + c.left.toNat)

theorem stepExt_go {c c' : Config} {b : UInt8} {out : List UInt8} (hdata : c.phase ≠ .data)
    (h : stepExt c b = .go c' out) : out = [] ∧ c'.Entered := by
  unfold stepExt at h
  split_ifs at h
  · obtain ⟨rfl, rfl⟩ := Turn.go.inj h
    exact ⟨rfl, nofun⟩
  · obtain ⟨rfl, rfl⟩ := Turn.go.inj h
    exact ⟨rfl, fun hphase => absurd hphase hdata⟩

/-- A byte of anything but payload emits nothing. -/
theorem step_go {trailer : Bool} {c c' : Config} {b : UInt8} {out : List UInt8}
    (hdata : c.phase ≠ .data) (h : step trailer c b = .go c' out) : out = [] ∧ c'.Entered := by
  obtain ⟨phase, left, hex⟩ := c
  cases phase with
  | size =>
      simp only [step] at h
      split at h
      · split_ifs at h
        obtain ⟨rfl, rfl⟩ := Turn.go.inj h
        exact ⟨rfl, nofun⟩
      · split_ifs at h
        exact stepExt_go (by simp) h
  | ext => exact stepExt_go hdata h
  | expectLf =>
      simp only [step] at h
      split_ifs at h with hlf hleft htrailer
      · obtain ⟨rfl, rfl⟩ := Turn.go.inj h
        exact ⟨rfl, fun _ => hleft⟩
      · obtain ⟨rfl, rfl⟩ := Turn.go.inj h
        exact ⟨rfl, nofun⟩
  | data => exact absurd rfl hdata
  | dataCr | dataLf =>
      simp only [step] at h
      split_ifs at h
      obtain ⟨rfl, rfl⟩ := Turn.go.inj h
      exact ⟨rfl, nofun⟩
  | trailHead | trailMid =>
      simp only [step] at h
      split_ifs at h <;>
        (obtain ⟨rfl, rfl⟩ := Turn.go.inj h
         exact ⟨rfl, nofun⟩)

theorem step_entered {trailer : Bool} {c c' : Config} {b : UInt8} {out : List UInt8}
    (h : step trailer c b = .go c' out) : c'.Entered := by
  by_cases hdata : c.phase = .data
  · rw [step_data hdata] at h
    rw [← (Turn.go.inj h).1]
    exact Config.entered_enter _
  · exact (step_go hdata h).2

theorem Decodes.run_entered {trailer : Bool} {B : List UInt8} {D : List UInt8 → Config → ℕ → ρ}
    {leave : Ending → List UInt8 → Config → ℕ → ρ} (h : Decodes trailer B D leave)
    (P : List UInt8) (c : Config) (src : ℕ) (hP : P.length ≤ src) (hsrc : src ≤ B.length)
    (hc : c.Entered) :
    D P c src =
      let r := Incremental.run (step trailer) c (B.drop src)
      leave r.ending (P ++ r.out) r.config (B.length - r.rest.length) := by
  -- on what is not read yet; every turn reads something
  induction hn : B.length - src using Nat.strong_induction_on generalizing P c src with
  | _ n ih =>
      by_cases hdata : c.phase = .data
      · have hlen : (B.drop src).length = B.length - src := List.length_drop
        rcases Nat.lt_or_ge (B.length - src) c.left.toNat with hlt | hge
        · rw [h.short P c src hP hsrc hdata hlt,
            run_data_short hdata (by rw [hlen]; exact hlt), hlen]
          rfl
        · have hne := hc hdata
          have hpos : c.left.toNat ≠ 0 := fun h0 => hne (UInt64.toNat_inj.mp h0)
          have htake : ((B.drop src).take c.left.toNat).length = c.left.toNat :=
            length_take_drop (by omega)
          rw [h.full P c src hP hsrc hdata hne hge,
            ih (B.length - (src + c.left.toNat)) (by omega) _ _ _
              (by rw [List.length_append, htake]; omega) (by omega)
              (Config.entered_of_ne (by simp)) rfl]
          conv_rhs => rw [← List.take_append_drop c.left.toNat (B.drop src)]
          rw [run_data_full hdata hne htake, List.drop_drop]
          simp only [Run.prepend_ending, Run.prepend_out, Run.prepend_config, Run.prepend_rest,
            List.append_assoc]
      · -- anything but payload goes byte by byte, in step with the machine
        rcases Nat.eq_or_lt_of_le hsrc with rfl | hlt
        · rw [h.atEnd P c hP hdata]
          simp
        · rw [h.byte P c src B[src] hP (List.getElem?_eq_getElem hlt) hdata,
            List.drop_eq_getElem_cons hlt]
          cases hs : step trailer c B[src] with
          | go c' out =>
              obtain ⟨rfl, hc'⟩ := step_go hdata hs
              rw [run_cons_go hs]
              exact ih (B.length - (src + 1)) (by omega) P c' (src + 1) (by omega) hlt hc' rfl
          | finish c' =>
              rw [run_cons_finish hs]
              simp only [List.append_nil, List.length_drop]
              congr
              omega
          | reject c' =>
              rw [run_cons_reject hs]
              simp only [List.append_nil, List.length_cons, List.length_drop]
              congr
              omega

/-- A program that does what `Decodes` says runs the machine. -/
theorem Decodes.run {trailer : Bool} {B : List UInt8} {D : List UInt8 → Config → ℕ → ρ}
    {leave : Ending → List UInt8 → Config → ℕ → ρ} (h : Decodes trailer B D leave)
    (P : List UInt8) (c : Config) (src : ℕ) (hP : P.length ≤ src) (hsrc : src ≤ B.length) :
    D P c src =
      let r := Incremental.run (step trailer) c.enter (B.drop src)
      leave r.ending (P ++ r.out) r.config (B.length - r.rest.length) := by
  by_cases hc : c.phase = .data ∧ c.left = 0
  · rw [h.noData P c src hP hsrc hc.1 hc.2, h.run_entered P _ src hP hsrc
      (Config.entered_of_ne (by simp)), Config.enter, if_pos hc]
  · have hentered : c.Entered := fun hphase hleft => hc ⟨hphase, hleft⟩
    rw [h.run_entered P c src hP hsrc hentered, Config.enter_of_entered hentered]

end

end PicoHttpParser.Chunk
