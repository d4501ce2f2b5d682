import PicoHttpParser.Chunk.Equivalence
import Mathlib.Algebra.Order.Ring.Nat

/-!
Streams of the port, read by read.

A decoder is called on one buffer after the other. What a call does to its
buffer does not disturb what it still has to read, and where the stream is
cut makes no difference, since what a call leaves in the decoder is the
configuration of the machine. The counters add up over the calls, and so the
overhead rule is a rule about the stream.
-/

namespace PicoHttpParser.Chunk

open Incremental Rust Rust.Chunked

/-- A decoder before its first call. -/
def zeroed (consumeTrailer : Int8) : PhrChunkedDecoder := ⟨0, consumeTrailer, 0, 0, 0, 0⟩

/-- A call of `decode_chunked`: the error its loop was left with and where
the loop stood, what the call has answered, how many bytes it has decoded,
and what it has left in the decoder and in the buffer. -/
structure Call where
  exit : Option Error
  src : ℕ
  dst : ℕ
  answer : Except Error ℕ
  decodedLen : ℕ
  decoder : PhrChunkedDecoder
  buf : List UInt8
  deriving DecidableEq

/-- The bytes a caller takes from the buffer. -/
def Call.decoded (c : Call) : List UInt8 := c.buf.take c.decodedLen

/-- There is no call if the code panics. -/
def call (d : PhrChunkedDecoder) (B : List UInt8) : Option Call :=
  match decodeFrom d.consumeTrailer (enter (countRead d B.length) B), decodeChunked (d, B) with
  | .out exit l, .ok (answer, decodedLen) (decoder, buf) =>
    some ⟨exit, l.src, l.dst, answer, decodedLen, decoder, buf⟩
  | _, _ => none

/-- The error the loop is left with when the machine has ended. -/
def exitOf : Ending → Option Error
  | .more => some .Partial
  | .done => none
  | .bad => some .Malformed

theorem exitOf_injective : Function.Injective exitOf := by
  intro e e' h
  cases e <;> cases e' <;> first | rfl | cases h

section

variable {d : PhrChunkedDecoder} {B : List UInt8}

theorem call_eq (h : Valid d) (B : List UInt8) :
    call d B =
      some
        { exit := exitOf (reading d B).ending
          src := B.length - (reading d B).rest.length
          dst := (reading d B).out.length
          answer := answer d B
          decodedLen := (reading d B).out.length
          decoder := after d B
          buf := settled d B } := by
  rw [call, Port.decodeFrom_enter h, Port.decodeChunked_eq h]
  cases (reading d B).ending with
  | more => rfl
  | done => rfl
  | bad => rfl

theorem take_settled (d : PhrChunkedDecoder) (B : List UInt8) :
    (settled d B).take (reading d B).out.length = (reading d B).out := by
  rw [settled, List.append_assoc, List.take_left]

/-- A call in terms of the machine. -/
structure Reads (d : PhrChunkedDecoder) (B : List UInt8) (c : Call) : Prop where
  exit : c.exit = exitOf (reading d B).ending
  leftover : B.length - c.src = (reading d B).rest.length
  answer : c.answer = answer d B
  decoded : c.decoded = (reading d B).out
  decodedLen : c.decodedLen = (reading d B).out.length
  decoder : c.decoder = after d B

theorem reads_of_call (h : Valid d) {c : Call} (hc : call d B = some c) : Reads d B c := by
  rw [call_eq h] at hc
  obtain rfl := Option.some.inj hc
  exact ⟨rfl, sub_reading_rest d B, rfl, take_settled d B, rfl, rfl⟩

theorem reading_rest_of_more (h : (reading d B).ending = .more) : (reading d B).rest = [] :=
  rest_of_more h

theorem answer_eq_ok {leftover : ℕ} :
    answer d B = .ok leftover ↔
      (reading d B).ending = .done ∧ leftover = (reading d B).rest.length := by
  unfold answer
  cases (reading d B).ending with
  | more =>
      refine ⟨fun h => ?_, fun h => by cases h.1⟩
      dsimp only at h
      split at h <;> cases h
  | done => exact ⟨fun h => ⟨rfl, (Except.ok.inj h).symm⟩, fun h => congrArg Except.ok h.2.symm⟩
  | bad => exact ⟨nofun, fun h => by cases h.1⟩

theorem answer_of_more (h : (reading d B).ending = .more) :
    answer d B = if Excessive (after d B) then .error .Malformed else .error .Partial := by
  rw [answer, h]

theorem more_of_answer (h : answer d B = .error .Partial) : (reading d B).ending = .more := by
  unfold answer at h
  split at h
  · cases h
  · cases h
  · assumption

theorem verdict_iff {p : Prop} [Decidable p] {r : Except Error ℕ}
    (h : r = if p then .error .Malformed else .error .Partial) :
    (r = .error .Malformed ↔ p) ∧ (r = .error .Partial ↔ ¬p) := by
  rw [h]
  by_cases hp : p
  · rw [if_pos hp]
    exact ⟨iff_of_true rfl hp, iff_of_false nofun (not_not.mpr hp)⟩
  · rw [if_neg hp]
    exact ⟨iff_of_false nofun hp, iff_of_true rfl hp⟩

theorem answer_of_bad (h : (reading d B).ending = .bad) : answer d B = .error .Malformed := by
  rw [answer, h]

end

/-! ### The buffer -/

/-- Decoding in place. Wherever the call ends, the buffer holds the payload
of the bytes that were passed in, the bytes the call has not read, and what
it held behind them. -/
theorem in_place {d : PhrChunkedDecoder} (h : 0 ≤ d.state ∧ d.state ≤ 7) (B : List UInt8) :
    ∃ c, call d B = some c ∧
      c.dst ≤ c.src ∧ c.src ≤ B.length ∧ (reading d B).out.length = c.dst ∧
      c.buf = (reading d B).out ++ B.drop c.src ++ B.drop (c.dst + (B.length - c.src)) ∧
      c.decodedLen = c.dst ∧
      (∀ leftover, c.answer = .ok leftover → leftover = B.length - c.src) ∧
      (c.exit = some .Partial → c.src = B.length) := by
  have hrest := sub_reading_rest d B
  refine ⟨_, call_eq h B, reading_out_le d B, Nat.sub_le _ _, rfl, ?_, rfl, ?_, ?_⟩
  · dsimp only
    rw [reading_rest, hrest, settled]
  · intro leftover hanswer
    dsimp only at hanswer ⊢
    rw [hrest]
    exact (answer_eq_ok.mp hanswer).2
  · intro hexit
    have hending : (reading d B).ending = .more := exitOf_injective hexit
    dsimp only
    rw [reading_rest_of_more hending]
    rfl

/-- A chunk and the last chunk, with the next message behind them. -/
theorem in_place_pipelined :
    let B : List UInt8 := [51, 13, 10, 97, 98, 99, 13, 10, 48, 13, 10, 71, 69, 84]
    (call (zeroed 0) B).map (fun c => (c.src, c.dst, c.answer, c.buf.take 6)) =
        some (11, 3, .ok 3, [97, 98, 99, 71, 69, 84]) ∧
      ∃ c, call (zeroed 0) B = some c ∧
        c.buf = (reading (zeroed 0) B).out ++ B.drop c.src ++
          B.drop (c.dst + (B.length - c.src)) := by
  intro B
  obtain ⟨c, hc, -, -, -, hbuf, -⟩ := in_place (d := zeroed 0) (by decide) B
  exact ⟨by decide +kernel, c, hc, hbuf⟩

/-! ### Cuts -/

section

variable {d : PhrChunkedDecoder} {a b : List UInt8}

/-- A decoder that wants more resumes where it stopped. -/
theorem reading_after (h : (reading d a).ending = .more) (b : List UInt8) :
    reading (after d a) b =
      run (step (d.consumeTrailer ≠ 0)) (reading d a).config b := by
  -- the phase has been brought up to date already, so entering again does nothing
  have hentered : (reading d a).config.Entered :=
    config_of_more (fun _ _ _ _ _ hgo => step_entered hgo) (Config.entered_enter _) h
  have hconfig : config (after d a) = (reading d a).config := config_store d (reading d a).config
  rw [reading, hconfig, Config.enter_of_entered hentered]
  rfl

theorem reading_append (d : PhrChunkedDecoder) (a b : List UInt8) :
    reading d (a ++ b) =
      match (reading d a).ending with
      | .more =>
        (run (step (d.consumeTrailer ≠ 0)) (reading d a).config b).prepend (reading d a).out
      | _ => (reading d a).before b :=
  run_append _ a b

theorem reading_append_more (h : (reading d a).ending = .more) (b : List UInt8) :
    reading d (a ++ b) = (reading (after d a) b).prepend (reading d a).out := by
  rw [reading_append, h, reading_after h]

theorem reading_append_ended (h : (reading d a).ending ≠ .more) (b : List UInt8) :
    reading d (a ++ b) = (reading d a).before b := by
  rw [reading_append]
  cases hending : (reading d a).ending with
  | more => exact absurd hending h
  | done => rfl
  | bad => rfl

theorem totalRead_append (d : PhrChunkedDecoder) (a b : List UInt8) :
    (after d (a ++ b)).totalRead = (after (after d a) b).totalRead := by
  simp only [after, List.length_append, UInt64.ofNat_add, UInt64.add_assoc]

theorem totalOverhead_append (ha : (reading d a).ending = .more)
    (hb : (reading (after d a) b).ending = .more) :
    (after d (a ++ b)).totalOverhead = (after (after d a) b).totalOverhead := by
  have hab : (reading d (a ++ b)).ending = .more := by
    rw [reading_append_more ha, Run.prepend_ending, hb]
  have hle := reading_le d a
  have hle' := reading_le (after d a) b
  have hlen : (a ++ b).length - (reading d (a ++ b)).out.length =
      (a.length - (reading d a).out.length) +
        (b.length - (reading (after d a) b).out.length) := by
    rw [reading_append_more ha, Run.prepend_out, List.length_append, List.length_append]
    omega
  have hleft : (after d a).totalOverhead =
      d.totalOverhead + UInt64.ofNat (a.length - (reading d a).out.length) := if_pos ha
  calc (after d (a ++ b)).totalOverhead
      = d.totalOverhead + UInt64.ofNat ((a ++ b).length - (reading d (a ++ b)).out.length) :=
        if_pos hab
    _ = (after d a).totalOverhead +
          UInt64.ofNat (b.length - (reading (after d a) b).out.length) := by
        rw [hlen, UInt64.ofNat_add, hleft, UInt64.add_assoc]
    _ = (after (after d a) b).totalOverhead := (if_pos hb).symm

theorem answer_append (ha : (reading d a).ending = .more) (b : List UInt8) :
    answer d (a ++ b) = answer (after d a) b := by
  have happend := reading_append_more ha b
  unfold answer
  rw [happend, Run.prepend_ending, Run.prepend_rest]
  cases hb : (reading (after d a) b).ending with
  | more =>
      have hexcess : Excessive (after d (a ++ b)) ↔ Excessive (after (after d a) b) := by
        rw [Excessive, Excessive, totalRead_append, totalOverhead_append ha hb]
      simp only [hexcess]
  | done => rfl
  | bad => rfl

end

/-- Where the stream is cut makes no difference. -/
theorem split_agrees {d : PhrChunkedDecoder} (h : 0 ≤ d.state ∧ d.state ≤ 7)
    (a b : List UInt8) :
    ∃ ca cab, call d a = some ca ∧ call d (a ++ b) = some cab ∧
      (ca.exit = some .Partial →
        ∃ cb, call ca.decoder b = some cb ∧
          cab.exit = cb.exit ∧ (a ++ b).length - cab.src = b.length - cb.src ∧
          cab.answer = cb.answer ∧ cab.decoded = ca.decoded ++ cb.decoded ∧
          cab.decoder.state = cb.decoder.state ∧
          cab.decoder.bytesLeftInChunk = cb.decoder.bytesLeftInChunk ∧
          cab.decoder.hexCount = cb.decoder.hexCount ∧
          cab.decoder.totalRead = cb.decoder.totalRead ∧
          (cb.exit = some .Partial →
            cab.decoder.totalOverhead = cb.decoder.totalOverhead)) ∧
      (∀ leftover, ca.answer = .ok leftover →
        cab.answer = .ok (leftover + b.length) ∧ cab.decoded = ca.decoded) ∧
      (ca.exit = some .Malformed →
        cab.exit = some .Malformed ∧ cab.answer = .error .Malformed ∧
          cab.decoded = ca.decoded) := by
  obtain ⟨ca, hca⟩ : ∃ ca, call d a = some ca := ⟨_, call_eq h a⟩
  obtain ⟨cab, hcab⟩ : ∃ cab, call d (a ++ b) = some cab := ⟨_, call_eq h (a ++ b)⟩
  have ra := reads_of_call h hca
  have rab := reads_of_call h hcab
  refine ⟨ca, cab, hca, hcab, ?_, ?_, ?_⟩
  · intro hexit
    have hmore : (reading d a).ending = .more := exitOf_injective (ra.exit ▸ hexit)
    have happend := reading_append_more hmore b
    obtain ⟨cb, hcb⟩ : ∃ cb, call (after d a) b = some cb := ⟨_, call_eq (valid_after d a) b⟩
    have rb := reads_of_call (valid_after d a) hcb
    have hconfig : (reading d (a ++ b)).config = (reading (after d a) b).config := by
      rw [happend, Run.prepend_config]
    refine ⟨cb, ra.decoder ▸ hcb, ?_, ?_, ?_, ?_, ?_, ?_, ?_, ?_, ?_⟩
    · rw [rab.exit, rb.exit, happend, Run.prepend_ending]
    · rw [rab.leftover, rb.leftover, happend, Run.prepend_rest]
    · rw [rab.answer, rb.answer, answer_append hmore]
    · rw [rab.decoded, ra.decoded, rb.decoded, happend, Run.prepend_out]
    · rw [rab.decoder, rb.decoder]
      exact congrArg (fun c : Config => c.phase.code) hconfig
    · rw [rab.decoder, rb.decoder]
      exact congrArg Config.left hconfig
    · rw [rab.decoder, rb.decoder]
      exact congrArg Config.hex hconfig
    · rw [rab.decoder, rb.decoder, totalRead_append]
    · intro hexit'
      have hmore' : (reading (after d a) b).ending = .more := exitOf_injective (rb.exit ▸ hexit')
      rw [rab.decoder, rb.decoder, totalOverhead_append hmore hmore']
  · intro leftover hanswer
    obtain ⟨hdone, rfl⟩ := answer_eq_ok.mp (ra.answer ▸ hanswer)
    have happend := reading_append_ended (by rw [hdone]; decide) b
    constructor
    · rw [rab.answer, answer_eq_ok, happend]
      exact ⟨hdone, List.length_append.symm⟩
    · rw [rab.decoded, ra.decoded, happend]
      rfl
  · intro hexit
    have hbad : (reading d a).ending = .bad := exitOf_injective (ra.exit ▸ hexit)
    have happend := reading_append_ended (by rw [hbad]; decide) b
    have hbad' : (reading d (a ++ b)).ending = .bad := by
      rw [happend]
      exact hbad
    refine ⟨by rw [rab.exit, hbad']; rfl, by rw [rab.answer, answer_of_bad hbad'], ?_⟩
    rw [rab.decoded, ra.decoded, happend]
    rfl

/-- A cut in the payload of a chunk. -/
theorem split_agrees_in_payload :
    let a : List UInt8 := [51, 13, 10, 97, 98]
    let b : List UInt8 := [99, 13, 10, 48, 13, 10, 71]
    ∃ ca cab cb, call (zeroed 0) a = some ca ∧ call (zeroed 0) (a ++ b) = some cab ∧
      call ca.decoder b = some cb ∧ ca.exit = some .Partial ∧ ca.decoded = [97, 98] ∧
      cab.exit = cb.exit ∧ cab.answer = cb.answer ∧ cab.decoded = ca.decoded ++ cb.decoded := by
  intro a b
  obtain ⟨ca, cab, hca, hcab, hmore, -⟩ := split_agrees (d := zeroed 0) (by decide) a b
  have hrun : (call (zeroed 0) a).map (fun c => (c.exit, c.decoded)) =
      some (some .Partial, [97, 98]) := by decide +kernel
  rw [hca] at hrun
  obtain ⟨hexit, hdecoded⟩ := Prod.mk.inj (Option.some.inj hrun)
  obtain ⟨cb, hcb, hexit', -, hanswer, hdecoded', -⟩ := hmore hexit
  exact ⟨ca, cab, cb, hca, hcab, hcb, hexit, hdecoded, hexit', hanswer, hdecoded'⟩

/-! ### The counters -/

/-- A call after the other, on the decoder the last one left. -/
def calls (d : PhrChunkedDecoder) : List (List UInt8) → Option (List Call)
  | [] => some []
  | B :: Bs => do
    let c ← call d B
    let cs ← calls c.decoder Bs
    pure (c :: cs)

theorem calls_cons {d : PhrChunkedDecoder} {B : List UInt8} {Bs : List (List UInt8)}
    {cs : List Call} (h : calls d (B :: Bs) = some cs) :
    ∃ c₀ cs₀, call d B = some c₀ ∧ calls c₀.decoder Bs = some cs₀ ∧ cs = c₀ :: cs₀ := by
  obtain ⟨c₀, hc₀, h⟩ := Option.bind_eq_some_iff.mp h
  obtain ⟨cs₀, hcs₀, h⟩ := Option.bind_eq_some_iff.mp h
  exact ⟨c₀, cs₀, hc₀, hcs₀, (Option.some.inj h).symm⟩

/-- The counters of a decoder that has been fed so many bytes and has decoded
so many of them. -/
structure Accounts (d : PhrChunkedDecoder) (fed decoded : ℕ) : Prop where
  valid : Valid d
  totalRead : d.totalRead.toNat = fed
  totalOverhead : d.totalOverhead.toNat = fed - decoded
  le : decoded ≤ fed

theorem accounts_zeroed (consumeTrailer : Int8) : Accounts (zeroed consumeTrailer) 0 0 :=
  ⟨valid_code .size, rfl, rfl, le_rfl⟩

section

variable {d : PhrChunkedDecoder} {fed decoded : ℕ}

theorem toNat_add_ofNat {x : UInt64} {n : ℕ} (h : x.toNat + n < 2 ^ 64) :
    (x + UInt64.ofNat n).toNat = x.toNat + n := by
  rw [UInt64.toNat_add, UInt64.toNat_ofNat']
  omega

/-- An incomplete call keeps the accounts. -/
theorem Accounts.call (hd : Accounts d fed decoded) {B : List UInt8} {c : Call}
    (hc : call d B = some c) (hexit : c.exit = some .Partial) (hlen : fed + B.length < 2 ^ 64) :
    Accounts c.decoder (fed + B.length) (decoded + c.decodedLen) := by
  have r := reads_of_call hd.valid hc
  have hle := reading_le d B
  have hdle := hd.le
  have hread := hd.totalRead
  have hover := hd.totalOverhead
  have hmore : (reading d B).ending = .more := exitOf_injective (r.exit ▸ hexit)
  have hafter : (after d B).totalOverhead =
      d.totalOverhead + UInt64.ofNat (B.length - (reading d B).out.length) := if_pos hmore
  rw [r.decoder, r.decodedLen]
  refine ⟨valid_after d B, ?_, ?_, by omega⟩
  · calc (d.totalRead + UInt64.ofNat B.length).toNat
        = d.totalRead.toNat + B.length := toNat_add_ofNat (by omega)
      _ = fed + B.length := by rw [hread]
  · rw [hafter, toNat_add_ofNat (by omega), hover]
    omega

theorem Accounts.overhead_le (hd : Accounts d fed decoded) : d.totalOverhead ≤ d.totalRead := by
  rw [UInt64.le_iff_toNat_le, hd.totalRead, hd.totalOverhead]
  exact Nat.sub_le fed decoded

theorem Accounts.toNat_sub (hd : Accounts d fed decoded) :
    (d.totalRead - d.totalOverhead).toNat = decoded := by
  rw [UInt64.toNat_sub_of_le _ _ hd.overhead_le, hd.totalRead, hd.totalOverhead]
  exact Nat.sub_sub_self hd.le

/-- The rule, in terms of the stream. -/
theorem Accounts.excessive_iff (hd : Accounts d fed decoded) :
    Excessive d ↔ 102400 ≤ fed - decoded ∧ decoded < fed / 4 := by
  rw [Excessive, UInt64.le_iff_toNat_le, UInt64.lt_iff_toNat_lt, UInt64.toNat_div, hd.toNat_sub,
    hd.totalRead, hd.totalOverhead]
  rfl

/-- The accounts after a run that wants more and whose last call has run out
of bytes. -/
theorem Accounts.calls {bufs : List (List UInt8)} {cs : List Call} {c : Call}
    (hd : Accounts d fed decoded) (hlen : fed + (bufs.map List.length).sum < 2 ^ 64)
    (hcs : calls d bufs = some cs) (hwants : ∀ c ∈ cs.dropLast, c.answer = .error .Partial)
    (hlast : cs.getLast? = some c) (hexit : c.exit = some .Partial) :
    Accounts c.decoder (fed + (bufs.map List.length).sum)
        (decoded + (cs.map Call.decodedLen).sum) ∧
      c.answer = if Excessive c.decoder then .error .Malformed else .error .Partial := by
  induction bufs generalizing d fed decoded cs with
  | nil =>
      obtain rfl := Option.some.inj hcs
      cases hlast
  | cons B Bs ih =>
      rw [List.map_cons, List.sum_cons] at hlen
      obtain ⟨c₀, cs₀, hc₀, hcs₀, rfl⟩ := calls_cons hcs
      have r := reads_of_call hd.valid hc₀
      rw [List.map_cons, List.sum_cons, List.map_cons, List.sum_cons, ← Nat.add_assoc,
        ← Nat.add_assoc]
      cases Bs with
      | nil =>
          obtain rfl := Option.some.inj hcs₀
          obtain rfl : c₀ = c := Option.some.inj hlast
          have hmore : (reading d B).ending = .more := exitOf_injective (r.exit ▸ hexit)
          refine ⟨hd.call hc₀ hexit (by omega), ?_⟩
          rw [r.answer, r.decoder, answer_of_more hmore]
      | cons B' Bs =>
          -- this is not the last call, so it wants more and its accounts are kept
          obtain ⟨c₁, cs₁, -, -, rfl⟩ := calls_cons hcs₀
          have hanswer : c₀.answer = .error .Partial := hwants c₀ List.mem_cons_self
          have hmore : (reading d B).ending = .more := more_of_answer (r.answer ▸ hanswer)
          have hexit₀ : c₀.exit = some .Partial := by rw [r.exit, hmore]; rfl
          apply ih (hd.call hc₀ hexit₀ (by omega)) (by omega) hcs₀ _ hlast
          intro c' hc'
          exact hwants c' (List.mem_cons_of_mem _ hc')

end

/-- The overhead rule over a whole stream: when the last call has run out of
bytes, the counters are the totals of the stream, and the call rejects it
exactly when more than three quarters of it, and at least 100 KiB, have been
framing. -/
theorem overhead_exact {consumeTrailer : Int8} {bufs : List (List UInt8)} {cs : List Call}
    {c : Call} (hlen : (bufs.map List.length).sum < 2 ^ 64)
    (hcs : calls (zeroed consumeTrailer) bufs = some cs)
    (hwants : ∀ c ∈ cs.dropLast, c.answer = .error .Partial)
    (hlast : cs.getLast? = some c) (hexit : c.exit = some .Partial) :
    let fed := (bufs.map List.length).sum
    let decoded := (cs.map Call.decodedLen).sum
    let d := c.decoder
    d.totalRead.toNat = fed ∧ decoded ≤ fed ∧ d.totalOverhead.toNat = fed - decoded ∧
      d.totalOverhead ≤ d.totalRead ∧ (d.totalRead - d.totalOverhead).toNat = decoded ∧
      (c.answer = .error .Malformed ↔ 102400 ≤ fed - decoded ∧ decoded < fed / 4) ∧
      (c.answer = .error .Partial ↔ ¬(102400 ≤ fed - decoded ∧ decoded < fed / 4)) ∧
      (c.answer = .error .Partial → fed - decoded ≤ max 102399 (3 * decoded + 3)) := by
  intro fed decoded d
  obtain ⟨hd, hanswer⟩ := (accounts_zeroed consumeTrailer).calls (by omega) hcs hwants hlast hexit
  rw [Nat.zero_add, Nat.zero_add] at hd
  have hle := hd.le
  obtain ⟨hrejected, hcontinues⟩ := verdict_iff hanswer
  rw [hd.excessive_iff] at hrejected hcontinues
  refine ⟨hd.totalRead, hle, hd.totalOverhead, ?_, ?_, hrejected, hcontinues, ?_⟩
  · exact hd.overhead_le
  · exact hd.toNat_sub
  · intro hpart
    have hfew := hcontinues.mp hpart
    omega

/-- Two calls that stop in the payload of one chunk and in the extension of
the next. -/
theorem overhead_exact_two_calls :
    let bufs : List (List UInt8) := [[51, 13, 10, 97, 98], [99, 13, 10, 53, 59]]
    let c₁ : Call := ⟨some .Partial, 5, 2, .error .Partial, 2, ⟨1, 1, 0, 3, 5, 3⟩,
      [97, 98, 10, 97, 98]⟩
    let c₂ : Call := ⟨some .Partial, 5, 1, .error .Partial, 1, ⟨5, 1, 0, 1, 10, 7⟩,
      [99, 13, 10, 53, 59]⟩
    calls (zeroed 1) bufs = some [c₁, c₂] ∧
      (c₂.decoder.totalRead - c₂.decoder.totalOverhead).toNat = 3 ∧
      10 - 3 ≤ max 102399 (3 * 3 + 3) := by
  intro bufs c₁ c₂
  have hcs : calls (zeroed 1) bufs = some [c₁, c₂] := by decide +kernel
  have hwants : ∀ c ∈ [c₁, c₂].dropLast, c.answer = .error .Partial := by
    intro c hc
    rw [List.mem_singleton.mp hc]
  obtain ⟨-, -, -, -, hsub, -, -, hbound⟩ :=
    overhead_exact (by decide) hcs hwants rfl rfl
  exact ⟨hcs, hsub, hbound rfl⟩

end PicoHttpParser.Chunk
