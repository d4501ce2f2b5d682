import PicoHttpParser.Chunk.Invariant

/-!
What a chunked decoder rejects.

From every configuration a decoder can be in, some bytes complete the body:
the digits of a size can be ended, the payload that is missing can be
supplied, and a last chunk follows. So a decoder that wants more can still be
completed, and one that has rejected a byte could not have been.
-/

namespace PicoHttpParser.Chunk

open Incremental Rust Rust.Chunked

/-! ### A completion from every configuration -/

section

variable {trailer : Bool} {c : Config}

theorem exists_ends (trailer : Bool) : ∃ w, Ends trailer w [] := by
  cases trailer with
  | false => exact ⟨[], rfl, rfl⟩
  | true => exact ⟨[LF], trailerSection_lf.mpr rfl, rfl⟩

/-- The last chunk and nothing in front of it. -/
theorem exists_body (trailer : Bool) : ∃ w, ChunkedBody trailer w [] := by
  obtain ⟨w, hw⟩ := exists_ends trailer
  have hs : IsSize [0x30] := ⟨List.forall_mem_singleton.mpr rfl, le_rfl, by decide⟩
  have hrest : BehindSize trailer (sizeValue [0x30]) w [] := (if_pos rfl).mpr hw
  exact ⟨_, chunkedBody_iff.mpr (inSize_of_isSize hs .empty hrest)⟩

theorem exists_payload (trailer : Bool) (n : ℕ) : ∃ w out, Payload trailer n w out := by
  obtain ⟨w, hw⟩ := exists_body trailer
  exact ⟨_, _, List.replicate n 0, w, [], List.length_replicate, rfl, rfl, hw⟩

theorem exists_behindSize (trailer : Bool) (n : ℕ) : ∃ w out, BehindSize trailer n w out := by
  unfold BehindSize
  split
  · obtain ⟨w, hw⟩ := exists_ends trailer
    exact ⟨w, [], hw⟩
  · exact exists_payload trailer n

/-- Something is accepted from every configuration. -/
theorem exists_lang (trailer : Bool) (hfresh : Fresh c) : ∃ w out, Lang trailer c w out := by
  obtain ⟨phase, left, hex⟩ := c
  cases phase with
  | size =>
      obtain ⟨k, hk, rfl, -⟩ := hfresh
      dsimp only [Lang]
      rw [(ofNat_count k hk).1]
      -- a size has to have a digit
      rcases Nat.eq_zero_or_pos k with rfl | hpos
      · obtain ⟨w, out, hw⟩ := exists_behindSize trailer (numeral left.toNat [0x30])
        exact ⟨_, out, [0x30], [], w, List.forall_mem_singleton.mpr rfl, le_rfl, by decide, .empty,
          rfl, hw⟩
      · obtain ⟨w, out, hw⟩ := exists_behindSize trailer left.toNat
        exact ⟨_, out, [], [], w, nofun, hpos, hk, .empty, rfl, hw⟩
  | ext =>
      obtain ⟨w, out, hw⟩ := exists_behindSize trailer left.toNat
      exact ⟨_, out, [], LF :: w, nofun, rfl, w, rfl, hw⟩
  | expectLf =>
      obtain ⟨w, out, hw⟩ := exists_behindSize trailer left.toNat
      exact ⟨_, out, w, rfl, hw⟩
  | data => exact exists_payload trailer left.toNat
  | dataCr => exact exists_payload trailer 0
  | dataLf =>
      obtain ⟨w, hw⟩ := exists_body trailer
      exact ⟨_, [], w, rfl, hw⟩
  | trailHead => exact ⟨[LF], [], trailerSection_lf.mpr rfl, rfl⟩
  | trailMid => exact ⟨[LF, LF], [], ⟨[], [LF], nofun, rfl, trailerSection_lf.mpr rfl⟩, rfl⟩

theorem exists_completion (trailer : Bool) (hfresh : Fresh c) :
    ∃ w, (run (step trailer) c w).ending = .done := by
  obtain ⟨w, out, hw⟩ := exists_lang trailer hfresh
  have hdone := ((derives trailer).run_done_iff hfresh).mpr ⟨w, (List.append_nil w).symm, hw⟩
  exact ⟨w, hdone.1⟩

end

/-! ### Calls -/

/-- The calls on `Bs`, one after the other, complete the body: the last one
completes it, and the others have run out of bytes. -/
def Completes (d : PhrChunkedDecoder) (Bs : List (List UInt8)) : Prop :=
  ∃ cs c, calls d Bs = some (cs ++ [c]) ∧ (∀ c' ∈ cs, c'.exit = some .Partial) ∧ c.exit = none

section

variable {d : PhrChunkedDecoder} {b : List UInt8}

/-- A coherent decoder has a fresh configuration. -/
theorem fresh_of_coherent (h : Coherent d.state d.bytesLeftInChunk d.hexCount) :
    Fresh (config d) := by
  obtain ⟨k, hk, hhex⟩ := exists_count h.count
  have hzero := h.hex_eq_zero
  have hsize := h.size
  have hdata := h.data
  have hspent := h.spent
  rw [← code_phaseAt h.valid] at hzero hsize hdata hspent
  unfold Fresh config
  cases hphase : phaseAt d.state <;> rw [hphase] at hzero hsize hdata hspent
  case size =>
    have hleft := hsize rfl
    rw [hhex, (ofNat_count k hk).1] at hleft
    exact ⟨k, hk, hhex, hleft⟩
  case ext => exact hzero (by decide)
  case expectLf => exact hzero (by decide)
  case data => exact ⟨hzero (by decide), UInt64.pos_iff_ne_zero.mp (hdata rfl)⟩
  case dataCr => exact ⟨hzero (by decide), hspent (.inl rfl)⟩
  case dataLf => exact ⟨hzero (by decide), hspent (.inr (.inl rfl))⟩
  case trailHead => trivial
  case trailMid => trivial

theorem enter_of_coherent (h : Coherent d.state d.bytesLeftInChunk d.hexCount) :
    (config d).enter = config d := by
  apply Config.enter_of_entered
  intro hphase
  have hst : d.state = stData := by
    rw [← code_phaseAt h.valid]
    exact congrArg Phase.code hphase
  exact UInt64.pos_iff_ne_zero.mp (h.data hst)

/-- What a run of calls reads is what one call would read. -/
theorem done_of_completes (h : Valid d) {Bs : List (List UInt8)} (hBs : Completes d Bs) :
    (reading d Bs.flatten).ending = .done := by
  obtain ⟨cs, c, hcs, hwants, hexit⟩ := hBs
  induction Bs generalizing d cs with
  | nil =>
      have hnil : [] = cs ++ [c] := Option.some.inj hcs
      simp at hnil
  | cons B Bs ih =>
      obtain ⟨c₀, cs₀, hc₀, hcs₀, heq⟩ := calls_cons hcs
      have r := reads_of_call h hc₀
      rw [List.flatten_cons]
      cases cs with
      | nil =>
          -- the only call completes the body
          obtain ⟨rfl, rfl⟩ := List.cons.inj heq
          have hdone : (reading d B).ending = .done := exitOf_injective (r.exit ▸ hexit)
          rw [reading_append_ended (by rw [hdone]; decide)]
          exact hdone
      | cons c₁ cs =>
          obtain ⟨rfl, rfl⟩ := List.cons.inj heq
          have hwant := hwants c₁ List.mem_cons_self
          have hmore : (reading d B).ending = .more := exitOf_injective (r.exit ▸ hwant)
          rw [reading_append_more hmore, Run.prepend_ending, ← r.decoder]
          refine ih ?_ cs hcs₀ fun c' hc' => hwants c' (List.mem_cons_of_mem _ hc')
          rw [r.decoder]
          exact valid_after d B

theorem completes_singleton {c : Call} (hc : call d b = some c) (hexit : c.exit = none) :
    Completes d [b] := by
  refine ⟨[], c, ?_, nofun, hexit⟩
  rw [calls, hc]
  rfl

/-- More bytes do not change how a reading has ended. -/
theorem ending_of_isPrefix {p : List UInt8} (hp : p <+: b) (h : (reading d p).ending ≠ .more) :
    (reading d b).ending = (reading d p).ending := by
  obtain ⟨x, rfl⟩ := hp
  rw [reading_append_ended h]
  rfl

/-- A decoder that has run out of bytes can be completed by one more call. -/
theorem completes_of_more (hd : Coherent d.state d.bytesLeftInChunk d.hexCount) {c : Call}
    (hc : call d b = some c) (hexit : c.exit = some .Partial) : ∃ w, Completes d [b, w] := by
  have r := reads_of_call hd.valid hc
  have hmore : (reading d b).ending = .more := exitOf_injective (r.exit ▸ hexit)
  have hfresh : Fresh (reading d b).config := by
    apply config_of_more (fun c b c' out hc hgo => fresh_step hc hgo) _ hmore
    rw [enter_of_coherent hd]
    exact fresh_of_coherent hd
  obtain ⟨w, hw⟩ := exists_completion (d.consumeTrailer ≠ 0) hfresh
  obtain ⟨c', hc'⟩ : ∃ c', call c.decoder w = some c' := by
    rw [r.decoder]
    exact ⟨_, call_eq (valid_after d b) w⟩
  refine ⟨w, [c], c', ?_, ?_, ?_⟩
  · rw [calls, hc]
    show (calls c.decoder [w]).bind _ = _
    rw [calls, hc']
    rfl
  · intro c₀ hc₀
    rw [List.mem_singleton.mp hc₀]
    exact hexit
  · rw [r.decoder] at hc'
    rw [(reads_of_call (valid_after d b) hc').exit, reading_after hmore, hw]
    rfl

end

/-- Errors are exact, the overhead rule aside, which comes after the loop. A
call rejects its buffer when no part of it completes the body and no
continuation of it would, and it asks for more when no part of it completes
the body but some continuation would. -/
theorem errors_exact {consumeTrailer : Int8} {d : PhrChunkedDecoder}
    (h : Reached consumeTrailer d) (b : List UInt8) :
    ∃ c, call d b = some c ∧
      (c.exit = some .Malformed ↔
        (∀ Bs, Bs.flatten <+: b → ¬Completes d Bs) ∧
          ∀ Bs, b <+: Bs.flatten → ¬Completes d Bs) ∧
      (c.exit = some .Partial ↔
        (∀ Bs, Bs.flatten <+: b → ¬Completes d Bs) ∧ ∃ Bs, Completes d (b :: Bs)) := by
  have hd := coherent_of_reached h
  obtain ⟨c, hc⟩ : ∃ c, call d b = some c := ⟨_, call_eq hd.valid b⟩
  have r := reads_of_call hd.valid hc
  have hself : [b].flatten <+: b := by simp
  have hexit := r.exit
  refine ⟨c, hc, ?_⟩
  cases hending : (reading d b).ending with
  | done =>
      rw [hending] at hexit
      have hcompletes := completes_singleton hc hexit
      rw [hexit]
      exact ⟨iff_of_false nofun fun hnone => hnone.1 [b] hself hcompletes,
        iff_of_false nofun fun hnone => hnone.1 [b] hself hcompletes⟩
  | more =>
      rw [hending] at hexit
      obtain ⟨w, hw⟩ := completes_of_more hd hc hexit
      have hnone : ∀ Bs, Bs.flatten <+: b → ¬Completes d Bs := by
        intro Bs hle hBs
        have hdone := done_of_completes hd.valid hBs
        have hb := ending_of_isPrefix hle (by rw [hdone]; decide)
        rw [hending, hdone] at hb
        cases hb
      rw [hexit]
      constructor
      · refine iff_of_false nofun fun hall => hall.2 [b, w] ?_ hw
        simp
      · exact iff_of_true rfl ⟨hnone, [w], hw⟩
  | bad =>
      rw [hending] at hexit
      -- neither less nor more than the buffer is read to the end of a body
      have hnone : ∀ Bs, Bs.flatten <+: b ∨ b <+: Bs.flatten → ¬Completes d Bs := by
        intro Bs hle hBs
        have hdone := done_of_completes hd.valid hBs
        have hbad : (reading d Bs.flatten).ending = (reading d b).ending := by
          rcases hle with hle | hle
          · exact (ending_of_isPrefix hle (by rw [hdone]; decide)).symm
          · exact ending_of_isPrefix hle (by rw [hending]; decide)
        rw [hending, hdone] at hbad
        cases hbad
      rw [hexit]
      constructor
      · exact iff_of_true rfl ⟨fun Bs hBs => hnone Bs (.inl hBs), fun Bs hBs => hnone Bs (.inr hBs)⟩
      · refine iff_of_false nofun ?_
        rintro ⟨-, Bs, hBs⟩
        exact hnone (b :: Bs) (.inr (List.prefix_append b Bs.flatten)) hBs

/-- In the middle of a payload of three bytes: a call that can still be
completed, and one that cannot. -/
theorem errors_exact_in_payload :
    let c₁ : Call := ⟨some .Partial, 4, 1, .error .Partial, 1, ⟨2, 0, 0, 3, 4, 3⟩, [97, 13, 10, 97]⟩
    call (zeroed 0) [51, 13, 10, 97] = some c₁ ∧
      (∃ Bs, Completes c₁.decoder ([98] :: Bs)) ∧
      ∀ Bs, ¬Completes c₁.decoder ([98, 99, 100] :: Bs) := by
  intro c₁
  have h₁ : call (zeroed 0) [51, 13, 10, 97] = some c₁ := by decide +kernel
  have hreached : Reached 0 c₁.decoder := .call .zeroed h₁
  obtain ⟨c₂, hc₂, -, hmore⟩ := errors_exact hreached [98]
  obtain ⟨c₃, hc₃, hbad, -⟩ := errors_exact hreached [98, 99, 100]
  have hexit₂ : (call c₁.decoder [98]).map Call.exit = some (some .Partial) := by decide +kernel
  have hexit₃ : (call c₁.decoder [98, 99, 100]).map Call.exit = some (some .Malformed) := by
    decide +kernel
  rw [hc₂] at hexit₂
  rw [hc₃] at hexit₃
  refine ⟨h₁, (hmore.mp (Option.some.inj hexit₂)).2, fun Bs => ?_⟩
  apply (hbad.mp (Option.some.inj hexit₃)).2
  exact List.prefix_append _ _

end PicoHttpParser.Chunk
