import PicoHttpParser.Chunk.Feed

/-!
Decoders behind an error.

An error of the chunked decoder is not remembered. The byte that is rejected,
and what follows it in the buffer, is dropped, and the decoder goes on with
the next buffer as if they had not been there. A caller that does not give up
at `-1` may be told later that a body is complete, and it is the body of
another stream than the one that was sent.
-/

namespace PicoHttpParser.Chunk

open Incremental Rust Rust.Chunked

/-! ### Rejected bytes -/

section

variable {trailer : Bool}

theorem reject_stepExt {c c' : Config} {b : UInt8} (h : stepExt c b = .reject c') : c' = c := by
  unfold stepExt at h
  split_ifs at h
  exact (Turn.reject.inj h).symm

theorem step_size_sp {left : UInt64} {hex : Int8} (h : hex ≠ 0) :
    step trailer ⟨.size, left, hex⟩ SP = .go ⟨.ext, left, 0⟩ [] := by
  have hsp : hexDigit SP = none := by decide
  have hends : ¬(hex = 0 ∨ ¬EndsSize SP) := not_or.mpr ⟨h, not_not.mpr (.inl rfl)⟩
  simp only [step, hsp]
  rw [if_neg hends]
  rfl

/-- A byte that is rejected leaves the configuration as it was. In the
extension, and behind the digits of a size, which it ends, it is taken for a
space. -/
theorem config_of_reject {c c' : Config} {b : UInt8} (h : step trailer c b = .reject c') :
    if c'.phase = .ext then step trailer c SP = .go c' [] else c' = c := by
  obtain ⟨phase, left, hex⟩ := c
  cases phase with
  | size =>
      simp only [step] at h
      split at h
      · split_ifs at h
        obtain rfl := Turn.reject.inj h
        rfl
      · split_ifs at h with hends
        · obtain rfl := Turn.reject.inj h
          rfl
        · obtain rfl := reject_stepExt h
          exact step_size_sp (not_or.mp hends).1
  | ext =>
      obtain rfl := reject_stepExt h
      exact (rfl : stepExt _ SP = _)
  | expectLf | dataCr | dataLf | trailHead | trailMid =>
      simp only [step] at h
      split_ifs at h
      all_goals
        obtain rfl := Turn.reject.inj h
        rfl
  | data => cases h

end

/-! ### What a call has taken of its buffer -/

/-- What a call that does not complete a body has taken of its buffer. A LF
that is rejected in an extension stands for a space. -/
def taken (B : List UInt8) (c : Call) : List UInt8 :=
  B.take c.src ++ if c.exit = some .Malformed ∧ c.decoder.state = stExt then [SP] else []

/-- What several calls have taken of their buffers. -/
def takenAll (Bs : List (List UInt8)) (cs : List Call) : List UInt8 :=
  (List.zipWith taken Bs cs).flatten

/-- A decoder without its counters. -/
def uncounted (d : PhrChunkedDecoder) : PhrChunkedDecoder :=
  { d with totalRead := 0, totalOverhead := 0 }

/-- The decoder stands where one stands that has been fed `w`. -/
structure Resumes (t : Int8) (w : List UInt8) (d : PhrChunkedDecoder) : Prop where
  within : Within t w
  uncounted : uncounted d = uncounted (after (zeroed t) w)

section

variable {t : Int8} {d : PhrChunkedDecoder} {w B : List UInt8}

theorem code_eq_stExt {phase : Phase} : phase.code = stExt ↔ phase = .ext := by
  cases phase <;> decide

theorem reading_uncounted (d : PhrChunkedDecoder) (B : List UInt8) :
    reading (uncounted d) B = reading d B := rfl

theorem uncounted_after (d : PhrChunkedDecoder) (B : List UInt8) :
    uncounted (after d B) = (reading d B).config.store (uncounted d) := rfl

theorem resumes_zeroed (t : Int8) : Resumes t [] (zeroed t) := ⟨within_nil, rfl⟩

theorem Resumes.reading (h : Resumes t w d) (B : List UInt8) :
    reading (zeroed t) (w ++ B) = (Chunk.reading d B).prepend (payload t w) := by
  rw [reading_append_more h.within, ← reading_uncounted d, h.uncounted]
  rfl

/-- A call on a decoder that resumes completes what is a body behind `w`. -/
theorem Resumes.answer_iff (h : Resumes t w d) {l : ℕ} :
    answer d B = .ok l ↔ ∃ u rest, w ++ B = u ++ rest ∧ rest.length = l ∧
      ChunkedBody (t ≠ 0) u (payload t w ++ (Chunk.reading d B).out) := by
  have hdone (rest : List UInt8) :
      ((Chunk.reading d B).ending = .done ∧ (Chunk.reading d B).rest = rest) ↔
        ∃ u, w ++ B = u ++ rest ∧
          ChunkedBody (t ≠ 0) u (payload t w ++ (Chunk.reading d B).out) := by
    rw [← reading_done_iff, h.reading B]
    simp only [Run.prepend_ending, Run.prepend_rest, Run.prepend_out, and_true]
  rw [answer_eq_ok]
  constructor
  · rintro ⟨hending, rfl⟩
    obtain ⟨u, hu, hbody⟩ := (hdone _).mp ⟨hending, rfl⟩
    exact ⟨u, _, hu, rfl, hbody⟩
  · rintro ⟨u, rest, hu, rfl, hbody⟩
    obtain ⟨hending, hrest⟩ := (hdone rest).mpr ⟨u, hu, hbody⟩
    exact ⟨hending, congrArg List.length hrest.symm⟩

/-- What a call has taken of its buffer takes the machine to where it is
behind the call. -/
theorem reading_taken (hd : Valid d) {c : Call} (hc : call d B = some c) (hexit : c.exit ≠ none) :
    (reading d (taken B c)).ending = .more ∧
      (reading d (taken B c)).config = (reading d B).config ∧
      (reading d (taken B c)).out = (reading d B).out := by
  rw [call_eq hd] at hc
  obtain rfl := Option.some.inj hc
  cases hending : (reading d B).ending with
  | done =>
      rw [hending] at hexit
      exact absurd rfl hexit
  | more =>
      have htaken : B.take (B.length - (reading d B).rest.length) = B := by
        rw [reading_rest_of_more hending]
        exact List.take_length
      rw [taken]
      dsimp only
      rw [htaken, if_neg fun h => absurd h.1 (by decide), List.append_nil]
      exact ⟨hending, rfl, rfl⟩
  | bad =>
      obtain ⟨v, b, hB, hmore, hreject, hout⟩ : ∃ v b, B = v ++ (reading d B).rest ∧
          (reading d v).ending = .more ∧
          step (d.consumeTrailer ≠ 0) (reading d v).config b = .reject (reading d B).config ∧
          (reading d B).out = (reading d v).out := exists_reject hending
      have htaken : B.take (B.length - (reading d B).rest.length) = v := by
        generalize reading d B = r at hB
        subst hB
        rw [List.length_append, Nat.add_sub_cancel, List.take_left]
      have hphase : (exitOf .bad = some .Malformed ∧ (after d B).state = stExt) ↔
          (reading d B).config.phase = .ext := by
        rw [← code_eq_stExt]
        exact and_iff_right rfl
      have hconfig := config_of_reject hreject
      rw [taken]
      dsimp only
      rw [htaken]
      by_cases hext : (reading d B).config.phase = .ext
      · rw [if_pos hext] at hconfig
        rw [if_pos (hphase.mpr hext), reading_append, hmore]
        dsimp only
        rw [run_cons_go hconfig, hout]
        exact ⟨rfl, rfl, List.append_nil _⟩
      · rw [if_neg hext] at hconfig
        rw [if_neg (mt hphase.mp hext), List.append_nil]
        exact ⟨hmore, hconfig.symm, hout.symm⟩

/-- A call that does not complete a body, on a decoder that resumes. -/
theorem Resumes.call (h : Resumes t w d) (hd : Valid d) {c : Call} (hc : Chunk.call d B = some c)
    (hexit : c.exit ≠ none) :
    Resumes t (w ++ taken B c) c.decoder ∧
      payload t (w ++ taken B c) = payload t w ++ c.decoded := by
  have hreads := reads_of_call hd hc
  obtain ⟨hmore, hconfig, hout⟩ := reading_taken hd hc hexit
  have hread := h.reading (taken B c)
  refine ⟨⟨?_, ?_⟩, ?_⟩
  · rw [Within, hread, Run.prepend_ending, hmore]
  · rw [hreads.decoder, uncounted_after, uncounted_after, hread, Run.prepend_config, hconfig,
      h.uncounted]
    rfl
  · rw [payload, hread, Run.prepend_out, hout, hreads.decoded]

end

/-! ### Runs with errors -/

/-- The decoder behind its calls. -/
def behind (d : PhrChunkedDecoder) (cs : List Call) : PhrChunkedDecoder :=
  cs.foldl (fun _ c => c.decoder) d

section

variable {t : Int8} {d : PhrChunkedDecoder} {w : List UInt8}

/-- Calls that do not complete a body add up to what they have taken. -/
theorem Resumes.calls (h : Resumes t w d) (hd : Valid d) {Bs : List (List UInt8)}
    {cs : List Call} (hcs : Chunk.calls d Bs = some cs) (hnone : ∀ c ∈ cs, c.exit ≠ none) :
    Valid (behind d cs) ∧ Resumes t (w ++ takenAll Bs cs) (behind d cs) ∧
      payload t (w ++ takenAll Bs cs) = payload t w ++ (cs.map Call.decoded).flatten := by
  induction Bs generalizing d w cs with
  | nil =>
      obtain rfl : [] = cs := Option.some.inj hcs
      show Valid d ∧ Resumes t (w ++ []) d ∧ payload t (w ++ []) = payload t w ++ []
      rw [List.append_nil, List.append_nil]
      exact ⟨hd, h, rfl⟩
  | cons B Bs ih =>
      obtain ⟨c, cs, hc, hcs', rfl⟩ := calls_cons hcs
      obtain ⟨hexit, hnone⟩ := List.forall_mem_cons.mp hnone
      obtain ⟨hresumes, hpayload⟩ := h.call hd hc hexit
      have hvalid : Valid c.decoder := (reads_of_call hd hc).decoder ▸ valid_after d B
      obtain ⟨hvalid', hresumes', hpayload'⟩ := ih hresumes hvalid hcs' hnone
      have htaken : w ++ takenAll (B :: Bs) (c :: cs) = w ++ taken B c ++ takenAll Bs cs :=
        (List.append_assoc _ _ _).symm
      rw [htaken]
      refine ⟨hvalid', hresumes', ?_⟩
      rw [hpayload', hpayload, List.map_cons, List.flatten_cons, List.append_assoc]

end

/-- A run of calls on a new decoder none of which completes a body, whatever
errors they answer: the decoder stands where it would if it had been fed in
one call, without an error, what the calls have taken of their buffers. A
next call completes exactly what is a body behind that. -/
theorem errors_leave_no_mark {t : Int8} {Bs : List (List UInt8)} {cs : List Call}
    (hcs : calls (zeroed t) Bs = some cs) (hnone : ∀ c ∈ cs, c.exit ≠ none) :
    (∃ c₀, call (zeroed t) (takenAll Bs cs) = some c₀ ∧ c₀.exit = some .Partial ∧
        uncounted (behind (zeroed t) cs) = uncounted c₀.decoder ∧
        (cs.map Call.decoded).flatten = c₀.decoded) ∧
      ∀ B, ∃ c, call (behind (zeroed t) cs) B = some c ∧ ∀ l, c.answer = .ok l ↔
        ∃ w rest, takenAll Bs cs ++ B = w ++ rest ∧ rest.length = l ∧
          ChunkedBody (t ≠ 0) w ((cs.map Call.decoded).flatten ++ c.decoded) := by
  have hzeroed : Valid (zeroed t) := valid_code .size
  obtain ⟨hvalid, hresumes, hpayload⟩ := (resumes_zeroed t).calls hzeroed hcs hnone
  have hdecoded : payload t (takenAll Bs cs) = (cs.map Call.decoded).flatten := hpayload
  refine ⟨⟨_, call_eq hzeroed (takenAll Bs cs), congrArg exitOf hresumes.within,
    hresumes.uncounted, ?_⟩, fun B => ⟨_, call_eq hvalid B, fun l => ?_⟩⟩
  · rw [← hdecoded]
    exact (take_settled _ _).symm
  · rw [Call.decoded, take_settled, ← hdecoded]
    exact hresumes.answer_iff

/-- A size that a bare LF ends, and a chunk with a byte too many behind its
payload: both calls answer an error, and the next one that a body is complete. -/
theorem errors_leave_no_mark_two_errors :
    let bufs : List (List UInt8) := [[51, 10, 120, 120], [13, 10, 97, 98, 99, 120, 120]]
    let cs : List Call :=
      [⟨some .Malformed, 1, 0, .error .Malformed, 0, ⟨3, 0, 0, 1, 4, 0⟩, [10, 120, 120, 120]⟩,
        ⟨some .Malformed, 5, 3, .error .Malformed, 3, ⟨0, 0, 0, 4, 11, 0⟩,
          [97, 98, 99, 120, 120, 120, 120]⟩]
    calls (zeroed 0) bufs = some cs ∧ takenAll bufs cs = [51, 32, 13, 10, 97, 98, 99] ∧
      (∃ c₀, call (zeroed 0) [51, 32, 13, 10, 97, 98, 99] = some c₀ ∧
        c₀.exit = some .Partial ∧ uncounted (behind (zeroed 0) cs) = uncounted c₀.decoder ∧
        [97, 98, 99] = c₀.decoded) ∧
      (call (behind (zeroed 0) cs) [13, 10, 48, 13, 10, 13, 10]).map Call.answer =
        some (.ok 2) := by
  intro bufs cs
  have hcs : calls (zeroed 0) bufs = some cs := by decide +kernel
  exact ⟨hcs, by decide, (errors_leave_no_mark hcs (by decide)).1, by decide +kernel⟩

end PicoHttpParser.Chunk
