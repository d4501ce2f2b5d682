import PicoHttpParser.Chunk.Completion
import PicoHttpParser.Chunk.Equivalence

/-!
Decoders that have completed a body.

A decoder is to be zero-filled for every body. One that is not delivers no
payload any more, whatever it is fed, over however many calls. But it does not
reject what it is fed either: it takes line ends, and with a trailer to
consume whole trailer sections, for the end of another body.
-/

namespace PicoHttpParser.Chunk

open Incremental Rust Rust.Chunked

/-- Behind the size of the last chunk. -/
def Config.Spent (c : Config) : Prop :=
  (c.phase = .expectLf ∧ c.left = 0) ∨ c.phase = .trailHead ∨ c.phase = .trailMid

/-- Where a body is complete. -/
def Config.Final (trailer : Bool) (c : Config) : Prop :=
  (trailer = false ∧ c.phase = .expectLf ∧ c.left = 0) ∨ c.phase = .trailHead

theorem Config.Final.spent {trailer : Bool} {c : Config} (h : c.Final trailer) : c.Spent := by
  rcases h with h | h
  · exact .inl h.2
  · exact .inr (.inl h)

section

variable {trailer : Bool}

theorem stepExt_ne_finish {c c' : Config} {b : UInt8} : stepExt c b ≠ .finish c' := by
  unfold stepExt
  split_ifs <;> exact nofun

theorem final_of_finish {c c' : Config} {b : UInt8} (h : step trailer c b = .finish c') :
    c'.Final trailer := by
  obtain ⟨phase, left, hex⟩ := c
  cases phase with
  | size =>
      simp only [step] at h
      split at h
      · split_ifs at h
      · split_ifs at h
        exact absurd h stepExt_ne_finish
  | ext => exact absurd h stepExt_ne_finish
  | expectLf =>
      simp only [step] at h
      split_ifs at h with hlf hleft htrailer
      obtain rfl := Turn.finish.inj h
      exact .inl ⟨Bool.eq_false_iff.mpr htrailer, rfl, not_not.mp hleft⟩
  | data => cases h
  | dataCr | dataLf =>
      simp only [step] at h
      split_ifs at h
  | trailHead =>
      simp only [step] at h
      split_ifs at h
      obtain rfl := Turn.finish.inj h
      exact .inr rfl
  | trailMid =>
      simp only [step] at h
      split_ifs at h

/-- From the size of the last chunk on there is no payload. -/
theorem silent_spent (trailer : Bool) : Silent (step trailer) Config.Spent where
  keep c b hc := by
    obtain ⟨phase, left, hex⟩ := c
    rcases hc with ⟨rfl, rfl⟩ | rfl | rfl
    · simp only [step]
      split_ifs with hlf hzero htrailer
      · exact .inl ⟨rfl, rfl⟩
      · exact absurd rfl hzero
      · exact .inr (.inl rfl)
      · exact .inl ⟨rfl, rfl⟩
    · simp only [step]
      split_ifs
      · exact .inr (.inl rfl)
      · exact .inr (.inl rfl)
      · exact .inr (.inr rfl)
    · simp only [step]
      split_ifs
      · exact .inr (.inl rfl)
      · exact .inr (.inr rfl)
  out c b c' out hc h := by
    have hdata : c.phase ≠ .data := by
      rcases hc with ⟨hphase, -⟩ | hphase | hphase <;> rw [hphase] <;> decide
    exact (step_go hdata h).1

/-! ### The flag -/

/-- A trailer section is read only where there is one to consume. -/
def Config.Flagged (trailer : Bool) (c : Config) : Prop :=
  c.phase = .trailHead ∨ c.phase = .trailMid → trailer = true

theorem Config.flagged_mk {phase : Phase} (h : phase ≠ .trailHead ∧ phase ≠ .trailMid)
    (left : UInt64) (hex : Int8) : (⟨phase, left, hex⟩ : Config).Flagged trailer :=
  fun h' => absurd h' (not_or.mpr h)

theorem Config.Flagged.enter {c : Config} (h : c.Flagged trailer) : c.enter.Flagged trailer := by
  unfold Config.enter
  split
  · exact flagged_mk (by decide) _ _
  · exact h

theorem flagged_stepExt {c : Config} (h : c.Flagged trailer) (b : UInt8) :
    (stepExt c b).config.Flagged trailer := by
  unfold stepExt
  split_ifs
  · exact Config.flagged_mk (by decide) _ _
  · exact h
  · exact h

theorem flagged_step (c : Config) (b : UInt8) (h : c.Flagged trailer) :
    (step trailer c b).config.Flagged trailer := by
  obtain ⟨phase, left, hex⟩ := c
  cases phase with
  | size =>
      simp only [step]
      split
      · split_ifs
        · exact h
        · exact h
      · split_ifs
        · exact h
        · refine flagged_stepExt ?_ b
          exact Config.flagged_mk (by decide) _ _
  | ext => exact flagged_stepExt h b
  | expectLf =>
      simp only [step]
      split_ifs with hlf hleft htrailer
      · exact h
      · exact Config.flagged_mk (by decide) _ _
      · exact fun _ => htrailer
      · exact h
  | data =>
      have hdata : Phase.data ≠ .trailHead ∧ Phase.data ≠ .trailMid := by decide
      exact Config.Flagged.enter (Config.flagged_mk hdata _ _)
  | dataCr | dataLf =>
      simp only [step]
      split_ifs
      · exact Config.flagged_mk (by decide) _ _
      · exact h
  | trailHead =>
      simp only [step]
      split_ifs
      · exact h
      · exact h
      · exact fun _ => h (.inl rfl)
  | trailMid =>
      simp only [step]
      split_ifs
      · exact fun _ => h (.inr rfl)
      · exact h

/-- Where a body is complete, the flag tells what the machine has stopped at. -/
theorem Config.Final.of_flagged {c : Config} (h : c.Final trailer) (hflag : c.Flagged trailer) :
    (trailer = false ∧ c.phase = .expectLf ∧ c.left = 0) ∨
      (trailer = true ∧ c.phase = .trailHead) := by
  rcases h with h | h
  · exact .inl h
  · exact .inr ⟨hflag (.inl h), h⟩

end

/-! ### Calls -/

/-- A decoder that is behind the size of the last chunk. -/
def Spent (d : PhrChunkedDecoder) : Prop := (config d).Spent

section

variable {d : PhrChunkedDecoder}

theorem config_after (d : PhrChunkedDecoder) (B : List UInt8) :
    config (after d B) = (reading d B).config := config_store d _

theorem Config.Spent.enter {c : Config} (h : c.Spent) : c.enter = c := by
  refine Config.enter_of_entered (Config.entered_of_ne ?_)
  rcases h with ⟨hphase, -⟩ | hphase | hphase <;> rw [hphase] <;> exact nofun

theorem Spent.reading (h : Spent d) (B : List UInt8) :
    Spent (after d B) ∧ (reading d B).out = [] := by
  have hsilent := silent_spent (d.consumeTrailer ≠ 0)
  have henter : (config d).enter = config d := Config.Spent.enter h
  rw [Spent, config_after, Chunk.reading, henter]
  exact ⟨config_run hsilent.keep h B, hsilent.run_out h B⟩

/-- Whatever is fed to such a decoder, it delivers nothing. -/
theorem Spent.calls (h : Spent d) (hd : Valid d) (Bs : List (List UInt8)) :
    ∃ cs, calls d Bs = some cs ∧ ∀ c ∈ cs, c.decodedLen = 0 ∧ Spent c.decoder := by
  induction Bs generalizing d with
  | nil => exact ⟨[], rfl, nofun⟩
  | cons B Bs ih =>
      obtain ⟨c, hc⟩ : ∃ c, call d B = some c := ⟨_, call_eq hd B⟩
      have hreads := reads_of_call hd hc
      obtain ⟨hspent, hout⟩ := h.reading B
      rw [← hreads.decoder] at hspent
      obtain ⟨cs, hcs, hall⟩ := ih hspent (hreads.decoder ▸ valid_after d B)
      refine ⟨c :: cs, ?_, List.forall_mem_cons.mpr ⟨⟨?_, hspent⟩, hall⟩⟩
      · rw [Chunk.calls, hc, Option.bind_eq_bind, Option.bind_some, hcs]
        rfl
      · rw [hreads.decodedLen, hout]
        rfl

/-- A decoder that has completed a body. -/
def Final (d : PhrChunkedDecoder) : Prop := (config d).Final (d.consumeTrailer ≠ 0)

theorem Final.spent (h : Final d) : Spent d := Config.Final.spent h

theorem final_after {B : List UInt8} (h : (reading d B).ending = .done) : Final (after d B) := by
  rw [Final, config_after]
  exact config_of_done (fun _ _ _ => final_of_finish) h

/-- A decoder that was zero-filled keeps its flag, and looks for a trailer only
if it is set. -/
theorem flagged_of_reached {t : Int8} (h : Reached t d) :
    d.consumeTrailer = t ∧ (config d).Flagged (t ≠ 0) := by
  induction h with
  | zeroed =>
      have hsize : Phase.size ≠ .trailHead ∧ Phase.size ≠ .trailMid := by decide
      exact ⟨rfl, Config.flagged_mk hsize _ _⟩
  | call hd hc ih =>
      obtain ⟨hflag, hconfig⟩ := ih
      rw [(reads_of_call (coherent_of_reached hd).valid hc).decoder]
      refine ⟨hflag, ?_⟩
      rw [config_after, Chunk.reading, hflag]
      exact config_run flagged_step hconfig.enter _

/-- What is taken for the end of another body. -/
def Again (consumeTrailer : Int8) (w : List UInt8) : Prop :=
  if consumeTrailer = 0 then w = [LF] else TrailerSection w

theorem run_expectLf {c : Config} (hphase : c.phase = .expectLf) (hleft : c.left = 0)
    {B rest : List UInt8} :
    ((run (step false) c B).ending = .done ∧ (run (step false) c B).rest = rest) ↔
      B = [LF] ++ rest := by
  cases B with
  | nil => exact iff_of_false nofun nofun
  | cons b B =>
      by_cases hb : b = LF
      · have hstep : step false c b = .finish c := by
          rw [step, hphase]
          dsimp only
          rw [if_neg (not_not.mpr hb), if_neg (not_not.mpr hleft)]
          rfl
        rw [run_cons_finish hstep, hb]
        simp
      · have hstep : step false c b = .reject c := by
          rw [step, hphase]
          dsimp only
          rw [if_pos hb]
        rw [run_cons_reject hstep]
        simp [hb]

theorem run_trailHead {trailer : Bool} {c : Config} (hphase : c.phase = .trailHead)
    {B rest : List UInt8} :
    ((run (step trailer) c B).ending = .done ∧ (run (step trailer) c B).rest = rest) ↔
      ∃ w, B = w ++ rest ∧ TrailerSection w := by
  have hfresh : Fresh c := by
    rw [Fresh, hphase]
    trivial
  have hlang (w out : List UInt8) : Lang trailer c w out ↔ TrailerSection w ∧ out = [] := by
    rw [Lang, hphase]
  have hsilent := (silent_spent trailer).run_out (.inr (.inl hphase)) B
  have hdone := @Derives.run_done_iff _ _ _ _ _ _ (derives trailer) _ hfresh B rest []
  simp only [hlang, and_true] at hdone
  rw [← hdone, and_iff_left hsilent]

theorem Final.reading_iff (h : Final d) (hflag : (config d).Flagged (d.consumeTrailer ≠ 0))
    {B rest : List UInt8} :
    ((reading d B).ending = .done ∧ (reading d B).rest = rest) ↔
      ∃ w, B = w ++ rest ∧ Again d.consumeTrailer w := by
  unfold Chunk.reading Again
  rw [Config.Spent.enter h.spent]
  rcases Config.Final.of_flagged h hflag with ⟨htrailer, hphase, hleft⟩ | ⟨htrailer, hphase⟩
  · have hzero : d.consumeTrailer = 0 := not_not.mp (of_decide_eq_false htrailer)
    rw [htrailer, run_expectLf hphase hleft]
    simp only [if_pos hzero, exists_eq_right]
  · have hset : d.consumeTrailer ≠ 0 := of_decide_eq_true htrailer
    rw [run_trailHead hphase]
    simp only [if_neg hset]

theorem Final.answer_iff (h : Final d) (hflag : (config d).Flagged (d.consumeTrailer ≠ 0))
    {B : List UInt8} {l : ℕ} :
    answer d B = .ok l ↔ ∃ w rest, B = w ++ rest ∧ rest.length = l ∧ Again d.consumeTrailer w := by
  rw [answer_eq_ok]
  constructor
  · rintro ⟨hdone, rfl⟩
    obtain ⟨w, hw, hagain⟩ := (h.reading_iff hflag).mp ⟨hdone, rfl⟩
    exact ⟨w, _, hw, rfl, hagain⟩
  · rintro ⟨w, rest, hw, rfl, hagain⟩
    obtain ⟨hdone, hrest⟩ := (h.reading_iff hflag).mpr ⟨w, hw, hagain⟩
    exact ⟨hdone, congrArg List.length hrest.symm⟩

end

/-- A decoder that has been zero-filled but for its flag, and has completed a
body, over whatever calls, delivers no byte of payload in any later calls,
whatever they are fed. The next call takes the end of a body once more: a line
feed without a trailer to consume, and a whole trailer section with one. -/
theorem completed_delivers_nothing {consumeTrailer : Int8} {d : PhrChunkedDecoder}
    (hd : Reached consumeTrailer d) {B : List UInt8} {c : Call} (hc : call d B = some c) {l : ℕ}
    (hok : c.answer = .ok l) :
    (∀ Bs, ∃ cs, calls c.decoder Bs = some cs ∧ ∀ c' ∈ cs, c'.decodedLen = 0) ∧
      (c.decoder.state = stTrailHead ↔ consumeTrailer ≠ 0) ∧
      ∀ B', ∃ c', call c.decoder B' = some c' ∧ ∀ l', c'.answer = .ok l' ↔
        ∃ w rest, B' = w ++ rest ∧ rest.length = l' ∧ Again consumeTrailer w := by
  have hcoherent := coherent_of_reached hd
  have hreads := reads_of_call hcoherent.valid hc
  rw [hreads.answer] at hok
  have hfinal : Final c.decoder := by
    rw [hreads.decoder]
    exact final_after (answer_eq_ok.mp hok).1
  have hvalid : Valid c.decoder := hreads.decoder ▸ valid_after d B
  obtain ⟨rfl, hflag⟩ := flagged_of_reached (.call hd hc)
  refine ⟨?_, ?_, ?_⟩
  · intro Bs
    obtain ⟨cs, hcs, hall⟩ := hfinal.spent.calls hvalid Bs
    exact ⟨cs, hcs, fun c' hc' => (hall c' hc').1⟩
  · rw [← code_phaseAt hvalid]
    rcases Config.Final.of_flagged hfinal hflag with ⟨htrailer, hphase, -⟩ | ⟨htrailer, hphase⟩
    · have hcode : (phaseAt c.decoder.state).code = stExpectLf := congrArg Phase.code hphase
      rw [hcode]
      exact iff_of_false (by decide) (of_decide_eq_false htrailer)
    · exact iff_of_true (congrArg Phase.code hphase) (of_decide_eq_true htrailer)
  · intro B'
    exact ⟨_, call_eq hvalid B', fun l' => hfinal.answer_iff hflag⟩

/-- The head of the next request is taken for a trailer section. -/
theorem completed_delivers_nothing_next_request :
    let c : Call := ⟨none, 5, 0, .ok 0, 0, ⟨0, 1, 0, 6, 5, 0⟩, [48, 13, 10, 13, 10]⟩
    let B' : List UInt8 := [71, 32, 47, 13, 10, 13, 10, 120]
    call (zeroed 1) [48, 13, 10, 13, 10] = some c ∧
      (∀ Bs, ∃ cs, calls c.decoder Bs = some cs ∧ ∀ c' ∈ cs, c'.decodedLen = 0) ∧
      (call c.decoder B').map Call.answer = some (.ok 1) := by
  intro c B'
  have hc : call (zeroed 1) [48, 13, 10, 13, 10] = some c := by decide +kernel
  have h := completed_delivers_nothing .zeroed hc rfl
  exact ⟨hc, h.1, by decide +kernel⟩

end PicoHttpParser.Chunk
