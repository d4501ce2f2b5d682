import PicoHttpParser.Chunk.Completion

/-!
A decoder that is fed a stream.

A loop hands the decoder what it has read, and takes the payload and, behind
the body, the leftover from the same buffer. `Fed` says what one such call
shows of the whole stream so far; how the stream was cut does not matter.
-/

namespace PicoHttpParser.Chunk

open Incremental Rust

section

variable {d : PhrChunkedDecoder} {a b : List UInt8}

/-- Calls that leave the decoder within the body add up. -/
theorem after_append (ha : (reading d a).ending = .more)
    (hb : (reading (after d a) b).ending = .more) : after d (a ++ b) = after (after d a) b := by
  have hconfig : (reading d (a ++ b)).config = (reading (after d a) b).config := by
    rw [reading_append_more ha, Run.prepend_config]
  have hread := totalRead_append d a b
  have hover := totalOverhead_append ha hb
  unfold after at hread hover ⊢
  rw [PhrChunkedDecoder.mk.injEq]
  exact ⟨congrArg Config.left hconfig, rfl, congrArg Config.hex hconfig,
    congrArg (fun c => c.phase.code) hconfig, hread, hover⟩

end

/-! ### The front of a stream -/

/-- The stream so far does not begin with a body. -/
def NoBody (t : Int8) (got : List UInt8) : Prop :=
  ∀ w p, ChunkedBody (t ≠ 0) w p → ¬w <+: got

/-- The payload of the stream so far. -/
def payload (t : Int8) (got : List UInt8) : List UInt8 := (reading (zeroed t) got).out

/-- The decoder is within the body. -/
def Within (t : Int8) (got : List UInt8) : Prop := (reading (zeroed t) got).ending = .more

/-- The overhead rule rejects the stream so far. -/
def Costly (t : Int8) (got : List UInt8) : Prop := Excessive (after (zeroed t) got)

instance (t : Int8) (got : List UInt8) : Decidable (Costly t got) :=
  inferInstanceAs (Decidable (Excessive _))

/-- No continuation of the stream is a body, or the overhead rule rejects it. -/
def Refused (t : Int8) (got : List UInt8) : Prop :=
  (∀ ext, NoBody t (got ++ ext)) ∨ Within t got ∧ Costly t got

section

variable {t : Int8} {got bs w p rest : List UInt8}

theorem within_nil : Within t [] := rfl

theorem reading_of_body (hw : ChunkedBody (t ≠ 0) w p) (rest : List UInt8) :
    (reading (zeroed t) (w ++ rest)).ending = .done ∧
      (reading (zeroed t) (w ++ rest)).rest = rest ∧
      (reading (zeroed t) (w ++ rest)).out = p :=
  reading_done_iff.mpr ⟨w, rfl, hw⟩

theorem noBody_iff : NoBody t got ↔ (reading (zeroed t) got).ending ≠ .done := by
  constructor
  · intro hnone hdone
    obtain ⟨w, hw, hbody⟩ := reading_done_iff.mp ⟨hdone, rfl, rfl⟩
    exact hnone w _ hbody ⟨_, hw.symm⟩
  · rintro hnot w p hbody ⟨rest, rfl⟩
    exact hnot (reading_of_body hbody rest).1

theorem Within.noBody (h : Within t got) : NoBody t got :=
  noBody_iff.mpr fun hdone => Ending.noConfusion (h.symm.trans hdone)

/-- Nothing behind a byte that was rejected makes the stream a body. -/
theorem noBody_of_bad (h : (reading (zeroed t) got).ending = .bad) (ext : List UInt8) :
    NoBody t (got ++ ext) := by
  rw [noBody_iff, reading_append_ended (by rw [h]; decide)]
  exact fun hdone => Ending.noConfusion (h.symm.trans hdone)

/-- The fronts of a body that are not all of it. -/
theorem within_of_body (hw : ChunkedBody (t ≠ 0) w p) (hgot : got <+: w)
    (hne : got.length < w.length) : Within t got := by
  obtain ⟨ext, rfl⟩ := hgot
  obtain ⟨-, hrest, -⟩ := reading_of_body hw []
  rw [List.append_nil] at hrest
  by_contra hended
  rw [reading_append_ended hended] at hrest
  obtain ⟨-, rfl⟩ := List.append_eq_nil_iff.mp hrest
  rw [List.append_nil] at hne
  exact Nat.lt_irrefl _ hne

/-- A body is all its own. -/
theorem prefixFree_body {w' p' rest' : List UInt8} (hw : ChunkedBody (t ≠ 0) w p)
    (hw' : ChunkedBody (t ≠ 0) w' p') (h : w ++ rest = w' ++ rest') :
    w = w' ∧ p = p' ∧ rest = rest' := by
  obtain ⟨-, hrest, hout⟩ := reading_of_body hw rest
  obtain ⟨-, hrest', hout'⟩ := reading_of_body hw' rest'
  rw [h] at hrest hout
  obtain rfl := hrest.symm.trans hrest'
  exact ⟨List.append_cancel_right h, hout.symm.trans hout', rfl⟩

/-- A stream that begins with a body is not refused, if the rule lets the body
through. -/
theorem not_refused {S : List UInt8} (hw : ChunkedBody (t ≠ 0) w p) (hfront : w <+: S)
    (hthrift : ∀ got, got <+: w → got.length < w.length → ¬Costly t got) (hgot : got <+: S) :
    ¬Refused t got := by
  rintro (hnone | ⟨hwithin, hcostly⟩)
  · obtain ⟨ext, rfl⟩ := hgot
    exact hnone ext w p hw hfront
  · -- the part that was rejected ends within the body
    rcases List.prefix_or_prefix_of_prefix hgot hfront with h | h
    · refine hthrift got h (lt_of_le_of_ne h.length_le fun heq => ?_) hcostly
      exact hwithin.noBody w p hw (h.eq_of_length heq ▸ List.prefix_rfl)
    · exact hwithin.noBody w p hw h

/-- The payload of a part of it is a part of its payload. -/
theorem payload_isPrefix {S : List UInt8} (hw : ChunkedBody (t ≠ 0) w p) (hfront : w <+: S)
    (hgot : got <+: S) : payload t got <+: p := by
  rcases List.prefix_or_prefix_of_prefix hgot hfront with ⟨ext, rfl⟩ | ⟨ext, rfl⟩
  · obtain ⟨-, -, hout⟩ := reading_of_body hw []
    rw [List.append_nil] at hout
    exact hout ▸ out_prefix _ got ext
  · obtain ⟨-, -, hout⟩ := reading_of_body hw ext
    exact (show payload t (w ++ ext) = p from hout) ▸ List.prefix_rfl

/-- The rule, in terms of the stream. -/
theorem costly_iff (hgot : Within t got) (hlen : got.length < 2 ^ 64) :
    Costly t got ↔ 102400 ≤ got.length - (payload t got).length ∧
      (payload t got).length < got.length / 4 := by
  have hvalid := (accounts_zeroed t).valid
  obtain ⟨c, hc⟩ : ∃ c, call (zeroed t) got = some c := ⟨_, call_eq hvalid got⟩
  have r := reads_of_call hvalid hc
  have hexit : c.exit = some .Partial := by rw [r.exit, hgot]; rfl
  have haccounts := (accounts_zeroed t).call hc hexit (by rwa [Nat.zero_add])
  rw [Nat.zero_add, Nat.zero_add, r.decoder, r.decodedLen] at haccounts
  exact haccounts.excessive_iff

/-- The rule lets a short body through. -/
theorem not_costly_of_short (hw : ChunkedBody (t ≠ 0) w p) (hlen : w.length ≤ 102400)
    (hgot : got <+: w) (hne : got.length < w.length) : ¬Costly t got := by
  rw [costly_iff (within_of_body hw hgot hne) (hne.trans (hlen.trans_lt (by decide)))]
  rintro ⟨hover, -⟩
  omega

end

/-! ### One call -/

/-- What the call on `bs` shows, when `got` has been read before. -/
inductive Fed (t : Int8) (got bs : List UInt8) : ℤ × DecodeMem → Prop
  | fail {m : DecodeMem} (h : ∀ ext, NoBody t (got ++ bs ++ ext)) : Fed t got bs (-1, m)
  | costly {m : DecodeMem} (hwithin : Within t (got ++ bs)) (h : Costly t (got ++ bs)) :
      Fed t got bs (-1, m)
  | more {m : DecodeMem} (hwithin : Within t (got ++ bs)) (hthrift : ¬Costly t (got ++ bs))
      (hdecoder : m.decoder = after (zeroed t) (got ++ bs)) (hlen : m.buf.length = bs.length)
      (hle : m.bufsz ≤ bs.length)
      (hout : payload t (got ++ bs) = payload t got ++ m.buf.take m.bufsz) : Fed t got bs (-2, m)
  | done {m : DecodeMem} {w p rest : List UInt8} (hw : ChunkedBody (t ≠ 0) w p)
      (hgot : got ++ bs = w ++ rest) (hlen : m.buf.length = bs.length)
      (hle : m.bufsz + rest.length ≤ bs.length) (hout : p = payload t got ++ m.buf.take m.bufsz)
      (hrest : (m.buf.drop m.bufsz).take rest.length = rest) : Fed t got bs (rest.length, m)

section

variable {t : Int8} {got bs : List UInt8} {a : DecodeArgs}

theorem length_settled (d : PhrChunkedDecoder) (B : List UInt8) :
    (settled d B).length = B.length := by
  have hle := reading_le d B
  rw [settled, List.length_append, List.length_append, List.length_drop]
  omega

/-- A call that stays within the body. -/
theorem call_within (ha : DecodeNonNull a bs) (hgot : Within t got) (hmore : Within t (got ++ bs)) :
    (phrDecodeChunked a (after (zeroed t) got) bs).1 = (if Costly t (got ++ bs) then -1 else -2) ∧
      (phrDecodeChunked a (after (zeroed t) got) bs).2.decoder = after (zeroed t) (got ++ bs) ∧
      (payload t (got ++ bs)).length =
        (payload t got).length + (phrDecodeChunked a (after (zeroed t) got) bs).2.bufsz := by
  have happend := reading_append_more hgot bs
  have hmore' : (reading (after (zeroed t) got) bs).ending = .more := by
    rwa [Within, happend, Run.prepend_ending] at hmore
  rw [Port.phrDecodeChunked_eq ha.decoder ha.bufsz ha.buf (valid_after (zeroed t) got),
    ← answer_append hgot, answer_of_more hmore]
  refine ⟨?_, (after_append hgot hmore').symm, ?_⟩
  · by_cases hcostly : Costly t (got ++ bs)
    · rw [if_pos hcostly]
      exact congrArg ret (if_pos hcostly)
    · rw [if_neg hcostly]
      exact congrArg ret (if_neg hcostly)
  · rw [payload, happend, Run.prepend_out, List.length_append, payload]

/-- A call on the decoder that has read `got`. -/
theorem fed (ha : DecodeNonNull a bs) (hgot : Within t got) :
    Fed t got bs (phrDecodeChunked a (after (zeroed t) got) bs) := by
  have hvalid := valid_after (zeroed t) got
  have happend := reading_append_more hgot bs
  have hle := reading_le (after (zeroed t) got) bs
  have hlen := length_settled (after (zeroed t) got) bs
  have hanswer := answer_append hgot bs
  have hpayload : payload t (got ++ bs) =
      payload t got ++ (settled (after (zeroed t) got) bs).take
        (reading (after (zeroed t) got) bs).out.length := by
    rw [take_settled, payload, happend, Run.prepend_out, payload]
  rw [Port.phrDecodeChunked_eq ha.decoder ha.bufsz ha.buf hvalid, ← hanswer]
  cases hending : (reading (zeroed t) (got ++ bs)).ending with
  | more =>
      have hmore : (reading (after (zeroed t) got) bs).ending = .more := by
        rwa [happend, Run.prepend_ending] at hending
      rw [answer_of_more hending]
      split
      · exact .costly hending ‹_›
      · exact .more hending ‹_› (after_append hgot hmore).symm hlen (by dsimp only; omega) hpayload
  | bad =>
      rw [answer_of_bad hending]
      exact .fail (noBody_of_bad hending)
  | done =>
      obtain ⟨w, hw, hbody⟩ := reading_done_iff.mp ⟨hending, rfl, rfl⟩
      rw [answer_eq_ok.mpr ⟨hending, rfl⟩]
      have hrest : (reading (zeroed t) (got ++ bs)).rest =
          (reading (after (zeroed t) got) bs).rest := by
        rw [happend, Run.prepend_rest]
      refine .done hbody hw hlen ?_ hpayload ?_
      · rw [hrest]
        exact hle
      · dsimp only
        rw [hrest, settled, List.append_assoc, List.drop_left, List.take_left]

end

end PicoHttpParser.Chunk
