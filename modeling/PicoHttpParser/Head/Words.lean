import PicoHttpParser.Head.Fields
import PicoHttpParser.Head.ReadLoop
import PicoHttpParser.Lib.Connection

/-!
Calls of the head parsers, by what lies in the buffer.

Where the words a parser takes are known, a call with a hint is known as
well: it waits on a part of a word, it answers a whole word that was not there
at the call before, and it answers nothing else.
-/

namespace PicoHttpParser.Head

open Incremental Incremental.Reader

section

variable {σ ω α : Type} {p : Reader UInt8 ω Unit} {bytes : α → List UInt8}
  {events : α → List ω} {Room : α → Prop}

/-- `p` takes the words of a format, and they look like heads. -/
structure Words (p : Reader UInt8 ω Unit) (bytes : α → List UInt8) (events : α → List ω)
    (Room : α → Prop) : Prop where
  reads : Reads 0 p
  takes : ∀ {buf w r l}, Takes p buf 0 w r () l ↔
    buf = w ++ r ∧ ∃ x, w = bytes x ∧ Room x ∧ l = events x
  headlike : ∀ {buf n u l}, p.read buf 0 = (.done (u, n), l) → Headlike buf n

theorem Words.read (h : Words p bytes events Room) {x : α} (hx : Room x) (r : List UInt8) :
    p.read (bytes x ++ r) 0 = (.done ((), (bytes x).length), events x) := by
  have hword := (h.takes.mpr ⟨rfl, x, rfl, hx, rfl⟩ : Takes p (bytes x ++ r) 0 (bytes x) r () _)
  have hread := hword.read
  rwa [Nat.zero_add] at hread

variable (publish : σ → ω → σ) (mem : σ)

/-- A word that is there, and was not there before. -/
theorem Words.answer_whole (h : Words p bytes events Room) {x : α} (hx : Room x)
    (r : List UInt8) {j : ℕ} (hj : j < (bytes x).length) :
    answer publish p (bytes x ++ r) j mem =
      (Int32.ofNat (bytes x).length, (events x).foldl publish mem) := by
  have hread := h.read hx r
  obtain ⟨u, hpre⟩ := precheck_done (k := (bytes x ++ r).length) (h.headlike hread)
    (by rw [List.length_append]; omega) hj
  rw [List.take_length] at hpre
  rw [answer, gated_of_done hpre, hread]
  rfl

/-- A word that is not there yet. -/
theorem Words.answer_part (h : Words p bytes events Room) {x : α} (hx : Room x)
    {buf : List UInt8} (hbuf : buf <+: bytes x) (hlt : buf.length < (bytes x).length) {j : ℕ}
    (hj : j ≤ buf.length) : (answer publish p buf j mem).1 = -2 := by
  have hread := h.read hx []
  rw [List.append_nil] at hread
  have htake : (bytes x).take buf.length = buf := (List.prefix_iff_eq_take.mp hbuf).symm
  have hmore := gated_before h.reads hread (h.headlike hread).paired hlt
    (by rwa [htake] : j ≤ ((bytes x).take buf.length).length)
  rw [htake] at hmore
  rw [answer, hmore]
  rfl

/-- What is answered is a word. -/
theorem Words.answer_cases (h : Words p bytes events Room) (buf : List UInt8) (j : ℕ) :
    (answer publish p buf j mem).1 = -1 ∨ (answer publish p buf j mem).1 = -2 ∨
      ∃ x r, buf = bytes x ++ r ∧ Room x ∧
        answer publish p buf j mem =
          (Int32.ofNat (bytes x).length, (events x).foldl publish mem) := by
  unfold answer
  obtain ⟨u, n, l, hread⟩ | ⟨l, hread⟩ | ⟨l, hread⟩ := cases_read (gated j p) buf 0
  · obtain ⟨w, r, hword, rfl⟩ := exists_takes h.reads (Nat.zero_le _) (gated_eq_done hread)
    obtain ⟨hbuf, x, rfl, hx, rfl⟩ := h.takes.mp hword
    refine .inr (.inr ⟨x, r, hbuf, hx, ?_⟩)
    rw [hread, Nat.zero_add]
    rfl
  · rw [hread]
    exact .inr (.inl rfl)
  · rw [hread]
    exact .inl rfl

/-- No word of the format is at the front of the buffer. -/
def NoWord (bytes : α → List UInt8) (Room : α → Prop) (buf : List UInt8) : Prop :=
  ∀ x, Room x → ¬bytes x <+: buf

/-- A word that has not been received ends behind what has. -/
theorem NoWord.lt {old ext : List UInt8} (h : NoWord bytes Room old) {x : α} (hx : Room x)
    (hword : bytes x <+: old ++ ext) : old.length < (bytes x).length := by
  by_contra hle
  exact h x hx
    (List.prefix_of_prefix_length_le hword (List.prefix_append old ext) (Nat.not_lt.mp hle))

/-- What a call in a read loop tells about what has been received: that no
word begins with it, that no word is in it, or that it begins with a word. -/
inductive Told (bytes : α → List UInt8) (events : α → List ω) (Room : α → Prop)
    (publish : σ → ω → σ) (mem : σ) (buf : List UInt8) : Int32 × σ → Prop
  | fail {m : σ} (h : ∀ ext, NoWord bytes Room (buf ++ ext)) :
      Told bytes events Room publish mem buf (-1, m)
  | more {m : σ} (h : NoWord bytes Room buf) : Told bytes events Room publish mem buf (-2, m)
  | done {x : α} {r : List UInt8} {ret : Int32} (hx : Room x) (hbuf : buf = bytes x ++ r)
      (hpos : 0 < ret) (hret : ret.toInt = (bytes x).length) :
      Told bytes events Room publish mem buf (ret, (events x).foldl publish mem)

/-- A call in a read loop, with the length of what was there before as its
hint. -/
theorem Words.told (h : Words p bytes events Room) (hne : ∀ x, 0 < (bytes x).length)
    {old bs : List UInt8} (hold : NoWord bytes Room old) (hlen : (old ++ bs).length < 2 ^ 31) :
    Told bytes events Room publish mem (old ++ bs)
      (answer publish p (old ++ bs) old.length mem) := by
  have hj : old.length ≤ (old ++ bs).length := (List.prefix_append old bs).length_le
  have hcount {x : α} (hword : bytes x <+: old ++ bs) :
      0 < Int32.ofNat (bytes x).length ∧
        (Int32.ofNat (bytes x).length).toInt = (bytes x).length := by
    have hint := Int32.toInt_ofNat_of_lt (hword.length_le.trans_lt hlen)
    rw [Int32.lt_iff_toInt_lt, hint]
    exact ⟨Int.natCast_pos.mpr (hne x), rfl⟩
  -- a word that is there is new, and is answered
  have hwhole {x : α} (hx : Room x) (hword : bytes x <+: old ++ bs) :
      0 < (answer publish p (old ++ bs) old.length mem).1 := by
    have hnew := hold.lt hx hword
    obtain ⟨r, hr⟩ := hword
    have hpos := (hcount ⟨r, hr⟩).1
    rwa [← hr, h.answer_whole publish mem hx r hnew]
  rcases h.answer_cases publish mem (old ++ bs) old.length with
    hret | hret | ⟨x, r, hbuf, hx, hret⟩
  · rw [← Prod.mk.eta (p := answer publish p (old ++ bs) old.length mem), hret]
    refine .fail fun ext x hx hword => ?_
    rcases Nat.lt_or_ge (old ++ bs).length (bytes x).length with hlt | hge
    · -- a part of a word is waited on
      have hpart := List.prefix_of_prefix_length_le (List.prefix_append _ ext) hword hlt.le
      have hmore := h.answer_part publish mem hx hpart hlt hj
      rw [hret] at hmore
      exact absurd hmore (by decide)
    · have hpos := hwhole hx (List.prefix_of_prefix_length_le hword (List.prefix_append _ ext) hge)
      rw [hret] at hpos
      exact absurd hpos (by decide)
  · rw [← Prod.mk.eta (p := answer publish p (old ++ bs) old.length mem), hret]
    refine .more fun x hx hword => ?_
    have hpos := hwhole hx hword
    rw [hret] at hpos
    exact absurd hpos (by decide)
  · rw [hret]
    have hword : bytes x <+: old ++ bs := ⟨r, hbuf.symm⟩
    exact .done hx hbuf (hcount hword).1 (hcount hword).2

end

/-! ### Read loops -/

section

variable {σ ρ α : Type} {bytes : α → List UInt8} {Room : α → Prop} {buf : σ → List UInt8}
  {bound : ℕ}

/-- A read loop, which has room for `bound` bytes, holds what it has received,
and that is no head yet. -/
structure HeadWaits (bytes : α → List UInt8) (Room : α → Prop) (buf : σ → List UInt8) (bound : ℕ)
    (got : List UInt8) (s : σ) : Prop where
  eq : buf s = got
  le : got.length ≤ bound
  none : NoWord bytes Room got

theorem HeadWaits.start (hne : ∀ x, 0 < (bytes x).length) {s : σ} (hs : buf s = []) :
    HeadWaits bytes Room buf bound [] s := by
  refine ⟨hs, Nat.zero_le bound, fun x _ hx => ?_⟩
  have hpos := hne x
  rw [List.prefix_nil.mp hx] at hpos
  exact Nat.lt_irrefl 0 hpos

variable {want : σ → ℕ} {turn : σ → List UInt8 → σ ⊕ ρ} {Q : List UInt8 → ρ → Prop}

/-- The loop rule for heads: what is known of a turn is known of the loop. -/
theorem headWaits_rule (hne : ∀ x, 0 < (bytes x).length)
    (hturn : ∀ {got bs s}, bs.length ≤ want s → HeadWaits bytes Room buf bound got s →
      Sum.elim (HeadWaits bytes Room buf bound (got ++ bs)) (Q (got ++ bs)) (turn s bs))
    {s : σ} (hs : buf s = []) (segments : List (List UInt8)) :
    ∃ got, Pulled want segments.flatten (HeadWaits bytes Room buf bound) Q got
      (pull want turn s segments) := by
  obtain ⟨got, -, h⟩ := pull_rule (fun got s bs _ _ hlen hs => hturn (s := s) hlen hs) rfl
    (HeadWaits.start hne hs)
  exact ⟨got, h⟩

end

/-! ### The words of the three parsers -/

theorem words_request (cap : ℕ) :
    Words (request cap) RequestHead.bytes RequestHead.events
      (fun head => head.block.lines.length ≤ cap) :=
  ⟨(consumes_request _).reads, takes_request, request_headlike⟩

theorem words_response (cap : ℕ) :
    Words (response cap) ResponseHead.bytes ResponseHead.events
      (fun head => head.block.lines.length ≤ cap) :=
  ⟨(consumes_response _).reads, takes_response, response_headlike⟩

/-- A head is longer than its blank line. -/
theorem RequestHead.length_pos (head : RequestHead) : 0 < head.bytes.length := by
  obtain ⟨b, m, hm, -⟩ := head.isName.head
  simp only [RequestHead.bytes, List.length_append, hm, List.length_cons]
  omega

theorem ResponseHead.length_pos (head : ResponseHead) : 0 < head.bytes.length := by
  simp only [ResponseHead.bytes, List.length_append, versionBytes, List.length_cons]
  omega

end PicoHttpParser.Head
