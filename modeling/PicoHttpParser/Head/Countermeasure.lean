import PicoHttpParser.Head.Partial
import PicoHttpParser.Head.ReadLoop
import PicoHttpParser.Lib.Shift

/-!
What the pre-check saves.

The pre-check is there for peers that send a head in tiny pieces: a call that
it stops has looked at the new bytes and three more, and has not parsed. It
knows nothing of heads, so it is not obvious that it stops most of them. But
two line ends in a row are the end of a head, and behind them a parser has
little left to wait for: only where a version or a status is decided on as a
whole it waits there, for a few bytes.
-/

namespace PicoHttpParser.Head

open Incremental Incremental.Reader

/-! ### What the pre-check has seen -/

theorem isCompleteFrom_eq (buf : List UInt8) (pos cnt : ℕ) :
    Rust.isCompleteFrom buf pos cnt =
      match buf[pos]? with
      | none => .error (.err .Partial)
      | some b =>
        if b = CR then
          match buf[pos + 1]? with
          | none => .error (.err .Partial)
          | some c =>
            if c = LF then
              if cnt + 1 = 2 then .ok () else Rust.isCompleteFrom buf (pos + 2) (cnt + 1)
            else .error (.err .Malformed)
        else if b = LF then
          if cnt + 1 = 2 then .ok () else Rust.isCompleteFrom buf (pos + 1) (cnt + 1)
        else Rust.isCompleteFrom buf (pos + 1) 0 := by
  rw [Rust.isCompleteFrom]
  cases buf[pos]? with
  | none => rfl
  | some b => rfl

theorem isCompleteFrom_drop (buf : List UInt8) (n pos cnt : ℕ) :
    Rust.isCompleteFrom buf (n + pos) cnt = Rust.isCompleteFrom (buf.drop n) pos cnt := by
  induction hm : buf.length - (n + pos) using Nat.strong_induction_on generalizing pos cnt with
  | _ m ih =>
      subst hm
      rw [isCompleteFrom_eq buf, isCompleteFrom_eq (buf.drop n), List.getElem?_drop,
        List.getElem?_drop]
      cases hb : buf[n + pos]? with
      | none => rfl
      | some b =>
          have hlt := (List.getElem?_eq_some_iff.mp hb).1
          have hnext (k cnt : ℕ) (hk : 0 < k) : Rust.isCompleteFrom buf (n + (pos + k)) cnt =
              Rust.isCompleteFrom (buf.drop n) (pos + k) cnt :=
            ih _ (by omega) (pos + k) cnt rfl
          simp only [Nat.add_assoc, hnext 1 _ Nat.one_pos, hnext 2 _ Nat.two_pos]

/-- The pre-check knows the bytes from `last_len - 3` on, and no others. -/
theorem isComplete_drop (buf : List UInt8) (lastLen : ℕ) :
    Rust.isComplete buf lastLen = Rust.isComplete (buf.drop (lastLen - 3)) 0 :=
  isCompleteFrom_drop buf (lastLen - 3) 0 0

/-- Where the pre-check is content there are two line ends in a row. -/
theorem blank_of_isComplete {buf : List UInt8} {lastLen : ℕ}
    (h : Rust.isComplete buf lastLen = .ok ()) : ∃ d m n, LineEnd buf d m ∧ LineEnd buf m n := by
  obtain ⟨n, ⟨d, m, hdm, hmn⟩, -⟩ :=
    blank_of_isCompleteFrom h (Nat.zero_le 1) fun h => absurd h (by decide)
  exact ⟨d, m, n, hdm, hmn⟩

/-! ### Line ends in a word -/

/-- No part of a line end. -/
def Solid (w : List UInt8) : Prop := ∀ b ∈ w, b ≠ CR ∧ b ≠ LF

namespace LineEnd

variable {u w : List UInt8} {p q : ℕ}

/-- A line end is not in front of a place without a part of one. -/
theorem solid_le (h : LineEnd (u ++ w) p q) (hu : Solid u) : u.length ≤ p := by
  by_contra hlt
  rw [Nat.not_le] at hlt
  have hb : (u ++ w)[p]? = some u[p] := by
    rw [List.getElem?_append_left hlt, List.getElem?_eq_getElem hlt]
  obtain ⟨hcr, hlf⟩ := hu _ (List.getElem_mem hlt)
  rcases h with ⟨h, -⟩ | ⟨h, -, -⟩
  · exact hlf (Option.some.inj (hb.symm.trans h))
  · exact hcr (Option.some.inj (hb.symm.trans h))

theorem append (h : LineEnd u p q) (w : List UInt8) : LineEnd (u ++ w) p q := by
  have hleft {i : ℕ} {b : UInt8} (hb : u[i]? = some b) : (u ++ w)[i]? = some b := by
    rw [List.getElem?_append_left (List.getElem?_eq_some_iff.mp hb).1, hb]
  rcases h with ⟨hlf, rfl⟩ | ⟨hcr, hlf, rfl⟩
  · exact .inl ⟨hleft hlf, rfl⟩
  · exact .inr ⟨hleft hcr, hleft hlf, rfl⟩

/-- A line end behind `u`, seen from there. -/
theorem behind (h : LineEnd (u ++ w) p q) (hle : u.length ≤ p) :
    ∃ p' q', p = u.length + p' ∧ q = u.length + q' ∧ LineEnd w p' q' := by
  obtain ⟨p', rfl⟩ := Nat.exists_eq_add_of_le hle
  rcases h with ⟨hlf, rfl⟩ | ⟨hcr, hlf, rfl⟩
  · rw [getElem?_behind] at hlf
    exact ⟨p', p' + 1, rfl, rfl, .inl ⟨hlf, rfl⟩⟩
  · rw [Nat.add_assoc, getElem?_behind] at hlf
    rw [getElem?_behind] at hcr
    exact ⟨p', p' + 2, rfl, rfl, .inr ⟨hcr, hlf, rfl⟩⟩

/-- One that begins within a line end, ends with it. -/
theorem eq_length {e : Eol} (h : LineEnd (e.bytes ++ w) p q) (hlt : p < e.bytes.length) :
    q = e.bytes.length := by
  cases e with
  | lf =>
      obtain rfl : p = 0 := Nat.lt_one_iff.mp hlt
      rcases h with ⟨-, rfl⟩ | ⟨hcr, -⟩
      · rfl
      · exact absurd (Option.some.inj hcr) (by decide)
  | crlf =>
      rcases h with ⟨hlf, rfl⟩ | ⟨hcr, -, rfl⟩
      · obtain rfl | rfl : p = 0 ∨ p = 1 := by
          change p < 2 at hlt
          omega
        · exact absurd (Option.some.inj hlf) (by decide)
        · rfl
      · obtain rfl | rfl : p = 0 ∨ p = 1 := by
          change p < 2 at hlt
          omega
        · rfl
        · exact absurd (Option.some.inj hcr) (by decide)

end LineEnd

/-- Two line ends in a row are the end of the word, and so is one it begins
with. -/
structure Closed (w : List UInt8) : Prop where
  blank : ∀ {d m n}, LineEnd w d m → LineEnd w m n → n = w.length
  first : ∀ {n}, LineEnd w 0 n → n = w.length

namespace Closed

variable {u w : List UInt8}

theorem eol (e : Eol) : Closed e.bytes where
  blank hd hm := by
    rw [← List.append_nil e.bytes] at hd
    have hlt := hd.lt.1.trans hm.lt.1 |>.trans_le hm.le_length
    have hend := hd.eq_length hlt
    exact absurd (hm.lt.1.trans_le hm.le_length) (by omega)
  first h := by
    rw [← List.append_nil e.bytes] at h
    exact h.eq_length (by cases e <;> decide)

/-- A line in front, which may be empty. -/
theorem blank_line (h : Closed w) (hu : Solid u) (e : Eol) {d m n : ℕ}
    (hd : LineEnd (u ++ (e.bytes ++ w)) d m) (hm : LineEnd (u ++ (e.bytes ++ w)) m n) :
    n = (u ++ (e.bytes ++ w)).length := by
  obtain ⟨d, m, rfl, rfl, hd₁⟩ := hd.behind (hd.solid_le hu)
  obtain ⟨m', n, hm', rfl, hm₁⟩ := hm.behind (Nat.le_add_right _ _)
  obtain rfl := Nat.add_left_cancel hm'
  rw [List.length_append, List.length_append, Nat.add_left_cancel_iff]
  rcases Nat.lt_or_ge d e.bytes.length with hlt | hge
  · -- the line end in front is that of the line
    obtain rfl := hd₁.eq_length hlt
    obtain ⟨p, n, hp, rfl, hm₂⟩ := hm₁.behind le_rfl
    obtain rfl : p = 0 := by omega
    rw [h.first hm₂]
  · obtain ⟨d, m, rfl, rfl, hd₂⟩ := hd₁.behind hge
    obtain ⟨m', n, hm', rfl, hm₂⟩ := hm₁.behind (Nat.le_add_right _ _)
    obtain rfl := Nat.add_left_cancel hm'
    rw [h.blank hd₂ hm₂]

theorem line (h : Closed w) (hu : Solid u) (hne : u ≠ []) (e : Eol) :
    Closed (u ++ (e.bytes ++ w)) where
  blank := h.blank_line hu e
  first h0 := absurd (List.eq_nil_of_length_eq_zero (Nat.le_zero.mp (h0.solid_le hu))) hne

end Closed

/-! ### Line ends in a head -/

namespace Solid

variable {u w : List UInt8}

theorem append (hu : Solid u) (hw : Solid w) : Solid (u ++ w) := fun b hb =>
  (List.mem_append.mp hb).elim (hu b) (hw b)

theorem of_token (h : ∀ b ∈ w, IsTokenByte b) : Solid w := fun b hb =>
  forall_byte (P := fun b => IsTokenByte b → b ≠ CR ∧ b ≠ LF) (by decide +kernel) b (h b hb)

theorem of_visible (h : ∀ b ∈ w, IsVisible b) : Solid w := fun b hb =>
  forall_byte (P := fun b => IsVisible b → b ≠ CR ∧ b ≠ LF) (by decide +kernel) b (h b hb)

theorem of_text (h : IsText w) : Solid w := fun b hb =>
  forall_byte (P := fun b => (b = HTAB ∨ 0x20 ≤ b ∧ b ≤ 0x7e ∨ 0x80 ≤ b) → b ≠ CR ∧ b ≠ LF)
    (by decide +kernel) b (h b hb)

theorem of_digit {b : UInt8} (h : IsDigit b) : b ≠ CR ∧ b ≠ LF :=
  forall_byte (P := fun b => IsDigit b → b ≠ CR ∧ b ≠ LF) (by decide +kernel) b h

theorem replicate (n : ℕ) : Solid (List.replicate n SP) := fun b hb => by
  rw [List.eq_of_mem_replicate hb]
  decide

theorem version {d : UInt8} (h : IsDigit d) : Solid (versionBytes d) := by
  have hname : Solid [0x48, 0x54, 0x54, 0x50, 0x2f, 0x31, 0x2e] := by
    unfold Solid
    decide +kernel
  exact hname.append (List.forall_mem_singleton.mpr (of_digit h))

theorem status {d₁ d₂ d₃ : UInt8} (h : IsDigit d₁ ∧ IsDigit d₂ ∧ IsDigit d₃) :
    Solid [d₁, d₂, d₃] := by
  simp only [Solid, List.forall_mem_cons]
  exact ⟨of_digit h.1, of_digit h.2.1, of_digit h.2.2, fun _ hb => absurd hb List.not_mem_nil⟩

end Solid

theorem HeaderLine.exists_solid (line : HeaderLine) :
    ∃ u e, line.bytes = u ++ Eol.bytes e ∧ Solid u ∧ u ≠ [] := by
  cases line with
  | named name text e hname htext =>
      have hcolon : Solid [0x3a] := List.forall_mem_singleton.mpr (by decide)
      refine ⟨name ++ ([0x3a] ++ text), e, ?_, (Solid.of_token hname.2).append
        (hcolon.append (.of_text htext)), List.append_ne_nil_of_left_ne_nil hname.1 _⟩
      simp only [HeaderLine.bytes, List.append_assoc, List.cons_append, List.nil_append]
  | continued text e htext hblank =>
      obtain ⟨b, hb, -⟩ := hblank
      exact ⟨text, e, rfl, .of_text htext, List.ne_nil_of_mem (List.mem_of_mem_head? hb)⟩

theorem closed_block (block : HeaderBlock) : Closed block.bytes := by
  obtain ⟨lines, e, hfirst⟩ := block
  show Closed (linesBytes lines ++ e.bytes)
  clear hfirst
  induction lines with
  | nil => exact .eol e
  | cons line lines ih =>
      obtain ⟨u, e', hline, hu, hne⟩ := line.exists_solid
      rw [linesBytes_cons, hline, List.append_assoc, List.append_assoc]
      exact ih.line hu hne e'

/-- Two line ends in a row are the end of a request. -/
theorem RequestHead.blank (head : RequestHead) {d m n : ℕ} (hd : LineEnd head.bytes d m)
    (hm : LineEnd head.bytes m n) : n = head.bytes.length := by
  have hsolid : Solid (head.method ++ (spacesBytes head.gap₁ ++ (head.path ++
      (spacesBytes head.gap₂ ++ versionBytes head.version)))) :=
    (Solid.of_token head.isName.2).append ((Solid.replicate _).append
      ((Solid.of_visible head.isTarget.2).append ((Solid.replicate _).append
        (.version head.isDigit))))
  have hline := (closed_block head.block).line hsolid
    (List.append_ne_nil_of_left_ne_nil head.isName.1 _) head.eol
  simp only [List.append_assoc] at hline
  cases hlead : head.lead with
  | none =>
      rw [RequestHead.bytes, hlead] at hd hm ⊢
      exact hline.blank hd hm
  | some e =>
      rw [RequestHead.bytes, hlead] at hd hm ⊢
      exact hline.blank_line (fun b hb => absurd hb List.not_mem_nil) e (u := []) hd hm

/-- And of a response. -/
theorem ResponseHead.blank (head : ResponseHead) {d m n : ℕ} (hd : LineEnd head.bytes d m)
    (hm : LineEnd head.bytes m n) : n = head.bytes.length := by
  have hsolid : Solid (versionBytes head.version ++ (spacesBytes head.gap ++
      ([head.d₁, head.d₂, head.d₃] ++ head.reason))) :=
    (Solid.version head.isDigit).append ((Solid.replicate _).append
      ((Solid.status head.isStatus).append (.of_text head.isReason.1)))
  have hline := (closed_block head.block).line hsolid
    (List.append_ne_nil_of_left_ne_nil (List.cons_ne_nil _ _) _) head.eol
  simp only [List.append_assoc] at hline
  exact hline.blank hd hm

/-! ### Behind two line ends -/

section

variable {buf : List UInt8} {cap d m n : ℕ}

/-- In front of two line ends in a row there is what holds no part of one. -/
theorem front_le {lead : Option Eol} {u r : List UInt8} (hu : Solid u) (hne : u ≠ [])
    (hd : LineEnd (leadBytes lead ++ (u ++ r)) d m)
    (hm : LineEnd (leadBytes lead ++ (u ++ r)) m n) : (leadBytes lead).length + u.length ≤ d := by
  have hpos := List.length_pos_iff.mpr hne
  cases lead with
  | none =>
      show 0 + u.length ≤ d
      rw [Nat.zero_add]
      exact LineEnd.solid_le (w := r) hd hu
  | some e =>
      change LineEnd (e.bytes ++ (u ++ r)) d m at hd
      change LineEnd (e.bytes ++ (u ++ r)) m n at hm
      show e.bytes.length + u.length ≤ d
      rcases Nat.lt_or_ge d e.bytes.length with hlt | hge
      · obtain rfl := hd.eq_length hlt
        obtain ⟨p, q, hp, -, hm₁⟩ := hm.behind le_rfl
        have hle := hm₁.solid_le hu
        omega
      · obtain ⟨p, q, rfl, -, hd₁⟩ := hd.behind hge
        exact Nat.add_le_add_left (hd₁.solid_le hu) _

/-- A word that the parser waits to see the rest of has no line ends in a row
but those at its end. -/
theorem not_blank_of_waits {ω : Type} {p : Reader UInt8 ω Unit} {w ext : List UInt8}
    (h : Waits p buf 0) (hext : buf ++ ext = w)
    (hread : ext = [] → ∃ r l, p.read buf 0 = (.done r, l))
    (hblank : ∀ {d m n}, LineEnd w d m → LineEnd w m n → n = w.length)
    (hd : LineEnd buf d m) (hm : LineEnd buf m n) : False := by
  subst hext
  have hend := hblank (hd.append ext) (hm.append ext)
  rw [List.length_append] at hend
  have hle := hm.le_length
  obtain ⟨r, l, hr⟩ := hread (List.eq_nil_of_length_eq_zero (by omega))
  obtain ⟨l', hl'⟩ := h
  rw [hr] at hl'
  cases hl'

theorem waits_request_blank (h : Waits (request cap) buf 0) (hd : LineEnd buf d m)
    (hm : LineEnd buf m n) : buf.length < d + 9 := by
  rcases waits_request h with ⟨lead, v, rfl, hv⟩ | ⟨ext, head, hext, hlines⟩
  · rcases hv with ⟨gap, path, k, hpath, rfl⟩ |
      ⟨method, gap₁, path, gap₂, rest, hname, htarget, rfl, -, hlen, -⟩
    · have hsolid : Solid (spacesBytes gap ++ (path ++ List.replicate k SP)) :=
        (Solid.replicate _).append ((Solid.of_visible hpath).append (.replicate k))
      rw [← List.append_nil (spacesBytes gap ++ _)] at hd hm ⊢
      have hle := front_le hsolid (List.cons_ne_nil _ _) hd hm
      simp only [List.length_append, List.length_nil] at hle ⊢
      omega
    · have hsolid : Solid (method ++ (spacesBytes gap₁ ++ (path ++ spacesBytes gap₂))) :=
        (Solid.of_token hname.2).append ((Solid.replicate _).append
          ((Solid.of_visible htarget.2).append (.replicate _)))
      have happend : method ++ (spacesBytes gap₁ ++ (path ++ (spacesBytes gap₂ ++ rest))) =
          method ++ (spacesBytes gap₁ ++ (path ++ spacesBytes gap₂)) ++ rest := by
        simp only [List.append_assoc]
      rw [happend] at hd hm ⊢
      have hle := front_le hsolid (List.append_ne_nil_of_left_ne_nil hname.1 _) hd hm
      rw [List.length_append, List.length_append]
      omega
  · refine (not_blank_of_waits h hext (fun hnil => ?_) head.blank hd hm).elim
    rw [hnil, List.append_nil] at hext
    have htakes : Takes (request cap) buf 0 head.bytes [] () head.events :=
      takes_request.mpr ⟨by rw [hext, List.append_nil], head, rfl, hlines, rfl⟩
    exact ⟨_, _, htakes.read⟩

theorem waits_response_blank (h : Waits (response cap) buf 0) (hd : LineEnd buf d m)
    (hm : LineEnd buf m n) : buf.length < d + 9 := by
  rcases waits_response h with hstuck | ⟨ext, head, hext, hlines⟩
  · rcases hstuck with hshort | ⟨v, gap, rest, hv, rfl, -, hrest⟩
    · exact hshort.1.trans_le (Nat.le_add_left 9 d)
    have hsolid : Solid (versionBytes v ++ spacesBytes gap) :=
      (Solid.version hv).append (.replicate _)
    rw [← List.append_assoc] at hd hm ⊢
    rcases hrest with hrest | ⟨d₁, d₂, d₃, t, hstatus, ht, -, hrest⟩
    · have hle := hd.solid_le hsolid
      rw [List.length_append]
      have hlen := hrest.1
      omega
    · have hword : Solid (versionBytes v ++ spacesBytes gap ++ ([d₁, d₂, d₃] ++ t)) :=
        hsolid.append ((Solid.status hstatus).append (.of_text ht))
      -- there is room for a CR behind the text, and for no line end
      obtain ⟨last, hlast, hbuf⟩ : ∃ last : List UInt8, last.length ≤ 1 ∧
          versionBytes v ++ spacesBytes gap ++ rest =
            versionBytes v ++ spacesBytes gap ++ ([d₁, d₂, d₃] ++ t) ++ last := by
        rcases hrest with rfl | rfl
        · exact ⟨[], Nat.zero_le 1, (List.append_nil _).symm⟩
        · exact ⟨[CR], le_rfl, by simp only [List.append_assoc]⟩
      rw [hbuf] at hd hm ⊢
      have hle := hd.solid_le hword
      rw [List.length_append]
      omega
  · refine (not_blank_of_waits h hext (fun hnil => ?_) head.blank hd hm).elim
    rw [hnil, List.append_nil] at hext
    have htakes : Takes (response cap) buf 0 head.bytes [] () head.events :=
      takes_response.mpr ⟨by rw [hext, List.append_nil], head, rfl, hlines, rfl⟩
    exact ⟨_, _, htakes.read⟩

/-- A header block is not waited for behind two line ends. -/
theorem not_waits_headers_blank (h : Waits (headers cap) buf 0) (hd : LineEnd buf d m)
    (hm : LineEnd buf m n) : False := by
  obtain ⟨ext, block, hext, hlines⟩ := waits_headers (Nat.zero_le _) h
  rw [List.drop_zero] at hext
  refine not_blank_of_waits h hext (fun hnil => ?_) (closed_block block).blank hd hm
  rw [hnil, List.append_nil] at hext
  have htakes : Takes (headers cap) buf 0 block.bytes [] () _ :=
    (takes_headers (Nat.zero_le _)).mpr
      ⟨by rw [hext, List.drop_zero, List.append_nil], block, rfl, hlines, rfl⟩
  exact ⟨_, _, htakes.read⟩

end

/-! ### Calls that parse -/

/-- There is no pre-check on this call, or it is content. -/
def parses (buf : List UInt8) (lastLen : ℕ) : Bool :=
  lastLen == 0 || (Rust.isComplete buf lastLen).isOk

/-- The calls of a read loop, and which of them parse. -/
def markedCalls {σ : Type} (parse : List UInt8 → ℕ → EStateM.Result Rust.Fault σ ℕ)
    (s : List UInt8) (lastLen : ℕ) (cuts : List ℕ) :
    List (ℕ × (Bool × EStateM.Result Rust.Fault σ ℕ)) :=
  readLoop (fun buf lastLen => (parses buf lastLen, parse buf lastLen)) (fun r => isPartial r.2) s
    lastLen cuts

/-- The calls of a read loop that the pre-check does not stop. -/
def parsedCalls {σ : Type} (parse : List UInt8 → ℕ → EStateM.Result Rust.Fault σ ℕ)
    (s : List UInt8) (cuts : List ℕ) : List (ℕ × (Bool × EStateM.Result Rust.Fault σ ℕ)) :=
  (markedCalls parse s 0 cuts).filter fun c => c.2.1

/-- What `parse_headers_inner` runs between the checks of its arguments and
the copy of the count. -/
def guardedHeaders {S : Type} [Rust.HeaderSink S] (buf : List UInt8) (lastLen : ℕ) :
    EStateM Rust.Fault (S × ℕ) ℕ := do
  lift (if lastLen ≠ 0 then Rust.isComplete buf lastLen else .ok ())
  Rust.parseHeaders buf 0

theorem parseHeadersInner_eq {a : Rust.HeadersArgs} {buf : List UInt8} (ha : ¬HeadersNull a buf)
    (lastLen : ℕ) {mem : HeaderMem} (harray : ¬ArrayNull a.headers mem.numHeaders) :
    Rust.parseHeadersInner a buf lastLen mem =
      match guardedHeaders buf lastLen
        (({ base := a.buf, slots := mem.headers, cap := mem.numHeaders } : Rust.RawSink), 0) with
      | .ok pos (sink, count) =>
        (some (Rust.asCInt pos), { headers := sink.slots, numHeaders := count })
      | .error (.err .Partial) (sink, count) =>
        (some (-2), { headers := sink.slots, numHeaders := count })
      | .error (.err .Malformed) (sink, count) =>
        (some (-1), { headers := sink.slots, numHeaders := count })
      | .error .panic (sink, _) => (none, { headers := sink.slots, numHeaders := 0 }) := by
  rw [Rust.parseHeadersInner, if_neg ha]
  dsimp only
  rw [if_neg harray]
  unfold guardedHeaders
  rcases (if lastLen ≠ 0 then Rust.isComplete buf lastLen else .ok () : Rust.Res Unit) with
    ((_ | _) | _) | ⟨⟩
  · rfl
  · rfl
  · rfl
  · rfl

/-- A call that the pre-check stops leaves the state as it was. -/
theorem stopped {σ : Type} {buf : List UInt8} {lastLen : ℕ} (h : parses buf lastLen = false)
    (f : Unit → EStateM Rust.Fault σ ℕ) (st : σ) :
    ∃ e, Rust.isComplete buf lastLen = .error e ∧
      (lift (if lastLen ≠ 0 then Rust.isComplete buf lastLen else .ok ()) >>= f) st =
        .error e st := by
  obtain ⟨hzero, hpre⟩ := Bool.or_eq_false_iff.mp h
  rw [if_pos (by simpa using hzero)]
  cases hgate : Rust.isComplete buf lastLen with
  | ok u =>
      rw [hgate] at hpre
      cases hpre
  | error e => exact ⟨e, rfl, rfl⟩

theorem headers_gated {S : Type} [Rust.HeaderSink S] (sink : S) {buf : List UInt8} {j : ℕ}
    (h : j ≤ buf.length) :
    guardedHeaders buf j (sink, 0) =
      (realize Port.publishHeader (gated j (headers (Rust.HeaderSink.capacity sink))) buf 0 >>=
        fun r => pure r.2 : EStateM Rust.Fault (S × ℕ) ℕ) (sink, 0) := by
  rw [guardedHeaders, gate_eq h, lift_map, bind_map_left, ← realize_gated, bind_assoc]
  cases ((precheck buf j).settle : Rust.Res (Unit × ℕ)) with
  | error e => rfl
  | ok r => exact Port.parseHeaders_eq buf 0 (sink, 0)

section

variable {σ ω : Type} {publish : σ → ω → σ} {p : Reader UInt8 ω Unit} {st : σ}
  {parse : List UInt8 → ℕ → EStateM.Result Rust.Fault σ ℕ}

/-- A call that parses and asks for more has seen two line ends in a row. -/
theorem waits_of_parses {buf : List UInt8} {j : ℕ} (hzero : 0 < j) (hle : j ≤ buf.length)
    (hparse : parse buf j =
      (realize publish (gated j p) buf 0 >>= fun r => pure r.2 : EStateM Rust.Fault σ ℕ) st)
    (hparses : parses buf j = true) (hmore : isPartial (parse buf j) = true) :
    Waits p buf 0 ∧ ∃ d m n, LineEnd buf d m ∧ LineEnd buf m n := by
  have hok : Rust.isComplete buf j = .ok () := by
    rcases Bool.or_eq_true_iff.mp hparses with h | h
    · exact absurd (beq_iff_eq.mp h) hzero.ne'
    · cases hgate : Rust.isComplete buf j with
      | ok u => rfl
      | error e =>
          rw [hgate] at h
          cases h
  refine ⟨?_, blank_of_isComplete hok⟩
  obtain ⟨r, hpre⟩ := (isComplete_eq_ok hzero hle).mp hok
  rw [hparse, run_congr (gated_of_done hpre 0), run_realize] at hmore
  obtain ⟨a, q, l, h⟩ | ⟨l, h⟩ | ⟨l, h⟩ := cases_read p buf 0
  · rw [h] at hmore
    cases hmore
  · exact ⟨l, h⟩
  · rw [h] at hmore
    cases hmore

/-- A call behind the first one that parses and asks for more. -/
theorem later_waits
    (hparse : ∀ buf j, j ≤ buf.length → parse buf j =
      (realize publish (gated j p) buf 0 >>= fun r => pure r.2 : EStateM Rust.Fault σ ℕ) st)
    {s : List UInt8} {k : ℕ} {cuts : List ℕ} (hcuts : Boundaries s (k :: cuts))
    {c : ℕ × (Bool × EStateM.Result Rust.Fault σ ℕ)} (hc : c ∈ markedCalls parse s k cuts)
    (hparses : c.2.1 = true) (hmore : isPartial c.2.2 = true) :
    (s.take c.1).length = c.1 ∧ Waits p (s.take c.1) 0 ∧
      ∃ d m n, LineEnd (s.take c.1) d m ∧ LineEnd (s.take c.1) m n := by
  obtain ⟨hpos, hincreasing⟩ := List.pairwise_cons.mp hcuts.increasing
  obtain ⟨j, hjk, hcall⟩ := mem_readLoop hc
  obtain ⟨hlt, hmem⟩ := lt_of_mem_zip hincreasing hjk
  have hlen : (s.take c.1).length = c.1 :=
    List.length_take_of_le (hcuts.le_length _ (List.mem_cons_of_mem _ hmem))
  have hj : j ≤ (s.take c.1).length := by omega
  rw [hcall] at hparses hmore
  exact ⟨hlen,
    waits_of_parses (hpos j (List.of_mem_zip hjk).1) hj (hparse _ _ hj) hparses hmore⟩

/-- Behind two line ends in a row the reader waits for a few bytes only, so
a read loop parses a few times only. -/
theorem parsedCalls_le {r : ℕ}
    (hparse : ∀ buf j, j ≤ buf.length → parse buf j =
      (realize publish (gated j p) buf 0 >>= fun r => pure r.2 : EStateM Rust.Fault σ ℕ) st)
    (hwaits : ∀ {buf d m n}, Waits p buf 0 → LineEnd buf d m → LineEnd buf m n →
      buf.length < d + 2 + r)
    {s : List UInt8} {cuts : List ℕ} (hcuts : Boundaries s cuts) :
    (parsedCalls parse s cuts).length ≤ r + 2 := by
  cases cuts with
  | nil => exact Nat.zero_le _
  | cons k cuts =>
      have hincreasing := (List.pairwise_cons.mp hcuts.increasing).2
      have htail : ((markedCalls parse s k cuts).filter fun c => c.2.1).length ≤ r + 1 := by
        refine length_filter_readLoop (f := Prod.fst) hincreasing ?_
        intro c hc hparses hmore c' hc' hparses' hmore' hle
        obtain ⟨hlen, -, d, m, n, hd, hm⟩ := later_waits hparse hcuts hc hparses hmore
        obtain ⟨hlen', hwaits', -⟩ := later_waits hparse hcuts hc' hparses' hmore'
        -- the line ends of the earlier call are there at the later one
        obtain ⟨ext, hext⟩ : s.take c.1 <+: s.take c'.1 := List.take_prefix_take_left hle
        have hseen := hwaits hwaits' (hext ▸ hd.append ext) (hext ▸ hm.append ext)
        have hend := hm.le_length
        have hlt := hd.lt.1
        have hlt' := hm.lt.1
        omega
      exact (length_filter_readLoop_cons _ _ _ _).trans (Nat.succ_le_succ htail)

end

/-- What the pre-check is for: in a read loop at most `few` calls parse. All
others have not seen the bytes before the last three that were there at the
call before, and have not touched the outputs. -/
structure Spared {σ : Type} (parse : List UInt8 → ℕ → EStateM.Result Rust.Fault σ ℕ) (st : σ)
    (few : ℕ) (s : List UInt8) (cuts : List ℕ) : Prop where
  few : (parsedCalls parse s cuts).length ≤ few
  stopped : ∀ c ∈ markedCalls parse s 0 cuts, c.2.1 = false →
    ∃ j, (j, c.1) ∈ (0 :: cuts).zip cuts ∧
      ∃ e, Rust.isComplete ((s.take c.1).drop (j - 3)) 0 = .error e ∧ c.2.2 = .error e st

theorem spared_of_few {σ : Type} {f : List UInt8 → Unit → EStateM Rust.Fault σ ℕ}
    {parse : List UInt8 → ℕ → EStateM.Result Rust.Fault σ ℕ} {st : σ} {few : ℕ} {s : List UInt8}
    {cuts : List ℕ} (hparse : ∀ buf lastLen, parse buf lastLen =
      (lift (if lastLen ≠ 0 then Rust.isComplete buf lastLen else .ok ()) >>= f buf) st)
    (hfew : (parsedCalls parse s cuts).length ≤ few) : Spared parse st few s cuts where
  few := hfew
  stopped c hc hparses := by
    obtain ⟨j, hjk, hcall⟩ := mem_readLoop hc
    rw [hcall] at hparses ⊢
    obtain ⟨e, hpre, hstate⟩ := stopped hparses (f (s.take c.1)) st
    exact ⟨j, hjk, e, by rw [← isComplete_drop, hpre], by rw [← hstate, hparse]⟩

/-- However the input is cut, at most nine calls parse a request and at most
nine a response. For a header block there are two. -/
theorem precheck_spares {S : Type} [Rust.HeaderSink S] (sink : S) {s : List UInt8} {cuts : List ℕ}
    (hcuts : Boundaries s cuts) :
    Spared (fun buf lastLen => Rust.Request.parseRequest buf lastLen (sink, {})) (sink, {}) 9 s
        cuts ∧
      Spared (fun buf lastLen => Rust.Response.parseResponse buf lastLen (sink, {})) (sink, {}) 9 s
        cuts ∧
      Spared (fun buf lastLen => guardedHeaders buf lastLen (sink, 0)) (sink, 0) 2 s cuts := by
  refine ⟨spared_of_few (fun _ _ => rfl) ?_, spared_of_few (fun _ _ => rfl) ?_,
    spared_of_few (fun _ _ => rfl) ?_⟩
  · exact parsedCalls_le (r := 7) (fun _ _ h => request_gated sink h) waits_request_blank hcuts
  · exact parsedCalls_le (r := 7) (fun _ _ h => response_gated sink h) waits_response_blank hcuts
  · refine parsedCalls_le (r := 0) (fun buf j h => headers_gated sink h) ?_ hcuts
    intro _ _ _ _ h hd hm
    exact (not_waits_headers_blank h hd hm).elim

/-- As many calls can parse: line ends in the place of a version, and a block
of one line. -/
theorem precheck_spares_line_ends :
    let sink : LogSink := { capacity := 4 }
    let request : List UInt8 := [71, 69, 84, 32, 47, 32] ++ List.replicate 9 LF
    let block : List UInt8 := [97, 58, 10, 10]
    (parsedCalls (fun buf lastLen => Rust.Request.parseRequest buf lastLen (sink, {})) request
        [6, 8, 9, 10, 11, 12, 13, 14, 15]).length = 9 ∧
      (parsedCalls (fun buf lastLen => Rust.Response.parseResponse buf lastLen (sink, {}))
        (List.replicate 9 LF) [1, 2, 3, 4, 5, 6, 7, 8, 9]).length = 9 ∧
      (parsedCalls (fun buf lastLen => guardedHeaders buf lastLen (sink, 0)) block
        [1, 2, 3, 4]).length = 2 ∧
      Spared (fun buf lastLen => Rust.Request.parseRequest buf lastLen (sink, {})) (sink, {}) 9
        request [6, 8, 9, 10, 11, 12, 13, 14, 15] := by
  intro sink request block
  exact ⟨by decide +kernel, by decide +kernel, by decide +kernel,
    (precheck_spares sink ⟨by decide, by decide⟩).1⟩

end PicoHttpParser.Head
