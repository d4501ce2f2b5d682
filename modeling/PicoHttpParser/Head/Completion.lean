import PicoHttpParser.Head.Grammar

/-!
Header blocks that are not finished.

A reader that waits has seen the first part of a word and nothing else. The
word can be completed, so a call that asks for more can be given what it asks
for, and a call that fails has seen that nothing helps.
-/

namespace PicoHttpParser.Head

open Incremental Incremental.Reader

/-! ### What is there where a reader waits -/

section

variable {ω : Type} {buf : List UInt8} {pos : ℕ}

theorem waits_eol :
    Waits (eol : Reader UInt8 ω Unit) buf pos ↔ buf.drop pos = [] ∨ buf.drop pos = [CR] := by
  constructor
  · rintro ⟨l, hl⟩
    cases hb : buf[pos]? with
    | none => exact .inl (drop_eq_nil_of_getElem? hb)
    | some b =>
        obtain ⟨r, hr⟩ := drop_of_getElem? hb
        rw [eol, read_bind, read_next_some hb] at hl
        dsimp only at hl
        split at hl
        · rename_i hcr
          subst hcr
          cases hc : buf[pos + 1]? with
          | none =>
              right
              rw [hr, ← drop_succ_of_drop hr, drop_eq_nil_of_getElem? hc]
          | some c =>
              rw [read_bind, read_next_some hc] at hl
              dsimp only at hl
              split at hl <;> cases hl
        · split at hl <;> cases hl
  · rintro (hnil | hcr)
    · exact (waits_next.mpr hnil).bind _
    · have hnext : Takes (next : Reader UInt8 ω UInt8) buf pos [CR] [] CR [] :=
        takes_next.mpr ⟨hcr, rfl, rfl⟩
      exact hnext.waits_bind ((waits_next.mpr hnext.drop).bind _)

theorem waits_span {f : UInt8 → Act} :
    Waits (do let start ← position
              scan f
              let p ← position
              pure (start, p - start) : Reader UInt8 ω Span) buf pos ↔
      ∀ x ∈ buf.drop pos, f x = .skip := by
  rw [← scanFrom_eq_more]
  constructor
  · rintro ⟨l, hl⟩
    simp only [read_bind, read_position, read_scan] at hl
    cases hscan : scanFrom f buf pos with
    | more => rfl
    | fail => simp [hscan] at hl
    | done r => simp [hscan] at hl
  · intro h
    exact ⟨[], by simp only [read_bind, read_position, read_scan, h, List.append_nil]⟩

theorem waits_token {stop : UInt8} (hstop : ¬IsTokenByte stop) :
    Waits (token stop : Reader UInt8 ω Span) buf pos ↔ ∀ b ∈ buf.drop pos, IsTokenByte b := by
  simp only [← (tokenAct_eq hstop).1]
  exact waits_span

theorem waits_skipPast {f : UInt8 → Act} (hpos : pos ≤ buf.length) :
    Waits (skipPast f : Reader UInt8 ω Unit) buf pos ↔
      buf.drop pos = [] ∨ ∃ b v, buf.drop pos = b :: v ∧ ∀ x ∈ v, f x = .skip := by
  constructor
  · intro h
    rcases waits_bind_inv .next hpos h with hnext | ⟨b, w, r, l, htakes, hscan⟩
    · exact .inl (waits_next.mp hnext)
    · right
      obtain ⟨hb, rfl, -⟩ := takes_next.mp htakes
      refine ⟨b, r, hb, ?_⟩
      have hskip := waits_scan.mp hscan
      rwa [htakes.drop] at hskip
  · rintro (hnil | ⟨b, v, hv, hskip⟩)
    · exact (waits_next.mpr hnil).bind _
    · have hnext : Takes (next : Reader UInt8 ω UInt8) buf pos [b] v b [] :=
        takes_next.mpr ⟨hv, rfl, rfl⟩
      exact hnext.waits_bind (waits_scan.mpr (by rwa [hnext.drop]))

/-- Where the rest of a line is not finished there is text, or text and the
first half of a line end. -/
theorem waits_text (hpos : pos ≤ buf.length) :
    Waits (text : Reader UInt8 ω (ℕ × List UInt8)) buf pos ↔
      ∃ t, IsText t ∧ (buf.drop pos = t ∨ buf.drop pos = t ++ [CR]) := by
  constructor
  · intro h
    rcases waits_bind_inv .position hpos h with h | ⟨p, w, r, l, htakes, h⟩
    · exact absurd h not_waits_position
    obtain ⟨-, rfl, hp, -⟩ := takes_position.mp htakes
    subst p
    rcases waits_bind_inv (.captured (.scan textAct)) hpos h with h | ⟨⟨t, v⟩, w, r, l, htakes, h⟩
    · have hskip := waits_scan.mp (waits_captured.mp h)
      exact ⟨_, isText_iff.mpr hskip, .inl rfl⟩
    · obtain ⟨hscan, rfl⟩ := takes_captured.mp htakes
      obtain ⟨hrest, ht, ⟨b, r', rfl, -⟩, -⟩ := takes_scan.mp hscan
      refine ⟨t, isText_iff.mpr ht, .inr ?_⟩
      rcases waits_bind_inv consumes_eol.reads (htakes.le_length hpos) h with h | ⟨u, w, r, l, -, h⟩
      · have hend := waits_eol.mp h
        rw [htakes.drop] at hend
        rcases hend with hnil | hcr
        · cases hnil
        · rw [hrest, hcr]
      · exact absurd h not_waits_pure
  · rintro ⟨t, ht, hdrop⟩
    have hposition : Takes (position : Reader UInt8 ω ℕ) buf pos [] (buf.drop pos) pos [] :=
      takes_position.mpr ⟨rfl, rfl, rfl, rfl⟩
    refine hposition.waits_bind ?_
    rcases hdrop with hdrop | hdrop
    · have hscan : Waits (scan textAct : Reader UInt8 ω Unit) buf pos :=
        waits_scan.mpr (hdrop ▸ isText_iff.mp ht)
      exact (waits_captured.mpr hscan).bind _
    · have hscan : Takes (scan textAct : Reader UInt8 ω Unit) buf pos t [CR] () [] :=
        takes_scan.mpr ⟨hdrop, isText_iff.mp ht, ⟨CR, [], rfl, by decide⟩, rfl⟩
      have hcaptured : Takes (captured (scan textAct) : Reader UInt8 ω (List UInt8 × Unit)) buf pos
          t [CR] (t, ()) [] := takes_captured.mpr ⟨hscan, rfl⟩
      exact hcaptured.waits_bind ((waits_eol.mpr (.inr hscan.drop)).bind _)

/-- The rest of a line can be completed. -/
theorem exists_line (hpos : pos ≤ buf.length)
    (h : Waits (text : Reader UInt8 ω (ℕ × List UInt8)) buf pos) :
    ∃ (ext t : List UInt8) (e : Eol), buf.drop pos ++ ext = t ++ e.bytes ∧ IsText t := by
  obtain ⟨t, ht, hdrop | hdrop⟩ := (waits_text hpos).mp h
  · exact ⟨[LF], t, .lf, by rw [hdrop]; rfl, ht⟩
  · exact ⟨[LF], t, .crlf, by rw [hdrop, List.append_assoc]; rfl, ht⟩

end

/-! ### Lines that can be completed -/

section

variable {buf : List UInt8} {pos i cap : ℕ}

theorem waits_value (hpos : pos ≤ buf.length) (h : Waits (value i) buf pos) :
    ∃ (ext t : List UInt8) (e : Eol), buf.drop pos ++ ext = t ++ e.bytes ∧ IsText t := by
  rcases waits_bind_inv consumes_text.reads hpos h with h | ⟨a, w, r, l, -, h⟩
  · exact exists_line hpos h
  · exact absurd h not_waits_emit

theorem waits_named (hpos : pos ≤ buf.length) (hne : buf.drop pos ≠ [])
    (h : Waits (do let name ← token 0x3a
                   emit (.name i (some name))
                   if name.2 = 0 then reject
                   else
                     skipPast blankAct
                     value i) buf pos) :
    ∃ (ext name t : List UInt8) (e : Eol), buf.drop pos ++ ext = name ++ 0x3a :: (t ++ e.bytes) ∧
      IsName name ∧ IsText t := by
  rcases waits_bind_inv (reads_token 0x3a) hpos h with h | ⟨s, name, r, l, htoken, h⟩
  · have hname : IsName (buf.drop pos) := ⟨hne, (waits_token not_isTokenByte_colon).mp h⟩
    exact ⟨[0x3a, LF], buf.drop pos, [], .lf, rfl, hname, nofun⟩
  obtain ⟨hname, hchars, ⟨r', rfl⟩, rfl, rfl⟩ := (takes_token not_isTokenByte_colon).mp htoken
  have hpos₂ := htoken.le_length hpos
  rw [waits_emit_bind] at h
  split at h
  · exact absurd h not_waits_reject
  rename_i hlen
  have hname' : IsName name := ⟨fun h0 => hlen (congrArg List.length h0), hchars⟩
  rcases waits_bind_inv (reads_skipPast _) hpos₂ h with h | ⟨u, w, r, l, hskip, h⟩
  · rcases (waits_skipPast hpos₂).mp h with hnil | ⟨b, v, hv, hblank⟩
    · rw [htoken.drop] at hnil
      cases hnil
    · obtain ⟨-, rfl⟩ := List.cons.inj (htoken.drop.symm.trans hv)
      refine ⟨[LF], name, r', .lf, by rw [hname, List.append_assoc]; rfl, hname', ?_⟩
      exact isText_of_blank fun x hx => blankAct_eq_skip.mp (hblank x hx)
  · obtain ⟨hrest, ⟨b, v, rfl, hv⟩, -, rfl⟩ := takes_skipPast.mp hskip
    obtain ⟨ext, t, e, hext, ht⟩ := waits_value (hskip.le_length hpos₂) h
    rw [hskip.drop] at hext
    obtain ⟨rfl, rfl⟩ := List.cons.inj (htoken.drop.symm.trans hrest)
    refine ⟨ext, name, v ++ t, e, ?_, hname', ?_⟩
    · rw [hname, List.append_assoc, List.append_assoc v, ← hext]
      exact congrArg (name ++ 0x3a :: ·) (List.append_assoc v r ext)
    · exact List.forall_mem_append.mpr
        ⟨isText_of_blank fun x hx => blankAct_eq_skip.mp (hv x hx), ht⟩

theorem waits_header (hpos : pos ≤ buf.length) {b : UInt8} (hb : buf[pos]? = some b)
    (h : Waits (header i b) buf pos) :
    ∃ (ext : List UInt8) (line : HeaderLine), buf.drop pos ++ ext = line.bytes ∧
      (i = 0 → ¬line.IsContinuation) := by
  obtain ⟨r, hr⟩ := drop_of_getElem? hb
  unfold header at h
  split at h
  · rename_i hcont
    obtain ⟨ext, t, e, hext, ht⟩ := waits_value hpos (waits_emit_bind.mp h)
    have hhead : t ++ (e.bytes ++ []) = b :: (r ++ ext) := by
      rw [List.append_nil, ← hext, hr]
      rfl
    exact ⟨ext, .continued t e ht (head_of_blank hcont.2 hhead), hext, fun h0 => absurd h0 hcont.1⟩
  · have hne : buf.drop pos ≠ [] := by
      rw [hr]
      exact List.cons_ne_nil b r
    obtain ⟨ext, name, t, e, hext, hname, ht⟩ := waits_named hpos hne h
    exact ⟨ext, .named name t e hname ht, hext, fun _ => id⟩

/-- Where a turn waits there is the first part of a line end, or that of a
line and room for it. -/
theorem waits_headerTurn (hpos : pos ≤ buf.length) (h : Waits (headerTurn cap i) buf pos) :
    (∃ (ext : List UInt8) (e : Eol), buf.drop pos ++ ext = e.bytes) ∨
      i ≠ cap ∧ ∃ (ext : List UInt8) (line : HeaderLine), buf.drop pos ++ ext = line.bytes ∧
        (i = 0 → ¬line.IsContinuation) := by
  rcases waits_peek_bind.mp h with hnil | ⟨b, v, hv, h⟩
  · exact .inl ⟨[LF], .lf, by rw [hnil]; rfl⟩
  split at h
  · left
    rcases waits_bind_inv consumes_eol.reads hpos h with h | ⟨u, w, r, l, -, h⟩
    · rcases waits_eol.mp h with hd | hd
      · exact ⟨[LF], .lf, by rw [hd]; rfl⟩
      · exact ⟨[LF], .crlf, by rw [hd]; rfl⟩
    · exact absurd h not_waits_pure
  split at h
  · exact absurd h not_waits_reject
  · rename_i hroom
    rcases waits_bind_inv (consumes_header i b).reads hpos h with h | ⟨u, w, r, l, -, h⟩
    · exact .inr ⟨hroom, waits_header hpos (getElem?_of_drop hv) h⟩
    · exact absurd h not_waits_pure

/-- Where the loop over the lines waits, lines and a blank line can still
come of what is there. -/
theorem waits_lines (hpos : pos ≤ buf.length) (hi : i ≤ cap)
    (h : Waits (iterate (headerTurn cap) i) buf pos) :
    ∃ (ext : List UInt8) (lines : List HeaderLine) (e : Eol),
      buf.drop pos ++ ext = linesBytes lines ++ e.bytes ∧
        (i = 0 → ∀ line ∈ lines.head?, ¬line.IsContinuation) ∧ i + lines.length ≤ cap := by
  induction hn : buf.length - pos using Nat.strong_induction_on generalizing pos i with
  | _ n ih =>
      rw [waits_congr (read_iterate (consumes_headerTurn cap) i hpos)] at h
      rcases waits_bind_inv (consumes_headerTurn cap i).reads hpos h with
        h | ⟨s, w, r, l, hturn, h⟩
      · rcases waits_headerTurn hpos h with ⟨ext, e, hext⟩ | ⟨hroom, ext, line, hext, hfirst⟩
        · exact ⟨ext, [], e, hext, fun _ => nofun, hi⟩
        · refine ⟨ext ++ [LF], [line], .lf, ?_, ?_, ?_⟩
          · rw [← List.append_assoc, hext, linesBytes_cons]
            simp [linesBytes, Eol.bytes]
          · rintro h0 c hc
            obtain rfl : line = c := Option.some.inj hc
            exact hfirst h0
          · rw [List.length_singleton]
            omega
      · cases s with
        | inr u => exact absurd h not_waits_pure
        | inl i' =>
            obtain ⟨hrest, hroom, rfl, line, rfl, hfirst, -⟩ := (takes_headerTurn_inl hpos).mp hturn
            have hpos' := hturn.le_length hpos
            have hlt : 0 < line.bytes.length := by
              obtain ⟨b, v, hb, -⟩ := line.head
              rw [hb]
              exact Nat.succ_pos _
            obtain ⟨ext, lines, e, hext, -, hcap⟩ := ih _ (by omega) hpos' (by omega) h rfl
            refine ⟨ext, line :: lines, e, ?_, ?_, ?_⟩
            · rw [hrest, List.append_assoc, ← hturn.drop, hext, linesBytes_cons, List.append_assoc]
            · rintro h0 c hc
              obtain rfl : line = c := Option.some.inj hc
              exact hfirst h0
            · rw [List.length_cons]
              omega

/-- Where the block reader waits, what is there is the first part of a block. -/
theorem waits_headers (hpos : pos ≤ buf.length) (h : Waits (headers cap) buf pos) :
    ∃ (ext : List UInt8) (block : HeaderBlock), buf.drop pos ++ ext = block.bytes ∧
      block.lines.length ≤ cap := by
  obtain ⟨ext, lines, e, hext, hfirst, hcap⟩ := waits_lines hpos (Nat.zero_le cap) h
  rw [Nat.zero_add] at hcap
  exact ⟨ext, ⟨lines, e, hfirst rfl⟩, hext, hcap⟩

end

/-! ### The errors of `parse_headers` -/

/-- The bytes are a header block, with at most `cap` lines. -/
def Accepted (cap : ℕ) (w : List UInt8) : Prop :=
  ∃ block : HeaderBlock, block.bytes = w ∧ block.lines.length ≤ cap

section

variable {buf : List UInt8} {pos cap : ℕ} (hpos : pos ≤ buf.length)

include hpos

theorem read_of_accepted {w : List UInt8} (hw : w <+: buf.drop pos) (h : Accepted cap w) :
    ∃ n l, (headers cap).read buf pos = (.done ((), n), l) := by
  obtain ⟨r, hr⟩ := hw
  obtain ⟨block, rfl, hroom⟩ := h
  exact ⟨_, _, ((takes_headers hpos).mpr ⟨hr.symm, block, rfl, hroom, rfl⟩).read⟩

theorem accepted_of_read {n : ℕ} {l : List HeaderEvent}
    (h : (headers cap).read buf pos = (.done ((), n), l)) :
    ∃ w, w <+: buf.drop pos ∧ Accepted cap w := by
  obtain ⟨w, r, htakes, rfl⟩ := exists_takes (reads_headers cap) hpos h
  obtain ⟨hrest, block, rfl, hroom, -⟩ := (takes_headers hpos).mp htakes
  exact ⟨_, ⟨r, hrest.symm⟩, block, rfl, hroom⟩

theorem accepted_of_more {l : List HeaderEvent} (h : (headers cap).read buf pos = (.more, l)) :
    ∃ ext, Accepted cap (buf.drop pos ++ ext) := by
  obtain ⟨ext, block, hext, hroom⟩ := waits_headers hpos ⟨l, h⟩
  exact ⟨ext, block, hext.symm, hroom⟩

theorem not_accepted_of_fail {l : List HeaderEvent} (h : (headers cap).read buf pos = (.fail, l))
    (ext : List UInt8) : ¬Accepted cap (buf.drop pos ++ ext) := by
  intro hacc
  rw [← List.drop_append_of_le_length hpos] at hacc
  have hpos' : pos ≤ (buf ++ ext).length := by
    rw [List.length_append]
    omega
  obtain ⟨n, l', hread⟩ := read_of_accepted hpos' List.prefix_rfl hacc
  rw [(reads_headers cap).fail hpos h ext] at hread
  cases hread

theorem not_accepted_before {l : List HeaderEvent}
    (h : (headers cap).read buf pos = (.more, l) ∨ (headers cap).read buf pos = (.fail, l))
    (w : List UInt8) (hw : w <+: buf.drop pos) : ¬Accepted cap w := by
  intro hacc
  obtain ⟨n, l', hread⟩ := read_of_accepted hpos hw hacc
  rcases h with h | h
  · rw [h] at hread
    cases hread
  · rw [h] at hread
    cases hread

/-- `parse_headers` asks for more where more can help, and fails where
nothing can. -/
theorem headers_errors_exact (sink : LogSink) :
    ((∃ st, Rust.parseHeaders buf pos (sink, 0) = .error (.err .Partial) st) ↔
      (∀ w, w <+: buf.drop pos → ¬Accepted sink.capacity w) ∧
        ∃ ext, Accepted sink.capacity (buf.drop pos ++ ext)) ∧
    ((∃ st, Rust.parseHeaders buf pos (sink, 0) = .error (.err .Malformed) st) ↔
      (∀ w, w <+: buf.drop pos → ¬Accepted sink.capacity w) ∧
        ∀ ext, ¬Accepted sink.capacity (buf.drop pos ++ ext)) := by
  have hwaits : (∃ st, Rust.parseHeaders buf pos (sink, 0) = .error (.err .Partial) st) ↔
      ∃ l, (headers sink.capacity).read buf pos = (.more, l) := by
    rw [Port.parseHeaders_eq]
    simp only [run_eq_more]
    exact ⟨fun ⟨st, l, h, _⟩ => ⟨l, h⟩, fun ⟨l, h⟩ => ⟨_, l, h, rfl⟩⟩
  have hmalformed : (∃ st, Rust.parseHeaders buf pos (sink, 0) = .error (.err .Malformed) st) ↔
      ∃ l, (headers sink.capacity).read buf pos = (.fail, l) := by
    rw [Port.parseHeaders_eq]
    simp only [run_eq_fail]
    exact ⟨fun ⟨st, l, h, _⟩ => ⟨l, h⟩, fun ⟨l, h⟩ => ⟨_, l, h, rfl⟩⟩
  rw [hwaits, hmalformed]
  refine ⟨⟨?_, ?_⟩, ⟨?_, ?_⟩⟩
  · rintro ⟨l, h⟩
    exact ⟨not_accepted_before hpos (.inl h), accepted_of_more hpos h⟩
  · rintro ⟨hnone, ext, hacc⟩
    obtain ⟨u, n, l, h⟩ | ⟨l, h⟩ | ⟨l, h⟩ := cases_read (headers sink.capacity) buf pos
    · obtain ⟨w, hw, hfound⟩ := accepted_of_read hpos h
      exact absurd hfound (hnone w hw)
    · exact ⟨l, h⟩
    · exact absurd hacc (not_accepted_of_fail hpos h ext)
  · rintro ⟨l, h⟩
    exact ⟨not_accepted_before hpos (.inr h), not_accepted_of_fail hpos h⟩
  · rintro ⟨hnone, hnever⟩
    obtain ⟨u, n, l, h⟩ | ⟨l, h⟩ | ⟨l, h⟩ := cases_read (headers sink.capacity) buf pos
    · obtain ⟨w, hw, hfound⟩ := accepted_of_read hpos h
      exact absurd hfound (hnone w hw)
    · obtain ⟨ext, hacc⟩ := accepted_of_more hpos h
      exact absurd hacc (hnever ext)
    · exact ⟨l, h⟩

end

/-- Behind a first line, with no room left, only a blank line can follow. -/
theorem headers_errors_exact_full :
    (∃ ext, Accepted 1 ([65, 58, 10] ++ ext)) ∧ ∀ ext, ¬Accepted 1 ([65, 58, 10, 66] ++ ext) := by
  let sink : LogSink := { capacity := 1 }
  let line : List HeaderEvent := [.name 0 (some (0, 1)), .value 0 (2, 0)]
  have hwaits : ∃ st, Rust.parseHeaders [65, 58, 10] 0 (sink, 0) = .error (.err .Partial) st :=
    ⟨_, (Port.parseHeaders_eq _ _ _).trans (run_eq_more.mpr ⟨line, by decide +kernel, rfl⟩)⟩
  have hmalformed :
      ∃ st, Rust.parseHeaders [65, 58, 10, 66] 0 (sink, 0) = .error (.err .Malformed) st :=
    ⟨_, (Port.parseHeaders_eq _ _ _).trans (run_eq_fail.mpr ⟨line, by decide +kernel, rfl⟩)⟩
  exact ⟨((headers_errors_exact (Nat.zero_le _) sink).1.mp hwaits).2,
    ((headers_errors_exact (Nat.zero_le _) sink).2.mp hmalformed).2⟩

end PicoHttpParser.Head
