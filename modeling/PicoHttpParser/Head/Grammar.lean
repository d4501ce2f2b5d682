import PicoHttpParser.Lib.Takes
import PicoHttpParser.Head.Monotone

/-!
The grammar of a header block.

A block is a list of lines and a blank line. The type of a line holds its
parts, so a line that is not of the grammar cannot be written down. The words
`parse_headers` takes are those of the grammar, and what it publishes is a
function of the lines: `slots`.
-/

namespace PicoHttpParser.Head

open Incremental Incremental.Reader

/-! ### The grammar -/

/-- The end of a line. -/
inductive Eol where
  | lf
  | crlf
  deriving DecidableEq

def Eol.bytes : Eol → List UInt8
  | .lf => [LF]
  | .crlf => [CR, LF]

/-- Bytes of a value: HTAB, SP to `~`, and whatever is not ASCII. -/
def IsText (t : List UInt8) : Prop := ∀ b ∈ t, b = HTAB ∨ 0x20 ≤ b ∧ b ≤ 0x7e ∨ 0x80 ≤ b

instance : DecidablePred IsText := fun t => List.decidableBAll _ t

/-- A token of at least one byte. -/
def IsName (n : List UInt8) : Prop := n ≠ [] ∧ ∀ b ∈ n, IsTokenByte b

/-- A line of a header block: a header, or the continuation of one. -/
inductive HeaderLine where
  | named (name text : List UInt8) (eol : Eol) (hname : IsName name) (htext : IsText text)
  | continued (text : List UInt8) (eol : Eol) (htext : IsText text)
      (hblank : ∃ b ∈ text.head?, IsBlank b)

namespace HeaderLine

def bytes : HeaderLine → List UInt8
  | named name text eol _ _ => name ++ 0x3a :: (text ++ eol.bytes)
  | continued text eol _ _ => text ++ eol.bytes

def IsContinuation : HeaderLine → Prop
  | named .. => False
  | continued .. => True

/-- What a line that starts at `p` is published as: the value of a header
without the blanks around it, and that of a continuation without those at
its end. -/
def slot (p : ℕ) : HeaderLine → Option Span × Span
  | named name text _ _ _ =>
    let value := text.dropWhile fun b => decide (IsBlank b)
    (some (p, name.length),
      (p + name.length + 1 + (text.length - value.length),
        (value.rdropWhile fun b => decide (IsBlank b)).length))
  | continued text _ _ _ => (none, (p, (text.rdropWhile fun b => decide (IsBlank b)).length))

end HeaderLine

/-- The bytes of the lines of a block. -/
def linesBytes (lines : List HeaderLine) : List UInt8 := (lines.map HeaderLine.bytes).flatten

/-- A header block. It does not begin with a continuation. -/
structure HeaderBlock where
  lines : List HeaderLine
  blank : Eol
  first : ∀ line ∈ lines.head?, ¬line.IsContinuation

def HeaderBlock.bytes (block : HeaderBlock) : List UInt8 :=
  linesBytes block.lines ++ block.blank.bytes

/-- What lines are published as, from `p` on. -/
def slots : ℕ → List HeaderLine → List (Option Span × Span)
  | _, [] => []
  | p, line :: lines => line.slot p :: slots (p + line.bytes.length) lines

/-! ### Bytes -/

theorem isTextByte_iff (b : UInt8) :
    IsTextByte b ↔ b = HTAB ∨ 0x20 ≤ b ∧ b ≤ 0x7e ∨ 0x80 ≤ b := by
  refine forall_byte (P := fun b =>
    IsTextByte b ↔ b = HTAB ∨ 0x20 ≤ b ∧ b ≤ 0x7e ∨ 0x80 ≤ b) ?_ b
  decide +kernel

theorem not_blank_of_token {b : UInt8} (h : IsTokenByte b) : ¬IsBlank b := by
  rintro (rfl | rfl)
  · exact absurd h (by decide)
  · exact absurd h (by decide)

theorem Eol.head (e : Eol) : ∃ b r, e.bytes = b :: r ∧ ¬IsTextByte b ∧ (b = CR ∨ b = LF) := by
  cases e with
  | lf => exact ⟨LF, [], rfl, by decide, .inr rfl⟩
  | crlf => exact ⟨CR, [LF], rfl, by decide, .inl rfl⟩

theorem isName_singleton {b : UInt8} (hb : IsTokenByte b) : IsName [b] :=
  ⟨List.cons_ne_nil b [], List.forall_mem_singleton.mpr hb⟩

theorem IsName.head {n : List UInt8} (h : IsName n) : ∃ b n', n = b :: n' ∧ IsTokenByte b := by
  obtain ⟨hne, hn⟩ := h
  cases n with
  | nil => exact absurd rfl hne
  | cons b n => exact ⟨b, n, rfl, hn b List.mem_cons_self⟩

theorem not_eol_of_token {b : UInt8} (h : IsTokenByte b) : ¬(b = CR ∨ b = LF) := by
  rintro (rfl | rfl)
  · exact absurd h (by decide)
  · exact absurd h (by decide)

theorem not_eol_of_blank {b : UInt8} (h : IsBlank b) : ¬(b = CR ∨ b = LF) := by
  rintro (rfl | rfl)
  · exact absurd h (by decide)
  · exact absurd h (by decide)

/-- A line does not begin like a blank line. -/
theorem HeaderLine.head (line : HeaderLine) :
    ∃ b r, line.bytes = b :: r ∧ ¬(b = CR ∨ b = LF) := by
  cases line with
  | named name text e hname htext =>
      obtain ⟨b, name', rfl, hb⟩ := hname.head
      exact ⟨b, _, rfl, not_eol_of_token hb⟩
  | continued text e htext hblank =>
      obtain ⟨b, hb, hblank⟩ := hblank
      cases text with
      | nil => cases hb
      | cons c text =>
          obtain rfl : c = b := Option.some.inj hb
          exact ⟨c, _, rfl, not_eol_of_blank hblank⟩

/-- The first byte of a line tells a continuation from a header. -/
theorem HeaderLine.isContinuation_iff {line : HeaderLine} {b : UInt8} {v : List UInt8}
    (h : line.bytes = b :: v) : line.IsContinuation ↔ IsBlank b := by
  cases line with
  | named name text e hname htext =>
      obtain ⟨c, name', rfl, hc⟩ := hname.head
      obtain rfl : c = b := (List.cons.inj h).1
      exact iff_of_false id (not_blank_of_token hc)
  | continued text e htext hblank =>
      obtain ⟨c, hc, hblank⟩ := hblank
      cases text with
      | nil => cases hc
      | cons d text =>
          obtain rfl : d = c := Option.some.inj hc
          obtain rfl : d = b := (List.cons.inj h).1
          exact iff_of_true trivial hblank

/-- A text in front of whose line end there is a blank begins with it. -/
theorem head_of_blank {t r v : List UInt8} {e : Eol} {b : UInt8} (hb : IsBlank b)
    (h : t ++ (e.bytes ++ r) = b :: v) : ∃ c ∈ t.head?, IsBlank c := by
  cases t with
  | nil =>
      obtain ⟨c, v', he, -, hc⟩ := e.head
      rw [he] at h
      rw [← (List.cons.inj h).1] at hb
      exact absurd hc (not_eol_of_blank hb)
  | cons c t => exact ⟨c, rfl, (List.cons.inj h).1 ▸ hb⟩

/-! ### A head can be read in one way -/

theorem prefixFree_eol : PrefixFree Eol.bytes := by
  intro e e' r r' h
  cases e with
  | lf =>
      cases e' with
      | lf => exact ⟨rfl, (List.cons.inj h).2⟩
      | crlf => exact absurd (List.cons.inj h).1 (by decide)
  | crlf =>
      cases e' with
      | lf => exact absurd (List.cons.inj h).1 (by decide)
      | crlf => exact ⟨rfl, (List.cons.inj (List.cons.inj h).2).2⟩

theorem Eol.head_not_text (e : Eol) (r : List UInt8) :
    ∀ b ∈ (e.bytes ++ r).head?, ¬IsTextByte b := by
  obtain ⟨c, v, he, hc, -⟩ := e.head
  rw [he]
  rintro b ⟨⟩
  exact hc

theorem isText_iff_textByte {t : List UInt8} : IsText t ↔ ∀ b ∈ t, IsTextByte b := by
  simp only [IsText, isTextByte_iff]

theorem text_append_inj {t t' r r' : List UInt8} {e e' : Eol} (ht : IsText t) (ht' : IsText t')
    (h : t ++ (e.bytes ++ r) = t' ++ (e'.bytes ++ r')) : t = t' ∧ e = e' ∧ r = r' := by
  obtain ⟨rfl, heol⟩ := append_inj_of_stop (isText_iff_textByte.mp ht)
    (isText_iff_textByte.mp ht') (e.head_not_text r) (e'.head_not_text r') h
  exact ⟨rfl, prefixFree_eol e e' r r' heol⟩

theorem prefixFree_line : PrefixFree HeaderLine.bytes := by
  intro line line' r r' h
  have hkind : line.IsContinuation ↔ line'.IsContinuation := by
    obtain ⟨b, v, hb, -⟩ := line.head
    obtain ⟨b', v', hb', -⟩ := line'.head
    rw [hb, hb'] at h
    obtain rfl : b = b' := (List.cons.inj h).1
    rw [HeaderLine.isContinuation_iff hb, HeaderLine.isContinuation_iff hb']
  cases line with
  | named name t e hname ht =>
      cases line' with
      | named name' t' e' hname' ht' =>
          simp only [HeaderLine.bytes, List.append_assoc, List.cons_append] at h
          have hcolon : ∀ {v : List UInt8}, ∀ b ∈ (0x3a :: v).head?, ¬IsTokenByte b := by
            rintro v b ⟨⟩
            exact not_isTokenByte_colon
          obtain ⟨rfl, hrest⟩ := append_inj_of_stop hname.2 hname'.2 hcolon hcolon h
          obtain ⟨rfl, rfl, rfl⟩ := text_append_inj ht ht' (List.cons.inj hrest).2
          exact ⟨rfl, rfl⟩
      | continued t' e' ht' hblank' => exact absurd (hkind.mpr trivial) id
  | continued t e ht hblank =>
      cases line' with
      | named name' t' e' hname' ht' => exact absurd (hkind.mp trivial) id
      | continued t' e' ht' hblank' =>
          simp only [HeaderLine.bytes, List.append_assoc] at h
          obtain ⟨rfl, rfl, rfl⟩ := text_append_inj ht ht' h
          exact ⟨rfl, rfl⟩

theorem linesBytes_cons (line : HeaderLine) (lines : List HeaderLine) :
    linesBytes (line :: lines) = line.bytes ++ linesBytes lines := rfl

/-- Lines and a blank line can be read in one way. -/
theorem lines_append_inj {lines lines' : List HeaderLine} {e e' : Eol} {r r' : List UInt8}
    (h : linesBytes lines ++ (e.bytes ++ r) = linesBytes lines' ++ (e'.bytes ++ r')) :
    lines = lines' ∧ e = e' ∧ r = r' := by
  have hmixed {line : HeaderLine} {e : Eol} {v r : List UInt8} :
      line.bytes ++ v ≠ e.bytes ++ r := by
    intro h
    obtain ⟨b, w, hb, hne⟩ := line.head
    obtain ⟨c, w', hc, -, heol⟩ := e.head
    rw [hb, hc] at h
    rw [(List.cons.inj h).1] at hne
    exact hne heol
  induction lines generalizing lines' with
  | nil =>
      cases lines' with
      | nil => exact ⟨rfl, prefixFree_eol e e' r r' h⟩
      | cons line' lines' =>
          rw [linesBytes_cons, List.append_assoc] at h
          exact absurd h.symm hmixed
  | cons line lines ih =>
      rw [linesBytes_cons, List.append_assoc] at h
      cases lines' with
      | nil => exact absurd h hmixed
      | cons line' lines' =>
          rw [linesBytes_cons, List.append_assoc] at h
          obtain ⟨rfl, hrest⟩ := prefixFree_line line line' _ _ h
          obtain ⟨rfl, rfl, rfl⟩ := ih hrest
          exact ⟨rfl, rfl, rfl⟩

theorem prefixFree_block : PrefixFree HeaderBlock.bytes := by
  rintro ⟨lines, e, hfirst⟩ ⟨lines', e', hfirst'⟩ r r' h
  simp only [HeaderBlock.bytes, List.append_assoc] at h
  obtain ⟨rfl, rfl, rfl⟩ := lines_append_inj h
  exact ⟨rfl, rfl⟩

/-! ### Words of the readers -/

section

variable {ω : Type} {buf w r : List UInt8} {pos : ℕ} {l : List ω} {u : Unit}

theorem takes_eol :
    Takes eol buf pos w r u l ↔ buf.drop pos = w ++ r ∧ (∃ e : Eol, w = e.bytes) ∧ l = [] := by
  constructor
  · rintro ⟨hrest, hread⟩
    refine ⟨hrest, ?_, (eol_done hread).1⟩
    rcases (eol_done hread).2 with ⟨hlf, hlen⟩ | ⟨hcr, hlf, hlen⟩
    · obtain ⟨r', hr'⟩ := drop_of_getElem? hlf
      have hsplit : w ++ r = [LF] ++ r' := hrest.symm.trans hr'
      obtain ⟨rfl, -⟩ := List.append_inj hsplit (Nat.add_left_cancel hlen)
      exact ⟨.lf, rfl⟩
    · obtain ⟨r', hr'⟩ := drop_of_getElem? hcr
      obtain ⟨r'', rfl⟩ : ∃ r'', r' = LF :: r'' := by
        obtain ⟨r'', hr''⟩ := drop_of_getElem? hlf
        exact ⟨r'', (drop_succ_of_drop hr').symm.trans hr''⟩
      have hsplit : w ++ r = [CR, LF] ++ r'' := hrest.symm.trans hr'
      obtain ⟨rfl, -⟩ := List.append_inj hsplit (Nat.add_left_cancel hlen)
      exact ⟨.crlf, rfl⟩
  · rintro ⟨hrest, ⟨e, rfl⟩, rfl⟩
    refine ⟨hrest, ?_⟩
    cases e with
    | lf =>
        rw [eol, read_bind, read_next_some (getElem?_of_drop hrest)]
        rfl
    | crlf =>
        have hlf := getElem?_of_drop (drop_succ_of_drop hrest)
        rw [eol, read_bind, read_next_some (getElem?_of_drop hrest)]
        simp only [if_true, read_bind, read_next_some hlf]
        rfl

theorem takes_span {f : UInt8 → Act} {s : Span} :
    Takes (do let start ← position
              scan f
              let p ← position
              pure (start, p - start) : Reader UInt8 ω Span) buf pos w r s l ↔
      buf.drop pos = w ++ r ∧ (∀ x ∈ w, f x = .skip) ∧ (∃ b r', r = b :: r' ∧ f b = .stop) ∧
        s = (pos, w.length) ∧ l = [] := by
  constructor
  · rintro ⟨hrest, hread⟩
    obtain ⟨rfl, rfl, hscan⟩ := span_done hread
    obtain ⟨w', b, r', hdrop, hw', hb, hlen⟩ := scanFrom_eq_done.mp hscan
    obtain ⟨rfl, rfl⟩ := List.append_inj (hrest.symm.trans hdrop) (Nat.add_left_cancel hlen)
    exact ⟨hrest, hw', ⟨b, r', rfl, hb⟩, by rw [Nat.add_sub_cancel_left], rfl⟩
  · rintro ⟨hrest, hw, ⟨b, r', rfl, hb⟩, rfl, rfl⟩
    have hscan : scanFrom f buf pos = .done ((), pos + w.length) :=
      scanFrom_eq_done.mpr ⟨w, b, r', hrest, hw, hb, rfl⟩
    refine ⟨hrest, ?_⟩
    simp only [read_bind, read_position, read_scan, hscan, read_pure, Nat.add_sub_cancel_left,
      List.append_nil]

theorem tokenAct_eq {stop b : UInt8} (hstop : ¬IsTokenByte stop) :
    (tokenAct stop b = .skip ↔ IsTokenByte b) ∧ (tokenAct stop b = .stop ↔ b = stop) := by
  unfold tokenAct
  by_cases hb : b = stop
  · subst hb
    rw [if_pos rfl]
    exact ⟨iff_of_false nofun hstop, iff_of_true rfl rfl⟩
  · rw [if_neg hb]
    by_cases ht : IsTokenByte b
    · rw [if_pos ht]
      exact ⟨iff_of_true rfl ht, iff_of_false nofun hb⟩
    · rw [if_neg ht]
      exact ⟨iff_of_false nofun ht, iff_of_false nofun hb⟩

theorem takes_token {stop : UInt8} (hstop : ¬IsTokenByte stop) {s : Span} :
    Takes (token stop) buf pos w r s l ↔
      buf.drop pos = w ++ r ∧ (∀ b ∈ w, IsTokenByte b) ∧ (∃ r', r = stop :: r') ∧
        s = (pos, w.length) ∧ l = [] := by
  have hacts : (∃ b r', r = b :: r' ∧ tokenAct stop b = .stop) ↔ ∃ r', r = stop :: r' := by
    constructor
    · rintro ⟨b, r', rfl, hb⟩
      exact ⟨r', by rw [(tokenAct_eq hstop).2.mp hb]⟩
    · rintro ⟨r', rfl⟩
      exact ⟨stop, r', rfl, (tokenAct_eq hstop).2.mpr rfl⟩
  rw [← hacts]
  simp only [← (tokenAct_eq hstop).1]
  exact takes_span

theorem takes_skipPast {f : UInt8 → Act} :
    Takes (skipPast f) buf pos w r u l ↔
      buf.drop pos = w ++ r ∧ (∃ b v, w = b :: v ∧ ∀ x ∈ v, f x = .skip) ∧
        (∃ b r', r = b :: r' ∧ f b = .stop) ∧ l = [] := by
  constructor
  · rintro ⟨hrest, hread⟩
    obtain ⟨rfl, hscan⟩ := skipPast_done hread
    obtain ⟨v, b, r', hdrop, hv, hb, hlen⟩ := scanFrom_eq_done.mp hscan
    cases hcons : buf.drop pos with
    | nil =>
        rw [← List.drop_drop, hcons] at hdrop
        simp at hdrop
    | cons x t =>
        obtain rfl : t = v ++ b :: r' := (drop_succ_of_drop hcons).symm.trans hdrop
        have hwords : w ++ r = (x :: v) ++ b :: r' := by rw [← hrest, hcons]; rfl
        obtain ⟨rfl, rfl⟩ := List.append_inj hwords (by rw [List.length_cons]; omega)
        exact ⟨rfl, ⟨x, v, rfl, hv⟩, ⟨b, r', rfl, hb⟩, rfl⟩
  · rintro ⟨hrest, ⟨b, v, rfl, hv⟩, ⟨c, r', rfl, hc⟩, rfl⟩
    have hscan : scanFrom f buf (pos + 1) = .done ((), pos + 1 + v.length) :=
      scanFrom_eq_done.mpr ⟨v, c, r', drop_succ_of_drop hrest, hv, hc, rfl⟩
    refine ⟨hrest, ?_⟩
    rw [skipPast, read_bind, read_next_some (getElem?_of_drop hrest)]
    simp only [read_scan, hscan, List.length_cons, List.append_nil]
    rw [Nat.add_assoc, Nat.add_comm 1]

theorem textAct_eq_skip {b : UInt8} : textAct b = .skip ↔ IsTextByte b := by
  unfold textAct
  split
  · exact iff_of_true rfl ‹_›
  · exact iff_of_false nofun ‹_›

theorem textAct_eq_stop {b : UInt8} : textAct b = .stop ↔ ¬IsTextByte b := by
  unfold textAct
  split
  · exact iff_of_false nofun (not_not.mpr ‹_›)
  · exact iff_of_true rfl ‹_›

theorem isText_iff {t : List UInt8} : IsText t ↔ ∀ b ∈ t, textAct b = .skip := by
  simp only [IsText, textAct_eq_skip, isTextByte_iff]

/-- The rest of a line. -/
theorem takes_text (hpos : pos ≤ buf.length) {s : ℕ × List UInt8} :
    Takes text buf pos w r s l ↔
      buf.drop pos = w ++ r ∧
        ∃ (t : List UInt8) (e : Eol), w = t ++ e.bytes ∧ IsText t ∧ s = (pos, t) ∧ l = [] := by
  constructor
  · intro h
    refine ⟨h.rest, ?_⟩
    have heol (t : List UInt8) (p : ℕ) :
        Reads 0 (do eol; pure (p, t) : Reader UInt8 ω (ℕ × List UInt8)) :=
      .bind_zero consumes_eol.reads fun _ => .pure _
    have hscan (p : ℕ) : Reads 1 (do
        let c ← captured (scan textAct)
        eol
        pure (p, c.1) : Reader UInt8 ω (ℕ × List UInt8)) :=
      .bind_of_le (.captured (.scan textAct)) (fun c => (heol c.1 p).mono (Nat.zero_le 1)) le_rfl
    obtain ⟨p, w₁, w₂, l₁, l₂, rfl, rfl, h₁, h₂⟩ := Takes.bind_inv .position hscan hpos h
    obtain ⟨-, rfl, rfl, rfl⟩ := takes_position.mp h₁
    obtain ⟨⟨t, v⟩, w₃, w₄, l₃, l₄, rfl, rfl, h₃, h₄⟩ :=
      Takes.bind_inv (.captured (.scan textAct)) (fun c => heol c.1 p) hpos h₂
    obtain ⟨hskip, rfl⟩ := takes_captured.mp h₃
    obtain ⟨-, ht, -, rfl⟩ := takes_scan.mp hskip
    obtain ⟨v', w₅, w₆, l₅, l₆, rfl, rfl, h₅, h₆⟩ :=
      Takes.bind_inv consumes_eol.reads (fun _ => .pure _) (h₃.le_length hpos) h₄
    obtain ⟨-, ⟨e, rfl⟩, rfl⟩ := takes_eol.mp h₅
    obtain ⟨-, rfl, rfl, rfl⟩ := takes_pure.mp h₆
    exact ⟨t, e, by simp, isText_iff.mpr ht, rfl, rfl⟩
  · rintro ⟨hrest, t, e, rfl, ht, rfl, rfl⟩
    obtain ⟨b, e', he, hb, -⟩ := e.head
    have hdrop : buf.drop pos = t ++ (e.bytes ++ r) := by rw [hrest, List.append_assoc]
    have hscan : Takes (scan textAct : Reader UInt8 ω Unit) buf pos t (e.bytes ++ r) () [] :=
      takes_scan.mpr ⟨hdrop, isText_iff.mp ht, ⟨b, e' ++ r, by rw [he]; rfl,
        textAct_eq_stop.mpr hb⟩, rfl⟩
    have hcapt : Takes (captured (scan textAct) : Reader UInt8 ω (List UInt8 × Unit)) buf pos t
        (e.bytes ++ r) (t, ()) [] := takes_captured.mpr ⟨hscan, rfl⟩
    have heol : Takes (eol : Reader UInt8 ω Unit) buf (pos + t.length) e.bytes r () [] :=
      takes_eol.mpr ⟨hscan.drop, ⟨e, rfl⟩, rfl⟩
    refine ⟨hrest, ?_⟩
    simp only [text, read_bind, read_position, hcapt.read, heol.read, read_pure, List.append_nil,
      List.length_append, Nat.add_assoc]

end

section

variable {buf w r : List UInt8} {pos i : ℕ} {l : List HeaderEvent} {u : Unit}

theorem takes_value (hpos : pos ≤ buf.length) :
    Takes (value i) buf pos w r u l ↔
      buf.drop pos = w ++ r ∧
        ∃ (t : List UInt8) (e : Eol), w = t ++ e.bytes ∧ IsText t ∧
          l = [.value i (pos, (t.rdropWhile fun b => decide (IsBlank b)).length)] := by
  constructor
  · intro h
    refine ⟨h.rest, ?_⟩
    obtain ⟨s, w₁, w₂, l₁, l₂, rfl, rfl, h₁, h₂⟩ :=
      Takes.bind_inv consumes_text.reads (fun _ => .emit _) hpos h
    obtain ⟨-, t, e, rfl, ht, rfl, rfl⟩ := (takes_text hpos).mp h₁
    obtain ⟨-, rfl, rfl⟩ := takes_emit.mp h₂
    exact ⟨t, e, List.append_nil _, ht, rfl⟩
  · rintro ⟨hrest, t, e, rfl, ht, rfl⟩
    have htext : Takes text buf pos (t ++ e.bytes) r (pos, t) ([] : List HeaderEvent) :=
      (takes_text hpos).mpr ⟨hrest, t, e, rfl, ht, rfl, rfl⟩
    refine ⟨hrest, ?_⟩
    simp only [value, read_bind, htext.read, read_emit, List.nil_append]

theorem blankAct_eq_skip {b : UInt8} : blankAct b = .skip ↔ IsBlank b := by
  unfold blankAct
  split
  · exact iff_of_true rfl ‹_›
  · exact iff_of_false nofun ‹_›

theorem blankAct_eq_stop {b : UInt8} : blankAct b = .stop ↔ ¬IsBlank b := by
  unfold blankAct
  split
  · exact iff_of_false nofun (not_not.mpr ‹_›)
  · exact iff_of_true rfl ‹_›

theorem isText_of_blank {v : List UInt8} (hv : ∀ b ∈ v, IsBlank b) : IsText v := by
  intro b hb
  rcases hv b hb with rfl | rfl
  · exact .inr (.inl (by decide))
  · exact .inl rfl

/-- A text after the blanks it begins with. -/
theorem dropWhile_blank {v t : List UInt8} (hv : ∀ b ∈ v, IsBlank b)
    (ht : ∀ b ∈ t.head?, ¬IsBlank b) :
    (v ++ t).dropWhile (fun b => decide (IsBlank b)) = t := by
  rw [List.dropWhile_append_of_pos fun b hb => decide_eq_true (hv b hb)]
  cases t with
  | nil => rfl
  | cons b t => rw [List.dropWhile_cons_of_neg (by simpa using ht b rfl)]

theorem head_dropWhile_blank (t : List UInt8) :
    ∀ b ∈ (t.dropWhile fun b => decide (IsBlank b)).head?, ¬IsBlank b := by
  intro b hb
  have hnot := List.head?_dropWhile_not (fun b => decide (IsBlank b)) t
  rw [Option.mem_def.mp hb] at hnot
  exact of_decide_eq_false hnot

/-- A continuation. -/
theorem takes_continued (hpos : pos ≤ buf.length) :
    Takes (do emit (.name i none)
              value i) buf pos w r u l ↔
      buf.drop pos = w ++ r ∧
        ∃ (t : List UInt8) (e : Eol), w = t ++ e.bytes ∧ IsText t ∧
          l = [.name i none,
            .value i (pos, (t.rdropWhile fun b => decide (IsBlank b)).length)] := by
  constructor
  · intro h
    obtain ⟨l', rfl, hvalue⟩ := takes_emit_bind.mp h
    obtain ⟨-, t, e, rfl, ht, rfl⟩ := (takes_value hpos).mp hvalue
    exact ⟨h.rest, t, e, rfl, ht, rfl⟩
  · rintro ⟨hrest, t, e, rfl, ht, rfl⟩
    exact takes_emit_bind.mpr ⟨_, rfl, (takes_value hpos).mpr ⟨hrest, t, e, rfl, ht, rfl⟩⟩

/-- The byte at the position, blanks, and a value behind them. -/
theorem takes_padded (hpos : pos ≤ buf.length) :
    Takes (do skipPast blankAct
              value i) buf pos w r u l ↔
      buf.drop pos = w ++ r ∧
        ∃ (c : UInt8) (v t : List UInt8) (e : Eol), w = c :: (v ++ t ++ e.bytes) ∧
          (∀ b ∈ v, IsBlank b) ∧ IsText t ∧ (∀ b ∈ t.head?, ¬IsBlank b) ∧
          l = [.value i (pos + 1 + v.length,
            (t.rdropWhile fun b => decide (IsBlank b)).length)] := by
  constructor
  · intro h
    refine ⟨h.rest, ?_⟩
    obtain ⟨x, w₁, w₂, l₁, l₂, rfl, rfl, hskip, hvalue⟩ :=
      Takes.bind_inv (reads_skipPast _) (fun _ => (consumes_value i).reads) hpos h
    obtain ⟨-, ⟨c, v, rfl, hv⟩, ⟨b, r', hstop, hb⟩, rfl⟩ := takes_skipPast.mp hskip
    obtain ⟨-, t, e, rfl, ht, rfl⟩ := (takes_value (hskip.le_length hpos)).mp hvalue
    refine ⟨c, v, t, e, by simp, fun x hx => blankAct_eq_skip.mp (hv x hx), ht, ?_, ?_⟩
    · intro x hx
      cases t with
      | nil => cases hx
      | cons y t =>
          obtain rfl : y = x := Option.some.inj hx
          obtain rfl : y = b := (List.cons.inj hstop).1
          exact blankAct_eq_stop.mp hb
    · simp [Nat.add_assoc, Nat.add_comm 1]
  · rintro ⟨hrest, c, v, t, e, rfl, hv, ht, hhead, rfl⟩
    have hstop : ∃ b r', t ++ e.bytes ++ r = b :: r' ∧ ¬IsBlank b := by
      cases t with
      | nil =>
          obtain ⟨b, e', he, -, hb⟩ := e.head
          exact ⟨b, e' ++ r, by rw [he]; rfl, fun hblank => not_eol_of_blank hblank hb⟩
      | cons b t => exact ⟨b, t ++ e.bytes ++ r, rfl, hhead b rfl⟩
    obtain ⟨b, r', hr', hb⟩ := hstop
    have hskip : Takes (skipPast blankAct : Reader UInt8 HeaderEvent Unit) buf pos (c :: v)
        (t ++ e.bytes ++ r) () [] :=
      takes_skipPast.mpr ⟨by simp [hrest], ⟨c, v, rfl, fun x hx => blankAct_eq_skip.mpr (hv x hx)⟩,
        ⟨b, r', hr', blankAct_eq_stop.mpr hb⟩, rfl⟩
    have hvalue := (takes_value (i := i) (u := u) (hskip.le_length hpos)).mpr
      ⟨hskip.drop, t, e, rfl, ht, rfl⟩
    have hboth := hskip.bind (q := fun _ => value i) hvalue
    simp only [List.cons_append, List.length_cons, List.nil_append, ← List.append_assoc] at hboth
    rwa [Nat.add_comm v.length, ← Nat.add_assoc] at hboth

/-- A name and a value. -/
theorem takes_named (hpos : pos ≤ buf.length) :
    Takes (do let name ← token 0x3a
              emit (.name i (some name))
              if name.2 = 0 then reject
              else
                skipPast blankAct
                value i) buf pos w r u l ↔
      buf.drop pos = w ++ r ∧
        ∃ (name v t : List UInt8) (e : Eol), w = name ++ 0x3a :: (v ++ t ++ e.bytes) ∧
          IsName name ∧ (∀ b ∈ v, IsBlank b) ∧ IsText t ∧ (∀ b ∈ t.head?, ¬IsBlank b) ∧
          l = [.name i (some (pos, name.length)),
            .value i (pos + name.length + 1 + v.length,
              (t.rdropWhile fun b => decide (IsBlank b)).length)] := by
  let branch (name : Span) : Reader UInt8 HeaderEvent Unit :=
    if name.2 = 0 then reject
    else do
      skipPast blankAct
      value i
  have hbranch (name : Span) : Reads 0 (branch name) := by
    unfold branch
    split
    · exact .reject
    · exact (Consumes.bind (reads_skipPast _) fun _ => consumes_value i).reads
  constructor
  · intro h
    refine ⟨h.rest, ?_⟩
    obtain ⟨s, name, w₂, l₁, l₂, rfl, rfl, htoken, hemit⟩ :=
      Takes.bind_inv (reads_token 0x3a) (fun s => .bind_zero (.emit _) fun _ => hbranch s) hpos h
    obtain ⟨-, hname, ⟨r', hr'⟩, rfl, rfl⟩ := (takes_token not_isTokenByte_colon).mp htoken
    obtain ⟨l₃, rfl, hpadded⟩ := takes_emit_bind.mp hemit
    unfold branch at hpadded
    split at hpadded
    · exact absurd hpadded not_takes_reject
    rename_i hne
    obtain ⟨-, c, v, t, e, rfl, hv, ht, hhead, rfl⟩ :=
      (takes_padded (htoken.le_length hpos)).mp hpadded
    obtain rfl : c = 0x3a := (List.cons.inj hr').1
    exact ⟨name, v, t, e, rfl, ⟨fun h0 => hne (congrArg List.length h0), hname⟩, hv, ht, hhead, rfl⟩
  · rintro ⟨hrest, name, v, t, e, rfl, ⟨hne, hname⟩, hv, ht, hhead, rfl⟩
    have htoken : Takes (token 0x3a : Reader UInt8 HeaderEvent Span) buf pos name
        (0x3a :: (v ++ t ++ e.bytes) ++ r) (pos, name.length) [] :=
      (takes_token not_isTokenByte_colon).mpr ⟨by rw [hrest]; simp, hname, ⟨_, rfl⟩, rfl, rfl⟩
    have hlen : name.length ≠ 0 := fun h0 => hne (List.eq_nil_of_length_eq_zero h0)
    have hpadded := (takes_padded (i := i) (u := u) (htoken.le_length hpos)).mpr
      ⟨htoken.drop, 0x3a, v, t, e, rfl, hv, ht, hhead, rfl⟩
    have hemit : Takes (do emit (HeaderEvent.name i (some (pos, name.length)))
                           branch (pos, name.length)) buf (pos + name.length)
        (0x3a :: (v ++ t ++ e.bytes)) r u _ :=
      takes_emit_bind.mpr ⟨_, rfl, by rwa [show branch (pos, name.length) = _ from if_neg hlen]⟩
    exact htoken.bind (q := fun s => do
      emit (.name i (some s))
      branch s) hemit

/-- The first byte of a line tells a continuation from a header. -/
theorem takes_header (hpos : pos ≤ buf.length) {b : UInt8} (hb : buf[pos]? = some b) :
    Takes (header i b) buf pos w r u l ↔
      buf.drop pos = w ++ r ∧
        ∃ line : HeaderLine, w = line.bytes ∧ (i = 0 → ¬line.IsContinuation) ∧
          l = [.name i (line.slot pos).1, .value i (line.slot pos).2] := by
  obtain ⟨r₀, hdrop⟩ := drop_of_getElem? hb
  have hkind {line : HeaderLine} (hrest : buf.drop pos = line.bytes ++ r) :
      line.IsContinuation ↔ IsBlank b := by
    obtain ⟨c, v, hc, -⟩ := line.head
    rw [hdrop, hc] at hrest
    rw [HeaderLine.isContinuation_iff hc, (List.cons.inj hrest).1]
  unfold header
  split
  · rename_i hcont
    obtain ⟨hi, hblank⟩ := hcont
    rw [takes_continued hpos]
    refine and_congr_right fun hrest => ?_
    constructor
    · rintro ⟨t, e, rfl, ht, rfl⟩
      rw [hdrop, List.append_assoc] at hrest
      exact ⟨.continued t e ht (head_of_blank hblank hrest.symm), rfl, fun h0 => absurd h0 hi, rfl⟩
    · rintro ⟨line, rfl, -, rfl⟩
      have hline := (hkind hrest).mpr hblank
      cases line with
      | named name t e hname ht => exact hline.elim
      | continued t e ht hhead => exact ⟨t, e, rfl, ht, rfl⟩
  · rename_i hcont
    rw [takes_named hpos]
    refine and_congr_right fun hrest => ?_
    constructor
    · rintro ⟨name, v, t, e, rfl, hname, hv, ht, hhead, rfl⟩
      have htext : IsText (v ++ t) := List.forall_mem_append.mpr ⟨isText_of_blank hv, ht⟩
      refine ⟨.named name (v ++ t) e hname htext, rfl, fun _ => id, ?_⟩
      simp [HeaderLine.slot, dropWhile_blank hv hhead]
    · rintro ⟨line, rfl, hfirst, rfl⟩
      cases line with
      | named name t e hname ht =>
          refine ⟨name, t.takeWhile fun b => decide (IsBlank b),
            t.dropWhile fun b => decide (IsBlank b), e, ?_, hname, ?_, ?_, ?_, ?_⟩
          · rw [List.takeWhile_append_dropWhile]
            rfl
          · exact fun b hb => by simpa using List.mem_takeWhile_imp hb
          · exact fun b hb => ht b ((List.dropWhile_sublist _).subset hb)
          · exact head_dropWhile_blank t
          · have hlen := congrArg List.length
              (List.takeWhile_append_dropWhile (p := fun b => decide (IsBlank b)) (l := t))
            rw [List.length_append] at hlen
            simp only [HeaderLine.slot, ← hlen, Nat.add_sub_cancel]
      | continued t e ht hhead =>
          exact absurd ⟨fun h0 => hfirst h0 trivial, (hkind hrest).mp trivial⟩ hcont

/-- The last turn takes the blank line. -/
theorem takes_headerTurn_inr {cap : ℕ} (hpos : pos ≤ buf.length) :
    Takes (headerTurn cap i) buf pos w r (.inr u) l ↔
      buf.drop pos = w ++ r ∧ (∃ e : Eol, w = e.bytes) ∧ l = [] := by
  constructor
  · intro h
    obtain ⟨b, v, -, h⟩ := takes_peek_bind.mp h
    split at h
    · obtain ⟨x, w₁, w₂, l₁, l₂, rfl, rfl, h₁, h₂⟩ :=
        Takes.bind_inv consumes_eol.reads (fun _ => .pure _) hpos h
      obtain ⟨-, rfl, -, rfl⟩ := takes_pure.mp h₂
      rw [List.append_nil, List.append_nil]
      exact takes_eol.mp (by simpa using h₁)
    split at h
    · exact absurd h not_takes_reject
    · obtain ⟨x, w₁, w₂, l₁, l₂, rfl, rfl, h₁, h₂⟩ :=
        Takes.bind_inv (consumes_header i b).reads (fun _ => .pure _) hpos h
      obtain ⟨-, -, hinl, -⟩ := takes_pure.mp h₂
      cases hinl
  · rintro ⟨hrest, ⟨e, rfl⟩, rfl⟩
    obtain ⟨b, v, he, -, hb⟩ := e.head
    have heol : Takes eol buf pos e.bytes r () ([] : List HeaderEvent) :=
      takes_eol.mpr ⟨hrest, ⟨e, rfl⟩, rfl⟩
    refine takes_peek_bind.mpr ⟨b, v ++ r, by rw [hrest, he]; rfl, ?_⟩
    rw [if_pos hb]
    refine ⟨hrest, ?_⟩
    simp only [read_bind, heol.read, read_pure, List.append_nil]

/-- A turn that goes on takes a line, if there is room for one more. -/
theorem takes_headerTurn_inl {cap i' : ℕ} (hpos : pos ≤ buf.length) :
    Takes (headerTurn cap i) buf pos w r (.inl i') l ↔
      buf.drop pos = w ++ r ∧ i ≠ cap ∧ i' = i + 1 ∧
        ∃ line : HeaderLine, w = line.bytes ∧ (i = 0 → ¬line.IsContinuation) ∧
          l = [.name i (line.slot pos).1, .value i (line.slot pos).2] := by
  constructor
  · intro h
    obtain ⟨b, v, hv, hturn⟩ := takes_peek_bind.mp h
    split at hturn
    · obtain ⟨x, w₁, w₂, l₁, l₂, rfl, rfl, h₁, h₂⟩ :=
        Takes.bind_inv consumes_eol.reads (fun _ => .pure _) hpos hturn
      obtain ⟨-, -, hinr, -⟩ := takes_pure.mp h₂
      cases hinr
    split at hturn
    · exact absurd hturn not_takes_reject
    · rename_i hroom
      refine ⟨h.rest, hroom, ?_⟩
      obtain ⟨x, w₁, w₂, l₁, l₂, rfl, rfl, h₁, h₂⟩ :=
        Takes.bind_inv (consumes_header i b).reads (fun _ => .pure _) hpos hturn
      obtain ⟨-, rfl, hinl, rfl⟩ := takes_pure.mp h₂
      obtain ⟨-, line, rfl, hfirst, rfl⟩ := (takes_header hpos (getElem?_of_drop hv)).mp h₁
      exact ⟨(Sum.inl.inj hinl).symm, line, List.append_nil _, hfirst, rfl⟩
  · rintro ⟨hrest, hroom, rfl, line, rfl, hfirst, rfl⟩
    obtain ⟨b, v, hline, hb⟩ := line.head
    have hdrop : buf.drop pos = b :: (v ++ r) := by rw [hrest, hline]; rfl
    have hheader := (takes_header (u := ()) hpos (getElem?_of_drop hdrop)).mpr
      ⟨hrest, line, rfl, hfirst, rfl⟩
    refine takes_peek_bind.mpr ⟨b, v ++ r, hdrop, ?_⟩
    rw [if_neg hb, if_neg hroom]
    refine ⟨hrest, ?_⟩
    simp only [read_bind, hheader.read, read_pure, List.append_nil]

end

/-! ### Words of the block -/

/-- What is published for slots, the first of which is the `i`-th. -/
def slotEvents : ℕ → List (Option Span × Span) → List HeaderEvent
  | _, [] => []
  | i, s :: ss => .name i s.1 :: .value i s.2 :: slotEvents (i + 1) ss

section

variable {buf w r : List UInt8} {pos i cap : ℕ} {l : List HeaderEvent} {u : Unit}

/-- Lines and a blank line are taken, one turn a line. -/
theorem takes_of_lines {lines : List HeaderLine} {e : Eol} (hpos : pos ≤ buf.length)
    (hrest : buf.drop pos = linesBytes lines ++ e.bytes ++ r)
    (hfirst : i = 0 → ∀ line ∈ lines.head?, ¬line.IsContinuation) (hcap : i + lines.length ≤ cap) :
    Takes (iterate (headerTurn cap) i) buf pos (linesBytes lines ++ e.bytes) r u
      (slotEvents i (slots pos lines)) := by
  induction lines generalizing pos i with
  | nil =>
      have hturn : Takes (headerTurn cap i) buf pos e.bytes r (.inr u) [] :=
        (takes_headerTurn_inr hpos).mpr ⟨hrest, ⟨e, rfl⟩, rfl⟩
      exact (takes_iterate (consumes_headerTurn cap) hpos).mpr (.inl hturn)
  | cons line lines ih =>
      rw [linesBytes_cons, List.append_assoc, List.append_assoc] at hrest
      rw [List.length_cons] at hcap
      have hroom : i ≠ cap := by omega
      have hturn := (takes_headerTurn_inl hpos).mpr ⟨hrest, hroom, rfl, line, rfl,
        fun h0 => hfirst h0 line rfl, rfl⟩
      have hlines := ih (i := i + 1) (hturn.le_length hpos)
        (hturn.drop.trans (List.append_assoc _ _ _).symm) (fun h0 => absurd h0 (Nat.succ_ne_zero i))
        (by omega)
      rw [linesBytes_cons, List.append_assoc]
      refine (takes_iterate (consumes_headerTurn cap) hpos).mpr (.inr ⟨_, _, _, _, _, rfl, rfl, ?_,
        by rwa [List.append_assoc], hlines⟩)
      obtain ⟨b, v, hb, -⟩ := line.head
      rw [hb]
      exact List.cons_ne_nil b v

/-- What is taken are lines and a blank line. -/
theorem lines_of_takes (hpos : pos ≤ buf.length) (hi : i ≤ cap)
    (h : Takes (iterate (headerTurn cap) i) buf pos w r u l) :
    ∃ (lines : List HeaderLine) (e : Eol), w = linesBytes lines ++ e.bytes ∧
      (i = 0 → ∀ line ∈ lines.head?, ¬line.IsContinuation) ∧ i + lines.length ≤ cap ∧
      l = slotEvents i (slots pos lines) := by
  induction hn : w.length using Nat.strong_induction_on generalizing pos i w l with
  | _ n ih =>
      rcases (takes_iterate (consumes_headerTurn cap) hpos).mp h with
        hturn | ⟨i', w₁, w₂, l₁, l₂, rfl, rfl, hne, hturn, hleft⟩
      · obtain ⟨-, ⟨e, rfl⟩, rfl⟩ := (takes_headerTurn_inr hpos).mp hturn
        exact ⟨[], e, rfl, fun _ => nofun, hi, rfl⟩
      · obtain ⟨-, hroom, rfl, line, rfl, hline, rfl⟩ := (takes_headerTurn_inl hpos).mp hturn
        have hpos' := hturn.le_length hpos
        have hlt : w₂.length < n := by
          have := List.length_pos_iff.mpr hne
          rw [← hn, List.length_append]
          omega
        obtain ⟨lines, e, rfl, -, hcap, rfl⟩ := ih _ hlt hpos' (by omega) hleft rfl
        refine ⟨line :: lines, e, (List.append_assoc _ _ _).symm, ?_, ?_, rfl⟩
        · rintro h0 c hc
          obtain rfl : line = c := Option.some.inj hc
          exact hline h0
        · rw [List.length_cons]
          omega

/-- The words of a header block. -/
theorem takes_headers (hpos : pos ≤ buf.length) :
    Takes (headers cap) buf pos w r u l ↔
      buf.drop pos = w ++ r ∧
        ∃ block : HeaderBlock, w = block.bytes ∧ block.lines.length ≤ cap ∧
          l = slotEvents 0 (slots pos block.lines) := by
  constructor
  · intro h
    obtain ⟨lines, e, rfl, hfirst, hcap, rfl⟩ := lines_of_takes hpos (Nat.zero_le cap) h
    rw [Nat.zero_add] at hcap
    exact ⟨h.rest, ⟨lines, e, hfirst rfl⟩, rfl, hcap, rfl⟩
  · rintro ⟨hrest, ⟨lines, e, hfirst⟩, rfl, hcap, rfl⟩
    exact takes_of_lines hpos hrest (fun _ => hfirst) (by rwa [Nat.zero_add])

end

/-! ### What is published -/

/-- The sink and the count after slots have been filled. -/
structure Published (st : LogSink × ℕ) (ss : List (Option Span × Span)) : Prop where
  count : st.2 = ss.length
  name : ∀ i (hi : i < ss.length), st.1.names i = some ss[i].1
  value : ∀ i (hi : i < ss.length), st.1.values i = some ss[i].2

theorem count_slotEvents {S : Type} [Rust.HeaderSink S] (ss : List (Option Span × Span)) {i : ℕ}
    (st : S × ℕ) (hst : st.2 = i) :
    ((slotEvents i ss).foldl Port.publishHeader st).2 = i + ss.length := by
  induction ss generalizing i st with
  | nil => exact hst
  | cons s ss ih =>
      rw [slotEvents, List.foldl_cons, List.foldl_cons, ih (i := i + 1) _ rfl, List.length_cons]
      omega

/-- Slots from `i` on leave those before them alone. -/
theorem foldl_slotEvents_of_lt (ss : List (Option Span × Span)) {i j : ℕ} (hj : j < i)
    (st : LogSink × ℕ) :
    ((slotEvents i ss).foldl Port.publishHeader st).1.names j = st.1.names j ∧
      ((slotEvents i ss).foldl Port.publishHeader st).1.values j = st.1.values j := by
  induction ss generalizing i st with
  | nil => exact ⟨rfl, rfl⟩
  | cons s ss ih =>
      obtain ⟨hname, hvalue⟩ := ih (Nat.lt_succ_of_lt hj)
        (Port.publishHeader (Port.publishHeader st (.name i s.1)) (.value i s.2))
      exact ⟨hname.trans (Function.update_of_ne hj.ne _ _),
        hvalue.trans (Function.update_of_ne hj.ne _ _)⟩

theorem foldl_slotEvents (ss : List (Option Span × Span)) (i : ℕ) (st : LogSink × ℕ) {j : ℕ}
    (hj : j < ss.length) :
    ((slotEvents i ss).foldl Port.publishHeader st).1.names (i + j) = some ss[j].1 ∧
      ((slotEvents i ss).foldl Port.publishHeader st).1.values (i + j) = some ss[j].2 := by
  induction ss generalizing i j st with
  | nil => exact absurd hj (Nat.not_lt_zero j)
  | cons s ss ih =>
      cases j with
      | zero =>
          obtain ⟨hname, hvalue⟩ := foldl_slotEvents_of_lt ss (Nat.lt_succ_self i)
            (Port.publishHeader (Port.publishHeader st (.name i s.1)) (.value i s.2))
          exact ⟨hname.trans (Function.update_self i _ _),
            hvalue.trans (Function.update_self i _ _)⟩
      | succ j =>
          have hslot := ih (i + 1)
            (Port.publishHeader (Port.publishHeader st (.name i s.1)) (.value i s.2))
            (Nat.lt_of_succ_lt_succ hj)
          rwa [Nat.add_assoc, Nat.add_comm 1] at hslot

theorem published_slotEvents (sink : LogSink) (ss : List (Option Span × Span)) :
    Published ((slotEvents 0 ss).foldl Port.publishHeader (sink, 0)) ss := by
  have hslots {i : ℕ} (hi : i < ss.length) := foldl_slotEvents ss 0 (sink, 0) hi
  simp only [Nat.zero_add] at hslots
  refine ⟨?_, fun i hi => (hslots hi).1, fun i hi => (hslots hi).2⟩
  rw [count_slotEvents ss (sink, 0) rfl, Nat.zero_add]

section

variable {σ ω α : Type} {publish : σ → ω → σ} {p : Reader UInt8 ω Unit} {buf : List UInt8}
  {pos n k : ℕ} {st : σ} {bytes : α → List UInt8} {events : α → List ω} {Room : α → Prop}

/-- Where a reader takes the words of a format and no others, its run succeeds
at the end of each. -/
theorem run_words (hp : Reads k p) (hpos : pos ≤ buf.length)
    (htakes : ∀ {w r l}, Takes p buf pos w r () l ↔
      buf.drop pos = w ++ r ∧ ∃ x, w = bytes x ∧ Room x ∧ l = events x) :
    (∃ st', (realize publish p buf pos >>= fun r => pure r.2 : EStateM Rust.Fault σ ℕ) st =
        .ok n st') ↔
      ∃ x, Room x ∧ bytes x <+: buf.drop pos ∧ n = pos + (bytes x).length := by
  constructor
  · rintro ⟨st', hst'⟩
    obtain ⟨l, hread, -⟩ := run_eq_ok.mp hst'
    obtain ⟨w, r, hword, rfl⟩ := exists_takes hp hpos hread
    obtain ⟨hr, x, rfl, hroom, -⟩ := htakes.mp hword
    exact ⟨x, hroom, ⟨r, hr.symm⟩, rfl⟩
  · rintro ⟨x, hroom, ⟨r, hr⟩, rfl⟩
    have hword : Takes p buf pos (bytes x) r () (events x) :=
      htakes.mpr ⟨hr.symm, x, rfl, hroom, rfl⟩
    exact ⟨_, run_eq_ok.mpr ⟨_, hword.read, rfl⟩⟩

/-- Of a prefix-free format there is one word at most, and it is published. -/
theorem run_grammar {Fits : α → Prop} {Tells : σ → α → Prop} (hp : Reads k p)
    (hpos : pos ≤ buf.length)
    (htakes : ∀ {w r l}, Takes p buf pos w r () l ↔
      buf.drop pos = w ++ r ∧ ∃ x, w = bytes x ∧ Room x ∧ l = events x)
    (hfree : PrefixFree bytes)
    (hfits : ∀ x, Fits x ↔ Room x ∧ bytes x <+: buf.drop pos ∧ n = pos + (bytes x).length)
    (htells : ∀ x, Tells ((events x).foldl publish st) x) :
    ((∃ st', (realize publish p buf pos >>= fun r => pure r.2 : EStateM Rust.Fault σ ℕ) st =
        .ok n st') ↔ ∃ x, Fits x) ∧
      ∀ x, Fits x →
        (∃ st', (realize publish p buf pos >>= fun r => pure r.2 : EStateM Rust.Fault σ ℕ) st =
          .ok n st' ∧ Tells st' x) ∧
        ∀ x', bytes x' <+: buf.drop pos → x' = x := by
  simp only [hfits]
  refine ⟨run_words hp hpos htakes, ?_⟩
  rintro x ⟨hroom, ⟨r, hr⟩, rfl⟩
  have hword : Takes p buf pos (bytes x) r () (events x) :=
    htakes.mpr ⟨hr.symm, x, rfl, hroom, rfl⟩
  refine ⟨⟨_, run_eq_ok.mpr ⟨_, hword.read, rfl⟩, htells x⟩, ?_⟩
  rintro x' ⟨r', hr'⟩
  exact (hfree x' x r' r (hr'.trans hr.symm)).1

end

/-- The block lies in the buffer from `pos` to `n`, and there is room for its
lines. -/
structure HeaderBlock.Fits (block : HeaderBlock) (buf : List UInt8) (pos n cap : ℕ) : Prop where
  room : block.lines.length ≤ cap
  bytes : block.bytes <+: buf.drop pos
  stop : n = pos + block.bytes.length

/-- What `parse_headers` accepts are the header blocks there is room for. At
`pos` there is one of them at most, and its lines are what is reported. -/
theorem headers_grammar (buf : List UInt8) (pos : ℕ) (hpos : pos ≤ buf.length) (sink : LogSink)
    (n : ℕ) :
    ((∃ st, Rust.parseHeaders buf pos (sink, 0) = .ok n st) ↔
      ∃ block : HeaderBlock, block.Fits buf pos n sink.capacity) ∧
    ∀ block : HeaderBlock, block.Fits buf pos n sink.capacity →
      (∃ st, Rust.parseHeaders buf pos (sink, 0) = .ok n st ∧
        Published st (slots pos block.lines)) ∧
        ∀ block' : HeaderBlock, block'.bytes <+: buf.drop pos → block' = block := by
  rw [Port.parseHeaders_eq]
  have hfits (block : HeaderBlock) : block.Fits buf pos n sink.capacity ↔
      block.lines.length ≤ sink.capacity ∧ block.bytes <+: buf.drop pos ∧
        n = pos + block.bytes.length :=
    ⟨fun h => ⟨h.room, h.bytes, h.stop⟩, fun ⟨hroom, hbytes, hstop⟩ => ⟨hroom, hbytes, hstop⟩⟩
  exact run_grammar (reads_headers _) hpos (takes_headers hpos) prefixFree_block hfits fun block =>
    published_slotEvents sink (slots pos block.lines)

/-- A header and its continuation. -/
theorem headers_grammar_continuation :
    ∃ st, Rust.parseHeaders [65, 58, 32, 98, 10, 9, 99, 13, 10, 10] 0
        (({ capacity := 2 } : LogSink), 0) = .ok 10 st ∧
      Published st [(some (0, 1), (3, 1)), (none, (5, 2))] :=
  ((headers_grammar _ 0 (Nat.zero_le _) { capacity := 2 } 10).2
    ⟨[.named [65] [32, 98] .lf (isName_singleton (by decide)) (by decide),
      .continued [9, 99] .crlf (by decide) ⟨9, rfl, .inr rfl⟩], .lf, by
        rintro _ ⟨⟩
        exact id⟩
    ⟨by decide, ⟨[], rfl⟩, rfl⟩).1

end PicoHttpParser.Head
