import PicoHttpParser.Head.Completion
import PicoHttpParser.Head.ResponseGrammar

/-!
Heads that are not finished, and heads that cannot be.

The parsers of heads decide late in three places: a name that is empty is
rejected when the target has been read, a version and a status when a window
of fixed width is there, and a reason at the end of its line. Before that they
ask for more, and what has been read may be lost already. Nothing else is
lost: any other head that is not finished can be completed.
-/

namespace PicoHttpParser.Head

open Incremental Incremental.Reader

/-! ### What cannot be completed -/

/-- Too few bytes for a version, and not the first ones of one. -/
def Unversioned (v : List UInt8) : Prop := v.length < 9 ∧ ∀ d, IsDigit d → ¬v <+: versionBytes d

/-- Spaces in the place of a method, and behind them a target or the first
part of one. -/
def Nameless (v : List UInt8) : Prop :=
  ∃ (gap : ℕ) (path : List UInt8) (n : ℕ), (∀ b ∈ path, IsVisible b) ∧
    v = spacesBytes gap ++ (path ++ List.replicate n SP)

/-- A method and a target, and no version behind them. -/
def Misversioned (v : List UInt8) : Prop :=
  ∃ (method : List UInt8) (gap₁ : ℕ) (path : List UInt8) (gap₂ : ℕ) (rest : List UInt8),
    IsName method ∧ IsTarget path ∧
      v = method ++ (spacesBytes gap₁ ++ (path ++ (spacesBytes gap₂ ++ rest))) ∧
      (∀ b ∈ rest.head?, b ≠ SP) ∧ Unversioned rest

/-- What `parse_request` waits on in vain. -/
def RequestStuck (buf : List UInt8) : Prop :=
  ∃ lead v, buf = leadBytes lead ++ v ∧ (Nameless v ∨ Misversioned v)

/-- Too few bytes for a status, and one of them is no digit. -/
def Statusless (v : List UInt8) : Prop := v.length < 4 ∧ ∃ b ∈ v, ¬IsDigit b

/-- Text behind a status that does not begin with a space, in a line that has
not ended. -/
def Misworded (v : List UInt8) : Prop :=
  ∃ (d₁ d₂ d₃ : UInt8) (t : List UInt8), (IsDigit d₁ ∧ IsDigit d₂ ∧ IsDigit d₃) ∧ IsText t ∧
    (∃ b ∈ t.head?, b ≠ SP) ∧
    (v = [d₁, d₂, d₃] ++ t ∨ v = [d₁, d₂, d₃] ++ (t ++ [CR]))

/-- What `parse_response` waits on in vain. -/
def ResponseStuck (buf : List UInt8) : Prop :=
  Unversioned buf ∨
    ∃ (d : UInt8) (gap : ℕ) (v : List UInt8), IsDigit d ∧
      buf = versionBytes d ++ (spacesBytes gap ++ v) ∧ (∀ b ∈ v.head?, b ≠ SP) ∧
      (Statusless v ∨ Misworded v)

/-! ### Where the readers wait -/

/-- The block without a line. -/
def emptyBlock : HeaderBlock := ⟨[], .lf, nofun⟩

section

variable {ω : Type} {buf : List UInt8} {pos cap : ℕ}

theorem waits_version (hpos : pos ≤ buf.length) :
    Waits (version : Reader UInt8 ω Int32) buf pos ↔ (buf.drop pos).length < 9 := by
  rw [version, waits_window, List.length_drop]
  omega

theorem waits_spaces (hpos : pos ≤ buf.length) (hsp : ∃ v, buf.drop pos = SP :: v) :
    Waits (spaces : Reader UInt8 ω Unit) buf pos ↔ ∃ n, buf.drop pos = spacesBytes n := by
  obtain ⟨v, hv⟩ := hsp
  rw [spaces, waits_skipPast hpos, hv]
  simp only [spaceAct_eq_skip]
  constructor
  · rintro (hnil | ⟨b, v', hcons, hskip⟩)
    · cases hnil
    · obtain ⟨-, rfl⟩ := List.cons.inj hcons
      exact ⟨v.length, congrArg (SP :: ·) (List.eq_replicate_of_mem hskip)⟩
  · rintro ⟨n, hn⟩
    exact .inr ⟨SP, List.replicate n SP, hn, fun x hx => List.eq_of_mem_replicate hx⟩

theorem waits_target :
    Waits (target : Reader UInt8 ω Span) buf pos ↔ ∀ b ∈ buf.drop pos, IsVisible b := by
  simp only [← (targetAct_eq _).1]
  exact waits_span

/-- A version can be completed where the bytes that are there begin one. -/
theorem exists_version {v : List UInt8} (hlen : v.length < 9) :
    Unversioned v ∨ ∃ d ext, IsDigit d ∧ v ++ ext = versionBytes d := by
  by_cases h : ∃ d, IsDigit d ∧ v <+: versionBytes d
  · obtain ⟨d, hd, ext, hext⟩ := h
    exact .inr ⟨d, ext, hd, hext⟩
  · exact .inl ⟨hlen, fun d hd hv => h ⟨d, hd, hv⟩⟩

theorem waits_versionTail (hpos : pos ≤ buf.length) (h : Waits (versionTail cap) buf pos) :
    Unversioned (buf.drop pos) ∨
      ∃ (ext : List UInt8) (d : UInt8) (e : Eol) (block : HeaderBlock), IsDigit d ∧
        buf.drop pos ++ ext = versionBytes d ++ (e.bytes ++ block.bytes) ∧
        block.lines.length ≤ cap := by
  rcases waits_bind_inv reads_version hpos h with h | ⟨v, w, r, l, hversion, h⟩
  · rcases exists_version ((waits_version hpos).mp h) with hstuck | ⟨d, ext, hd, hext⟩
    · exact .inl hstuck
    · refine .inr ⟨ext ++ [LF, LF], d, .lf, emptyBlock, hd, ?_, Nat.zero_le cap⟩
      rw [← List.append_assoc, hext]
      rfl
  right
  obtain ⟨hrest, ⟨d, rfl, hd, rfl⟩, hmore, rfl⟩ := (takes_version hpos).mp hversion
  have hpos₁ := hversion.le_length hpos
  rw [waits_emit_bind] at h
  rcases waits_bind_inv consumes_eol.reads hpos₁ h with h | ⟨v, w, r', l, heol, h⟩
  · rcases waits_eol.mp h with hnil | hcr
    · rw [hversion.drop] at hnil
      exact absurd hnil hmore
    · rw [hversion.drop] at hcr
      refine ⟨[LF, LF], d, .crlf, emptyBlock, hd, ?_, Nat.zero_le cap⟩
      rw [hrest, hcr]
      rfl
  · obtain ⟨hline, ⟨e, rfl⟩, rfl⟩ := takes_eol.mp heol
    obtain ⟨ext, block, hext, hroom⟩ :=
      waits_headers (heol.le_length hpos₁) (waits_mapEvents.mp h)
    refine ⟨ext, d, e, block, hd, ?_, hroom⟩
    rw [hversion.drop] at hline
    rw [heol.drop] at hext
    rw [hrest, hline, ← hext, List.append_assoc, List.append_assoc]

/-- Without a method, a head is not waited for behind its target. -/
theorem waits_nameless (hpos : pos ≤ buf.length) {method : Span} (hmethod : method.2 = 0)
    (h : Waits (pathTail cap method) buf pos) :
    ∃ path n, (∀ b ∈ path, IsVisible b) ∧ buf.drop pos = path ++ List.replicate n SP := by
  rcases waits_bind_inv reads_target hpos h with h | ⟨s, path, r, l, htarget, h⟩
  · exact ⟨_, 0, waits_target.mp h, (List.append_nil _).symm⟩
  obtain ⟨hrest, hpath, ⟨r', rfl⟩, rfl, rfl⟩ := takes_target.mp htarget
  have hpos₁ := htarget.le_length hpos
  rw [waits_emit_bind] at h
  rcases waits_bind_inv (reads_skipPast _) hpos₁ h with h | ⟨v, w, r'', l, -, h⟩
  · obtain ⟨n, hn⟩ := (waits_spaces hpos₁ ⟨r', htarget.drop⟩).mp h
    refine ⟨path, n + 1, hpath, ?_⟩
    rw [htarget.drop] at hn
    rw [hrest, hn]
    rfl
  · rw [if_pos (.inl hmethod)] at h
    exact absurd h not_waits_reject

theorem waits_pathTail (hpos : pos ≤ buf.length) {method : Span} (hmethod : method.2 ≠ 0)
    (hhead : ∃ b v, buf.drop pos = b :: v ∧ b ≠ SP) (h : Waits (pathTail cap method) buf pos) :
    (∃ (path : List UInt8) (gap : ℕ) (rest : List UInt8), IsTarget path ∧
      buf.drop pos = path ++ (spacesBytes gap ++ rest) ∧ (∀ b ∈ rest.head?, b ≠ SP) ∧
      Unversioned rest) ∨
    ∃ (ext path : List UInt8) (gap : ℕ) (d : UInt8) (e : Eol) (block : HeaderBlock),
      IsTarget path ∧ IsDigit d ∧
      buf.drop pos ++ ext = path ++ (spacesBytes gap ++ (versionBytes d ++
        (e.bytes ++ block.bytes))) ∧ block.lines.length ≤ cap := by
  obtain ⟨b, v, hb, hne⟩ := hhead
  let rest : List UInt8 := versionBytes 0x30 ++ [LF, LF]
  rcases waits_bind_inv reads_target hpos h with h | ⟨s, path, r, l, htarget, h⟩
  · have htarget : IsTarget (buf.drop pos) := ⟨by rw [hb]; exact List.cons_ne_nil b v,
      waits_target.mp h⟩
    exact .inr ⟨spacesBytes 0 ++ rest, _, 0, 0x30, .lf, emptyBlock, htarget, isDigit_zero, rfl,
      Nat.zero_le cap⟩
  obtain ⟨hrest, hvisible, ⟨r', rfl⟩, rfl, rfl⟩ := takes_target.mp htarget
  have hpath : IsTarget path := by
    refine ⟨?_, hvisible⟩
    rintro rfl
    rw [hb] at hrest
    exact hne (List.cons.inj hrest).1
  have hpos₁ := htarget.le_length hpos
  rw [waits_emit_bind] at h
  rcases waits_bind_inv (reads_skipPast _) hpos₁ h with h | ⟨u, w, r, l, hspaces, h⟩
  · obtain ⟨gap, hgap⟩ := (waits_spaces hpos₁ ⟨r', htarget.drop⟩).mp h
    rw [htarget.drop] at hgap
    refine .inr ⟨rest, path, gap, 0x30, .lf, emptyBlock, hpath, isDigit_zero, ?_, Nat.zero_le cap⟩
    rw [hrest, hgap, List.append_assoc]
    rfl
  · obtain ⟨hline, ⟨gap, rfl⟩, ⟨c, r'', rfl, hc⟩, rfl⟩ :=
      (takes_spaces ⟨r', htarget.drop⟩).mp hspaces
    have hlen : path.length ≠ 0 := fun h0 => hpath.1 (List.eq_nil_of_length_eq_zero h0)
    rw [if_neg (not_or.mpr ⟨hmethod, hlen⟩)] at h
    rw [htarget.drop] at hline
    rcases waits_versionTail (hspaces.le_length hpos₁) h with
      hstuck | ⟨ext, d, e, block, hd, hext, hroom⟩
    · rw [hspaces.drop] at hstuck
      refine .inl ⟨path, gap, _, hpath, by rw [hrest, hline], ?_, hstuck⟩
      rintro _ ⟨⟩
      exact hc
    · rw [hspaces.drop] at hext
      refine .inr ⟨ext, path, gap, d, e, block, hpath, hd, ?_, hroom⟩
      rw [hrest, hline, ← hext, List.append_assoc, List.append_assoc]

theorem waits_emptyLine (h : Waits (emptyLine : Reader UInt8 ω Unit) buf pos) :
    buf.drop pos = [] ∨ buf.drop pos = [CR] := by
  rcases waits_peek_bind.mp h with hnil | ⟨b, v, -, h⟩
  · exact .inl hnil
  · split at h
    · exact waits_eol.mp h
    · exact absurd h not_waits_pure

/-- A head with one space in each gap, the version `HTTP/1.0` and no header. -/
def plainHead (lead : Option Eol) (method : List UInt8) (gap : ℕ) (hname : IsName method) :
    RequestHead where
  lead := lead
  method := method
  gap₁ := gap
  path := [0x2f]
  gap₂ := 0
  version := 0x30
  eol := .lf
  block := emptyBlock
  isName := hname
  isTarget := ⟨List.cons_ne_nil _ _, List.forall_mem_singleton.mpr (by decide)⟩
  isDigit := isDigit_zero

/-- Where the parser waits behind an empty line the head can be completed,
unless it is lost. -/
theorem waits_methodTail (hpos : pos ≤ buf.length) (h : Waits (methodTail cap) buf pos) :
    (Nameless (buf.drop pos) ∨ Misversioned (buf.drop pos)) ∨
      ∃ ext, ∃ head : RequestHead, head.lead = none ∧ buf.drop pos ++ ext = head.bytes ∧
        head.block.lines.length ≤ cap := by
  have hletter : IsName [0x47] := isName_singleton (by decide)
  let rest : List UInt8 := [0x2f] ++ (spacesBytes 0 ++ (versionBytes 0x30 ++ [LF, LF]))
  rcases waits_bind_inv (reads_token SP) hpos h with h | ⟨s, method, r, l, htoken, h⟩
  · right
    have hchars := (waits_token not_isTokenByte_sp).mp h
    generalize buf.drop pos = r at hchars ⊢
    cases r with
    | nil => exact ⟨_, plainHead none _ 0 hletter, rfl, List.nil_append _, Nat.zero_le cap⟩
    | cons b r =>
        exact ⟨spacesBytes 0 ++ rest, plainHead none _ 0 ⟨List.cons_ne_nil b r, hchars⟩, rfl, rfl,
          Nat.zero_le cap⟩
  obtain ⟨hline, hchars, ⟨v, rfl⟩, rfl, rfl⟩ := (takes_token not_isTokenByte_sp).mp htoken
  have hpos₁ := htoken.le_length hpos
  rw [waits_emit_bind] at h
  rcases waits_bind_inv (reads_skipPast _) hpos₁ h with h | ⟨u, w, r, l, hspaces, h⟩
  · obtain ⟨gap, hgap⟩ := (waits_spaces hpos₁ ⟨v, htoken.drop⟩).mp h
    rw [htoken.drop] at hgap
    rw [hline, hgap]
    cases method with
    | nil => exact .inl (.inl ⟨gap, [], 0, nofun, by simp⟩)
    | cons b method =>
        refine .inr ⟨rest, plainHead none _ gap ⟨List.cons_ne_nil b method, hchars⟩, rfl, ?_,
          Nat.zero_le cap⟩
        rw [List.append_assoc]
        rfl
  obtain ⟨hgap, ⟨gap, rfl⟩, ⟨c, r', rfl, hc⟩, rfl⟩ := (takes_spaces ⟨v, htoken.drop⟩).mp hspaces
  rw [htoken.drop] at hgap
  rw [hline, hgap]
  have hpos₂ := hspaces.le_length hpos₁
  rcases eq_or_ne method.length 0 with hmethod | hmethod
  · obtain ⟨path, n, hpath, hrest⟩ := waits_nameless hpos₂ hmethod h
    obtain rfl := List.eq_nil_of_length_eq_zero hmethod
    rw [hspaces.drop] at hrest
    exact .inl (.inl ⟨gap, path, n, hpath, by rw [hrest, List.nil_append]⟩)
  have hname : IsName method := ⟨fun h0 => hmethod (congrArg List.length h0), hchars⟩
  rcases waits_pathTail hpos₂ hmethod ⟨c, r', hspaces.drop, hc⟩ h with
    ⟨path, gap', tail, hpath, hrest, hhead, hstuck⟩ |
    ⟨ext, path, gap', d, e, block, hpath, hd, hext, hroom⟩
  · rw [hspaces.drop] at hrest
    exact .inl (.inr ⟨method, gap, path, gap', tail, hname, hpath, by rw [hrest], hhead, hstuck⟩)
  · rw [hspaces.drop] at hext
    refine .inr ⟨ext, ⟨none, method, gap, path, gap', d, e, block, hname, hpath, hd⟩, rfl, ?_,
      hroom⟩
    rw [RequestHead.bytes, ← hext]
    simp only [List.append_assoc]
    rfl

/-- Where the request parser waits the head can be completed, unless it is
lost. -/
theorem waits_request (h : Waits (request cap) buf 0) :
    RequestStuck buf ∨
      ∃ ext, ∃ head : RequestHead, buf ++ ext = head.bytes ∧ head.block.lines.length ≤ cap := by
  have hletter : IsName [0x47] := isName_singleton (by decide)
  rcases waits_bind_inv reads_emptyLine (Nat.zero_le _) h with h | ⟨u, w, r, l, hempty, h⟩
  · right
    rcases waits_emptyLine h with hnil | hcr
    · obtain rfl : buf = [] := hnil
      exact ⟨_, plainHead none _ 0 hletter, List.nil_append _, Nat.zero_le cap⟩
    · obtain rfl : buf = [CR] := hcr
      exact ⟨LF :: (plainHead none _ 0 hletter).bytes, plainHead (some .crlf) _ 0 hletter, rfl,
        Nat.zero_le cap⟩
  obtain ⟨hbuf, ⟨lead, rfl, -⟩, rfl⟩ := takes_emptyLine.mp hempty
  rcases waits_methodTail (hempty.le_length (Nat.zero_le _)) h with
    hstuck | ⟨ext, head, hlead, hext, hroom⟩
  · rw [hempty.drop] at hstuck
    exact .inl ⟨lead, r, hbuf, hstuck⟩
  · rw [hempty.drop] at hext
    refine .inr ⟨ext, { head with lead := lead }, ?_, hroom⟩
    rw [RequestHead.bytes, hlead] at hext
    rw [show buf = leadBytes lead ++ r from hbuf, List.append_assoc, hext]
    rfl

/-! ### Heads that are lost -/

/-- Behind the spaces in the place of a method the parser waits for more. -/
theorem waits_pathTail_of_visible (hpos : pos ≤ buf.length) {method : Span} {path : List UInt8}
    {n : ℕ} (hpath : ∀ b ∈ path, IsVisible b)
    (hrest : buf.drop pos = path ++ List.replicate n SP) :
    Waits (pathTail cap method) buf pos := by
  cases n with
  | zero =>
      have htarget : Waits (target : Reader UInt8 Event Span) buf pos :=
        waits_target.mpr (by rw [hrest]; simpa using hpath)
      exact htarget.bind _
  | succ n =>
      have htarget : Takes (target : Reader UInt8 Event Span) buf pos path (spacesBytes n)
          (pos, path.length) [] := takes_target.mpr ⟨hrest, hpath, ⟨_, rfl⟩, rfl, rfl⟩
      have hspaces : Waits (spaces : Reader UInt8 Event Unit) buf (pos + path.length) :=
        (waits_spaces (htarget.le_length hpos) ⟨_, htarget.drop⟩).mpr ⟨n, htarget.drop⟩
      exact htarget.waits_bind (waits_emit_bind.mpr (hspaces.bind _))

theorem waits_methodTail_of_nameless (hpos : pos ≤ buf.length) (h : Nameless (buf.drop pos)) :
    Waits (methodTail cap) buf pos := by
  obtain ⟨gap, path, n, hpath, hrest⟩ := h
  have htoken : Takes (token SP : Reader UInt8 Event Span) buf pos [] (buf.drop pos) (pos, 0) [] :=
    (takes_token not_isTokenByte_sp).mpr ⟨rfl, nofun, ⟨_, hrest⟩, rfl, rfl⟩
  refine htoken.waits_bind (waits_emit_bind.mpr ?_)
  have hsp : ∃ v, buf.drop pos = SP :: v := ⟨_, hrest⟩
  cases path with
  | nil =>
      have hspaces : Waits (spaces : Reader UInt8 Event Unit) buf pos := by
        refine (waits_spaces hpos hsp).mpr ⟨gap + n, ?_⟩
        rw [hrest, List.nil_append, spacesBytes, List.replicate_append_replicate, spacesBytes,
          Nat.add_right_comm]
      exact hspaces.bind _
  | cons b path =>
      have hb : b ≠ SP := by
        rintro rfl
        exact absurd (hpath SP List.mem_cons_self) not_isVisible_sp
      have hspaces : Takes (spaces : Reader UInt8 Event Unit) buf pos (spacesBytes gap)
          (b :: path ++ List.replicate n SP) () [] :=
        (takes_spaces hsp).mpr ⟨hrest, ⟨gap, rfl⟩, ⟨b, _, rfl, hb⟩, rfl⟩
      exact hspaces.waits_bind
        (waits_pathTail_of_visible (hspaces.le_length hpos) hpath hspaces.drop)

theorem Unversioned.ne_nil {v : List UInt8} (h : Unversioned v) : v ≠ [] := by
  rintro rfl
  exact h.2 0x30 (by decide) List.nil_prefix

theorem waits_methodTail_of_misversioned (hpos : pos ≤ buf.length)
    (h : Misversioned (buf.drop pos)) : Waits (methodTail cap) buf pos := by
  obtain ⟨method, gap₁, path, gap₂, rest, hname, htarget, hdrop, hhead, hrest⟩ := h
  obtain ⟨c, path', hc, hcne⟩ := htarget.head
  obtain ⟨b, rest', rfl⟩ := List.exists_cons_of_ne_nil hrest.ne_nil
  have htoken : Takes (token SP : Reader UInt8 Event Span) buf pos method
      (spacesBytes gap₁ ++ (path ++ (spacesBytes gap₂ ++ b :: rest'))) (pos, method.length) [] :=
    (takes_token not_isTokenByte_sp).mpr ⟨hdrop, hname.2, ⟨_, rfl⟩, rfl, rfl⟩
  have hpos₁ := htoken.le_length hpos
  have hspaces : Takes (spaces : Reader UInt8 Event Unit) buf (pos + method.length)
      (spacesBytes gap₁) (path ++ (spacesBytes gap₂ ++ b :: rest')) () [] :=
    (takes_spaces ⟨_, htoken.drop⟩).mpr
      ⟨htoken.drop, ⟨gap₁, rfl⟩, ⟨c, _, by rw [hc]; rfl, hcne⟩, rfl⟩
  have hpos₂ := hspaces.le_length hpos₁
  have hpath : Takes (target : Reader UInt8 Event Span) buf _ path (spacesBytes gap₂ ++ b :: rest')
      (_, path.length) [] := takes_target.mpr ⟨hspaces.drop, htarget.2, ⟨_, rfl⟩, rfl, rfl⟩
  have hpos₃ := hpath.le_length hpos₂
  have hspaces' : Takes (spaces : Reader UInt8 Event Unit) buf _ (spacesBytes gap₂) (b :: rest')
      () [] := (takes_spaces ⟨_, hpath.drop⟩).mpr
        ⟨hpath.drop, ⟨gap₂, rfl⟩, ⟨b, rest', rfl, hhead b rfl⟩, rfl⟩
  have hversion : Waits (version : Reader UInt8 Event Int32) buf _ :=
    (waits_version (hspaces'.le_length hpos₃)).mpr (by rw [hspaces'.drop]; exact hrest.1)
  have hlen : ¬(method.length = 0 ∨ path.length = 0) := by
    rintro (h0 | h0)
    · exact hname.1 (List.eq_nil_of_length_eq_zero h0)
    · exact htarget.1 (List.eq_nil_of_length_eq_zero h0)
  refine htoken.waits_bind (waits_emit_bind.mpr (hspaces.waits_bind (hpath.waits_bind
    (waits_emit_bind.mpr (hspaces'.waits_bind ?_)))))
  rw [if_neg hlen]
  exact hversion.bind _

/-- A lost request is waited for. -/
theorem RequestStuck.waits (h : RequestStuck buf) : Waits (request cap) buf 0 := by
  obtain ⟨lead, v, hbuf, hv⟩ := h
  have hhead : ∃ b v', v = b :: v' ∧ ¬(b = CR ∨ b = LF) := by
    rcases hv with ⟨gap, path, n, -, rfl⟩ | ⟨method, gap₁, path, gap₂, rest, hname, -, rfl, -⟩
    · exact ⟨SP, _, rfl, by decide⟩
    · obtain ⟨b, method', rfl, hb⟩ := hname.head
      exact ⟨b, _, rfl, not_eol_of_token hb⟩
  obtain ⟨b, v', rfl, hb⟩ := hhead
  have hempty : Takes (emptyLine : Reader UInt8 Event Unit) buf 0 (leadBytes lead) (b :: v') ()
      [] :=
    takes_emptyLine.mpr ⟨hbuf, ⟨lead, rfl, fun _ => ⟨b, v', rfl, hb⟩⟩, rfl⟩
  have hpos := hempty.le_length (Nat.zero_le _)
  rw [← hempty.drop] at hv
  refine hempty.waits_bind ?_
  rcases hv with hv | hv
  · exact waits_methodTail_of_nameless hpos hv
  · exact waits_methodTail_of_misversioned hpos hv

theorem Unversioned.not_bytes {v : List UInt8} (h : Unversioned v) {d : UInt8} (hd : IsDigit d)
    (ext r : List UInt8) : v ++ ext ≠ versionBytes d ++ r := by
  intro heq
  apply h.2 d hd
  exact List.prefix_of_prefix_length_le ⟨ext, heq⟩ (List.prefix_append _ _) (Nat.le_of_lt_succ h.1)

theorem head_ne_space {v : List UInt8} (hne : v ≠ []) (hv : ∀ b ∈ v.head?, b ≠ SP)
    (ext : List UInt8) : ∀ b ∈ (v ++ ext).head?, b ≠ SP := by
  obtain ⟨c, v', rfl⟩ := List.exists_cons_of_ne_nil hne
  exact hv

/-- No head begins with what is lost. -/
theorem RequestStuck.not_bytes (h : RequestStuck buf) (head : RequestHead) (ext r : List UInt8) :
    buf ++ ext ≠ head.bytes ++ r := by
  obtain ⟨lead, v, rfl, hv⟩ := h
  obtain ⟨lead', method', gap₁', path', gap₂', d', e', block', hname', htarget', hd'⟩ := head
  intro heq
  simp only [RequestHead.bytes, List.append_assoc] at heq
  obtain ⟨b', m', hb', htoken'⟩ := hname'.head
  rcases hv with ⟨gap, path, n, -, rfl⟩ | ⟨method, gap₁, path, gap₂, rest, hname, htarget, rfl,
    hhead, hrest⟩
  · -- a method does not begin with a space
    rw [hb'] at heq
    obtain ⟨rfl, h₁⟩ := lead_append_inj (by decide) (not_eol_of_token htoken') heq
    rw [← (List.cons.inj h₁).1] at htoken'
    exact not_isTokenByte_sp htoken'
  · obtain ⟨b, m, hb, htoken⟩ := hname.head
    have hlead : lead = lead' := by
      rw [hb, hb'] at heq
      simp only [List.append_assoc, List.cons_append] at heq
      exact (lead_append_inj (not_eol_of_token htoken) (not_eol_of_token htoken') heq).1
    subst hlead
    have h₀ := List.append_cancel_left heq
    simp only [List.append_assoc] at h₀
    obtain ⟨rfl, h₁⟩ := word_append_inj not_isTokenByte_sp hname.2 hname'.2 h₀
    obtain ⟨rfl, h₂⟩ := spaces_append_inj (htarget.head_append _) (htarget'.head_append _) h₁
    obtain ⟨rfl, h₃⟩ := word_append_inj not_isVisible_sp htarget.2 htarget'.2 h₂
    obtain ⟨rfl, h₄⟩ := spaces_append_inj (head_ne_space hrest.ne_nil hhead ext)
      (versionBytes_head _ _) h₃
    exact hrest.not_bytes hd' _ _ h₄

theorem RequestStuck.not_done (h : RequestStuck buf) (ext : List UInt8) (n : ℕ) (l : List Event) :
    (request cap).read (buf ++ ext) 0 ≠ (.done ((), n), l) := by
  intro hread
  obtain ⟨w, r, htakes, -⟩ := exists_takes (consumes_request _).reads (Nat.zero_le _) hread
  obtain ⟨hbuf, head, rfl, -⟩ := takes_request.mp htakes
  exact h.not_bytes head ext r hbuf

/-! ### Responses -/

theorem not_waits_reason (start : ℕ) (bytes : List UInt8) :
    ¬Waits (reason start bytes) buf pos := by
  intro h
  cases bytes with
  | nil => exact not_waits_emit h
  | cons b bytes =>
      rw [reason] at h
      split at h
      · exact not_waits_emit h
      · exact not_waits_reject (waits_emit_bind.mp h)

/-- Behind a status, where the line is not finished, it can be completed, or
it does not go on with a space. -/
theorem waits_reasonTail (hpos : pos ≤ buf.length) (h : Waits (reasonTail cap) buf pos) :
    (∃ t, IsText t ∧ (∃ b ∈ t.head?, b ≠ SP) ∧
      (buf.drop pos = t ∨ buf.drop pos = t ++ [CR])) ∨
    ∃ (ext t : List UInt8) (e : Eol) (block : HeaderBlock), IsReason t ∧
      buf.drop pos ++ ext = t ++ (e.bytes ++ block.bytes) ∧ block.lines.length ≤ cap := by
  rcases waits_bind_inv consumes_text.reads hpos h with h | ⟨s, w, r, l, htext, h⟩
  · obtain ⟨t, ht, hdrop⟩ := (waits_text hpos).mp h
    by_cases hhead : ∀ b ∈ t.head?, b = SP
    · right
      rcases hdrop with hdrop | hdrop
      · exact ⟨[LF, LF], t, .lf, emptyBlock, ⟨ht, hhead⟩, by rw [hdrop]; rfl, Nat.zero_le cap⟩
      · refine ⟨[LF, LF], t, .crlf, emptyBlock, ⟨ht, hhead⟩, ?_, Nat.zero_le cap⟩
        rw [hdrop, List.append_assoc]
        rfl
    · left
      push Not at hhead
      exact ⟨t, ht, hhead, hdrop⟩
  · obtain ⟨hrest, t, e, rfl, ht, rfl, rfl⟩ := (takes_text hpos).mp htext
    have hpos₁ := htext.le_length hpos
    rcases waits_bind_inv (reads_reason _ _) hpos₁ h with h | ⟨u, w, r', l, hreason, h⟩
    · exact absurd h (not_waits_reason _ _)
    · obtain ⟨-, rfl, hhead, rfl⟩ := takes_reason.mp hreason
      obtain ⟨ext, block, hext, hroom⟩ := waits_headers hpos₁ (waits_mapEvents.mp h)
      rw [htext.drop] at hext
      refine .inr ⟨ext, t, e, block, ⟨ht, hhead⟩, ?_, hroom⟩
      rw [hrest, List.append_assoc, List.append_assoc, hext]

/-- Digits can be completed to a status. -/
theorem exists_status {v : List UInt8} (hlen : v.length < 4) (hv : ∀ b ∈ v, IsDigit b) :
    ∃ ext d₁ d₂ d₃, (IsDigit d₁ ∧ IsDigit d₂ ∧ IsDigit d₃) ∧ v ++ ext = [d₁, d₂, d₃] := by
  match v, hlen, hv with
  | [], _, _ => exact ⟨[0x30, 0x30, 0x30], _, _, _, ⟨isDigit_zero, isDigit_zero, isDigit_zero⟩, rfl⟩
  | [a], _, hv => exact ⟨[0x30, 0x30], _, _, _, ⟨hv a (by simp), isDigit_zero, isDigit_zero⟩, rfl⟩
  | [a, b], _, hv => exact ⟨[0x30], _, _, _, ⟨hv a (by simp), hv b (by simp), isDigit_zero⟩, rfl⟩
  | [a, b, c], _, hv =>
    exact ⟨[], _, _, _, ⟨hv a (by simp), hv b (by simp), hv c (by simp)⟩, rfl⟩

theorem waits_statusTail (hpos : pos ≤ buf.length) (hsp : ∃ v, buf.drop pos = SP :: v)
    (h : Waits (statusTail cap) buf pos) :
    (∃ gap v, buf.drop pos = spacesBytes gap ++ v ∧ (∀ b ∈ v.head?, b ≠ SP) ∧
      (Statusless v ∨ Misworded v)) ∨
    ∃ (ext : List UInt8) (gap : ℕ) (d₁ d₂ d₃ : UInt8) (t : List UInt8) (e : Eol)
      (block : HeaderBlock), (IsDigit d₁ ∧ IsDigit d₂ ∧ IsDigit d₃) ∧ IsReason t ∧
      buf.drop pos ++ ext = spacesBytes gap ++ ([d₁, d₂, d₃] ++ (t ++ (e.bytes ++ block.bytes))) ∧
      block.lines.length ≤ cap := by
  have hempty : IsReason [] := ⟨nofun, nofun⟩
  rcases waits_bind_inv (reads_skipPast _) hpos h with h | ⟨u, w, r, l, hspaces, h⟩
  · obtain ⟨gap, hgap⟩ := (waits_spaces hpos hsp).mp h
    exact .inr ⟨[0x30, 0x30, 0x30, LF, LF], gap, 0x30, 0x30, 0x30, [], .lf, emptyBlock,
      ⟨isDigit_zero, isDigit_zero, isDigit_zero⟩, hempty, by rw [hgap]; rfl, Nat.zero_le cap⟩
  obtain ⟨hrest, ⟨gap, rfl⟩, ⟨c, r', rfl, hc⟩, rfl⟩ := (takes_spaces hsp).mp hspaces
  have hpos₁ := hspaces.le_length hpos
  have hhead : ∀ b ∈ (c :: r').head?, b ≠ SP := by
    rintro _ ⟨⟩
    exact hc
  rcases waits_bind_inv (.mapEvents _ reads_status) hpos₁ h with h | ⟨u, w, r, l, hstatus, h⟩
  · have hlen : (c :: r').length < 4 := by
      rw [waits_mapEvents, status, waits_window] at h
      rw [← hspaces.drop, List.length_drop]
      omega
    by_cases hdigits : ∀ b ∈ c :: r', IsDigit b
    · obtain ⟨ext, d₁, d₂, d₃, hd, hext⟩ := exists_status hlen hdigits
      refine .inr ⟨ext ++ [LF, LF], gap, d₁, d₂, d₃, [], .lf, emptyBlock, hd, hempty, ?_,
        Nat.zero_le cap⟩
      rw [hrest, List.append_assoc, ← List.append_assoc (c :: r'), hext]
      rfl
    · push Not at hdigits
      exact .inl ⟨gap, _, hrest, hhead, .inl ⟨hlen, hdigits⟩⟩
  · obtain ⟨l', hdigits, rfl⟩ := takes_mapEvents.mp hstatus
    obtain ⟨hline, ⟨d₁, d₂, d₃, rfl, hd, rfl⟩, -⟩ := (takes_status hpos₁).mp hdigits
    rw [hspaces.drop] at hline
    rcases waits_reasonTail (hstatus.le_length hpos₁) h with
      ⟨t, ht, hword, hdrop⟩ | ⟨ext, t, e, block, ht, hext, hroom⟩
    · rw [hstatus.drop] at hdrop
      refine .inl ⟨gap, _, hrest, hhead, .inr ⟨d₁, d₂, d₃, t, hd, ht, hword, ?_⟩⟩
      rcases hdrop with rfl | rfl
      · exact .inl hline
      · exact .inr hline
    · rw [hstatus.drop] at hext
      refine .inr ⟨ext, gap, d₁, d₂, d₃, t, e, block, hd, ht, ?_, hroom⟩
      rw [hrest, hline, List.append_assoc, List.append_assoc, hext]

/-- Where the response parser waits the head can be completed, unless it is
lost. -/
theorem waits_response (h : Waits (response cap) buf 0) :
    ResponseStuck buf ∨
      ∃ ext, ∃ head : ResponseHead, buf ++ ext = head.bytes ∧ head.block.lines.length ≤ cap := by
  rcases waits_bind_inv reads_version (Nat.zero_le _) h with h | ⟨v, w, r, l, hversion, h⟩
  · rcases exists_version ((waits_version (Nat.zero_le _)).mp h) with hstuck | ⟨d, ext, hd, hext⟩
    · exact .inl (.inl hstuck)
    · refine .inr ⟨ext ++ (spacesBytes 0 ++ [0x30, 0x30, 0x30, LF, LF]),
        ⟨d, 0, 0x30, 0x30, 0x30, [], .lf, emptyBlock, hd,
          ⟨isDigit_zero, isDigit_zero, isDigit_zero⟩, nofun, nofun⟩, ?_, Nat.zero_le cap⟩
      rw [List.drop_zero] at hext
      rw [← List.append_assoc, hext]
      rfl
  obtain ⟨hrest, ⟨d, rfl, hd, rfl⟩, hmore, rfl⟩ := (takes_version (Nat.zero_le _)).mp hversion
  have hpos := hversion.le_length (Nat.zero_le _)
  rw [List.drop_zero] at hrest
  rcases waits_peek_bind.mp (waits_emit_bind.mp h) with hnil | ⟨b, v, hb, h⟩
  · rw [hversion.drop] at hnil
    exact absurd hnil hmore
  split at h
  · exact absurd h not_waits_reject
  rename_i hsp
  obtain rfl : b = SP := not_not.mp hsp
  rcases waits_statusTail hpos ⟨v, hb⟩ h with
    ⟨gap, v', hdrop, hhead, hstuck⟩ | ⟨ext, gap, d₁, d₂, d₃, t, e, block, hstatus, ht, hext, hroom⟩
  · rw [hversion.drop] at hdrop
    exact .inl (.inr ⟨d, gap, v', hd, by rw [hrest, hdrop], hhead, hstuck⟩)
  · rw [hversion.drop] at hext
    refine .inr ⟨ext, ⟨d, gap, d₁, d₂, d₃, t, e, block, hd, hstatus, ht.1, ht.2⟩, ?_, hroom⟩
    rw [hrest, ResponseHead.bytes, ← hext, List.append_assoc]

theorem Statusless.ne_nil {v : List UInt8} (h : Statusless v) : v ≠ [] := by
  obtain ⟨-, b, hb, -⟩ := h
  exact List.ne_nil_of_mem hb

theorem Misworded.ne_nil {v : List UInt8} (h : Misworded v) : v ≠ [] := by
  obtain ⟨d₁, d₂, d₃, t, -, -, -, rfl | rfl⟩ := h
  · exact List.cons_ne_nil _ _
  · exact List.cons_ne_nil _ _

theorem waits_status_of_statusless (h : Statusless (buf.drop pos)) :
    Waits (mapEvents Event.status status) buf pos := by
  obtain ⟨hlen, -⟩ := h
  rw [List.length_drop] at hlen
  rw [waits_mapEvents, status, waits_window]
  omega

theorem waits_status_of_misworded (hpos : pos ≤ buf.length) (h : Misworded (buf.drop pos)) :
    Waits (do
      mapEvents .status status
      reasonTail cap) buf pos := by
  obtain ⟨d₁, d₂, d₃, t, hd, ht, ⟨b, hb, -⟩, hdrop⟩ := h
  have hwaits {v : List UInt8} (hv : buf.drop pos = [d₁, d₂, d₃] ++ v) (hne : v ≠ [])
      (htext : v = t ∨ v = t ++ [CR]) : Waits (do
        mapEvents .status status
        reasonTail cap) buf pos := by
    have hstatus : Takes status buf pos [d₁, d₂, d₃] v () _ :=
      (takes_status hpos).mpr ⟨hv, ⟨d₁, d₂, d₃, rfl, hd, rfl⟩, hne⟩
    have hdigits := (takes_mapEvents (g := Event.status)).mpr ⟨_, hstatus, rfl⟩
    have hreason : Waits (text : Reader UInt8 Event (ℕ × List UInt8)) buf _ :=
      (waits_text (hdigits.le_length hpos)).mpr ⟨t, ht, by rwa [hdigits.drop]⟩
    exact hdigits.waits_bind (hreason.bind _)
  have hne : t ≠ [] := by
    rintro rfl
    cases hb
  rcases hdrop with hdrop | hdrop
  · exact hwaits hdrop hne (.inl rfl)
  · exact hwaits hdrop (List.append_ne_nil_of_left_ne_nil hne _) (.inr rfl)

/-- A lost response is waited for. -/
theorem ResponseStuck.waits (h : ResponseStuck buf) : Waits (response cap) buf 0 := by
  rcases h with hshort | ⟨d, gap, v, hd, hbuf, hhead, hv⟩
  · have hversion : Waits (version : Reader UInt8 Event Int32) buf 0 :=
      (waits_version (Nat.zero_le _)).mpr hshort.1
    exact hversion.bind _
  have hne : v ≠ [] := hv.elim Statusless.ne_nil Misworded.ne_nil
  obtain ⟨c, v', rfl⟩ := List.exists_cons_of_ne_nil hne
  have hversion : Takes (version : Reader UInt8 Event Int32) buf 0 (versionBytes d)
      (spacesBytes gap ++ c :: v') (digit d) [] :=
    (takes_version (Nat.zero_le _)).mpr ⟨hbuf, ⟨d, rfl, hd, rfl⟩, List.cons_ne_nil SP _, rfl⟩
  have hpos := hversion.le_length (Nat.zero_le _)
  have hspaces : Takes (spaces : Reader UInt8 Event Unit) buf _ (spacesBytes gap) (c :: v') () [] :=
    (takes_spaces ⟨_, hversion.drop⟩).mpr
      ⟨hversion.drop, ⟨gap, rfl⟩, ⟨c, v', rfl, hhead c rfl⟩, rfl⟩
  have hpos₁ := hspaces.le_length hpos
  rw [← hspaces.drop] at hv
  refine hversion.waits_bind (waits_emit_bind.mpr (waits_peek_bind.mpr
    (.inr ⟨SP, _, hversion.drop, ?_⟩)))
  rw [if_neg (not_not.mpr rfl)]
  refine hspaces.waits_bind ?_
  rcases hv with hv | hv
  · exact (waits_status_of_statusless hv).bind _
  · exact waits_status_of_misworded hpos₁ hv

/-- No head begins with what is lost. -/
theorem ResponseStuck.not_bytes (h : ResponseStuck buf) (head : ResponseHead)
    (ext r : List UInt8) : buf ++ ext ≠ head.bytes ++ r := by
  obtain ⟨d', gap', d₁', d₂', d₃', t', e', block', hd', hstatus', ht'⟩ := head
  intro heq
  simp only [ResponseHead.bytes, List.append_assoc] at heq
  rcases h with hshort | ⟨d, gap, v, hd, rfl, hhead, hv⟩
  · exact hshort.not_bytes hd' _ _ heq
  simp only [List.append_assoc] at heq
  have hdigit : ∀ b ∈ ([d₁', d₂', d₃'] ++ (t' ++ (e'.bytes ++ (block'.bytes ++ r)))).head?,
      b ≠ SP := by
    rintro b ⟨⟩
    exact digit_ne_space hstatus'.1
  have hne : v ≠ [] := hv.elim Statusless.ne_nil Misworded.ne_nil
  obtain ⟨rfl, h₁⟩ := version_append_inj heq
  obtain ⟨rfl, h₂⟩ := spaces_append_inj (head_ne_space hne hhead ext) hdigit h₁
  rcases hv with ⟨hlen, b, hb, hbad⟩ | ⟨d₁, d₂, d₃, t, hd, ht, ⟨b, hb, hbad⟩, hv⟩
  · have hpre : v <+: [d₁', d₂', d₃'] :=
      List.prefix_of_prefix_length_le ⟨ext, h₂⟩ (List.prefix_append _ _) (Nat.le_of_lt_succ hlen)
    apply hbad
    rcases List.mem_cons.mp (hpre.subset hb) with rfl | hb
    · exact hstatus'.1
    · rcases List.mem_cons.mp hb with rfl | hb
      · exact hstatus'.2.1
      · rw [List.mem_singleton.mp hb]
        exact hstatus'.2.2
  · -- what follows the status begins with a byte that no reason begins with
    obtain ⟨t, rfl⟩ : ∃ t₀, t = b :: t₀ := by
      cases t with
      | nil => cases hb
      | cons c t => exact ⟨t, by rw [Option.some.inj hb]⟩
    have hword : ∃ x, v ++ ext = d₁ :: d₂ :: d₃ :: b :: x := by
      rcases hv with rfl | rfl
      · exact ⟨_, rfl⟩
      · exact ⟨_, rfl⟩
    obtain ⟨x, hx⟩ := hword
    have h₃ : b :: x = t' ++ (e'.bytes ++ (block'.bytes ++ r)) :=
      (List.cons.inj (List.cons.inj (List.cons.inj (hx.symm.trans h₂)).2).2).2
    cases t' with
    | nil =>
        have heol : b :: x = e'.bytes ++ (block'.bytes ++ r) := h₃
        apply e'.head_not_text (block'.bytes ++ r) b
        · rw [← heol]
          rfl
        · exact isText_iff_textByte.mp ht b List.mem_cons_self
    | cons c t' =>
        obtain rfl : b = c := (List.cons.inj h₃).1
        exact hbad (ht'.2 b rfl)

theorem ResponseStuck.not_done (h : ResponseStuck buf) (ext : List UInt8) (n : ℕ)
    (l : List Event) : (response cap).read (buf ++ ext) 0 ≠ (.done ((), n), l) := by
  intro hread
  obtain ⟨w, r, htakes, -⟩ := exists_takes (consumes_response _).reads (Nat.zero_le _) hread
  obtain ⟨hbuf, head, rfl, -⟩ := takes_response.mp htakes
  exact h.not_bytes head ext r hbuf

end

/-! ### What the errors promise -/

section

variable {σ : Type} {publish : σ → Event → σ} {p : Reader UInt8 Event Unit} {st : σ}
  {buf : List UInt8}

/-- A parser answers `Partial` where its reader waits. -/
theorem run_partial_iff :
    (∃ st', (realize publish p buf 0 >>= fun r => pure r.2 : EStateM Rust.Fault σ ℕ) st =
      .error (.err .Partial) st') ↔ Waits p buf 0 := by
  simp only [run_eq_more]
  exact ⟨fun ⟨_, l, h, _⟩ => ⟨l, h⟩, fun ⟨l, h⟩ => ⟨_, l, h, rfl⟩⟩

/-- Where a reader waits for what can come, its parser asks for it, and where
it waits for what cannot come, it asks in vain. -/
theorem extensible_iff {stuck : Prop} (hwaits : stuck → Waits p buf 0)
    (hnever : stuck → ∀ ext n l, p.read (buf ++ ext) 0 ≠ (.done ((), n), l))
    (hcan : Waits p buf 0 → stuck ∨ ∃ ext n l, p.read (buf ++ ext) 0 = (.done ((), n), l)) :
    ((∃ st', (realize publish p buf 0 >>= fun r => pure r.2 : EStateM Rust.Fault σ ℕ) st =
        .error (.err .Partial) st') →
      ∃ ext, ext ≠ [] ∧ ∃ n st',
        (realize publish p (buf ++ ext) 0 >>= fun r => pure r.2 : EStateM Rust.Fault σ ℕ) st =
          .ok n st') ↔ ¬stuck := by
  rw [run_partial_iff]
  constructor
  · intro h hstuck
    obtain ⟨ext, -, n, st', hok⟩ := h (hwaits hstuck)
    obtain ⟨l, hread, -⟩ := run_eq_ok.mp hok
    exact hnever hstuck ext n l hread
  · intro hstuck h
    obtain ⟨ext, n, l, hread⟩ := (hcan h).resolve_left hstuck
    refine ⟨ext, ?_, n, _, run_eq_ok.mpr ⟨l, hread, rfl⟩⟩
    rintro rfl
    obtain ⟨l', hmore⟩ := h
    rw [List.append_nil, hmore] at hread
    cases hread

end

/-- `Partial` promises that more can help, except on what is stuck. -/
theorem partial_extensible (buf : List UInt8) (sink : LogSink) :
    (((∃ st, Rust.Request.parseRequest buf 0 (sink, {}) = .error (.err .Partial) st) →
      ∃ ext, ext ≠ [] ∧ ∃ n st, Rust.Request.parseRequest (buf ++ ext) 0 (sink, {}) = .ok n st) ↔
        ¬RequestStuck buf) ∧
    (((∃ st, Rust.Response.parseResponse buf 0 (sink, {}) = .error (.err .Partial) st) →
      ∃ ext, ext ≠ [] ∧ ∃ n st, Rust.Response.parseResponse (buf ++ ext) 0 (sink, {}) = .ok n st) ↔
        ¬ResponseStuck buf) := by
  constructor
  · simp only [Port.Request.parseRequest_first]
    refine extensible_iff RequestStuck.waits RequestStuck.not_done fun h => ?_
    refine (waits_request h).imp_right ?_
    rintro ⟨ext, head, hext, hroom⟩
    have htakes : Takes (request sink.capacity) (buf ++ ext) 0 head.bytes [] () head.events :=
      takes_request.mpr ⟨by rw [hext, List.append_nil], head, rfl, hroom, rfl⟩
    exact ⟨ext, _, _, htakes.read⟩
  · simp only [Port.Response.parseResponse_first]
    refine extensible_iff ResponseStuck.waits ResponseStuck.not_done fun h => ?_
    refine (waits_response h).imp_right ?_
    rintro ⟨ext, head, hext, hroom⟩
    have htakes : Takes (response sink.capacity) (buf ++ ext) 0 head.bytes [] () head.events :=
      takes_response.mpr ⟨by rw [hext, List.append_nil], head, rfl, hroom, rfl⟩
    exact ⟨ext, _, _, htakes.read⟩

/-- A space for a method, and a letter that no version begins with: both are
waited on, and nothing can follow. -/
theorem partial_not_extensible :
    ((∃ st, Rust.Request.parseRequest [32] 0 (({ capacity := 0 } : LogSink), {}) =
        .error (.err .Partial) st) ∧
      ∀ ext n st, Rust.Request.parseRequest ([32] ++ ext) 0 (({ capacity := 0 } : LogSink), {}) ≠
        .ok n st) ∧
    (∃ st, Rust.Response.parseResponse [88] 0 (({ capacity := 0 } : LogSink), {}) =
        .error (.err .Partial) st) ∧
      ∀ ext n st, Rust.Response.parseResponse ([88] ++ ext) 0 (({ capacity := 0 } : LogSink), {}) ≠
        .ok n st := by
  simp only [Port.Request.parseRequest_first, Port.Response.parseResponse_first]
  have hrequest : RequestStuck [32] := ⟨none, [32], rfl, .inl ⟨0, [], 0, nofun, rfl⟩⟩
  have hresponse : ResponseStuck [88] := by
    refine .inl ⟨by decide, ?_⟩
    rintro d - ⟨r, hr⟩
    exact absurd (List.cons.inj hr).1 (by decide)
  have hrequest' : Waits (request 0) [32] 0 := hrequest.waits
  have hresponse' : Waits (response 0) [88] 0 := hresponse.waits
  refine ⟨⟨run_partial_iff.mpr hrequest', ?_⟩, run_partial_iff.mpr hresponse', ?_⟩
  · intro ext n st hok
    obtain ⟨l, hread, -⟩ := run_eq_ok.mp hok
    exact hrequest.not_done ext n l hread
  · intro ext n st hok
    obtain ⟨l, hread, -⟩ := run_eq_ok.mp hok
    exact hresponse.not_done ext n l hread

end PicoHttpParser.Head
