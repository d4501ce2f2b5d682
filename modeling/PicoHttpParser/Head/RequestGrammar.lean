import PicoHttpParser.Head.Grammar

/-!
The grammar of a request head.

A request head is a value whose parts are those of the grammar. Its bytes are
what `parse_request` accepts, and what is published are the places of its
parts.
-/

namespace PicoHttpParser.Head

open Incremental Incremental.Reader

/-! ### The grammar -/

def IsVisible (b : UInt8) : Prop := 0x21 ≤ b ∧ b ≤ 0x7e ∨ 0x80 ≤ b

instance : DecidablePred IsVisible := fun _ => inferInstanceAs (Decidable (_ ∨ _))

theorem not_isVisible_sp : ¬IsVisible SP := by decide

/-- A request target of at least one byte. -/
def IsTarget (p : List UInt8) : Prop := p ≠ [] ∧ ∀ b ∈ p, IsVisible b

/-- `HTTP/1.` and a digit. -/
def versionBytes (d : UInt8) : List UInt8 := [0x48, 0x54, 0x54, 0x50, 0x2f, 0x31, 0x2e, d]

/-- Spaces, `n` of them behind the first. -/
def spacesBytes (n : ℕ) : List UInt8 := List.replicate (n + 1) SP

theorem length_spacesBytes (n : ℕ) : (spacesBytes n).length = n + 1 := List.length_replicate

/-- The empty line that may come first. -/
def leadBytes : Option Eol → List UInt8
  | none => []
  | some e => e.bytes

/-- A request head. -/
structure RequestHead where
  lead : Option Eol
  method : List UInt8
  gap₁ : ℕ
  path : List UInt8
  gap₂ : ℕ
  version : UInt8
  eol : Eol
  block : HeaderBlock
  isName : IsName method
  isTarget : IsTarget path
  isDigit : IsDigit version

namespace RequestHead

variable (head : RequestHead)

def bytes : List UInt8 :=
  leadBytes head.lead ++ (head.method ++ (spacesBytes head.gap₁ ++ (head.path ++
    (spacesBytes head.gap₂ ++ (versionBytes head.version ++ (head.eol.bytes ++
      head.block.bytes))))))

def methodStart : ℕ := (leadBytes head.lead).length

def pathStart : ℕ := head.methodStart + head.method.length + (head.gap₁ + 1)

def blockStart : ℕ :=
  head.pathStart + head.path.length + (head.gap₂ + 1) + 8 + head.eol.bytes.length

/-- What is published for a head. -/
def events : List Event :=
  .method (head.methodStart, head.method.length) :: .path (head.pathStart, head.path.length) ::
    .version (digit head.version) ::
      (slotEvents 0 (slots head.blockStart head.block.lines)).map .header

end RequestHead

/-! ### Words of the readers -/

section

variable {ω : Type} {buf w r : List UInt8} {pos : ℕ} {l : List ω} {u : Unit}

theorem takes_emptyLine :
    Takes emptyLine buf pos w r u l ↔
      buf.drop pos = w ++ r ∧
        (∃ lead, w = leadBytes lead ∧
          (lead = none → ∃ b r', r = b :: r' ∧ ¬(b = CR ∨ b = LF))) ∧ l = [] := by
  constructor
  · intro h
    obtain ⟨b, v, hv, hline⟩ := takes_peek_bind.mp h
    refine ⟨h.rest, ?_⟩
    split at hline
    · obtain ⟨-, ⟨e, rfl⟩, rfl⟩ := takes_eol.mp hline
      exact ⟨⟨some e, rfl, nofun⟩, rfl⟩
    · rename_i hne
      obtain ⟨rfl, rfl, -, rfl⟩ := takes_pure.mp hline
      exact ⟨⟨none, rfl, fun _ => ⟨b, v, hv, hne⟩⟩, rfl⟩
  · rintro ⟨hrest, ⟨lead, rfl, hlead⟩, rfl⟩
    cases lead with
    | none =>
        obtain ⟨b, r', rfl, hb⟩ := hlead rfl
        refine takes_peek_bind.mpr ⟨b, r', hrest, ?_⟩
        rw [if_neg hb]
        exact takes_pure.mpr ⟨hrest, rfl, rfl, rfl⟩
    | some e =>
        obtain ⟨b, v, he, -, hb⟩ := e.head
        refine takes_peek_bind.mpr ⟨b, v ++ r, by rw [hrest, leadBytes, he]; rfl, ?_⟩
        rw [if_pos hb]
        exact takes_eol.mpr ⟨hrest, ⟨e, rfl⟩, rfl⟩

theorem targetAct_eq (b : UInt8) :
    (targetAct b = .skip ↔ IsVisible b) ∧ (targetAct b = .stop ↔ b = SP) := by
  refine forall_byte (P := fun b =>
    (targetAct b = .skip ↔ IsVisible b) ∧ (targetAct b = .stop ↔ b = SP)) ?_ b
  decide +kernel

theorem takes_target {s : Span} :
    Takes target buf pos w r s l ↔
      buf.drop pos = w ++ r ∧ (∀ b ∈ w, IsVisible b) ∧ (∃ r', r = SP :: r') ∧
        s = (pos, w.length) ∧ l = [] := by
  have hacts : (∃ b r', r = b :: r' ∧ targetAct b = .stop) ↔ ∃ r', r = SP :: r' := by
    constructor
    · rintro ⟨b, r', rfl, hb⟩
      exact ⟨r', by rw [(targetAct_eq b).2.mp hb]⟩
    · rintro ⟨r', rfl⟩
      exact ⟨SP, r', rfl, (targetAct_eq SP).2.mpr rfl⟩
  rw [← hacts]
  simp only [← (targetAct_eq _).1]
  exact takes_span

theorem spaceAct_eq_skip {b : UInt8} : spaceAct b = .skip ↔ b = SP := by
  unfold spaceAct
  split
  · exact iff_of_true rfl ‹_›
  · exact iff_of_false nofun ‹_›

theorem spaceAct_eq_stop {b : UInt8} : spaceAct b = .stop ↔ b ≠ SP := by
  unfold spaceAct
  split
  · exact iff_of_false nofun (not_not.mpr ‹_›)
  · exact iff_of_true rfl ‹_›

/-- Spaces, where there is one at least. -/
theorem takes_spaces (hsp : ∃ v, buf.drop pos = SP :: v) :
    Takes spaces buf pos w r u l ↔
      buf.drop pos = w ++ r ∧ (∃ n, w = spacesBytes n) ∧ (∃ b r', r = b :: r' ∧ b ≠ SP) ∧
        l = [] := by
  rw [spaces, takes_skipPast]
  simp only [spaceAct_eq_stop, spaceAct_eq_skip]
  refine and_congr_right fun hrest => and_congr_left fun _ => ?_
  constructor
  · rintro ⟨b, v, rfl, hv⟩
    obtain ⟨v', hv'⟩ := hsp
    rw [hrest] at hv'
    obtain ⟨rfl, -⟩ := List.cons.inj hv'
    exact ⟨v.length, congrArg (SP :: ·) (List.eq_replicate_of_mem hv)⟩
  · rintro ⟨n, rfl⟩
    exact ⟨SP, List.replicate n SP, rfl, fun x hx => List.eq_of_mem_replicate hx⟩

theorem takes_version (hpos : pos ≤ buf.length) {v : Int32} :
    Takes version buf pos w r v l ↔
      buf.drop pos = w ++ r ∧ (∃ d, w = versionBytes d ∧ IsDigit d ∧ v = digit d) ∧ r ≠ [] ∧
        l = [] := by
  rw [version, takes_window hpos]
  refine and_congr_right fun _ => ?_
  constructor
  · rintro ⟨hw, hlen, hf⟩
    obtain ⟨t, d, rfl⟩ : ∃ t d, w = t ++ [d] :=
      ⟨_, _, (List.dropLast_append_getLast (List.ne_nil_of_length_eq_add_one hw)).symm⟩
    have ht : t.length = 7 := by simpa using hw
    cases r with
    | nil => simp [ht] at hlen
    | cons c r =>
        have hwindow : (t ++ [d] ++ c :: r).take 9 = t ++ [d, c] := by simp [List.take_append, ht]
        have hdigit : (t ++ [d, c]).getD 7 0 = d := by simp [ht]
        rw [hwindow, versionOf, List.take_left' ht, hdigit] at hf
        split at hf
        · rename_i hd
          obtain ⟨rfl, hd⟩ := hd
          obtain ⟨hv, rfl⟩ := Prod.mk.inj hf
          exact ⟨⟨d, rfl, hd, (Option.some.inj hv).symm⟩, List.cons_ne_nil c r, rfl⟩
        · cases (Prod.mk.inj hf).1
  · rintro ⟨⟨d, rfl, hd, rfl⟩, hr, rfl⟩
    obtain ⟨c, r, rfl⟩ := List.exists_cons_of_ne_nil hr
    refine ⟨rfl, by simp [versionBytes], ?_⟩
    exact if_pos ⟨rfl, hd⟩

end

/-! ### Words of the parser -/

section

variable {buf w r : List UInt8} {pos cap : ℕ} {l : List Event} {u : Unit}

theorem takes_mapHeaders (hpos : pos ≤ buf.length) :
    Takes (mapEvents Event.header (headers cap)) buf pos w r u l ↔
      buf.drop pos = w ++ r ∧
        ∃ block : HeaderBlock, w = block.bytes ∧ block.lines.length ≤ cap ∧
          l = (slotEvents 0 (slots pos block.lines)).map .header := by
  rw [takes_mapEvents]
  constructor
  · rintro ⟨l', h, rfl⟩
    obtain ⟨hrest, block, rfl, hroom, rfl⟩ := (takes_headers hpos).mp h
    exact ⟨hrest, block, rfl, hroom, rfl⟩
  · rintro ⟨hrest, block, rfl, hroom, rfl⟩
    exact ⟨_, (takes_headers hpos).mpr ⟨hrest, block, rfl, hroom, rfl⟩, rfl⟩

/-- A request head from its version on. -/
def versionTail (cap : ℕ) : Reader UInt8 Event Unit := do
  let v ← version
  emit (.version v)
  eol
  mapEvents .header (headers cap)

/-- A request head from its target on. -/
def pathTail (cap : ℕ) (method : Span) : Reader UInt8 Event Unit := do
  let path ← target
  emit (.path path)
  spaces
  if method.2 = 0 ∨ path.2 = 0 then reject
  else versionTail cap

/-- A request head from its method on. -/
def methodTail (cap : ℕ) : Reader UInt8 Event Unit := do
  let method ← token SP
  emit (.method method)
  spaces
  pathTail cap method

theorem consumes_versionTail (cap : ℕ) : Consumes (versionTail cap) :=
  .bind reads_version fun _ => .bind_zero (.emit _) fun _ =>
    .bind_left consumes_eol fun _ => reads_mapHeaders cap

theorem consumes_versionBranch (cap : ℕ) (method path : Span) :
    Consumes (if method.2 = 0 ∨ path.2 = 0 then reject else versionTail cap) := by
  split
  · exact .reject
  · exact consumes_versionTail cap

theorem consumes_pathTail (cap : ℕ) (method : Span) : Consumes (pathTail cap method) :=
  .bind reads_target fun path => .bind_zero (.emit _) fun _ =>
    .bind (reads_skipPast _) fun _ => consumes_versionBranch cap method path

theorem consumes_methodTail (cap : ℕ) : Consumes (methodTail cap) :=
  .bind (reads_token SP) fun method => .bind_zero (.emit _) fun _ =>
    .bind (reads_skipPast _) fun _ => consumes_pathTail cap method

theorem takes_versionTail (hpos : pos ≤ buf.length) :
    Takes (versionTail cap) buf pos w r u l ↔
      buf.drop pos = w ++ r ∧
        ∃ (d : UInt8) (e : Eol) (block : HeaderBlock), IsDigit d ∧
          w = versionBytes d ++ (e.bytes ++ block.bytes) ∧ block.lines.length ≤ cap ∧
          l = .version (digit d) ::
            (slotEvents 0 (slots (pos + 8 + e.bytes.length) block.lines)).map .header := by
  have hline : Reads 0 (do eol; mapEvents .header (headers cap) : Reader UInt8 Event Unit) :=
    .bind_zero consumes_eol.reads fun _ => reads_mapHeaders cap
  constructor
  · intro h
    obtain ⟨v, w₁, w₂, l₁, l₂, rfl, rfl, hversion, hemit⟩ := Takes.bind_inv reads_version
      (fun v => .bind_zero (.emit (Event.version v)) fun _ => hline) hpos h
    obtain ⟨-, ⟨d, rfl, hd, rfl⟩, -, rfl⟩ := (takes_version hpos).mp hversion
    have hpos₁ := hversion.le_length hpos
    obtain ⟨l₃, rfl, hrest⟩ := takes_emit_bind.mp hemit
    obtain ⟨v, w₃, w₄, l₄, l₅, rfl, rfl, heol, hblock⟩ :=
      Takes.bind_inv consumes_eol.reads (fun _ => reads_mapHeaders cap) hpos₁ hrest
    obtain ⟨-, ⟨e, rfl⟩, rfl⟩ := takes_eol.mp heol
    obtain ⟨-, block, rfl, hroom, rfl⟩ := (takes_mapHeaders (heol.le_length hpos₁)).mp hblock
    exact ⟨h.rest, d, e, block, hd, rfl, hroom, rfl⟩
  · rintro ⟨hrest, d, e, block, hd, rfl, hroom, rfl⟩
    have hversion : Takes version buf pos (versionBytes d) (e.bytes ++ block.bytes ++ r)
        (digit d) ([] : List Event) := by
      obtain ⟨b, v, hb, -⟩ := e.head
      refine (takes_version hpos).mpr ⟨by rw [hrest, List.append_assoc], ⟨d, rfl, hd, rfl⟩, ?_, rfl⟩
      rw [hb]
      exact List.cons_ne_nil b _
    have hpos₁ := hversion.le_length hpos
    have heol : Takes eol buf (pos + (versionBytes d).length) e.bytes (block.bytes ++ r) ()
        ([] : List Event) :=
      takes_eol.mpr ⟨by rw [hversion.drop, List.append_assoc], ⟨e, rfl⟩, rfl⟩
    have hblock := (takes_mapHeaders (u := u) (heol.le_length hpos₁)).mpr
      ⟨heol.drop, block, rfl, hroom, rfl⟩
    have hemit : Takes (do emit (Event.version (digit d))
                           eol
                           mapEvents .header (headers cap)) buf (pos + (versionBytes d).length)
        (e.bytes ++ block.bytes) r u _ := takes_emit_bind.mpr ⟨_, rfl, heol.bind hblock⟩
    exact hversion.bind hemit

theorem IsTarget.head {p : List UInt8} (h : IsTarget p) : ∃ b p', p = b :: p' ∧ b ≠ SP := by
  obtain ⟨hne, hp⟩ := h
  cases p with
  | nil => exact absurd rfl hne
  | cons b p =>
      refine ⟨b, p, rfl, ?_⟩
      rintro rfl
      exact absurd (hp SP List.mem_cons_self) (by decide)

theorem takes_pathTail (hpos : pos ≤ buf.length) {method : Span} :
    Takes (pathTail cap method) buf pos w r u l ↔
      buf.drop pos = w ++ r ∧ method.2 ≠ 0 ∧
        ∃ (path : List UInt8) (gap : ℕ) (d : UInt8) (e : Eol) (block : HeaderBlock),
          IsTarget path ∧ IsDigit d ∧
          w = path ++ (spacesBytes gap ++ (versionBytes d ++ (e.bytes ++ block.bytes))) ∧
          block.lines.length ≤ cap ∧
          l = .path (pos, path.length) :: .version (digit d) ::
            (slotEvents 0 (slots (pos + path.length + (gap + 1) + 8 + e.bytes.length)
              block.lines)).map .header := by
  constructor
  · intro h
    obtain ⟨s, path, w₂, l₁, l₂, rfl, rfl, htarget, hemit⟩ := Takes.bind_inv reads_target
      (fun s => .bind_zero (.emit (Event.path s)) fun _ =>
        (Consumes.bind (reads_skipPast _) fun _ => consumes_versionBranch cap method s).reads)
      hpos h
    obtain ⟨-, hpath, ⟨r', hr'⟩, rfl, rfl⟩ := takes_target.mp htarget
    have hpos₁ := htarget.le_length hpos
    obtain ⟨l₃, rfl, hrest⟩ := takes_emit_bind.mp hemit
    obtain ⟨v, w₃, w₄, l₄, l₅, rfl, rfl, hspaces, hbranch⟩ := Takes.bind_inv (reads_skipPast _)
      (fun _ => (consumes_versionBranch cap method _).reads) hpos₁ hrest
    obtain ⟨-, ⟨gap, rfl⟩, -, rfl⟩ := (takes_spaces ⟨r', by rw [htarget.drop, hr']⟩).mp hspaces
    split at hbranch
    · exact absurd hbranch not_takes_reject
    rename_i hne
    obtain ⟨hmethod, hlen⟩ := not_or.mp hne
    obtain ⟨-, d, e, block, hd, rfl, hroom, rfl⟩ :=
      (takes_versionTail (hspaces.le_length hpos₁)).mp hbranch
    have hpath' : IsTarget path := ⟨fun h0 => hlen (congrArg List.length h0), hpath⟩
    refine ⟨h.rest, hmethod, path, gap, d, e, block, hpath', hd, rfl, hroom, ?_⟩
    rw [length_spacesBytes]
    rfl
  · rintro ⟨hrest, hmethod, path, gap, d, e, block, hpath, hd, rfl, hroom, rfl⟩
    have htarget : Takes target buf pos path
        (spacesBytes gap ++ (versionBytes d ++ (e.bytes ++ block.bytes)) ++ r)
        (pos, path.length) ([] : List Event) :=
      takes_target.mpr ⟨by rw [hrest, List.append_assoc], hpath.2, ⟨_, rfl⟩, rfl, rfl⟩
    have hpos₁ := htarget.le_length hpos
    have hspaces : Takes spaces buf (pos + path.length) (spacesBytes gap)
        (versionBytes d ++ (e.bytes ++ block.bytes) ++ r) () ([] : List Event) :=
      (takes_spaces ⟨_, htarget.drop⟩).mpr ⟨by rw [htarget.drop, List.append_assoc], ⟨gap, rfl⟩,
        ⟨0x48, _, rfl, by decide⟩, rfl⟩
    have htail := (takes_versionTail (u := u) (hspaces.le_length hpos₁)).mpr
      ⟨hspaces.drop, d, e, block, hd, rfl, hroom, rfl⟩
    have hlen : path.length ≠ 0 := fun h0 => hpath.1 (List.eq_nil_of_length_eq_zero h0)
    rw [length_spacesBytes] at htail
    let branch (s : Span) : Reader UInt8 Event Unit :=
      if method.2 = 0 ∨ s.2 = 0 then reject else versionTail cap
    have hbranch : branch (pos, path.length) = versionTail cap :=
      if_neg (not_or.mpr ⟨hmethod, hlen⟩)
    have hemit : Takes (do emit (Event.path (pos, path.length))
                           spaces
                           branch (pos, path.length)) buf (pos + path.length)
        (spacesBytes gap ++ (versionBytes d ++ (e.bytes ++ block.bytes))) r u _ :=
      takes_emit_bind.mpr ⟨_, rfl, hspaces.bind (by rwa [hbranch, length_spacesBytes])⟩
    exact htarget.bind (q := fun s => do
      emit (Event.path s)
      spaces
      branch s) hemit

/-- The words of `parse_request`. -/
theorem takes_request :
    Takes (request cap) buf 0 w r u l ↔
      buf = w ++ r ∧
        ∃ head : RequestHead, w = head.bytes ∧ head.block.lines.length ≤ cap ∧ l = head.events := by
  have hmethod (s : Span) : Consumes (do
      emit (.method s)
      spaces
      pathTail cap s) :=
    .bind_zero (.emit _) fun _ => .bind (reads_skipPast _) fun _ => consumes_pathTail cap s
  constructor
  · intro h
    obtain ⟨v, w₁, w₂, l₁, l₂, rfl, rfl, hempty, htail⟩ := Takes.bind_inv reads_emptyLine
      (fun _ => (consumes_methodTail cap).reads) (Nat.zero_le _) h
    obtain ⟨-, ⟨lead, rfl, -⟩, rfl⟩ := takes_emptyLine.mp hempty
    have hpos₁ := hempty.le_length (Nat.zero_le _)
    obtain ⟨s, method, w₃, l₃, l₄, rfl, rfl, htoken, hemit⟩ :=
      Takes.bind_inv (reads_token SP) (fun s => (hmethod s).reads) hpos₁ htail
    obtain ⟨-, hchars, ⟨r', hr'⟩, rfl, rfl⟩ := (takes_token not_isTokenByte_sp).mp htoken
    have hpos₂ := htoken.le_length hpos₁
    obtain ⟨l₅, rfl, hrest⟩ := takes_emit_bind.mp hemit
    obtain ⟨v, w₄, w₅, l₆, l₇, rfl, rfl, hspaces, hpath⟩ := Takes.bind_inv (reads_skipPast _)
      (fun _ => (consumes_pathTail cap _).reads) hpos₂ hrest
    obtain ⟨-, ⟨gap, rfl⟩, -, rfl⟩ := (takes_spaces ⟨r', by rw [htoken.drop, hr']⟩).mp hspaces
    obtain ⟨-, hlen, path, gap', d, e, block, htarget, hd, rfl, hroom, rfl⟩ :=
      (takes_pathTail (hspaces.le_length hpos₂)).mp hpath
    have hname : IsName method := ⟨fun h0 => hlen (congrArg List.length h0), hchars⟩
    refine ⟨h.rest, ⟨lead, method, gap, path, gap', d, e, block, hname, htarget, hd⟩, rfl, hroom,
      ?_⟩
    simp [RequestHead.events, RequestHead.blockStart, RequestHead.pathStart,
      RequestHead.methodStart, length_spacesBytes]
  · rintro ⟨hrest, ⟨lead, method, gap, path, gap', d, e, block, hname, htarget, hd⟩, rfl, hroom,
      rfl⟩
    obtain ⟨b, method', hb, hchar⟩ := hname.head
    obtain ⟨c, path', hc, hne⟩ := htarget.head
    let tail := path ++ (spacesBytes gap' ++ (versionBytes d ++ (e.bytes ++ block.bytes)))
    have hempty : Takes emptyLine buf 0 (leadBytes lead)
        (method ++ (spacesBytes gap ++ tail) ++ r) () ([] : List Event) := by
      have hbuf := hrest.trans (List.append_assoc _ _ _)
      refine takes_emptyLine.mpr ⟨hbuf, ⟨lead, rfl, fun _ => ?_⟩, rfl⟩
      exact ⟨b, _, by rw [hb]; rfl, not_eol_of_token hchar⟩
    have hpos₁ := hempty.le_length (Nat.zero_le _)
    have htoken : Takes (token SP) buf (0 + (leadBytes lead).length) method
        (spacesBytes gap ++ tail ++ r) (0 + (leadBytes lead).length, method.length)
        ([] : List Event) :=
      (takes_token not_isTokenByte_sp).mpr
        ⟨by rw [hempty.drop, List.append_assoc], hname.2, ⟨_, rfl⟩, rfl, rfl⟩
    have hpos₂ := htoken.le_length hpos₁
    have hspaces : Takes spaces buf (0 + (leadBytes lead).length + method.length)
        (spacesBytes gap) (tail ++ r) () ([] : List Event) := by
      have htail : ∃ v, tail ++ r = c :: v := ⟨_, by simp only [tail, hc]; rfl⟩
      obtain ⟨v, hv⟩ := htail
      exact (takes_spaces ⟨_, htoken.drop⟩).mpr
        ⟨by rw [htoken.drop, List.append_assoc], ⟨gap, rfl⟩, ⟨c, v, hv, hne⟩, rfl⟩
    have hlen : method.length ≠ 0 := fun h0 => hname.1 (List.eq_nil_of_length_eq_zero h0)
    have hpath :
        Takes (pathTail cap (0 + (leadBytes lead).length, method.length)) buf _ tail r u _ :=
      (takes_pathTail (hspaces.le_length hpos₂)).mpr
        ⟨hspaces.drop, hlen, path, gap', d, e, block, htarget, hd, rfl, hroom, rfl⟩
    have hmethod := htoken.bind (q := fun s => do
      emit (.method s)
      spaces
      pathTail cap s) (takes_emit_bind.mpr ⟨_, rfl, hspaces.bind hpath⟩)
    have hwhole := hempty.bind (q := fun _ => methodTail cap) hmethod
    simp only [length_spacesBytes, Nat.zero_add] at hwhole
    exact hwhole

end

/-! ### A head can be read in one way -/

theorem lead_append_inj {lead lead' : Option Eol} {b b' : UInt8} {v v' : List UInt8}
    (hb : ¬(b = CR ∨ b = LF)) (hb' : ¬(b' = CR ∨ b' = LF))
    (h : leadBytes lead ++ b :: v = leadBytes lead' ++ b' :: v') :
    lead = lead' ∧ b :: v = b' :: v' := by
  have hmixed {e : Eol} {b : UInt8} {v v' : List UInt8} (hb : ¬(b = CR ∨ b = LF)) :
      e.bytes ++ v' ≠ b :: v := by
    intro h
    obtain ⟨c, w, hc, -, heol⟩ := e.head
    rw [hc] at h
    rw [(List.cons.inj h).1] at heol
    exact hb heol
  cases lead with
  | none =>
      cases lead' with
      | none => exact ⟨rfl, h⟩
      | some e' => exact absurd h.symm (hmixed hb)
  | some e =>
      cases lead' with
      | none => exact absurd h (hmixed hb')
      | some e' =>
          obtain ⟨rfl, hrest⟩ := prefixFree_eol e e' _ _ h
          exact ⟨rfl, hrest⟩

theorem spaces_append_inj {n n' : ℕ} {r r' : List UInt8} (hr : ∀ b ∈ r.head?, b ≠ SP)
    (hr' : ∀ b ∈ r'.head?, b ≠ SP) (h : spacesBytes n ++ r = spacesBytes n' ++ r') :
    n = n' ∧ r = r' := by
  have hspaces (n : ℕ) : ∀ b ∈ spacesBytes n, b = SP := fun b hb => List.eq_of_mem_replicate hb
  obtain ⟨hn, hrest⟩ := append_inj_of_stop (hspaces n) (hspaces n') hr hr' h
  have hlen := congrArg List.length hn
  rw [length_spacesBytes, length_spacesBytes] at hlen
  exact ⟨Nat.succ_injective hlen, hrest⟩

theorem version_append_inj {d d' : UInt8} {r r' : List UInt8}
    (h : versionBytes d ++ r = versionBytes d' ++ r') : d = d' ∧ r = r' := by
  obtain ⟨hd, hrest⟩ := List.append_inj h rfl
  simp only [versionBytes, List.cons.injEq, true_and, and_true] at hd
  exact ⟨hd, hrest⟩

/-- A word that no space is part of ends at the spaces behind it. -/
theorem word_append_inj {P : UInt8 → Prop} (hP : ¬P SP) {w w' : List UInt8} {n n' : ℕ}
    {r r' : List UInt8} (hw : ∀ b ∈ w, P b) (hw' : ∀ b ∈ w', P b)
    (h : w ++ (spacesBytes n ++ r) = w' ++ (spacesBytes n' ++ r')) :
    w = w' ∧ spacesBytes n ++ r = spacesBytes n' ++ r' := by
  have hstop (n : ℕ) (r : List UInt8) : ∀ b ∈ (spacesBytes n ++ r).head?, ¬P b := by
    rintro b ⟨⟩
    exact hP
  exact append_inj_of_stop hw hw' (hstop n r) (hstop n' r') h

theorem versionBytes_head (d : UInt8) (r : List UInt8) :
    ∀ b ∈ (versionBytes d ++ r).head?, b ≠ SP := by
  rintro b ⟨⟩
  decide

theorem IsTarget.head_append {p : List UInt8} (h : IsTarget p) (r : List UInt8) :
    ∀ b ∈ (p ++ r).head?, b ≠ SP := by
  obtain ⟨b, p', rfl, hb⟩ := h.head
  rintro c ⟨⟩
  exact hb

theorem prefixFree_request : PrefixFree RequestHead.bytes := by
  rintro ⟨lead, method, gap₁, path, gap₂, d, e, block, hname, htarget, hd⟩
    ⟨lead', method', gap₁', path', gap₂', d', e', block', hname', htarget', hd'⟩ r r' h
  simp only [RequestHead.bytes, List.append_assoc] at h
  have hlead : lead = lead' := by
    obtain ⟨b, v, rfl, hb⟩ := hname.head
    obtain ⟨b', v', rfl, hb'⟩ := hname'.head
    exact (lead_append_inj (not_eol_of_token hb) (not_eol_of_token hb') h).1
  subst hlead
  obtain ⟨rfl, h₁⟩ := word_append_inj not_isTokenByte_sp hname.2 hname'.2
    (List.append_cancel_left h)
  obtain ⟨rfl, h₂⟩ := spaces_append_inj (htarget.head_append _) (htarget'.head_append _) h₁
  obtain ⟨rfl, h₃⟩ := word_append_inj not_isVisible_sp htarget.2 htarget'.2 h₂
  obtain ⟨rfl, h₄⟩ := spaces_append_inj (versionBytes_head _ _) (versionBytes_head _ _) h₃
  obtain ⟨rfl, h₅⟩ := version_append_inj h₄
  obtain ⟨rfl, h₆⟩ := prefixFree_eol _ _ _ _ h₅
  obtain ⟨rfl, rfl⟩ := prefixFree_block _ _ _ _ h₆
  exact ⟨rfl, rfl⟩

/-! ### What is published -/

/-- The outputs after the head of a request has been parsed. -/
structure RequestPublished (st : LogSink × Rust.Request.Progress) (head : RequestHead) :
    Prop where
  method : st.2.method = some (head.methodStart, head.method.length)
  path : st.2.path = some (head.pathStart, head.path.length)
  version : st.2.version = some (digit head.version)
  block : Published (Rust.Request.headerState st) (slots head.blockStart head.block.lines)

theorem foldl_requestHeaders {S : Type} [Rust.HeaderSink S] (l : List HeaderEvent)
    (st : S × Rust.Request.Progress) :
    (l.map Event.header).foldl Port.Request.publish st =
      Rust.Request.setHeaderState st
        (l.foldl Port.publishHeader (Rust.Request.headerState st)) := by
  induction l generalizing st with
  | nil => rfl
  | cons e l ih => exact ih _

theorem requestPublished (sink : LogSink) (head : RequestHead) :
    RequestPublished (head.events.foldl Port.Request.publish (sink, {})) head := by
  rw [RequestHead.events, List.foldl_cons, List.foldl_cons, List.foldl_cons, foldl_requestHeaders]
  exact ⟨rfl, rfl, rfl, published_slotEvents sink _⟩

/-- The head lies at the start of the buffer and ends at `n`, and there is
room for the lines of its block. -/
structure RequestHead.Fits (head : RequestHead) (buf : List UInt8) (n cap : ℕ) : Prop where
  room : head.block.lines.length ≤ cap
  bytes : head.bytes <+: buf
  stop : n = head.bytes.length

/-- What `parse_request` accepts are the request heads there is room for. A
buffer begins with one of them at most, and its parts are what is reported. -/
theorem request_grammar (buf : List UInt8) (sink : LogSink) (n : ℕ) :
    ((∃ st, Rust.Request.parseRequest buf 0 (sink, {}) = .ok n st) ↔
      ∃ head : RequestHead, head.Fits buf n sink.capacity) ∧
    ∀ head : RequestHead, head.Fits buf n sink.capacity →
      (∃ st, Rust.Request.parseRequest buf 0 (sink, {}) = .ok n st ∧ RequestPublished st head) ∧
        ∀ head' : RequestHead, head'.bytes <+: buf → head' = head := by
  have hfits (head : RequestHead) : head.Fits buf n sink.capacity ↔
      head.block.lines.length ≤ sink.capacity ∧ head.bytes <+: buf ∧
        n = 0 + head.bytes.length := by
    rw [Nat.zero_add]
    exact ⟨fun h => ⟨h.room, h.bytes, h.stop⟩, fun ⟨hroom, hbytes, hstop⟩ => ⟨hroom, hbytes, hstop⟩⟩
  rw [Port.Request.parseRequest_first]
  exact run_grammar (consumes_request _).reads (Nat.zero_le _) takes_request prefixFree_request
    hfits (requestPublished sink)

end PicoHttpParser.Head
