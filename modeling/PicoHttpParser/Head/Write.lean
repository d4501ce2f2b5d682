import PicoHttpParser.Head.Words

/-!
Writing heads.

What a parser shows of a head can be written as a head again, and that is
read back as the same. So the fields a caller sees say all that the next
parser will make of the message, whatever spaces, line ends and empty lines
the peer has put into it.
-/

namespace PicoHttpParser.Head

open Incremental

/-! ### Well-formed fields -/

/-- A value has no blanks around it. The value of a continuation begins with
one, unless it is empty. -/
inductive Field.WellFormed : Field → Prop
  | named {n v : List UInt8} (hname : IsName n) (htext : IsText v) (htrim : trim v = v) :
      WellFormed ⟨some n, v⟩
  | continued {v : List UInt8} (htext : IsText v) (htrim : trimEnd v = v)
      (hblank : ∀ b ∈ v.head?, IsBlank b) : WellFormed ⟨none, v⟩

structure HeadersWellFormed (fs : List Field) : Prop where
  each : ∀ f ∈ fs, f.WellFormed
  first : ∀ f ∈ fs.head?, f.name ≠ none

structure RequestFields.WellFormed (f : RequestFields) : Prop where
  method : IsName f.method
  path : IsTarget f.path
  version : ∃ d, IsDigit d ∧ digit d = f.minorVersion
  headers : HeadersWellFormed f.headers

structure ResponseFields.WellFormed (f : ResponseFields) : Prop where
  version : ∃ d, IsDigit d ∧ digit d = f.minorVersion
  status : ∃ d₁ d₂ d₃, (IsDigit d₁ ∧ IsDigit d₂ ∧ IsDigit d₃) ∧
    100 * digit d₁ + 10 * digit d₂ + digit d₃ = f.status
  msg : IsText f.msg ∧ ∀ b ∈ f.msg.head?, b ≠ SP
  headers : HeadersWellFormed f.headers

/-! ### Writers -/

/-- A line. The blank of an empty continuation is written for it. -/
def writeField (f : Field) : List UInt8 :=
  match f.name with
  | some n => n ++ 0x3a :: (SP :: f.value ++ [CR, LF])
  | none => (if f.value = [] then [SP] else f.value) ++ [CR, LF]

def writeHeaders (fs : List Field) : List UInt8 := (fs.map writeField).flatten ++ [CR, LF]

/-- A digit. -/
def digitByte (n : ℕ) : UInt8 := UInt8.ofNat (0x30 + n)

def writeRequest (f : RequestFields) : List UInt8 :=
  f.method ++ (SP :: (f.path ++ (SP :: (versionBytes (digitByte f.minorVersion.toInt.toNat) ++
    ([CR, LF] ++ writeHeaders f.headers)))))

def writeResponse (f : ResponseFields) : List UInt8 :=
  let status := f.status.toInt.toNat
  versionBytes (digitByte f.minorVersion.toInt.toNat) ++ (SP ::
    ([digitByte (status / 100), digitByte (status / 10 % 10), digitByte (status % 10)] ++
      ((SP :: f.msg) ++ ([CR, LF] ++ writeHeaders f.headers))))

/-! ### Blanks -/

section

variable {t : List UInt8}

theorem IsText.of_suffix {u : List UInt8} (h : IsText t) (hu : u <:+ t) : IsText u :=
  fun b hb => h b (hu.subset hb)

theorem IsText.of_isPrefix {u : List UInt8} (h : IsText t) (hu : u <+: t) : IsText u :=
  fun b hb => h b (hu.subset hb)

theorem trimEnd_isPrefix (t : List UInt8) : trimEnd t <+: t := List.rdropWhile_prefix _ t

theorem trimEnd_trimEnd (t : List UInt8) : trimEnd (trimEnd t) = trimEnd t :=
  List.rdropWhile_idempotent _ t

theorem head?_of_isPrefix {u : List UInt8} (hu : u <+: t) {b : UInt8} (hb : b ∈ u.head?) :
    b ∈ t.head? := by
  obtain ⟨v, rfl⟩ := hu
  cases u with
  | nil => cases hb
  | cons c u => exact hb

theorem dropWhile_of_head {f : UInt8 → Bool} (h : ∀ b ∈ t.head?, f b = false) :
    t.dropWhile f = t := by
  cases t with
  | nil => rfl
  | cons b t => rw [List.dropWhile_cons, h b rfl, if_neg Bool.false_ne_true]

theorem head?_dropWhile {f : UInt8 → Bool} : ∀ b ∈ (t.dropWhile f).head?, f b = false := by
  induction t with
  | nil => exact nofun
  | cons c t ih =>
      rw [List.dropWhile_cons]
      split
      · exact ih
      · intro b hb
        obtain rfl : c = b := Option.some.inj hb
        exact Bool.eq_false_iff.mpr ‹_›

theorem trim_trim (t : List UInt8) : trim (trim t) = trim t := by
  have hhead : ∀ b ∈ (trim t).head?, decide (IsBlank b) = false := fun b hb =>
    head?_dropWhile b (head?_of_isPrefix (trimEnd_isPrefix _) hb)
  rw [trim, dropWhile_of_head hhead]
  exact trimEnd_trimEnd _

theorem IsText.trim (h : IsText t) : IsText (trim t) :=
  (h.of_suffix (List.dropWhile_suffix _)).of_isPrefix (trimEnd_isPrefix _)

/-- The blank in front of a value is left out again. -/
theorem trim_blank (v : List UInt8) : Head.trim (SP :: v) = Head.trim v := rfl

end

/-! ### What is read is well formed -/

theorem HeaderLine.field_wellFormed (line : HeaderLine) : line.field.WellFormed := by
  cases line with
  | named n t e hname htext => exact .named hname htext.trim (trim_trim t)
  | continued t e htext hblank =>
      refine .continued (htext.of_isPrefix (trimEnd_isPrefix t)) (trimEnd_trimEnd t) fun b hb => ?_
      obtain ⟨c, hc, hblank⟩ := hblank
      have hb' := head?_of_isPrefix (trimEnd_isPrefix t) hb
      rwa [← Option.some.inj (Option.mem_def.mp hc ▸ Option.mem_def.mp hb' : some c = some b)]

theorem HeaderBlock.fields_wellFormed (block : HeaderBlock) : HeadersWellFormed block.fields where
  each f hf := by
    obtain ⟨line, -, rfl⟩ := List.mem_map.mp hf
    exact line.field_wellFormed
  first f hf := by
    have hfirst := block.first
    unfold HeaderBlock.fields at hf
    cases hlines : block.lines with
    | nil =>
        rw [hlines] at hf
        cases hf
    | cons line lines =>
        rw [hlines] at hf hfirst
        obtain rfl := Option.some.inj hf
        have hline := hfirst line rfl
        cases line with
        | named => exact nofun
        | continued => exact absurd trivial hline

theorem RequestHead.fields_wellFormed (head : RequestHead) : head.fields.WellFormed where
  method := head.isName
  path := head.isTarget
  version := ⟨head.version, head.isDigit, rfl⟩
  headers := head.block.fields_wellFormed

theorem ResponseHead.fields_wellFormed (head : ResponseHead) : head.fields.WellFormed where
  version := ⟨head.version, head.isDigit, rfl⟩
  status := ⟨head.d₁, head.d₂, head.d₃, head.isStatus, rfl⟩
  msg := by
    refine ⟨head.isReason.1.of_suffix (List.dropWhile_suffix _), fun b hb => ?_⟩
    exact of_decide_eq_false (head?_dropWhile b hb)
  headers := head.block.fields_wellFormed

/-! ### What is written is read -/

theorem exists_writeField {f : Field} (h : f.WellFormed) :
    ∃ line : HeaderLine, line.bytes = writeField f ∧ line.field = f ∧
      (line.IsContinuation → f.name = none) := by
  cases h with
  | named hname htext htrim =>
      rename_i n v
      have htext' : IsText (SP :: v) := List.forall_mem_cons.mpr ⟨by decide, htext⟩
      exact ⟨.named n (SP :: v) .crlf hname htext', rfl,
        congrArg (Field.mk (some n)) ((trim_blank v).trans htrim), nofun⟩
  | continued htext htrim hblank =>
      rename_i v
      cases v with
      | nil =>
          exact ⟨.continued [SP] .crlf (by decide) ⟨SP, rfl, by decide⟩, rfl, by decide,
            fun _ => rfl⟩
      | cons b v =>
          exact ⟨.continued (b :: v) .crlf htext ⟨b, rfl, hblank b rfl⟩, rfl,
            congrArg (Field.mk none) htrim, fun _ => rfl⟩

theorem exists_lines {fs : List Field} (h : ∀ f ∈ fs, f.WellFormed) :
    ∃ lines : List HeaderLine, linesBytes lines = (fs.map writeField).flatten ∧
      lines.map HeaderLine.field = fs ∧
      ((∀ f ∈ fs.head?, f.name ≠ none) → ∀ line ∈ lines.head?, ¬line.IsContinuation) := by
  induction fs with
  | nil => exact ⟨[], rfl, rfl, fun _ line hline => absurd hline (Option.not_mem_none line)⟩
  | cons f fs ih =>
      obtain ⟨hf, hfs⟩ := List.forall_mem_cons.mp h
      obtain ⟨line, hbytes, hfield, hcont⟩ := exists_writeField hf
      obtain ⟨lines, hbytes', hfields, -⟩ := ih hfs
      refine ⟨line :: lines, ?_, ?_, fun hfirst l hl => ?_⟩
      · rw [linesBytes_cons, hbytes, hbytes', List.map_cons, List.flatten_cons]
      · rw [List.map_cons, hfield, hfields]
      · obtain rfl := Option.some.inj hl
        exact fun hline => hfirst f rfl (hcont hline)

theorem exists_block {fs : List Field} (h : HeadersWellFormed fs) :
    ∃ block : HeaderBlock, block.bytes = writeHeaders fs ∧ block.fields = fs := by
  obtain ⟨lines, hbytes, hfields, hfirst⟩ := exists_lines h.each
  exact ⟨⟨lines, .crlf, hfirst h.first⟩, congrArg (· ++ [CR, LF]) hbytes, hfields⟩

theorem digitByte_of_digit {d : UInt8} (h : IsDigit d) :
    digitByte (d.toNat - 0x30) = d ∧ d.toNat - 0x30 < 10 := by
  have hall := forall_byte (P := fun d =>
    IsDigit d → digitByte (d.toNat - 0x30) = d ∧ d.toNat - 0x30 < 10) (by decide +kernel)
  exact hall d h

theorem digitByte_version {d : UInt8} (h : IsDigit d) :
    digitByte (digit d).toInt.toNat = d := by
  obtain ⟨hbyte, hlt⟩ := digitByte_of_digit h
  rw [digit, Int32.toInt_ofNat_of_lt (hlt.trans (by decide)), Int.toNat_natCast, hbyte]

theorem exists_request {f : RequestFields} (h : f.WellFormed) :
    ∃ head : RequestHead, head.bytes = writeRequest f ∧ head.fields = f := by
  obtain ⟨d, hd, hversion⟩ := h.version
  obtain ⟨block, hbytes, hfields⟩ := exists_block h.headers
  refine ⟨⟨none, f.method, 0, f.path, 0, d, .crlf, block, h.method, h.path, hd⟩, ?_, ?_⟩
  · rw [writeRequest, ← hversion, digitByte_version hd, ← hbytes]
    rfl
  · rw [RequestHead.fields, hversion, hfields]

/-- The digits of a status. -/
theorem status_digits {d₁ d₂ d₃ : UInt8} (h₁ : IsDigit d₁) (h₂ : IsDigit d₂) (h₃ : IsDigit d₃) :
    let status := (100 * digit d₁ + 10 * digit d₂ + digit d₃).toInt.toNat
    [digitByte (status / 100), digitByte (status / 10 % 10), digitByte (status % 10)] =
      [d₁, d₂, d₃] := by
  obtain ⟨hb₁, hlt₁⟩ := digitByte_of_digit h₁
  obtain ⟨hb₂, hlt₂⟩ := digitByte_of_digit h₂
  obtain ⟨hb₃, hlt₃⟩ := digitByte_of_digit h₃
  have hsum : 100 * digit d₁ + 10 * digit d₂ + digit d₃ =
      Int32.ofNat (100 * (d₁.toNat - 0x30) + 10 * (d₂.toNat - 0x30) + (d₃.toNat - 0x30)) := by
    rw [Int32.ofNat_add, Int32.ofNat_add, Int32.ofNat_mul, Int32.ofNat_mul]
    rfl
  rw [hsum, Int32.toInt_ofNat_of_lt (by omega), Int.toNat_natCast]
  generalize d₁.toNat - 0x30 = a at *
  generalize d₂.toNat - 0x30 = b at *
  generalize d₃.toNat - 0x30 = c at *
  have hundreds : (100 * a + 10 * b + c) / 100 = a := by omega
  have htens : (100 * a + 10 * b + c) / 10 % 10 = b := by omega
  have hunits : (100 * a + 10 * b + c) % 10 = c := by omega
  dsimp only
  rw [hundreds, htens, hunits, hb₁, hb₂, hb₃]

theorem exists_response {f : ResponseFields} (h : f.WellFormed) :
    ∃ head : ResponseHead, head.bytes = writeResponse f ∧ head.fields = f := by
  obtain ⟨d, hd, hversion⟩ := h.version
  obtain ⟨d₁, d₂, d₃, hstatus, heq⟩ := h.status
  obtain ⟨block, hbytes, hfields⟩ := exists_block h.headers
  obtain ⟨htext, hmsg⟩ := h.msg
  have hreason : IsReason (SP :: f.msg) := by
    refine ⟨List.forall_mem_cons.mpr ⟨by decide, htext⟩, fun b hb => ?_⟩
    exact (Option.some.inj hb).symm
  have hkept : f.msg.dropWhile (fun b => decide (b = SP)) = f.msg :=
    dropWhile_of_head fun b hb => decide_eq_false (hmsg b hb)
  refine ⟨⟨d, 0, d₁, d₂, d₃, SP :: f.msg, .crlf, block, hd, hstatus, hreason⟩, ?_, ?_⟩
  · obtain ⟨h₁, h₂, h₃⟩ := hstatus
    have hdigits := status_digits h₁ h₂ h₃
    rw [heq] at hdigits
    unfold writeResponse
    dsimp only
    rw [← hversion, digitByte_version hd, ← hbytes, hdigits]
    rfl
  · rw [ResponseHead.fields, hversion, hfields, ResponseHead.status, heq]
    show ResponseFields.mk _ _ (f.msg.dropWhile fun b => decide (b = SP)) _ = f
    rw [hkept]

/-! ### Calls -/

section

variable {a : Rust.RequestArgs} (ha : RequestNonNull a)

include ha

/-- A request that was written is read back. -/
theorem read_writeRequest {f : RequestFields} (h : f.WellFormed) (rest : List UInt8)
    {lastLen : ℕ} (hlast : lastLen < (writeRequest f).length) {mem : RequestMem}
    (hcap : f.headers.length ≤ mem.block.numHeaders) :
    (Rust.phrParseRequest a (writeRequest f ++ rest) lastLen mem).1 =
        Int32.ofNat (writeRequest f).length ∧
      requestFields a.buf (writeRequest f ++ rest)
        (Rust.phrParseRequest a (writeRequest f ++ rest) lastLen mem).2 = f := by
  obtain ⟨head, hbytes, hfields⟩ := exists_request h
  have hroom : head.block.lines.length ≤ mem.block.numHeaders := by
    rwa [← hfields, RequestHead.fields, HeaderBlock.fields, List.length_map] at hcap
  rw [← hbytes] at hlast ⊢
  rw [port_request (by rw [List.length_append]; omega) ha,
    (words_request _).answer_whole _ _ hroom rest hlast]
  exact ⟨rfl, (requestFields_events ha.buf head rest rfl).trans hfields⟩

/-- What a call shows of a request is well formed. -/
theorem wellFormed_request {buf : List UInt8} {lastLen : ℕ} (hlast : lastLen ≤ buf.length)
    {mem : RequestMem} (hret : 0 < (Rust.phrParseRequest a buf lastLen mem).1) :
    (requestFields a.buf buf (Rust.phrParseRequest a buf lastLen mem).2).WellFormed ∧
      (requestFields a.buf buf (Rust.phrParseRequest a buf lastLen mem).2).headers.length ≤
        mem.block.numHeaders := by
  rw [port_request hlast ha] at hret ⊢
  rcases (words_request _).answer_cases _ _ buf lastLen with h | h | ⟨head, r, rfl, hroom, h⟩
  · rw [h] at hret
    exact absurd hret (by decide)
  · rw [h] at hret
    exact absurd hret (by decide)
  · rw [h]
    dsimp only
    rw [requestFields_events ha.buf head r rfl]
    refine ⟨head.fields_wellFormed, ?_⟩
    rwa [RequestHead.fields, HeaderBlock.fields, List.length_map]

end

section

variable {a : Rust.ResponseArgs} (ha : ResponseNonNull a)

include ha

theorem read_writeResponse {f : ResponseFields} (h : f.WellFormed) (rest : List UInt8)
    {lastLen : ℕ} (hlast : lastLen < (writeResponse f).length) {mem : ResponseMem}
    (hcap : f.headers.length ≤ mem.block.numHeaders) :
    (Rust.phrParseResponse a (writeResponse f ++ rest) lastLen mem).1 =
        Int32.ofNat (writeResponse f).length ∧
      responseFields a.buf (writeResponse f ++ rest)
        (Rust.phrParseResponse a (writeResponse f ++ rest) lastLen mem).2 = f := by
  obtain ⟨head, hbytes, hfields⟩ := exists_response h
  have hroom : head.block.lines.length ≤ mem.block.numHeaders := by
    rwa [← hfields, ResponseHead.fields, HeaderBlock.fields, List.length_map] at hcap
  rw [← hbytes] at hlast ⊢
  rw [port_response (by rw [List.length_append]; omega) ha,
    (words_response _).answer_whole _ _ hroom rest hlast]
  exact ⟨rfl, (responseFields_events ha.buf head rest rfl).trans hfields⟩

theorem wellFormed_response {buf : List UInt8} {lastLen : ℕ} (hlast : lastLen ≤ buf.length)
    {mem : ResponseMem} (hret : 0 < (Rust.phrParseResponse a buf lastLen mem).1) :
    (responseFields a.buf buf (Rust.phrParseResponse a buf lastLen mem).2).WellFormed ∧
      (responseFields a.buf buf (Rust.phrParseResponse a buf lastLen mem).2).headers.length ≤
        mem.block.numHeaders := by
  rw [port_response hlast ha] at hret ⊢
  rcases (words_response _).answer_cases _ _ buf lastLen with h | h | ⟨head, r, rfl, hroom, h⟩
  · rw [h] at hret
    exact absurd hret (by decide)
  · rw [h] at hret
    exact absurd hret (by decide)
  · rw [h]
    dsimp only
    rw [responseFields_events ha.buf head r rfl]
    refine ⟨head.fields_wellFormed, ?_⟩
    rwa [ResponseHead.fields, HeaderBlock.fields, List.length_map]

end

/-- A call with these arguments reads back what was written, and what it
shows can be written. -/
structure RequestRoundTrips (a : Rust.RequestArgs) : Prop where
  written : ∀ (f : RequestFields) (rest : List UInt8) (lastLen : ℕ) (mem : RequestMem),
    f.WellFormed → lastLen < (writeRequest f).length → f.headers.length ≤ mem.block.numHeaders →
    (Rust.phrParseRequest a (writeRequest f ++ rest) lastLen mem).1 =
        Int32.ofNat (writeRequest f).length ∧
      requestFields a.buf (writeRequest f ++ rest)
        (Rust.phrParseRequest a (writeRequest f ++ rest) lastLen mem).2 = f
  shown : ∀ (buf : List UInt8) (lastLen : ℕ) (mem : RequestMem), lastLen ≤ buf.length →
    0 < (Rust.phrParseRequest a buf lastLen mem).1 →
    (requestFields a.buf buf (Rust.phrParseRequest a buf lastLen mem).2).WellFormed ∧
      (requestFields a.buf buf (Rust.phrParseRequest a buf lastLen mem).2).headers.length ≤
        mem.block.numHeaders

structure ResponseRoundTrips (a : Rust.ResponseArgs) : Prop where
  written : ∀ (f : ResponseFields) (rest : List UInt8) (lastLen : ℕ) (mem : ResponseMem),
    f.WellFormed → lastLen < (writeResponse f).length → f.headers.length ≤ mem.block.numHeaders →
    (Rust.phrParseResponse a (writeResponse f ++ rest) lastLen mem).1 =
        Int32.ofNat (writeResponse f).length ∧
      responseFields a.buf (writeResponse f ++ rest)
        (Rust.phrParseResponse a (writeResponse f ++ rest) lastLen mem).2 = f
  shown : ∀ (buf : List UInt8) (lastLen : ℕ) (mem : ResponseMem), lastLen ≤ buf.length →
    0 < (Rust.phrParseResponse a buf lastLen mem).1 →
    (responseFields a.buf buf (Rust.phrParseResponse a buf lastLen mem).2).WellFormed ∧
      (responseFields a.buf buf (Rust.phrParseResponse a buf lastLen mem).2).headers.length ≤
        mem.block.numHeaders

/-- A head that has been parsed can be passed on. What a caller is shown of a
message is well formed, and a well-formed message that is written, in front
of anything, is parsed as itself, whatever hint and whatever memory the next
parser is called with. -/
theorem heads_round_trip {a : Rust.RequestArgs} (ha : RequestNonNull a) {b : Rust.ResponseArgs}
    (hb : ResponseNonNull b) : RequestRoundTrips a ∧ ResponseRoundTrips b where
  left :=
    { written := fun _ rest _ _ h hlast hcap => read_writeRequest ha h rest hlast hcap
      shown := fun _ _ _ hlast hret => wellFormed_request ha hlast hret }
  right :=
    { written := fun _ rest _ _ h hlast hcap => read_writeResponse hb h rest hlast hcap
      shown := fun _ _ _ hlast hret => wellFormed_response hb hlast hret }

/-- A request with a header that is continued by an empty line. -/
theorem heads_round_trip_empty_continuation :
    let a : Rust.RequestArgs := ⟨1000, 1, 2, 3, 4, 5, 6, 7⟩
    let mem : RequestMem := ⟨0, 0, 0, 0, 0, ⟨fun _ => ⟨11, 12, 13, 14⟩, 4⟩⟩
    let f : RequestFields := ⟨[71, 69, 84], [47], 1, [⟨some [72], [97, 32, 98]⟩, ⟨none, []⟩]⟩
    (Rust.phrParseRequest a (writeRequest f ++ [71]) 0 mem).1 = 29 ∧
      requestFields a.buf (writeRequest f ++ [71])
        (Rust.phrParseRequest a (writeRequest f ++ [71]) 0 mem).2 = f := by
  intro a mem f
  have hheaders : HeadersWellFormed f.headers := by
    refine ⟨List.forall_mem_cons.mpr ⟨?_, List.forall_mem_singleton.mpr ?_⟩, ?_⟩
    · exact .named (isName_singleton (by decide)) (by decide) (by decide)
    · exact .continued (by decide) (by decide) nofun
    · intro g hg
      obtain rfl := Option.some.inj hg
      exact nofun
  have hmethod : IsName f.method := ⟨by decide, by decide +kernel⟩
  have hpath : IsTarget f.path := ⟨by decide, by decide +kernel⟩
  have hf : f.WellFormed := ⟨hmethod, hpath, ⟨0x31, by decide, by decide⟩, hheaders⟩
  have hround := (heads_round_trip (a := a) (by constructor <;> decide)
    (b := ⟨1000, 1, 2, 3, 4, 5, 6⟩) (by constructor <;> decide)).1
  exact hround.written f [71] 0 mem hf (by decide) (by decide)

end PicoHttpParser.Head
