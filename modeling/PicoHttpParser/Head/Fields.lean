import PicoHttpParser.Head.ResponseGrammar
import PicoHttpParser.Head.Calls

/-!
What a caller reads back.

The parsers hand out pointers into the input. What they point at are the
words of the head: read through its pointers, the memory a call leaves behind
shows the method, the path, the reason and the headers that were written
there, with the blanks around a value left out.
-/

namespace PicoHttpParser.Head

open Incremental Incremental.Reader

/-! ### Reading memory -/

/-- The bytes that a pointer and a length denote, when the input lies at
`base`. -/
def bytesAt (base : ℕ) (buf : List UInt8) (ptr len : ℕ) : List UInt8 :=
  (buf.drop (ptr - base)).take len

/-- A header as a caller sees it. A continuation line has no name. -/
structure Field where
  name : Option (List UInt8)
  value : List UInt8
  deriving DecidableEq, Repr

/-- A request as a caller sees it. -/
structure RequestFields where
  method : List UInt8
  path : List UInt8
  minorVersion : Int32
  headers : List Field
  deriving DecidableEq, Repr

/-- A response as a caller sees it. -/
structure ResponseFields where
  minorVersion : Int32
  status : Int32
  msg : List UInt8
  headers : List Field
  deriving DecidableEq, Repr

/-- One slot of the header array. -/
def headerField (base : ℕ) (buf : List UInt8) (h : PhrHeader) : Field where
  name := if h.name = 0 then none else some (bytesAt base buf h.name h.nameLen)
  value := bytesAt base buf h.value h.valueLen

/-- The first `*num_headers` slots. -/
def headerFields (base : ℕ) (buf : List UInt8) (mem : HeaderMem) : List Field :=
  (List.range mem.numHeaders).map fun i => headerField base buf (mem.headers i)

def requestFields (base : ℕ) (buf : List UInt8) (mem : RequestMem) : RequestFields where
  method := bytesAt base buf mem.method mem.methodLen
  path := bytesAt base buf mem.path mem.pathLen
  minorVersion := mem.minorVersion
  headers := headerFields base buf mem.block

def responseFields (base : ℕ) (buf : List UInt8) (mem : ResponseMem) : ResponseFields where
  minorVersion := mem.minorVersion
  status := mem.status
  msg := bytesAt base buf mem.msg mem.msgLen
  headers := headerFields base buf mem.block

/-! ### What a head says -/

/-- A text without the blanks at its end. -/
def trimEnd (t : List UInt8) : List UInt8 := t.rdropWhile fun b => decide (IsBlank b)

/-- A text without the blanks around it. -/
def trim (t : List UInt8) : List UInt8 := trimEnd (t.dropWhile fun b => decide (IsBlank b))

/-- What a line says. -/
def HeaderLine.field : HeaderLine → Field
  | named name text _ _ _ => ⟨some name, trim text⟩
  | continued text _ _ _ => ⟨none, trimEnd text⟩

def HeaderBlock.fields (block : HeaderBlock) : List Field := block.lines.map HeaderLine.field

def RequestHead.fields (head : RequestHead) : RequestFields where
  method := head.method
  path := head.path
  minorVersion := digit head.version
  headers := head.block.fields

def ResponseHead.fields (head : ResponseHead) : ResponseFields where
  minorVersion := digit head.version
  status := head.status
  msg := head.reason.dropWhile fun b => decide (b = SP)
  headers := head.block.fields

/-! ### Spans -/

section

variable {base p n : ℕ} {buf u v w : List UInt8}

theorem bytesAt_add (base : ℕ) (buf : List UInt8) (off len : ℕ) :
    bytesAt base buf (base + off) len = (buf.drop off).take len := by
  rw [bytesAt, Nat.add_sub_cancel_left]

/-- A part of what stands at `p` lies behind the parts in front of it. -/
theorem drop_middle (h : buf.drop p = u ++ v) : buf.drop (p + u.length) = v :=
  drop_add_of_drop h

theorem take_front (h : buf.drop p = u ++ v) : (buf.drop p).take u.length = u := by
  rw [h, List.take_left]

theorem bytesAt_of_drop (h : buf.drop p = u ++ v) : bytesAt base buf (base + p) u.length = u := by
  rw [bytesAt_add, take_front h]

/-- What a run leaves over lies at the end. -/
theorem drop_dropWhile (f : UInt8 → Bool) (t : List UInt8) :
    t.drop (t.length - (t.dropWhile f).length) = t.dropWhile f :=
  (List.suffix_iff_eq_drop.mp (List.dropWhile_suffix f)).symm

theorem drop_kept (f : UInt8 → Bool) {t : List UInt8} (h : buf.drop p = t ++ v) :
    buf.drop (p + (t.length - (t.dropWhile f).length)) = t.dropWhile f ++ v := by
  rw [← List.drop_drop, h, List.drop_append_of_le_length (Nat.sub_le _ _), drop_dropWhile]

theorem take_trimEnd {t : List UInt8} (h : buf.drop p = t ++ v) :
    (buf.drop p).take (trimEnd t).length = trimEnd t := by
  obtain ⟨w, hw⟩ := List.rdropWhile_prefix (fun b => decide (IsBlank b)) t
  have hsplit : t = trimEnd t ++ w := hw.symm
  rw [hsplit, List.append_assoc] at h
  exact take_front h

end

/-! ### Slots -/

/-- What the spans of a slot denote. -/
def slotField (buf : List UInt8) (s : Option Span × Span) : Field where
  name := s.1.map fun t => (buf.drop t.1).take t.2
  value := (buf.drop s.2.1).take s.2.2

/-- A slot of the header array. -/
def slotHeader (base : ℕ) (s : Option Span × Span) : PhrHeader where
  name := s.1.elim 0 fun t => base + t.1
  nameLen := s.1.elim 0 fun t => t.2
  value := base + s.2.1
  valueLen := s.2.2

section

variable {base p : ℕ} {buf r : List UInt8}

theorem headerField_slot (hbase : base ≠ 0) (s : Option Span × Span) :
    headerField base buf (slotHeader base s) = slotField buf s := by
  obtain ⟨name, value⟩ := s
  cases name with
  | none => simp [headerField, slotHeader, slotField, bytesAt_add]
  | some t => simp [headerField, slotHeader, slotField, bytesAt_add, hbase]

/-- The slot of a line denotes what the line says. -/
theorem slotField_line (line : HeaderLine) (h : buf.drop p = line.bytes ++ r) :
    slotField buf (line.slot p) = line.field := by
  cases line with
  | named name text e hname htext =>
      simp only [HeaderLine.bytes, List.append_assoc, List.cons_append] at h
      have htail : buf.drop (p + name.length + 1) = text ++ (e.bytes ++ r) :=
        drop_succ_of_drop (drop_middle h)
      have hkept := drop_kept (fun b => decide (IsBlank b)) htail
      simp only [HeaderLine.slot, HeaderLine.field, slotField, Option.map_some, take_front h]
      exact congrArg (Field.mk (some name)) (take_trimEnd hkept)
  | continued text e htext hblank =>
      simp only [HeaderLine.bytes, List.append_assoc] at h
      exact congrArg (Field.mk none) (take_trimEnd h)

theorem slotField_slots (lines : List HeaderLine) (h : buf.drop p = linesBytes lines ++ r) :
    (slots p lines).map (slotField buf) = lines.map HeaderLine.field := by
  induction lines generalizing p with
  | nil => rfl
  | cons line lines ih =>
      rw [linesBytes_cons, List.append_assoc] at h
      rw [slots, List.map_cons, List.map_cons, slotField_line line h, ih (drop_middle h)]

end

/-! ### The header array -/

section

variable {base : ℕ}

open Original

theorem publish_slot (base : ℕ) (mem : HeaderMem) (i : ℕ) (s : Option Span × Span) :
    publishHeader base (publishHeader base mem (.name i s.1)) (.value i s.2) =
      ⟨Function.update mem.headers i (slotHeader base s), i + 1⟩ := by
  obtain ⟨name, value⟩ := s
  cases name with
  | none => simp [publishHeader, slotHeader]
  | some t => simp [publishHeader, slotHeader]

theorem numHeaders_slotEvents (ss : List (Option Span × Span)) {i : ℕ} {mem : HeaderMem}
    (hmem : mem.numHeaders = i) :
    ((slotEvents i ss).foldl (publishHeader base) mem).numHeaders = i + ss.length := by
  induction ss generalizing i mem with
  | nil => exact hmem
  | cons s ss ih =>
      rw [slotEvents, List.foldl_cons, List.foldl_cons, publish_slot, ih (i := i + 1) rfl,
        List.length_cons]
      omega

/-- The array after slots have been filled from the `i`-th on. -/
theorem headers_slotEvents (ss : List (Option Span × Span)) (i : ℕ) (mem : HeaderMem) (j : ℕ) :
    ((slotEvents i ss).foldl (publishHeader base) mem).headers j =
      if h : i ≤ j ∧ j - i < ss.length then slotHeader base (ss.get ⟨j - i, h.2⟩)
      else mem.headers j := by
  induction ss generalizing i mem with
  | nil => simp [slotEvents]
  | cons s ss ih =>
      rw [slotEvents, List.foldl_cons, List.foldl_cons, publish_slot, ih (i + 1)]
      rcases Nat.lt_trichotomy j i with hlt | rfl | hgt
      · rw [dif_neg (by omega), dif_neg (by omega)]
        exact Function.update_of_ne hlt.ne _ _
      · rw [dif_neg (by omega), dif_pos ⟨le_rfl, by simp⟩]
        simp
      · obtain ⟨k, rfl⟩ : ∃ k, j = i + 1 + k := ⟨j - (i + 1), by omega⟩
        have hk : i + 1 + k - i = k + 1 := by omega
        have hk' : i + 1 + k - (i + 1) = k := by omega
        simp only [hk, hk', List.length_cons, Nat.add_lt_add_iff_right]
        split
        · rw [dif_pos ⟨by omega, ‹_ ∧ _›.2⟩]
          rfl
        · rename_i hout
          rw [dif_neg fun h => hout ⟨by omega, h.2⟩]
          exact Function.update_of_ne (by omega) _ _

theorem headerFields_slotEvents {buf : List UInt8} (hbase : base ≠ 0)
    (ss : List (Option Span × Span)) {mem : HeaderMem} (hmem : mem.numHeaders = 0) :
    headerFields base buf ((slotEvents 0 ss).foldl (publishHeader base) mem) =
      ss.map (slotField buf) := by
  unfold headerFields
  rw [numHeaders_slotEvents ss hmem, Nat.zero_add]
  refine List.ext_getElem (by simp) fun j hj _ => ?_
  have hlt : j < ss.length := by simpa using hj
  simp [headers_slotEvents, hlt, headerField_slot hbase]

/-- A block is read back line by line. -/
theorem headerFields_block {buf r : List UInt8} {p : ℕ} (hbase : base ≠ 0) (block : HeaderBlock)
    (h : buf.drop p = block.bytes ++ r) {mem : HeaderMem} (hmem : mem.numHeaders = 0) :
    headerFields base buf ((slotEvents 0 (slots p block.lines)).foldl (publishHeader base) mem) =
      block.fields := by
  rw [HeaderBlock.bytes, List.append_assoc] at h
  rw [headerFields_slotEvents hbase _ hmem, slotField_slots block.lines h]
  rfl

/-! ### Heads -/

theorem foldl_request_headers (l : List HeaderEvent) (mem : RequestMem) :
    (l.map Event.header).foldl (Request.publish base) mem =
      { mem with block := l.foldl (publishHeader base) mem.block } := by
  induction l generalizing mem with
  | nil => rfl
  | cons e l ih => exact ih _

theorem foldl_response_headers (l : List HeaderEvent) (mem : ResponseMem) :
    (l.map Event.header).foldl (Response.publish base) mem =
      { mem with block := l.foldl (publishHeader base) mem.block } := by
  induction l generalizing mem with
  | nil => rfl
  | cons e l ih => exact ih _

/-- Where the parts of a request head lie. -/
theorem RequestHead.drop_parts (head : RequestHead) (r : List UInt8) :
    (∃ v, (head.bytes ++ r).drop head.methodStart = head.method ++ v) ∧
      (∃ v, (head.bytes ++ r).drop head.pathStart = head.path ++ v) ∧
      (head.bytes ++ r).drop head.blockStart = head.block.bytes ++ r := by
  have h₀ : (head.bytes ++ r).drop 0 = head.bytes ++ r := rfl
  conv_rhs at h₀ => simp only [RequestHead.bytes, List.append_assoc]
  have h₁ := drop_middle h₀
  have h₂ := drop_middle (drop_middle h₁)
  have h₃ := drop_middle (drop_middle (drop_middle (drop_middle h₂)))
  rw [Nat.zero_add] at h₁ h₂ h₃
  rw [length_spacesBytes] at h₂ h₃
  rw [length_spacesBytes, show (versionBytes head.version).length = 8 from rfl] at h₃
  exact ⟨⟨_, h₁⟩, ⟨_, h₂⟩, h₃⟩

/-- What is published for a request head shows the head. -/
theorem requestFields_events (hbase : base ≠ 0) (head : RequestHead) (r : List UInt8)
    {mem : RequestMem} (hmem : mem.block.numHeaders = 0) :
    requestFields base (head.bytes ++ r) (head.events.foldl (Request.publish base) mem) =
      head.fields := by
  obtain ⟨⟨v, hmethod⟩, ⟨v', hpath⟩, hblock⟩ := head.drop_parts r
  rw [RequestHead.events, List.foldl_cons, List.foldl_cons, List.foldl_cons,
    foldl_request_headers]
  simp only [requestFields, RequestHead.fields, Request.publish, bytesAt_of_drop hmethod,
    bytesAt_of_drop hpath]
  rw [headerFields_block hbase head.block hblock hmem]

/-- Where the parts of a response head lie. -/
theorem ResponseHead.drop_parts (head : ResponseHead) (r : List UInt8) :
    (∃ v, (head.bytes ++ r).drop head.reasonStart = head.reason ++ v) ∧
      (head.bytes ++ r).drop head.blockStart = head.block.bytes ++ r := by
  have h₀ : (head.bytes ++ r).drop 0 = head.bytes ++ r := rfl
  conv_rhs at h₀ => simp only [ResponseHead.bytes, List.append_assoc]
  have h₁ := drop_middle (drop_middle (drop_middle h₀))
  have h₂ := drop_middle (drop_middle h₁)
  rw [Nat.zero_add, length_spacesBytes, show (versionBytes head.version).length = 8 from rfl,
    show [head.d₁, head.d₂, head.d₃].length = 3 from rfl] at h₁ h₂
  exact ⟨⟨_, h₁⟩, h₂⟩

/-- What is published for a response head shows the head. -/
theorem responseFields_events (hbase : base ≠ 0) (head : ResponseHead) (r : List UInt8)
    {mem : ResponseMem} (hmem : mem.block.numHeaders = 0) :
    responseFields base (head.bytes ++ r) (head.events.foldl (Response.publish base) mem) =
      head.fields := by
  obtain ⟨⟨v, hreason⟩, hblock⟩ := head.drop_parts r
  have hkept := drop_kept (fun b => decide (b = SP)) hreason
  rw [ResponseHead.events, List.foldl_cons, List.foldl_cons, List.foldl_cons,
    foldl_response_headers]
  simp only [responseFields, ResponseHead.fields, Response.publish, reasonSpan,
    bytesAt_of_drop hkept]
  rw [headerFields_block hbase head.block hblock hmem]

end

end PicoHttpParser.Head
