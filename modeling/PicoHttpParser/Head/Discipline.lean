import PicoHttpParser.Lib.Keeps
import PicoHttpParser.Head.ResponseGrammar

/-!
What is written, and where it points.

The spans a parser reports lie in the buffer from left to right, and do not
touch. The slots of the sink are written one after the other, name before
value, and a name without a value is the last thing an error leaves behind.
None of this depends on the answer.
-/

namespace PicoHttpParser.Head

open Incremental Incremental.Reader

/-! ### Spans in order -/

/-- Spans from left to right that do not touch, and that end before `m`. -/
structure Spaced (m : ℕ) (ss : List Span) : Prop where
  ordered : ss.Pairwise fun s t => s.1 + s.2 < t.1
  below : ∀ s ∈ ss, s.1 + s.2 < m

namespace Spaced

variable {m k : ℕ} {ss : List Span} {s : Span}

theorem nil : Spaced m [] := ⟨.nil, nofun⟩

theorem mono (h : Spaced m ss) (hmk : m ≤ k) : Spaced k ss :=
  ⟨h.ordered, fun s hs => (h.below s hs).trans_le hmk⟩

/-- One more span, which begins where the others are over. -/
theorem concat (h : Spaced m ss) (hs : m ≤ s.1) (hk : s.1 + s.2 < k) : Spaced k (ss ++ [s]) where
  ordered := by
    refine List.pairwise_append.mpr ⟨h.ordered, List.pairwise_singleton _ s, ?_⟩
    intro t ht s' hs'
    rw [List.mem_singleton.mp hs']
    exact (h.below t ht).trans_le hs
  below t ht := by
    rcases List.mem_append.mp ht with ht | ht
    · have hbelow := h.below t ht
      omega
    · rwa [List.mem_singleton.mp ht]

end Spaced

def HeaderEvent.span : HeaderEvent → Option Span
  | .name _ s => s
  | .value _ s => some s

/-! ### Writes in order -/

/-- The first `i` headers have been written, behind the spans `before`, and
nothing ends at `m` or further right. -/
def Complete (cap : ℕ) (before : List Span) (i m : ℕ) (l : List HeaderEvent) : Prop :=
  ∃ hs, l = slotEvents 0 hs ∧ hs.length = i ∧ i ≤ cap ∧
    Spaced m (before ++ l.filterMap HeaderEvent.span)

/-- So has the name of the next one. -/
def Named (cap : ℕ) (before : List Span) (i m : ℕ) (l : List HeaderEvent) : Prop :=
  ∃ hs name, l = slotEvents 0 hs ++ [.name i name] ∧ hs.length = i ∧ i < cap ∧
    Spaced m (before ++ l.filterMap HeaderEvent.span)

/-- What an error leaves behind. -/
def Stopped (cap : ℕ) (before : List Span) (m : ℕ) (l : List HeaderEvent) : Prop :=
  ∃ i, Complete cap before i m l ∨ Named cap before i m l

section

variable {cap i m k : ℕ} {before : List Span} {l : List HeaderEvent}

theorem slotEvents_concat (j : ℕ) (hs : List (Option Span × Span)) (s : Option Span × Span) :
    slotEvents j (hs ++ [s]) =
      slotEvents j hs ++ [.name (j + hs.length) s.1, .value (j + hs.length) s.2] := by
  induction hs generalizing j with
  | nil => rfl
  | cons h hs ih =>
      rw [List.cons_append, slotEvents, ih, slotEvents, List.length_cons, Nat.add_right_comm j 1,
        Nat.add_assoc j]
      rfl

theorem Complete.mono (h : Complete cap before i m l) (hmk : m ≤ k) :
    Complete cap before i k l := by
  obtain ⟨hs, hl, hlen, hcap, hspaced⟩ := h
  exact ⟨hs, hl, hlen, hcap, hspaced.mono hmk⟩

theorem Named.mono (h : Named cap before i m l) (hmk : m ≤ k) : Named cap before i k l := by
  obtain ⟨hs, name, hl, hlen, hcap, hspaced⟩ := h
  exact ⟨hs, name, hl, hlen, hcap, hspaced.mono hmk⟩

theorem Complete.stopped (h : Complete cap before i m l) (hmk : m ≤ k) :
    Stopped cap before k l := ⟨i, .inl (h.mono hmk)⟩

theorem Named.stopped (h : Named cap before i m l) (hmk : m ≤ k) : Stopped cap before k l :=
  ⟨i, .inr (h.mono hmk)⟩

theorem Complete.le (h : Complete cap before i m l) : i ≤ cap := by
  obtain ⟨hs, -, -, hcap, -⟩ := h
  exact hcap

/-- A continuation has no name. -/
theorem Complete.continued (h : Complete cap before i m l) (hcap : i < cap) :
    Named cap before i m (l ++ [.name i none]) := by
  obtain ⟨hs, rfl, hlen, -, hspaced⟩ := h
  refine ⟨hs, none, rfl, hlen, hcap, ?_⟩
  rw [List.filterMap_append]
  show Spaced m (before ++ (_ ++ []))
  rwa [List.append_nil]

theorem Complete.named (h : Complete cap before i m l) (hcap : i < cap) {name : Span}
    (hname : m ≤ name.1) (hk : name.1 + name.2 < k) :
    Named cap before i k (l ++ [.name i (some name)]) := by
  obtain ⟨hs, rfl, hlen, -, hspaced⟩ := h
  refine ⟨hs, some name, rfl, hlen, hcap, ?_⟩
  rw [List.filterMap_append, ← List.append_assoc]
  exact hspaced.concat hname hk

theorem Named.value (h : Named cap before i m l) {v : Span} (hv : m ≤ v.1)
    (hk : v.1 + v.2 < k) : Complete cap before (i + 1) k (l ++ [.value i v]) := by
  obtain ⟨hs, name, rfl, rfl, hcap, hspaced⟩ := h
  refine ⟨hs ++ [(name, v)], ?_, by simp, hcap, ?_⟩
  · rw [slotEvents_concat, Nat.zero_add, List.append_assoc]
    rfl
  · rw [List.filterMap_append, ← List.append_assoc]
    exact hspaced.concat hv hk

end

/-! ### Parts of a head -/

section

variable {ω : Type} {buf : List UInt8} {P : ℕ → List ω → Prop} {R : List ω → Prop}

theorem keeps_span (f : UInt8 → Act) (hR : ∀ {pos l}, pos ≤ buf.length → P pos l → R l) :
    Keeps buf P (do
      let start ← position
      scan f
      let p ← position
      pure (start, p - start)) (fun s q l => P s.1 l ∧ s.1 + s.2 = q) R := by
  refine .silent (reads_span f) (silent_span f) ?_ hR
  intro pos l s q hpos hl h
  obtain ⟨-, rfl, hscan⟩ := span_done h
  exact ⟨hl, Nat.add_sub_cancel' (scanFrom_done hscan).1⟩

theorem keeps_skipPast {f : UInt8 → Act} (hmono : ∀ {p q l}, p ≤ q → P p l → P q l)
    (hR : ∀ {pos l}, pos ≤ buf.length → P (pos + 1) l → R l) :
    Keeps buf (fun pos => P (pos + 1)) (skipPast f) (fun _ => P) R := by
  refine .silent (reads_skipPast f) (silent_skipPast f) ?_ hR
  intro pos l u q hpos hl h
  exact hmono (scanFrom_done (skipPast_done h).2).1 hl

theorem keeps_silent {α : Type} {p : Reader UInt8 ω α} {k : ℕ} (hp : Reads k p) (hs : Silent p)
    (hmono : ∀ {p q l}, p ≤ q → P p l → P q l)
    (hR : ∀ {pos l}, pos ≤ buf.length → P pos l → R l) : Keeps buf P p (fun _ => P) R :=
  .silent hp hs (fun hpos hl h => hmono (hp.le hpos h) hl) hR

theorem keeps_text (hR : ∀ {pos l}, pos ≤ buf.length → P pos l → R l) :
    Keeps buf P text (fun s q l => P s.1 l ∧ s.1 + s.2.length < q) R := by
  refine .silent consumes_text.reads silent_text ?_ hR
  rintro pos l ⟨start, bytes⟩ q hpos hl h
  obtain ⟨w, r, htakes, rfl⟩ := exists_takes consumes_text.reads hpos h
  obtain ⟨-, t, e, rfl, -, hs, -⟩ := (takes_text hpos).mp htakes
  obtain ⟨rfl, rfl⟩ := Prod.mk.inj hs
  obtain ⟨b, v, he, -⟩ := e.head
  refine ⟨hl, ?_⟩
  show start + bytes.length < _
  rw [List.length_append, he, List.length_cons]
  omega

end

/-! ### The header block -/

section

variable {buf : List UInt8} {cap i : ℕ} {before : List Span}

theorem keeps_value :
    Keeps buf (Named cap before i) (value i) (fun _ => Complete cap before (i + 1))
      (Stopped cap before (buf.length + 1)) := by
  refine .bind (keeps_text fun hpos hl => hl.stopped (Nat.le_succ_of_le hpos)) fun s => .emit ?_
  rintro pos l - ⟨hl, hlt⟩
  have htrim := (List.rdropWhile_prefix (fun b => decide (IsBlank b)) s.2).length_le
  exact hl.value le_rfl (by dsimp only; omega)

theorem keeps_header (b : UInt8) (hcap : i < cap) :
    Keeps buf (Complete cap before i) (header i b) (fun _ => Complete cap before (i + 1))
      (Stopped cap before (buf.length + 1)) := by
  unfold header
  split
  · refine .bind (Q := fun _ => Named cap before i) (.emit fun _ hl => ?_) fun _ => keeps_value
    exact hl.continued hcap
  refine .bind (keeps_span _ fun hpos hl => hl.stopped (Nat.le_succ_of_le hpos)) fun s => ?_
  refine .bind (Q := fun _ q => Named cap before i (q + 1)) (.emit ?_) fun _ => ?_
  · rintro pos l - ⟨hl, rfl⟩
    exact hl.named hcap le_rfl (Nat.lt_succ_self _)
  have hstop {pos : ℕ} {l : List HeaderEvent} (hpos : pos ≤ buf.length)
      (hl : Named cap before i (pos + 1) l) : Stopped cap before (buf.length + 1) l :=
    hl.stopped (Nat.succ_le_succ hpos)
  split
  · exact .reject hstop
  · exact .bind (keeps_skipPast (fun hpq hl => hl.mono hpq) hstop) fun _ => keeps_value

theorem keeps_headerTurn (i : ℕ) :
    Keeps buf (Complete cap before i) (headerTurn cap i)
      (After (Complete cap before) fun _ q l => ∃ i, Complete cap before i q l)
      (Stopped cap before (buf.length + 1)) := by
  have hstop {pos : ℕ} {l : List HeaderEvent} (hpos : pos ≤ buf.length)
      (hl : Complete cap before i pos l) : Stopped cap before (buf.length + 1) l :=
    hl.stopped (Nat.le_succ_of_le hpos)
  refine .bind (Q := fun _ => Complete cap before i) ?_ fun b => ?_
  · refine .silent .peek .peek ?_ hstop
    intro pos l b q hpos hl h
    rw [(peek_eq_done h).2.1]
    exact hl
  split
  · exact .bind (keeps_silent consumes_eol.reads silent_eol (fun hpq hl => hl.mono hpq) hstop)
      fun _ => .pure fun _ hl => ⟨i, hl⟩
  split
  · exact .reject hstop
  · rename_i hne
    refine .assume (fun _ hl => lt_of_le_of_ne hl.le hne) fun hroom => ?_
    exact .bind (keeps_header b hroom) fun _ => .pure fun _ h => h

theorem keeps_headers :
    Keeps buf (fun pos l => Spaced pos before ∧ l = []) (headers cap)
      (fun _ q l => ∃ i, Complete cap before i q l) (Stopped cap before (buf.length + 1)) := by
  refine .weaken (.iterate (consumes_headerTurn cap) keeps_headerTurn 0) ?_
  rintro pos l - ⟨hspaced, rfl⟩
  exact ⟨[], rfl, rfl, Nat.zero_le cap, by simpa using hspaced⟩

end

/-! ### Exits -/

section

variable {S : Type} [Rust.HeaderSink S]

/-- `set_name` or `set_value`. -/
def write (sink : S) : HeaderEvent → S
  | .name i name => Rust.HeaderSink.setName sink i name
  | .value i v => Rust.HeaderSink.setValue sink i v

/-- The writes of headers, and of one more name. -/
def writes (hs : List (Option Span × Span)) (extra : Option (Option Span)) : List HeaderEvent :=
  slotEvents 0 hs ++ (extra.map (.name hs.length)).toList

/-- Headers with one more name, behind other outputs, in a buffer of length
`len`. The position consumed is `stop`, if the exit is no error. -/
structure Disciplined (len cap : ℕ) (outputs : List Span) (stop : Option ℕ)
    (hs : List (Option Span × Span)) (extra : Option (Option Span)) : Prop where
  room : hs.length ≤ cap
  pending : extra ≠ none → stop = none ∧ hs.length < cap
  ordered : (outputs ++ (writes hs extra).filterMap HeaderEvent.span).Pairwise fun s t =>
    s.1 + s.2 < t.1
  inside : ∀ s ∈ outputs ++ (writes hs extra).filterMap HeaderEvent.span, s.1 + s.2 ≤ len
  consumed : ∀ n, stop = some n → n ≤ len ∧
    ∀ s ∈ outputs ++ (writes hs extra).filterMap HeaderEvent.span, s.1 + s.2 ≤ n

/-- What an exit leaves behind: the writes that have been made to the sink, and
the count of the completed headers. -/
def Left (len : ℕ) (sink : S) (outputs : List Span) (block : S × ℕ) (stop : Option ℕ) : Prop :=
  ∃ hs extra, block = ((writes hs extra).foldl write sink, hs.length) ∧
    Disciplined len (Rust.HeaderSink.capacity sink) outputs stop hs extra

/-- A result without a panic, which meets the condition on either exit. -/
def Exits {σ : Type} (Q : Option ℕ → σ → Prop) : EStateM.Result Rust.Fault σ ℕ → Prop
  | .ok n st => Q (some n) st
  | .error (.err _) st => Q none st
  | .error .panic _ => False

theorem foldl_publishHeader (l : List HeaderEvent) (st : S × ℕ) :
    (l.foldl Port.publishHeader st).1 = l.foldl write st.1 := by
  induction l generalizing st with
  | nil => rfl
  | cons e l ih =>
      rw [List.foldl_cons, List.foldl_cons, ih]
      cases e <;> rfl

theorem block_eq (sink : S) (hs : List (Option Span × Span)) (extra : Option (Option Span)) :
    (writes hs extra).foldl Port.publishHeader (sink, 0) =
      ((writes hs extra).foldl write sink, hs.length) := by
  refine Prod.ext (foldl_publishHeader _ _) ?_
  rw [writes, List.foldl_append]
  have hcount := count_slotEvents hs (sink, 0) rfl
  rw [Nat.zero_add] at hcount
  cases extra with
  | none => exact hcount
  | some name => exact hcount

variable {len i q : ℕ} {sink : S} {outputs : List Span} {l : List HeaderEvent}

theorem Spaced.left (h : Spaced (len + 1) outputs) : Left len sink outputs (sink, 0) none := by
  refine ⟨[], none, rfl, Nat.zero_le _, fun h => absurd rfl h, ?_, ?_, nofun⟩
  · exact (List.append_nil outputs).symm ▸ h.ordered
  · rw [show writes [] none = [] from rfl, List.filterMap_nil, List.append_nil]
    exact fun s hs => Nat.le_of_lt_succ (h.below s hs)

theorem Complete.left (h : Complete (Rust.HeaderSink.capacity sink) outputs i q l)
    (hq : q ≤ len) : Left len sink outputs (l.foldl Port.publishHeader (sink, 0)) (some q) := by
  obtain ⟨hs, rfl, rfl, hroom, hspaced⟩ := h
  have hl : slotEvents 0 hs = writes hs none := (List.append_nil _).symm
  rw [hl] at hspaced ⊢
  refine ⟨hs, none, block_eq sink hs none, hroom, fun h => absurd rfl h, hspaced.ordered, ?_, ?_⟩
  · exact fun s hs => (hspaced.below s hs).le.trans hq
  · rintro n ⟨⟩
    exact ⟨hq, fun s hs => (hspaced.below s hs).le⟩

theorem Stopped.left (h : Stopped (Rust.HeaderSink.capacity sink) outputs (len + 1) l) :
    Left len sink outputs (l.foldl Port.publishHeader (sink, 0)) none := by
  obtain ⟨i, ⟨hs, rfl, rfl, hroom, hspaced⟩ | ⟨hs, name, rfl, rfl, hroom, hspaced⟩⟩ := h
  · have hl : slotEvents 0 hs = writes hs none := (List.append_nil _).symm
    rw [hl] at hspaced ⊢
    exact ⟨hs, none, block_eq sink hs none, hroom, fun h => absurd rfl h, hspaced.ordered,
      fun s hs => Nat.le_of_lt_succ (hspaced.below s hs), nofun⟩
  · exact ⟨hs, some name, block_eq sink hs (some name), hroom.le, fun _ => ⟨rfl, hroom⟩,
      hspaced.ordered, fun s hs => Nat.le_of_lt_succ (hspaced.below s hs), nofun⟩

end

/-! ### Heads -/

/-- The events so far, and the spans among them, which end before `m`. -/
def Stage (ss : List Span) (l₀ : List Event) (m : ℕ) (l : List Event) : Prop :=
  Spaced m ss ∧ l = l₀

theorem Stage.mono {ss : List Span} {l₀ l : List Event} {m k : ℕ} (hmk : m ≤ k)
    (h : Stage ss l₀ m l) : Stage ss l₀ k l := ⟨h.1.mono hmk, h.2⟩

section

variable {S : Type} [Rust.HeaderSink S] {buf : List UInt8} {sink : S}

/-- The spans of a request line, as far as they have been reported. -/
def requestSpans (prog : Rust.Request.Progress) : List Span :=
  prog.method.toList ++ prog.path.toList

/-- What the events of a request leave behind. -/
def RequestLeft (len : ℕ) (sink : S) (stop : Option ℕ) (l : List Event) : Prop :=
  Left len sink (requestSpans (l.foldl Port.Request.publish (sink, {})).2)
    (Rust.Request.headerState (l.foldl Port.Request.publish (sink, {}))) stop

theorem requestLeft_headers {len : ℕ} {stop : Option ℕ} {s t : Span} {v : Int32}
    {l : List HeaderEvent}
    (h : Left len sink [s, t] (l.foldl Port.publishHeader (sink, 0)) stop) :
    RequestLeft len sink stop ([.method s, .path t, .version v] ++ l.map .header) := by
  rw [RequestLeft, List.foldl_append, foldl_requestHeaders]
  exact h

theorem keeps_request :
    Keeps buf (fun _ l => l = []) (request (Rust.HeaderSink.capacity sink))
      (fun _ q => RequestLeft buf.length sink (some q)) (RequestLeft buf.length sink none) := by
  have hnone {l : List Event} (hl : l = []) : RequestLeft buf.length sink none l := by
    subst hl
    exact Spaced.nil.left
  refine .bind (Q := fun _ _ l => l = []) ?_ fun _ => ?_
  · exact .silent reads_emptyLine silent_emptyLine (fun _ hl _ => hl) fun _ hl => hnone hl
  refine .bind (keeps_span _ fun _ hl => hnone hl) fun s => ?_
  have hmethod {m : ℕ} {l : List Event} (hm : m ≤ buf.length + 1)
      (hl : Stage [s] [.method s] m l) : RequestLeft buf.length sink none l := by
    obtain ⟨hspaced, rfl⟩ := hl
    exact (hspaced.mono hm).left
  refine .bind (Q := fun _ q => Stage [s] [.method s] (q + 1)) (.emit ?_) fun _ => ?_
  · rintro pos l - ⟨rfl, rfl⟩
    exact ⟨Spaced.nil.concat (Nat.zero_le _) (Nat.lt_succ_self _), rfl⟩
  refine .bind (keeps_skipPast Stage.mono fun hpos => hmethod (Nat.succ_le_succ hpos)) fun _ => ?_
  refine .bind (keeps_span _ fun hpos => hmethod (Nat.le_succ_of_le hpos)) fun t => ?_
  have hpath {m : ℕ} {l : List Event} (hm : m ≤ buf.length + 1)
      (hl : Stage [s, t] [.method s, .path t] m l) : RequestLeft buf.length sink none l := by
    obtain ⟨hspaced, rfl⟩ := hl
    exact (hspaced.mono hm).left
  refine .bind (Q := fun _ q => Stage [s, t] [.method s, .path t] (q + 1)) (.emit ?_) fun _ => ?_
  · rintro pos l - ⟨⟨hspaced, rfl⟩, rfl⟩
    exact ⟨hspaced.concat le_rfl (Nat.lt_succ_self _), rfl⟩
  refine .bind (keeps_skipPast Stage.mono fun hpos => hpath (Nat.succ_le_succ hpos)) fun _ => ?_
  split
  · exact .reject fun hpos => hpath (Nat.le_succ_of_le hpos)
  refine .bind (keeps_silent reads_version silent_version Stage.mono fun hpos =>
    hpath (Nat.le_succ_of_le hpos)) fun v => ?_
  let line : List Event := [.method s, .path t, .version v]
  refine .bind (Q := fun _ => Stage [s, t] line) (.emit ?_) fun _ => ?_
  · rintro pos l - ⟨hspaced, rfl⟩
    exact ⟨hspaced, rfl⟩
  refine .bind (keeps_silent consumes_eol.reads silent_eol Stage.mono ?_) fun _ => ?_
  · rintro pos l hpos ⟨hspaced, rfl⟩
    exact (hspaced.mono (Nat.le_succ_of_le hpos)).left
  refine (Keeps.mapEvents line keeps_headers).imp ?_ ?_
  · rintro u q l hq ⟨l', rfl, i, hl'⟩
    exact requestLeft_headers (hl'.left hq)
  · rintro l ⟨l', rfl, hl'⟩
    exact requestLeft_headers hl'.left

/-- The spans of a status line, as far as they have been reported. -/
def responseSpans (prog : Rust.Response.Progress) : List Span := prog.msg.toList

/-- What the events of a response leave behind. -/
def ResponseLeft (len : ℕ) (sink : S) (stop : Option ℕ) (l : List Event) : Prop :=
  Left len sink (responseSpans (l.foldl Port.Response.publish (sink, {})).2)
    (Rust.Response.headerState (l.foldl Port.Response.publish (sink, {}))) stop

theorem foldl_mapStatus (l : List Int32) (st : S × Rust.Response.Progress) :
    ∃ s, (l.map Event.status).foldl Port.Response.publish st =
      (st.1, { st.2 with status := s }) := by
  induction l generalizing st with
  | nil => exact ⟨st.2.status, rfl⟩
  | cons v l ih =>
      obtain ⟨s, h⟩ := ih (Port.Response.publish st (.status v))
      exact ⟨s, h⟩

/-- A version and the digits of a status are no spans. -/
theorem foldl_opening (sink : S) (v : Int32) (l : List Int32) :
    ∃ s, ([.version v] ++ l.map .status : List Event).foldl Port.Response.publish (sink, {}) =
      (sink, { version := some v, status := s }) := by
  rw [List.foldl_append]
  exact foldl_mapStatus l _

theorem keeps_reason {l₀ : List Event} {R : List Event → Prop} {start : ℕ} {bytes : List UInt8}
    (hR : ∀ {s pos l}, pos ≤ buf.length → Stage [s] (l₀ ++ [.msg s]) pos l → R l) :
    Keeps buf (fun q l => Stage [] l₀ start l ∧ start + bytes.length < q) (reason start bytes)
      (fun _ q l => ∃ s, Stage [s] (l₀ ++ [.msg s]) q l) R := by
  have hmsg (s : Span) {q : ℕ} {l : List Event} (hs : s.1 + s.2 ≤ start + bytes.length)
      (h : Stage [] l₀ start l ∧ start + bytes.length < q) :
      Stage [s] (l₀ ++ [.msg s]) q (l ++ [.msg s]) := by
    obtain ⟨⟨-, rfl⟩, hlt⟩ := h
    exact ⟨Spaced.nil.concat (Nat.zero_le _) (hs.trans_lt hlt), rfl⟩
  cases bytes with
  | nil => exact .emit fun _ h => ⟨_, hmsg (start, 0) le_rfl h⟩
  | cons b bytes =>
      unfold reason
      dsimp only
      split
      · refine .emit fun _ h => ⟨_, hmsg _ ?_ h⟩
        have hkept := ((b :: bytes).dropWhile_sublist fun b => decide (b = SP)).length_le
        dsimp only
        omega
      · refine .bind (Q := fun _ => Stage _ (l₀ ++ [.msg (start, (b :: bytes).length)]))
          (.emit fun _ h => hmsg _ le_rfl h) fun _ => .reject hR

theorem keeps_response :
    Keeps buf (fun _ l => l = []) (response (Rust.HeaderSink.capacity sink))
      (fun _ q => ResponseLeft buf.length sink (some q)) (ResponseLeft buf.length sink none) := by
  refine .bind (Q := fun _ _ l => l = []) ?_ fun v => ?_
  · refine .silent reads_version silent_version (fun _ hl _ => hl) ?_
    rintro pos l - rfl
    exact Spaced.nil.left
  have hversion {pos : ℕ} {l : List Event} (_ : pos ≤ buf.length)
      (hl : Stage [] [.version v] pos l) : ResponseLeft buf.length sink none l := by
    obtain ⟨-, rfl⟩ := hl
    exact Spaced.nil.left
  refine .bind (Q := fun _ => Stage [] [.version v]) (.emit fun _ hl => ⟨.nil, by rw [hl]; rfl⟩)
    fun _ => ?_
  refine .bind (keeps_silent .peek .peek Stage.mono hversion) fun b => ?_
  split
  · exact .reject hversion
  refine .bind (Q := fun _ => Stage [] [.version v]) ?_ fun _ => ?_
  · exact .silent (reads_skipPast _) (silent_skipPast _) (fun _ hl _ => ⟨.nil, hl.2⟩) hversion
  have hopening {l' : List Int32} {pos : ℕ} {l : List Event} (_ : pos ≤ buf.length)
      (hl : Stage [] ([.version v] ++ l'.map .status) pos l) :
      ResponseLeft buf.length sink none l := by
    obtain ⟨-, rfl⟩ := hl
    obtain ⟨s, h⟩ := foldl_opening sink v l'
    rw [ResponseLeft, h]
    exact Spaced.nil.left
  refine .bind (Q := fun _ pos l =>
    ∃ l' : List Int32, Stage [] ([.version v] ++ l'.map .status) pos l) ?_ fun _ =>
      .exists_left fun l' => ?_
  · have hstatus : Keeps buf (fun _ l => True ∧ l = []) status (fun _ _ _ => True) fun _ => True :=
      .trivial reads_status
    refine ((hstatus.mapEvents [.version v]).imp ?_ ?_).weaken fun _ hl => ⟨True.intro, hl.2⟩
    · rintro u q l - ⟨l', rfl, -⟩
      exact ⟨l', .nil, rfl⟩
    · rintro l ⟨l', rfl, -⟩
      exact hopening (Nat.zero_le _) ⟨.nil, rfl⟩
  refine .bind (keeps_text hopening) fun ⟨start, bytes⟩ => ?_
  have hleft {stop : Option ℕ} {s : Span} {l : List HeaderEvent}
      (h : Left buf.length sink [s] (l.foldl Port.publishHeader (sink, 0)) stop) :
      ResponseLeft buf.length sink stop
        ([.version v] ++ l'.map .status ++ [.msg s] ++ l.map .header) := by
    obtain ⟨c, hc⟩ := foldl_opening sink v l'
    rw [ResponseLeft, List.foldl_append, List.foldl_append, hc, foldl_responseHeaders]
    exact h
  refine .bind (keeps_reason ?_) fun _ => .exists_left fun s => ?_
  · rintro s pos l hpos ⟨hspaced, rfl⟩
    have h := hleft (l := []) (hspaced.mono (Nat.le_succ_of_le hpos)).left
    rwa [List.map_nil, List.append_nil] at h
  refine (Keeps.mapEvents _ keeps_headers).imp ?_ ?_
  · rintro u q l hq ⟨l', rfl, i, hl'⟩
    exact hleft (hl'.left hq)
  · rintro l ⟨l', rfl, hl'⟩
    exact hleft hl'.left

end

/-! ### Calls -/

section

variable {σ ω : Type} {publish : σ → ω → σ} {Q : Option ℕ → σ → Prop} {st : σ}
  {buf : List UInt8} {pos : ℕ}

theorem exits_run {P : ℕ → List ω → Prop} {p : Reader UInt8 ω Unit}
    (h : Keeps buf P p (fun _ q l => Q (some q) (l.foldl publish st))
      fun l => Q none (l.foldl publish st)) (hpos : pos ≤ buf.length) (hP : P pos []) :
    Exits Q ((realize publish p buf pos >>= fun r => pure r.2 : EStateM Rust.Fault σ ℕ) st) := by
  have hmeets := h.meets hpos hP
  rw [run_realize]
  obtain ⟨u, q, l, hr⟩ | ⟨l, hr⟩ | ⟨l, hr⟩ := cases_read p buf pos
  · rw [hr] at hmeets ⊢
    exact hmeets.2
  · rw [hr] at hmeets ⊢
    exact hmeets
  · rw [hr] at hmeets ⊢
    exact hmeets

/-- The loop of `is_complete` indexes nothing it has not asked for. -/
theorem isCompleteFrom_ne_panic (buf : List UInt8) (pos retCnt : ℕ) :
    Rust.isCompleteFrom buf pos retCnt ≠ .error .panic := by
  fun_induction Rust.isCompleteFrom buf pos retCnt with
  | case4 _ _ _ _ _ ih => exact ih
  | case7 _ _ _ _ _ ih => exact ih
  | case8 _ _ _ _ _ _ ih => exact ih
  | _ => nofun

theorem exits_gated {x : EStateM Rust.Fault σ ℕ} (hst : Q none st) (hx : Exits Q (x st))
    (lastLen : ℕ) :
    Exits Q ((do lift (if lastLen ≠ 0 then Rust.isComplete buf lastLen else .ok ())
                 x : EStateM Rust.Fault σ ℕ) st) := by
  have hgate : (if lastLen ≠ 0 then Rust.isComplete buf lastLen else .ok () : Rust.Res Unit) ≠
      .error .panic := by
    split
    · exact isCompleteFrom_ne_panic buf _ _
    · nofun
  generalize (if lastLen ≠ 0 then Rust.isComplete buf lastLen else .ok () : Rust.Res Unit) =
    gate at hgate ⊢
  show Exits Q (EStateM.bind _ _ st)
  match gate, hgate with
  | .ok _, _ => exact hx
  | .error (.err _), _ => exact hst
  | .error .panic, h => exact absurd rfl h

end

/-- No call of a head parser panics. Whether it succeeds or not, the sink has
been written slot by slot, as far as there is room, and the spans reported lie
in the buffer one behind the other. -/
theorem sink_discipline {S : Type} [Rust.HeaderSink S] (buf : List UInt8) (sink : S)
    (lastLen : ℕ) :
    Exits (fun stop st =>
        Left buf.length sink (requestSpans st.2) (Rust.Request.headerState st) stop)
      (Rust.Request.parseRequest buf lastLen (sink, {})) ∧
    Exits (fun stop st =>
        Left buf.length sink (responseSpans st.2) (Rust.Response.headerState st) stop)
      (Rust.Response.parseResponse buf lastLen (sink, {})) ∧
    ∀ pos, Exits (fun stop st => Left buf.length sink [] st stop)
      ((do lift (if lastLen ≠ 0 then Rust.isComplete buf lastLen else .ok ())
           Rust.parseHeaders buf pos : EStateM Rust.Fault (S × ℕ) ℕ) (sink, 0)) := by
  refine ⟨?_, ?_, fun pos => ?_⟩
  · rw [Port.Request.parseRequest_eq]
    exact exits_gated Spaced.nil.left (exits_run keeps_request (Nat.zero_le _) rfl) lastLen
  · rw [Port.Response.parseResponse_eq]
    exact exits_gated Spaced.nil.left (exits_run keeps_response (Nat.zero_le _) rfl) lastLen
  · refine exits_gated Spaced.nil.left ?_ lastLen
    rw [Port.parseHeaders_eq]
    rcases Nat.lt_or_ge buf.length pos with hpos | hpos
    · rw [run_realize, read_headers_beyond _ hpos]
      exact Spaced.nil.left
    · refine exits_run (keeps_headers.imp ?_ Stopped.left) hpos ⟨.nil, rfl⟩
      rintro u q l hq ⟨i, hl⟩
      exact hl.left hq

end PicoHttpParser.Head
