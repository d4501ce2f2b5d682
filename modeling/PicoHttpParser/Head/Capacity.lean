import PicoHttpParser.Lib.Cut
import PicoHttpParser.Head.Discipline

/-!
What the capacity of the header array decides.

The array is asked about once per header, behind the test for the blank line
and before the line is parsed. So a parser with less room does what one with
more room does, up to the first header there is no room for, and there it
gives up: nothing it has reported by then is different.
-/

namespace PicoHttpParser.Head

open Incremental Incremental.Reader

/-! ### Two capacities, one buffer -/

/-- The events of `c` headers, which the events `l'` begin with. -/
def Full (c : ℕ) (l l' : List HeaderEvent) : Prop :=
  ∃ hs, hs.length = c ∧ l = slotEvents 0 hs ∧ l <+: l'

/-- The same first line, and then the events of `c` headers, which those of the
other list begin with. -/
def FullBehind (IsLine : List Event → Prop) (c : ℕ) (l l' : List Event) : Prop :=
  ∃ line h h', IsLine line ∧ l = line ++ h.map .header ∧ l' = line ++ h'.map .header ∧ Full c h h'

def IsRequestLine (l : List Event) : Prop := ∃ s t v, l = [.method s, .path t, .version v]

def IsStatusLine (l : List Event) : Prop :=
  ∃ (v : Int32) (ds : List Int32) (s : Span), l = [.version v] ++ ds.map .status ++ [.msg s]

section

variable {buf : List UInt8} {pos c c' i : ℕ}

theorem Full.append {l l' : List HeaderEvent} (h : Full c l l') (x : List HeaderEvent) :
    Full c l (l' ++ x) := by
  obtain ⟨hs, hlen, hl, hprefix⟩ := h
  exact ⟨hs, hlen, hl, hprefix.trans (List.prefix_append l' x)⟩

/-- With room for the header at hand two turns are the same turn. Without it
the first one gives up, unless the block is over. -/
theorem cut_headerTurn (hcc : c ≤ c') {l : List HeaderEvent} (hpos : pos ≤ buf.length)
    (h : Complete c [] i pos l) : Cut (Full c) l (headerTurn c i) (headerTurn c' i) buf pos := by
  refine .bind_silent .peek .peek hpos fun b q _ => ?_
  split
  · exact .refl _
  obtain ⟨hs, rfl, rfl, hle, -⟩ := h
  rcases hle.lt_or_eq with hlt | heq
  · rw [if_neg hlt.ne, if_neg (hlt.trans_le hcc).ne]
    exact .refl _
  · rw [if_pos heq]
    refine .inr ⟨[], rfl, hs, heq, List.append_nil _, ?_⟩
    rw [List.append_nil]
    exact List.prefix_append _ _

theorem cut_headers (hcc : c ≤ c') (hpos : pos ≤ buf.length) :
    Cut (Full c) [] (headers c) (headers c') buf pos := by
  refine .iterate (I := Complete c []) (consumes_headerTurn c) (consumes_headerTurn c')
    keeps_headerTurn (fun _ _ x h => h.append x) (fun i pos l => cut_headerTurn hcc) 0 hpos ?_
  exact ⟨[], rfl, rfl, Nat.zero_le c, .nil⟩

theorem cut_mapHeaders (hcc : c ≤ c') (hpos : pos ≤ buf.length) {IsLine : List Event → Prop}
    {line : List Event} (hline : IsLine line) :
    Cut (FullBehind IsLine c) line (mapEvents .header (headers c)) (mapEvents .header (headers c'))
      buf pos :=
  .mapEvents (cut_headers hcc hpos) fun h h' hfull => ⟨line, h, h', hline, rfl, rfl, hfull⟩

/-- The request line is read alike, and so are its events. -/
theorem cut_request (hcc : c ≤ c') :
    Cut (FullBehind IsRequestLine c) [] (request c) (request c') buf 0 := by
  refine .bind_silent reads_emptyLine silent_emptyLine (Nat.zero_le _) fun _ _ hpos => ?_
  refine .bind_silent (reads_token SP) (silent_token SP) hpos fun s _ hpos => ?_
  refine .bind_emit (.bind_silent (reads_skipPast _) (silent_skipPast _) hpos fun _ _ hpos => ?_)
  refine .bind_silent reads_target silent_target hpos fun t _ hpos => ?_
  refine .bind_emit (.bind_silent (reads_skipPast _) (silent_skipPast _) hpos fun _ _ hpos => ?_)
  split
  · exact .refl _
  refine .bind_silent reads_version silent_version hpos fun v _ hpos => ?_
  refine .bind_emit (.bind_silent consumes_eol.reads silent_eol hpos fun _ _ hpos => ?_)
  exact cut_mapHeaders hcc hpos ⟨s, t, v, rfl⟩

/-- The status line is read alike, and so are its events. -/
theorem cut_response (hcc : c ≤ c') :
    Cut (FullBehind IsStatusLine c) [] (response c) (response c') buf 0 := by
  refine .bind_silent reads_version silent_version (Nat.zero_le _) fun v _ hpos => ?_
  refine .bind_emit (.bind_silent .peek .peek hpos fun b _ hpos => ?_)
  split
  · exact .refl _
  refine .bind_silent (reads_skipPast _) (silent_skipPast _) hpos fun _ _ hpos => ?_
  refine .bind (.mapEvents _ reads_status) hpos fun _ _ l hpos hstatus => ?_
  obtain ⟨-, rfl⟩ := Prod.mk.inj hstatus
  refine .bind_silent consumes_text.reads silent_text hpos fun text _ hpos => ?_
  refine .bind (reads_reason _ _) hpos fun _ _ l hpos hreason => ?_
  obtain ⟨-, s, rfl⟩ := reason_done hreason
  exact cut_mapHeaders hcc hpos ⟨v, _, s, rfl⟩

end

/-! ### What a run shows -/

section

variable {P O ω : Type}

/-- What a run reports, and the writes it makes to the sink. -/
def reported (st : LogSink × P) : P × List HeaderEvent := (st.2, st.1.writes)

/-- How a run ends, with what it has reported by then. -/
def shown : EStateM.Result Rust.Fault (LogSink × P) ℕ → Except Rust.Fault ℕ × P × List HeaderEvent
  | .ok n st => (.ok n, reported st)
  | .error e st => (.error e, reported st)

/-- The report of a run that has given up behind `c` headers: it counts them,
its writes are theirs, and the other run begins with the same. -/
structure CutOff (count : P → ℕ) (others : P → O) (c : ℕ) (r r' : P × List HeaderEvent) :
    Prop where
  count : count r.1 = c
  others : others r.1 = others r'.1
  writes : Full c r.2 r'.2

/-- The run `r` is the run `r'`, as far as room for `c` headers goes. -/
structure Truncates (count : P → ℕ) (others : P → O) (c : ℕ)
    (r r' : EStateM.Result Rust.Fault (LogSink × P) ℕ) : Prop where
  alike : shown r = shown r' ∨
    (shown r).1 = .error (.err .Malformed) ∧ CutOff count others c (shown r).2 (shown r').2
  done : ∀ n st, r' = .ok n st → (shown r = shown r' ↔ count st.2 ≤ c)

variable {publish : LogSink × P → ω → LogSink × P} {st st' : LogSink × P} {buf : List UInt8}
  {pos : ℕ}

theorem shown_run (p : Reader UInt8 ω Unit) :
    shown ((realize publish p buf pos >>= fun r => pure r.2 : EStateM Rust.Fault _ ℕ) st) =
      (Prod.snd <$> (p.read buf pos).1.settle, reported ((p.read buf pos).2.foldl publish st)) := by
  rw [run_realize]
  obtain ⟨u, q, l, h⟩ | ⟨l, h⟩ | ⟨l, h⟩ := cases_read p buf pos
  · rw [h]
    rfl
  · rw [h]
    rfl
  · rw [h]
    rfl

theorem reported_foldl
    (halike : ∀ st st' e, reported st = reported st' →
      reported (publish st e) = reported (publish st' e))
    (hst : reported st = reported st') (l : List ω) :
    reported (l.foldl publish st) = reported (l.foldl publish st') := by
  induction l generalizing st st' with
  | nil => exact hst
  | cons e l ih => exact ih (halike _ _ e hst)

/-- Readers that compare are programs that compare. -/
theorem truncates_run {count : P → ℕ} {others : P → O} {c : ℕ} {R : List ω → List ω → Prop}
    {p p' : Reader UInt8 ω Unit}
    (halike : ∀ st st' e, reported st = reported st' →
      reported (publish st e) = reported (publish st' e))
    (hst : reported st = reported st') (hcut : Cut R [] p p' buf pos)
    (hfull : ∀ l l', R l l' → CutOff count others c (reported (l.foldl publish st))
      (reported (l'.foldl publish st')))
    (hdone : ∀ n l, p'.read buf pos = (.done ((), n), l) →
      (p.read buf pos = p'.read buf pos ↔ count (l.foldl publish st').2 ≤ c)) :
    Truncates count others c
      ((realize publish p buf pos >>= fun r => pure r.2 : EStateM Rust.Fault _ ℕ) st)
      ((realize publish p' buf pos >>= fun r => pure r.2 : EStateM Rust.Fault _ ℕ) st') where
  alike := by
    rw [shown_run, shown_run]
    rcases hcut with heq | ⟨l, hfail, hR⟩
    · rw [heq, reported_foldl halike hst]
      exact .inl rfl
    · rw [hfail]
      exact .inr ⟨rfl, hfull _ _ hR⟩
  done n st₁ h := by
    obtain ⟨l, hread, rfl⟩ := run_eq_ok.mp h
    rw [← hdone n l hread, shown_run, shown_run]
    constructor
    · intro hshown
      rcases hcut with heq | ⟨l', hfail, -⟩
      · exact heq
      · rw [hfail, hread] at hshown
        cases (Prod.mk.inj hshown).1
    · intro heq
      rw [heq, reported_foldl halike hst]

end

/-- Of a message with room enough, the run with less room makes the same
exactly when its lines fit. -/
theorem read_eq_iff {ω α : Type} {p p' : Reader UInt8 ω Unit} {buf : List UInt8}
    {pos n k k' c c' : ℕ} {bytes : α → List UInt8} {lines : α → ℕ} {events : α → List ω}
    {l : List ω} (count : List ω → ℕ) (hp : Reads k p) (hp' : Reads k' p')
    (hpos : pos ≤ buf.length)
    (htakes : ∀ {w r l}, Takes p buf pos w r () l ↔
      buf.drop pos = w ++ r ∧ ∃ x, w = bytes x ∧ lines x ≤ c ∧ l = events x)
    (htakes' : ∀ {w r l}, Takes p' buf pos w r () l ↔
      buf.drop pos = w ++ r ∧ ∃ x, w = bytes x ∧ lines x ≤ c' ∧ l = events x)
    (hcount : ∀ x, count (events x) = lines x)
    (h : p'.read buf pos = (.done ((), n), l)) :
    p.read buf pos = p'.read buf pos ↔ count l ≤ c := by
  rw [h]
  constructor
  · intro hread
    obtain ⟨w, r, hword, -⟩ := exists_takes hp hpos hread
    obtain ⟨-, x, -, hlines, rfl⟩ := htakes.mp hword
    rwa [hcount]
  · intro hle
    obtain ⟨w, r, hword, rfl⟩ := exists_takes hp' hpos h
    obtain ⟨hdrop, x, rfl, -, rfl⟩ := htakes'.mp hword
    rw [hcount] at hle
    exact (htakes.mpr ⟨hdrop, x, rfl, hle, rfl⟩).read

/-! ### Reports -/

section

variable {c : ℕ} {s s' : LogSink}

theorem reported_publishHeader (st st' : LogSink × ℕ) (e : HeaderEvent)
    (h : reported st = reported st') :
    reported (Port.publishHeader st e) = reported (Port.publishHeader st' e) := by
  obtain ⟨hcount, hwrites⟩ := Prod.mk.inj h
  cases e with
  | name i name => exact Prod.ext hcount (congrArg (· ++ [HeaderEvent.name i name]) hwrites)
  | value i v => exact Prod.ext rfl (congrArg (· ++ [HeaderEvent.value i v]) hwrites)

theorem reported_request (st st' : LogSink × Rust.Request.Progress) (e : Event)
    (h : reported st = reported st') :
    reported (Port.Request.publish st e) = reported (Port.Request.publish st' e) := by
  obtain ⟨sink, prog⟩ := st
  obtain ⟨sink', prog'⟩ := st'
  obtain ⟨rfl, hwrites⟩ := Prod.mk.inj h
  cases e with
  | header e =>
      obtain ⟨hcount, hwrites⟩ :=
        Prod.mk.inj (reported_publishHeader (sink, prog.headers) (sink', prog.headers) e
          (Prod.ext rfl hwrites))
      exact Prod.ext (congrArg (fun n => { prog with headers := n }) hcount) hwrites
  | _ => exact Prod.ext rfl hwrites

theorem reported_response (st st' : LogSink × Rust.Response.Progress) (e : Event)
    (h : reported st = reported st') :
    reported (Port.Response.publish st e) = reported (Port.Response.publish st' e) := by
  obtain ⟨sink, prog⟩ := st
  obtain ⟨sink', prog'⟩ := st'
  obtain ⟨rfl, hwrites⟩ := Prod.mk.inj h
  cases e with
  | header e =>
      obtain ⟨hcount, hwrites⟩ :=
        Prod.mk.inj (reported_publishHeader (sink, prog.headers) (sink', prog.headers) e
          (Prod.ext rfl hwrites))
      exact Prod.ext (congrArg (fun n => { prog with headers := n }) hcount) hwrites
  | _ => exact Prod.ext rfl hwrites

/-- A sink that keeps a log has logged the writes. -/
theorem writes_foldl (l : List HeaderEvent) (sink : LogSink) :
    (l.foldl write sink).writes = sink.writes ++ l := by
  induction l generalizing sink with
  | nil => exact (List.append_nil _).symm
  | cons e l ih =>
      rw [List.foldl_cons, ih]
      cases e with
      | name i name => exact List.append_assoc _ [_] l
      | value i v => exact List.append_assoc _ [_] l

theorem writes_publishHeader (l : List HeaderEvent) (st : LogSink × ℕ) :
    (l.foldl Port.publishHeader st).1.writes = st.1.writes ++ l := by
  rw [foldl_publishHeader, writes_foldl]

theorem cutOff_headers {h h' : List HeaderEvent} (hfull : Full c h h') (hs : s.writes = [])
    (hs' : s'.writes = []) :
    CutOff id (fun _ => ()) c (reported (h.foldl Port.publishHeader (s, 0)))
      (reported (h'.foldl Port.publishHeader (s', 0))) where
  count := by
    obtain ⟨slots, hlen, rfl, -⟩ := hfull
    exact (count_slotEvents slots (s, 0) rfl).trans ((Nat.zero_add _).trans hlen)
  others := rfl
  writes := by
    rw [reported, reported, writes_publishHeader, writes_publishHeader, hs, hs']
    exact hfull

theorem cutOff_request {l l' : List Event} (hfull : FullBehind IsRequestLine c l l')
    (hs : s.writes = []) (hs' : s'.writes = []) :
    CutOff Rust.Request.Progress.headers (fun prog => (prog.method, prog.path, prog.version)) c
      (reported (l.foldl Port.Request.publish (s, {})))
      (reported (l'.foldl Port.Request.publish (s', {}))) := by
  obtain ⟨_, h, h', ⟨method, path, v, rfl⟩, rfl, rfl, hfull⟩ := hfull
  rw [List.foldl_append, List.foldl_append, foldl_requestHeaders, foldl_requestHeaders]
  have hcut := cutOff_headers hfull hs hs'
  exact ⟨hcut.count, rfl, hcut.writes⟩

theorem cutOff_response {l l' : List Event} (hfull : FullBehind IsStatusLine c l l')
    (hs : s.writes = []) (hs' : s'.writes = []) :
    CutOff Rust.Response.Progress.headers (fun prog => (prog.version, prog.status, prog.msg)) c
      (reported (l.foldl Port.Response.publish (s, {})))
      (reported (l'.foldl Port.Response.publish (s', {}))) := by
  obtain ⟨_, h, h', ⟨v, ds, msg, rfl⟩, rfl, rfl, hfull⟩ := hfull
  obtain ⟨status, hline⟩ := foldl_opening s v ds
  obtain ⟨status', hline'⟩ := foldl_opening s' v ds
  -- the digits are published alike into either sink
  have hstatus : status = status' := by
    have hlines := reported_foldl reported_response
      (Prod.ext rfl (hs.trans hs'.symm) : reported (s, {}) = reported (s', {}))
      ([.version v] ++ ds.map .status)
    rw [hline, hline'] at hlines
    exact congrArg (fun r => r.1.status) hlines
  subst hstatus
  simp only [List.foldl_append] at hline hline' ⊢
  rw [hline, hline', foldl_responseHeaders, foldl_responseHeaders]
  have hcut := cutOff_headers hfull hs hs'
  exact ⟨hcut.count, rfl, hcut.writes⟩

end

theorem length_slots (pos : ℕ) (lines : List HeaderLine) :
    (slots pos lines).length = lines.length := by
  induction lines generalizing pos with
  | nil => rfl
  | cons line lines ih => rw [slots, List.length_cons, List.length_cons, ih]

/-- Less room only truncates. With room for `c` headers instead of `c'` a
parser does the same, or it gives up behind the first `c` headers. The messages
on which it does the same are those with no more than `c` headers. -/
theorem capacity_truncates (buf : List UInt8) {c c' : ℕ} (h : c ≤ c') :
    (∀ pos, Truncates id (fun _ => ()) c
      (Rust.parseHeaders buf pos (({ capacity := c } : LogSink), 0))
      (Rust.parseHeaders buf pos (({ capacity := c' } : LogSink), 0))) ∧
    Truncates Rust.Request.Progress.headers (fun prog => (prog.method, prog.path, prog.version)) c
      (Rust.Request.parseRequest buf 0 (({ capacity := c } : LogSink), {}))
      (Rust.Request.parseRequest buf 0 (({ capacity := c' } : LogSink), {})) ∧
    Truncates Rust.Response.Progress.headers (fun prog => (prog.version, prog.status, prog.msg)) c
      (Rust.Response.parseResponse buf 0 (({ capacity := c } : LogSink), {}))
      (Rust.Response.parseResponse buf 0 (({ capacity := c' } : LogSink), {})) := by
  refine ⟨fun pos => ?_, ?_, ?_⟩
  · rw [Port.parseHeaders_eq, Port.parseHeaders_eq]
    rcases Nat.lt_or_ge buf.length pos with hpos | hpos
    · have hbeyond (cap : ℕ) := read_headers_beyond cap hpos
      refine truncates_run (R := Full c) reported_publishHeader rfl ?_ (fun l l' hfull =>
        cutOff_headers hfull rfl rfl) fun n l hread => ?_
      · exact .inl ((hbeyond c).trans (hbeyond c').symm)
      · rw [Rust.HeaderSink.capacity, hbeyond] at hread
        cases hread
    · refine truncates_run reported_publishHeader rfl (cut_headers h hpos) (fun l l' hfull =>
        cutOff_headers hfull rfl rfl) fun n l hread => ?_
      refine read_eq_iff
        (fun l => (l.foldl Port.publishHeader (({ capacity := c' } : LogSink), 0)).2)
        (reads_headers c) (reads_headers c') hpos (takes_headers hpos) (takes_headers hpos)
        (fun block => ?_) hread
      exact (published_slotEvents { capacity := c' } _).count.trans (length_slots pos block.lines)
  · rw [Port.Request.parseRequest_first, Port.Request.parseRequest_first]
    have hpos := Nat.zero_le buf.length
    refine truncates_run reported_request rfl (cut_request h) (fun l l' hfull =>
      cutOff_request hfull rfl rfl) fun n l hread => ?_
    refine read_eq_iff
      (fun l => (l.foldl Port.Request.publish (({ capacity := c' } : LogSink), {})).2.headers)
      (consumes_request c).reads (consumes_request c').reads hpos takes_request takes_request
      (fun head => ?_) hread
    exact (requestPublished { capacity := c' } head).block.count.trans (length_slots _ _)
  · rw [Port.Response.parseResponse_first, Port.Response.parseResponse_first]
    have hpos := Nat.zero_le buf.length
    refine truncates_run reported_response rfl (cut_response h) (fun l l' hfull =>
      cutOff_response hfull rfl rfl) fun n l hread => ?_
    refine read_eq_iff
      (fun l => (l.foldl Port.Response.publish (({ capacity := c' } : LogSink), {})).2.headers)
      (consumes_response c).reads (consumes_response c').reads hpos takes_response takes_response
      (fun head => ?_) hread
    exact (responsePublished { capacity := c' } head).block.count.trans (length_slots _ _)

/-- Two headers: room for one is too little, and room for a third is not used. -/
theorem capacity_truncates_two_headers :
    let buf : List UInt8 := [65, 58, 49, 10, 66, 58, 50, 10, 10]
    let r (c : ℕ) := Rust.parseHeaders buf 0 (({ capacity := c } : LogSink), 0)
    ((shown (r 1)).1 = .error (.err .Malformed) ∧
      CutOff id (fun _ => ()) 1 (shown (r 1)).2 (shown (r 2)).2) ∧
    shown (r 2) = shown (r 3) := by
  intro buf r
  let events : List HeaderEvent := slotEvents 0 [(some (0, 1), (2, 1)), (some (4, 1), (6, 1))]
  have hrun (c : ℕ) (h : (headers c).read buf 0 = (.done ((), 9), events)) :
      ∃ st, r c = .ok 9 st ∧ st.2 = 2 :=
    ⟨_, (Port.parseHeaders_eq _ _ _).trans (run_eq_ok.mpr ⟨events, h, rfl⟩), rfl⟩
  obtain ⟨st₂, hst₂, hcount₂⟩ := hrun 2 (by decide +kernel)
  obtain ⟨st₃, hst₃, hcount₃⟩ := hrun 3 (by decide +kernel)
  have h₁₂ := (capacity_truncates buf (show 1 ≤ 2 by decide)).1 0
  have h₂₃ := (capacity_truncates buf (show 2 ≤ 3 by decide)).1 0
  refine ⟨h₁₂.alike.resolve_left fun heq => ?_, (h₂₃.done 9 st₃ hst₃).mpr ?_⟩
  · have hle := (h₁₂.done 9 st₂ hst₂).mp heq
    rw [hcount₂] at hle
    exact absurd hle (by decide)
  · rw [hcount₃]
    exact le_rfl

end PicoHttpParser.Head
