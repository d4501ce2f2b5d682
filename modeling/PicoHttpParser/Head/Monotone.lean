import PicoHttpParser.Head.Calls
import PicoHttpParser.Lib.Order

/-!
What has been published stays published.

The events of a head come in a fixed order: method, path, version, status,
reason, then the name and the value of each header in turn. Every output
belongs to one place of this order, so it is written once, and a parse of a
longer input, which publishes the same events first, finds it written.
-/

namespace PicoHttpParser.Head

open Incremental Incremental.Reader

/-! ### The order of the events -/

def headerRank : HeaderEvent → ℕ
  | .name i _ => 2 * i
  | .value i _ => 2 * i + 1

def rank : Event → ℕ
  | .method _ => 0
  | .path _ => 1
  | .version _ => 2
  | .status _ => 3
  | .msg _ => 4
  | .header e => 5 + headerRank e

section

variable {ω : Type}

theorem silent_eol : Silent (eol : Reader UInt8 ω Unit) := by
  apply Silent.bind .next
  intro b
  split
  · apply Silent.bind .next
    intro c
    split
    · exact .pure ()
    · exact .reject
  · split
    · exact .pure ()
    · exact .reject

theorem silent_emptyLine : Silent (emptyLine : Reader UInt8 ω Unit) := by
  apply Silent.bind .peek
  intro b
  split
  · exact silent_eol
  · exact .pure ()

theorem silent_span (f : UInt8 → Act) :
    Silent (do let start ← position
               scan f
               let p ← position
               pure (start, p - start) : Reader UInt8 ω Span) :=
  .bind .position fun _ => .bind (.scan f) fun _ => .bind .position fun _ => .pure _

theorem silent_token (stop : UInt8) : Silent (token stop : Reader UInt8 ω Span) := silent_span _

theorem silent_target : Silent (target : Reader UInt8 ω Span) := silent_span _

theorem silent_skipPast (f : UInt8 → Act) : Silent (skipPast f : Reader UInt8 ω Unit) :=
  .bind .next fun _ => .scan f

theorem silent_text : Silent (text : Reader UInt8 ω (ℕ × List UInt8)) :=
  .bind .position fun _ => .bind (.captured (.scan _)) fun _ =>
    .bind silent_eol fun _ => .pure _

theorem silent_version : Silent (version : Reader UInt8 ω Int32) := by
  apply Silent.window
  intro w
  unfold versionOf
  split <;> rfl

end

theorem ranked_value (i : ℕ) : Ranked headerRank (2 * i + 1) (value i) :=
  .bind_silent silent_text fun _ => .emit le_rfl

theorem ranked_header (i : ℕ) (b : UInt8) : Ranked headerRank (2 * i) (header i b) := by
  unfold header
  split
  · exact .bind_emit (2 * i + 1) le_rfl (Nat.lt_succ_self _) (ranked_value i)
  · apply Ranked.bind_silent (silent_token _)
    intro name
    refine .bind_emit (2 * i + 1) le_rfl (Nat.lt_succ_self _) ?_
    split
    · exact .silent .reject
    · exact .bind_silent (silent_skipPast _) fun _ => ranked_value i

theorem ranked_headerTurn (cap i : ℕ) : Ranked headerRank (2 * i) (headerTurn cap i) := by
  apply Ranked.bind_silent .peek
  intro b
  split
  · exact .silent (.bind silent_eol fun _ => .pure _)
  split
  · exact .silent .reject
  apply Ranked.bind (2 * i + 2) (ranked_header i b) (fun _ => .silent (.pure _)) (by omega)
  intro buf pos u pos' l h e he
  obtain ⟨n, v, rfl⟩ := header_done h
  rcases List.mem_pair.mp he with rfl | rfl <;> simp [headerRank]

/-- The headers of a block are published in their order. -/
theorem ranked_headers (cap : ℕ) : Ranked headerRank 0 (headers cap) := by
  refine .iterate (fun i => 2 * i) (ranked_headerTurn cap) ?_ 0
  intro i buf pos i' pos' l h
  obtain ⟨rfl, n, v, rfl⟩ := headerTurn_done h
  refine ⟨by omega, fun e he => ?_⟩
  rcases List.mem_pair.mp he with rfl | rfl <;> simp only [headerRank] <;> omega

theorem ranked_mapHeaders (cap : ℕ) : Ranked rank 5 (mapEvents Event.header (headers cap)) := by
  apply Ranked.mapEvents
  apply (ranked_headers cap).reorder
  · intro e e' h
    exact Nat.add_lt_add_left h 5
  · intro e _
    exact Nat.le_add_right 5 _

/-- The outputs of a request are published in a fixed order. -/
theorem ranked_request (cap : ℕ) : Ranked rank 0 (request cap) := by
  apply Ranked.bind_silent silent_emptyLine
  intro _
  apply Ranked.bind_silent (silent_token SP)
  intro method
  refine .bind_emit 1 (Nat.zero_le _) Nat.one_pos ?_
  apply Ranked.bind_silent (silent_skipPast _)
  intro _
  apply Ranked.bind_silent silent_target
  intro path
  refine .bind_emit 2 le_rfl (Nat.lt_succ_self 1) ?_
  apply Ranked.bind_silent (silent_skipPast _)
  intro _
  split
  · exact .silent .reject
  apply Ranked.bind_silent silent_version
  intro v
  refine .bind_emit 5 le_rfl (show 2 < 5 by decide) ?_
  exact .bind_silent silent_eol fun _ => ranked_mapHeaders cap

theorem ranked_status : Ranked rank 3 (mapEvents Event.status status) := by
  apply Ranked.mapEvents
  apply Ranked.window
  · intro w
    dsimp only [statusOf]
    split_ifs <;> simp
  · intro w e _
    exact le_rfl

theorem ranked_reason (start : ℕ) (bytes : List UInt8) : Ranked rank 4 (reason start bytes) := by
  unfold reason
  cases bytes with
  | nil => exact .emit le_rfl
  | cons b bytes =>
      dsimp only
      split
      · exact .emit le_rfl
      · exact .bind_emit 5 le_rfl (Nat.lt_succ_self 4) (.silent .reject)

/-- The outputs of a response are published in a fixed order. -/
theorem ranked_response (cap : ℕ) : Ranked rank 2 (response cap) := by
  apply Ranked.bind_silent silent_version
  intro v
  refine .bind_emit 3 le_rfl (Nat.lt_succ_self 2) ?_
  apply Ranked.bind_silent .peek
  intro b
  split
  · exact .silent .reject
  apply Ranked.bind_silent (silent_skipPast _)
  intro _
  apply Ranked.bind 4 ranked_status _ (Nat.le_succ 3)
  · intro buf pos u pos' l h e he
    obtain rfl := (Prod.mk.inj h).2
    obtain ⟨v, -, rfl⟩ := List.mem_map.mp he
    exact Nat.lt_succ_self 3
  · intro _
    apply Ranked.bind_silent silent_text
    intro line
    refine .bind 5 (ranked_reason _ _) (fun _ => ranked_mapHeaders cap) (Nat.le_succ 4) ?_
    intro buf pos u pos' l h e he
    obtain ⟨-, s, rfl⟩ := reason_done h
    obtain rfl := List.mem_singleton.mp he
    exact Nat.lt_succ_self 4

/-! ### Publishing in order -/

/-- A sink that keeps what each slot holds and every write made to it. -/
structure LogSink where
  capacity : ℕ
  names : ℕ → Option (Option Span) := fun _ => none
  values : ℕ → Option Span := fun _ => none
  writes : List HeaderEvent := []

instance : Rust.HeaderSink LogSink where
  capacity sink := sink.capacity
  setName sink i name :=
    { sink with
      names := Function.update sink.names i (some name)
      writes := sink.writes ++ [.name i name] }
  setValue sink i value :=
    { sink with
      values := Function.update sink.values i (some value)
      writes := sink.writes ++ [.value i value] }

/-- The completed headers are the same, there may be more of them, and the
writes to the sink go on from where they were. -/
structure BlockExtends (before after : LogSink × ℕ) : Prop where
  count : before.2 ≤ after.2
  name : ∀ i < before.2, after.1.names i = before.1.names i
  value : ∀ i < before.2, after.1.values i = before.1.values i
  writes : before.1.writes <+: after.1.writes

theorem writes_prefix (st : LogSink × ℕ) (e : HeaderEvent) :
    st.1.writes <+: (Port.publishHeader st e).1.writes := by
  cases e <;> exact List.prefix_append _ _

section

variable {σ ω : Type} {publish : σ → ω → σ} {view : σ → LogSink × ℕ} {r : ω → ℕ} {base : ℕ}

/-- The state has a header block in it, which the events of rank `base` and
higher write to, and no others. -/
structure HasBlock (publish : σ → ω → σ) (view : σ → LogSink × ℕ) (r : ω → ℕ) (base : ℕ) :
    Prop where
  step : ∀ s e, view (publish s e) = view s ∨
    ∃ e', r e = base + headerRank e' ∧ view (publish s e) = Port.publishHeader (view s) e'

namespace HasBlock

variable (hblock : HasBlock publish view r base)

include hblock

theorem writes {l : List ω} {s : σ} :
    (view s).1.writes <+: (view (l.foldl publish s)).1.writes := by
  induction l generalizing s with
  | nil => exact List.prefix_rfl
  | cons e l ih =>
      refine .trans ?_ ih
      rcases hblock.step s e with h | ⟨e', -, h⟩ <;> rw [h]
      exact writes_prefix _ e'

/-- A header is completed by the event that publishes its value. -/
theorem exists_value {l : List ω} {s : σ} {i : ℕ} (hs : (view s).2 = 0)
    (hi : i < (view (l.foldl publish s)).2) : ∃ e ∈ l, base + (2 * i + 1) ≤ r e := by
  apply exists_of_foldl (P := fun s => i < (view s).2) _ hi (by omega)
  intro s e he hlt
  rcases hblock.step s e with h | ⟨e', hr, h⟩ <;> rw [h] at hlt
  · exact hlt
  · cases e' with
    | name j name => exact hlt
    | value j v =>
        have hj : i < j + 1 := hlt
        simp only [hr, headerRank] at he
        omega

/-- An event behind the completion of a header leaves it alone. -/
theorem step_kept {s : σ} {e : ω} {i : ℕ} (he : base + (2 * i + 1) < r e) :
    (view (publish s e)).1.names i = (view s).1.names i ∧
      (view (publish s e)).1.values i = (view s).1.values i ∧
      (i < (view s).2 → i < (view (publish s e)).2) := by
  rcases hblock.step s e with h | ⟨e', hr, h⟩ <;> rw [h]
  · exact ⟨rfl, rfl, id⟩
  · cases e' with
    | name j name =>
        have hne : i ≠ j := by simp only [hr, headerRank] at he; omega
        exact ⟨Function.update_of_ne hne _ _, rfl, id⟩
    | value j v =>
        have hlt : i < j := by simp only [hr, headerRank] at he; omega
        exact ⟨rfl, Function.update_of_ne hlt.ne _ _, fun _ => Nat.lt_succ_of_lt hlt⟩

/-- Headers that are completed stay as they are. -/
theorem kept {l t : List ω} (hsorted : (l ++ t).Pairwise fun e e' => r e < r e') {s : σ}
    (hs : (view s).2 = 0) :
    BlockExtends (view (l.foldl publish s)) (view ((l ++ t).foldl publish s)) where
  count := by
    by_contra hlt
    push Not at hlt
    -- the last header completed is the one the count tells
    obtain ⟨c, hc⟩ : ∃ c, (view (l.foldl publish s)).2 = c + 1 :=
      Nat.exists_eq_succ_of_ne_zero (by omega)
    have hk : ∃ e ∈ l, base + (2 * c + 1) ≤ r e := hblock.exists_value hs (by omega)
    have hkept : c < (view ((l ++ t).foldl publish s)).2 := by
      rw [List.foldl_append]
      apply List.foldlRecOn (motive := fun s => c < (view s).2) t publish
        (show c < (view (l.foldl publish s)).2 by omega)
      intro s' hs' e he
      exact (hblock.step_kept (lt_of_sorted hsorted hk e he)).2.2 hs'
    omega
  name i hi := register_kept (fun s => (view s).1.names i)
    (fun s e he => (hblock.step_kept he).1) hsorted (hblock.exists_value hs hi) s
  value i hi := register_kept (fun s => (view s).1.values i)
    (fun s e he => (hblock.step_kept he).2.1) hsorted (hblock.exists_value hs hi) s
  writes := by
    rw [List.foldl_append]
    exact hblock.writes

end HasBlock

end

/-- An output that only events of rank `k` set, and that was not set at
first. -/
theorem output_kept {σ α : Type} {publish : σ → Event → σ} (reg : σ → Option α) (k : ℕ)
    {l t : List Event} (hsorted : (l ++ t).Pairwise fun e e' => rank e < rank e') {s : σ}
    (hs : reg s = none) {a : α} (h : reg (l.foldl publish s) = some a)
    (hreg : ∀ s e, rank e ≠ k → reg (publish s e) = reg s := by
      intro s e he
      cases e <;> first | rfl | exact absurd rfl he) :
    reg ((l ++ t).foldl publish s) = some a := by
  rw [← h]
  apply register_once reg hreg hsorted
  rw [h, hs]
  exact Option.some_ne_none a

/-! ### Two calls -/

/-- The memory a call leaves behind. -/
def final {σ : Type} : EStateM.Result Rust.Fault σ ℕ → σ
  | .ok _ st => st
  | .error _ st => st

/-- A call on more input, after a call on less: a verdict and its outputs
are repeated, and outputs published while waiting are not retracted. -/
def Grows {σ : Type} (Extends : σ → σ → Prop) (before after : EStateM.Result Rust.Fault σ ℕ) :
    Prop :=
  match before with
  | .ok _ _ => after = before
  | .error (.err .Malformed) _ => after = before
  | .error (.err .Partial) st => Extends st (final after)
  | .error .panic _ => False

section

variable {σ ω : Type} {publish : σ → ω → σ} {p : Reader UInt8 ω Unit} {r : ω → ℕ} {lo : ℕ}
  {Extends : σ → σ → Prop} {st : σ} {buf : List UInt8} {pos : ℕ}

theorem grows_of_more (hr : Ranked r lo p)
    (hext : ∀ l t : List ω, ((l ++ t).Pairwise fun e e' => r e < r e') →
      Extends (l.foldl publish st) ((l ++ t).foldl publish st))
    {l : List ω} (h : p.read buf pos = (.more, l)) {ext : List UInt8}
    (hl : l <+: (p.read (buf ++ ext) pos).2) :
    Grows Extends
      ((realize publish p buf pos >>= fun r => pure r.2 : EStateM Rust.Fault σ ℕ) st)
      ((realize publish p (buf ++ ext) pos >>= fun r => pure r.2 : EStateM Rust.Fault σ ℕ) st) := by
  obtain ⟨t, ht⟩ := hl
  have hsorted := hr.sorted (buf ++ ext) pos
  rw [← ht] at hsorted
  have hkept := hext l t hsorted
  rw [run_realize, run_realize, h]
  rw [ht] at hkept
  show Extends (l.foldl publish st) _
  rcases (p.read (buf ++ ext) pos).1 with _ | _ | _ <;> exact hkept

/-- What holds of two lists of events in order, one of which begins like the
other, holds of two calls. -/
theorem grows_of_reads (hp : Reads 0 p) (hr : Ranked r lo p)
    (hext : ∀ l t : List ω, ((l ++ t).Pairwise fun e e' => r e < r e') →
      Extends (l.foldl publish st) ((l ++ t).foldl publish st))
    (hpos : pos ≤ buf.length) (ext : List UInt8) :
    Grows Extends
      ((realize publish p buf pos >>= fun r => pure r.2 : EStateM Rust.Fault σ ℕ) st)
      ((realize publish p (buf ++ ext) pos >>= fun r => pure r.2 : EStateM Rust.Fault σ ℕ) st) := by
  obtain ⟨u, n, l, h⟩ | ⟨l, h⟩ | ⟨l, h⟩ := cases_read p buf pos
  · rw [run_realize, run_realize, hp.done_append hpos h ext, h]
    exact rfl
  · exact grows_of_more hr hext h (hp.more hpos h ext)
  · rw [run_realize, run_realize, hp.fail hpos h ext, h]
    exact rfl

end

/-- The outputs of a request are still there. -/
structure RequestExtends (before after : LogSink × Rust.Request.Progress) : Prop where
  method : ∀ s, before.2.method = some s → after.2.method = some s
  path : ∀ s, before.2.path = some s → after.2.path = some s
  version : ∀ v, before.2.version = some v → after.2.version = some v
  block : BlockExtends (Rust.Request.headerState before) (Rust.Request.headerState after)

/-- The outputs of a response are still there. -/
structure ResponseExtends (before after : LogSink × Rust.Response.Progress) : Prop where
  version : ∀ v, before.2.version = some v → after.2.version = some v
  status : ∀ v, before.2.status = some v → after.2.status = some v
  msg : ∀ s, before.2.msg = some s → after.2.msg = some s
  block : BlockExtends (Rust.Response.headerState before) (Rust.Response.headerState after)

theorem request_hasBlock : HasBlock (Port.Request.publish (S := LogSink))
    Rust.Request.headerState rank 5 where
  step s e := by
    cases e with
    | header e => exact .inr ⟨e, rfl, rfl⟩
    | _ => exact .inl rfl

theorem response_hasBlock : HasBlock (Port.Response.publish (S := LogSink))
    Rust.Response.headerState rank 5 where
  step s e := by
    cases e with
    | header e => exact .inr ⟨e, rfl, rfl⟩
    | _ => exact .inl rfl

theorem headers_hasBlock : HasBlock (Port.publishHeader (S := LogSink)) id headerRank 0 where
  step _ e := .inr ⟨e, (Nat.zero_add _).symm, rfl⟩

theorem request_extends (cap : ℕ) (l t : List Event)
    (hsorted : (l ++ t).Pairwise fun e e' => rank e < rank e') :
    RequestExtends (l.foldl Port.Request.publish ({ capacity := cap }, {}))
      ((l ++ t).foldl Port.Request.publish ({ capacity := cap }, {})) where
  method _ := output_kept (fun st : LogSink × Rust.Request.Progress => st.2.method) 0 hsorted rfl
  path _ := output_kept (fun st : LogSink × Rust.Request.Progress => st.2.path) 1 hsorted rfl
  version _ := output_kept (fun st : LogSink × Rust.Request.Progress => st.2.version) 2 hsorted rfl
  block := request_hasBlock.kept hsorted rfl

theorem response_extends (cap : ℕ) (l t : List Event)
    (hsorted : (l ++ t).Pairwise fun e e' => rank e < rank e') :
    ResponseExtends (l.foldl Port.Response.publish ({ capacity := cap }, {}))
      ((l ++ t).foldl Port.Response.publish ({ capacity := cap }, {})) where
  version _ := output_kept (fun st : LogSink × Rust.Response.Progress => st.2.version) 2 hsorted rfl
  status _ := output_kept (fun st : LogSink × Rust.Response.Progress => st.2.status) 3 hsorted rfl
  msg _ := output_kept (fun st : LogSink × Rust.Response.Progress => st.2.msg) 4 hsorted rfl
  block := response_hasBlock.kept hsorted rfl

/-- Beyond the end of the buffer there is nothing to parse yet. -/
theorem read_headers_beyond (cap : ℕ) {buf : List UInt8} {pos : ℕ} (h : buf.length < pos) :
    (headers cap).read buf pos = (.more, []) := by
  apply iterateFrom_of_more
  rw [headerTurn, read_bind, read_peek_none (List.getElem?_eq_none_iff.mpr h.le)]

theorem headers_grows (cap pos : ℕ) (buf ext : List UInt8) :
    Grows BlockExtends (Rust.parseHeaders buf pos (({ capacity := cap } : LogSink), 0))
      (Rust.parseHeaders (buf ++ ext) pos (({ capacity := cap } : LogSink), 0)) := by
  rw [Port.parseHeaders_eq, Port.parseHeaders_eq]
  have hext (l t : List HeaderEvent)
      (hsorted : (l ++ t).Pairwise fun e e' => headerRank e < headerRank e') :=
    headers_hasBlock.kept hsorted (s := (({ capacity := cap } : LogSink), 0)) rfl
  rcases Nat.lt_or_ge buf.length pos with hpos | hpos
  · exact grows_of_more (ranked_headers cap) hext (read_headers_beyond cap hpos) List.nil_prefix
  · exact grows_of_reads (reads_headers cap) (ranked_headers cap) hext hpos ext

/-- More input never takes back a verdict or an output. -/
theorem parse_grows (buf ext : List UInt8) (cap pos : ℕ) :
    Grows RequestExtends
        (Rust.Request.parseRequest buf 0 (({ capacity := cap } : LogSink), {}))
        (Rust.Request.parseRequest (buf ++ ext) 0 (({ capacity := cap } : LogSink), {})) ∧
      Grows ResponseExtends
        (Rust.Response.parseResponse buf 0 (({ capacity := cap } : LogSink), {}))
        (Rust.Response.parseResponse (buf ++ ext) 0 (({ capacity := cap } : LogSink), {})) ∧
      Grows BlockExtends
        (Rust.parseHeaders buf pos (({ capacity := cap } : LogSink), 0))
        (Rust.parseHeaders (buf ++ ext) pos (({ capacity := cap } : LogSink), 0)) := by
  refine ⟨?_, ?_, headers_grows cap pos buf ext⟩
  · rw [Port.Request.parseRequest_first, Port.Request.parseRequest_first]
    exact grows_of_reads (consumes_request cap).reads (ranked_request cap) (request_extends cap)
      (Nat.zero_le _) ext
  · rw [Port.Response.parseResponse_first, Port.Response.parseResponse_first]
    exact grows_of_reads (consumes_response cap).reads (ranked_response cap) (response_extends cap)
      (Nat.zero_le _) ext

end PicoHttpParser.Head
