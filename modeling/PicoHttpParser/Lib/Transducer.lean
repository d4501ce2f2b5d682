import Mathlib.Data.List.Basic
import Mathlib.Data.List.Infix

/-!
Transducers that stop by themselves.

A transducer consumes one element at a time and emits on the way. It may
find that an element ends what it reads, or it may reject an element and
leave it unread. Its configuration is all it remembers, so a run over two
inputs is a run over their concatenation: `run_append`.
-/

namespace Incremental

variable {κ β ω : Type}

/-- What an element does. -/
inductive Turn (κ ω : Type) where
  | go (c : κ) (out : List ω)
  | finish (c : κ)
  | reject (c : κ)

/-- The configuration an element leaves behind, whatever it does. -/
def Turn.config : Turn κ ω → κ
  | .go c _ => c
  | .finish c => c
  | .reject c => c

/-- Why a run has ended: it is out of elements, it has finished, or it has
rejected an element. -/
inductive Ending where
  | more
  | done
  | bad
  deriving DecidableEq, Repr

/-- What a run leaves behind. -/
structure Run (κ β ω : Type) where
  ending : Ending
  config : κ
  out : List ω
  rest : List β

/-- The same run after something has been emitted. -/
def Run.prepend (out : List ω) (r : Run κ β ω) : Run κ β ω := { r with out := out ++ r.out }

/-- The same run in front of more elements. -/
def Run.before (r : Run κ β ω) (bs : List β) : Run κ β ω := { r with rest := r.rest ++ bs }

def run (step : κ → β → Turn κ ω) (c : κ) : List β → Run κ β ω
  | [] => ⟨.more, c, [], []⟩
  | b :: bs =>
    match step c b with
    | .go c' out => (run step c' bs).prepend out
    | .finish c' => ⟨.done, c', [], bs⟩
    | .reject c' => ⟨.bad, c', [], b :: bs⟩

@[simp] theorem Run.prepend_ending (out : List ω) (r : Run κ β ω) :
    (r.prepend out).ending = r.ending := rfl

@[simp] theorem Run.prepend_config (out : List ω) (r : Run κ β ω) :
    (r.prepend out).config = r.config := rfl

@[simp] theorem Run.prepend_out (out : List ω) (r : Run κ β ω) :
    (r.prepend out).out = out ++ r.out := rfl

@[simp] theorem Run.prepend_rest (out : List ω) (r : Run κ β ω) :
    (r.prepend out).rest = r.rest := rfl

theorem Run.prepend_prepend (out out' : List ω) (r : Run κ β ω) :
    (r.prepend out').prepend out = r.prepend (out ++ out') := by
  simp only [Run.prepend, List.append_assoc]

section

variable {step : κ → β → Turn κ ω}

@[simp] theorem run_nil (c : κ) : run step c [] = ⟨.more, c, [], []⟩ := rfl

theorem run_cons_go {c c' : κ} {b : β} {out : List ω} (h : step c b = .go c' out)
    (bs : List β) : run step c (b :: bs) = (run step c' bs).prepend out := by
  rw [run, h]

theorem run_cons_finish {c c' : κ} {b : β} (h : step c b = .finish c') (bs : List β) :
    run step c (b :: bs) = ⟨.done, c', [], bs⟩ := by
  rw [run, h]

theorem run_cons_reject {c c' : κ} {b : β} (h : step c b = .reject c') (bs : List β) :
    run step c (b :: bs) = ⟨.bad, c', [], b :: bs⟩ := by
  rw [run, h]

/-- A run that is out of elements goes on with the next ones, and a run that
has ended leaves them alone. -/
theorem run_append (c : κ) (as bs : List β) :
    run step c (as ++ bs) =
      match (run step c as).ending with
      | .more => (run step (run step c as).config bs).prepend (run step c as).out
      | _ => (run step c as).before bs := by
  induction as generalizing c with
  | nil => rfl
  | cons a as ih =>
      cases h : step c a with
      | go c' out =>
          rw [List.cons_append, run_cons_go h, run_cons_go h, ih, Run.prepend_ending]
          cases (run step c' as).ending with
          | more => exact Run.prepend_prepend _ _ _
          | done => rfl
          | bad => rfl
      | finish c' => rw [List.cons_append, run_cons_finish h, run_cons_finish h]; rfl
      | reject c' => rw [List.cons_append, run_cons_reject h, run_cons_reject h]; rfl

/-- A run that asks for more has left nothing unread. -/
theorem rest_of_more {c : κ} {bs : List β} (h : (run step c bs).ending = .more) :
    (run step c bs).rest = [] := by
  induction bs generalizing c with
  | nil => rfl
  | cons b bs ih =>
      cases hs : step c b with
      | go c' out =>
          rw [run_cons_go hs] at h ⊢
          exact ih h
      | finish c' => rw [run_cons_finish hs] at h; cases h
      | reject c' => rw [run_cons_reject hs] at h; cases h

theorem rest_suffix (c : κ) (bs : List β) : (run step c bs).rest <:+ bs := by
  induction bs generalizing c with
  | nil => exact List.suffix_rfl
  | cons b bs ih =>
      cases h : step c b with
      | go c' out => rw [run_cons_go h]; exact (ih c').trans (List.suffix_cons b bs)
      | finish c' => rw [run_cons_finish h]; exact List.suffix_cons b bs
      | reject c' => rw [run_cons_reject h]

/-- What has been emitted stays emitted when there are more elements. -/
theorem out_prefix (c : κ) (as bs : List β) :
    (run step c as).out <+: (run step c (as ++ bs)).out := by
  rw [run_append]
  cases (run step c as).ending with
  | more => exact List.prefix_append _ _
  | done => exact List.prefix_rfl
  | bad => exact List.prefix_rfl

/-- The element that finishes a run emits nothing. -/
theorem out_of_done {c : κ} {b : β} (h : (run step c [b]).ending = .done) :
    (run step c [b]).out = [] := by
  cases hs : step c b with
  | go c' out => rw [run_cons_go hs] at h; cases h
  | finish c' => rw [run_cons_finish hs]
  | reject c' => rw [run_cons_reject hs] at h; cases h

/-- A run that rejects an element has run over what is in front of it. -/
theorem exists_reject {c : κ} {bs : List β} (h : (run step c bs).ending = .bad) :
    ∃ as b, bs = as ++ (run step c bs).rest ∧ (run step c as).ending = .more ∧
      step (run step c as).config b = .reject (run step c bs).config ∧
      (run step c bs).out = (run step c as).out := by
  induction bs generalizing c with
  | nil => cases h
  | cons b bs ih =>
      cases hs : step c b with
      | go c' out =>
          rw [run_cons_go hs] at h ⊢
          obtain ⟨as, b', hrest, hmore, hreject, hout⟩ := ih h
          refine ⟨b :: as, b', congrArg (b :: ·) hrest, ?_⟩
          rw [run_cons_go hs]
          exact ⟨hmore, hreject, congrArg (out ++ ·) hout⟩
      | finish c' => rw [run_cons_finish hs] at h; cases h
      | reject c' =>
          rw [run_cons_reject hs]
          exact ⟨[], b, rfl, rfl, hs, rfl⟩

/-- What every turn keeps is true of the configuration in which a run asks
for more. -/
theorem config_of_more {P : κ → Prop}
    (hgo : ∀ c b c' out, P c → step c b = .go c' out → P c') {c : κ} (hc : P c) {bs : List β}
    (h : (run step c bs).ending = .more) : P (run step c bs).config := by
  induction bs generalizing c with
  | nil => exact hc
  | cons b bs ih =>
      cases hs : step c b with
      | go c' out =>
          rw [run_cons_go hs] at h ⊢
          exact ih (hgo c b c' out hc hs) h
      | finish c' => rw [run_cons_finish hs] at h; cases h
      | reject c' => rw [run_cons_reject hs] at h; cases h

/-- What every turn keeps, however it ends, a run keeps. -/
theorem config_run {P : κ → Prop} (hkeep : ∀ c b, P c → P (step c b).config) {c : κ} (hc : P c)
    (bs : List β) : P (run step c bs).config := by
  induction bs generalizing c with
  | nil => exact hc
  | cons b bs ih =>
      have hturn := hkeep c b hc
      cases hs : step c b with
      | go c' out =>
          rw [hs] at hturn
          rw [run_cons_go hs]
          exact ih hturn
      | finish c' =>
          rw [hs] at hturn
          rw [run_cons_finish hs]
          exact hturn
      | reject c' =>
          rw [hs] at hturn
          rw [run_cons_reject hs]
          exact hturn

/-- A configuration in which nothing is emitted any more, whatever comes. -/
structure Silent (step : κ → β → Turn κ ω) (P : κ → Prop) : Prop where
  keep : ∀ c b, P c → P (step c b).config
  out : ∀ c b c' out, P c → step c b = .go c' out → out = []

theorem Silent.run_out {P : κ → Prop} (h : Silent step P) {c : κ} (hc : P c) (bs : List β) :
    (run step c bs).out = [] := by
  induction bs generalizing c with
  | nil => rfl
  | cons b bs ih =>
      cases hs : step c b with
      | go c' out =>
          have hc' := h.keep c b hc
          rw [hs] at hc'
          obtain rfl := h.out c b c' out hc hs
          rw [run_cons_go hs]
          exact ih hc'
      | finish c' => rw [run_cons_finish hs]
      | reject c' => rw [run_cons_reject hs]

/-- What is true wherever a turn finishes is true where a run has finished. -/
theorem config_of_done {P : κ → Prop} (hfinish : ∀ c b c', step c b = .finish c' → P c') {c : κ}
    {bs : List β} (h : (run step c bs).ending = .done) : P (run step c bs).config := by
  induction bs generalizing c with
  | nil => cases h
  | cons b bs ih =>
      cases hs : step c b with
      | go c' out =>
          rw [run_cons_go hs] at h ⊢
          exact ih h
      | finish c' =>
          rw [run_cons_finish hs]
          exact hfinish c b c' hs
      | reject c' => rw [run_cons_reject hs] at h; cases h

/-- A transducer that emits at most one element for each one it consumes
does not emit more than it has consumed. -/
theorem length_out_le (hout : ∀ c b c' out, step c b = .go c' out → out.length ≤ 1) (c : κ)
    (bs : List β) : (run step c bs).out.length + (run step c bs).rest.length ≤ bs.length := by
  induction bs generalizing c with
  | nil => exact le_rfl
  | cons b bs ih =>
      cases h : step c b with
      | go c' out =>
          have hle := hout c b c' out h
          have hih := ih c'
          rw [run_cons_go h, Run.prepend_out, Run.prepend_rest, List.length_append,
            List.length_cons]
          omega
      | finish c' => rw [run_cons_finish h]; simp
      | reject c' => rw [run_cons_reject h]; simp

end

end Incremental
