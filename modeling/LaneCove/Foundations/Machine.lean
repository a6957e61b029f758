import Mathlib.Data.List.Basic
import Mathlib.Tactic.Common

/-!
# Deterministic machines with an output trace

A machine is a function `σ → ι → σ × List ε`: it consumes one input, moves to
the next state and emits a finite list of events. `Machine.run` folds it over a
list of inputs and concatenates the events. The same combinator runs an event
loop over its inputs and a `for` loop over its indices.

## Main definitions

- `Machine.run` — the final state and the whole trace of a run
- `Machine.Guarded` — a condition on state and input that holds at every step
- `Machine.SameBut` — two runs that differ in skipped inputs
- `Machine.observe` — the machine with something else reported of its steps
- `Machine.clocked` — the machine with a clock beside its state
- `Machine.runUntil` — a loop that may be left
- `Machine.Steps` — finite sequences of a labelled step relation

## Main results

- `Machine.run_invariant` — an invariant of state and trace kept by every step
- `Machine.run_invariant_of_guarded` — the same for guarded runs
- `Machine.Guarded.of_invariant` — from one guard to another
- `Machine.guarded_iff_invariant` — a guard that is exact for a predicate
- `Machine.SameBut.run_eq` — skipped inputs without effect make no difference
- `Machine.run_filter` — inputs without visible effect can be left out
- `Machine.observe_invariant_of_guarded` — invariants of state, trace and observations
- `Machine.run_weight_le` — an allowance that covers each step bounds a run
- `Machine.run_range_forall` — a loop that brings one slot after the other into order
- `Machine.runUntil_eq_run` — a loop that may be left as a run on what it read
- `Machine.Steps.invariant` — invariants of a step relation
- `Machine.steps_run` — a run whose steps are sequences of a relation is one
-/

namespace Machine

universe u v w

variable {σ : Type u} {ι : Type v} {ε : Type w}

/-- Run a machine over a list of inputs, collecting the events in order. -/
def run (step : σ → ι → σ × List ε) : σ → List ι → σ × List ε
  | s, [] => (s, [])
  | s, i :: is => ((run step (step s i).1 is).1, (step s i).2 ++ (run step (step s i).1 is).2)

/-- Every step of the run satisfies `ok` at the state it starts from. -/
def Guarded (step : σ → ι → σ × List ε) (ok : σ → ι → Prop) : σ → List ι → Prop
  | _, [] => True
  | s, i :: is => ok s i ∧ Guarded step ok (step s i).1 is

instance Guarded.decidable (step : σ → ι → σ × List ε) (ok : σ → ι → Prop)
    [∀ s i, Decidable (ok s i)] : ∀ s is, Decidable (Guarded step ok s is)
  | _, [] => .isTrue trivial
  | s, i :: is =>
    have := Guarded.decidable step ok (step s i).1 is
    inferInstanceAs (Decidable (ok s i ∧ Guarded step ok (step s i).1 is))

variable {step : σ → ι → σ × List ε}

@[simp] theorem run_nil (s : σ) : run step s [] = (s, []) := rfl

@[simp] theorem run_cons (s : σ) (i : ι) (is : List ι) :
    run step s (i :: is) =
      ((run step (step s i).1 is).1, (step s i).2 ++ (run step (step s i).1 is).2) := rfl

theorem run_append (s : σ) (is js : List ι) :
    run step s (is ++ js) =
      ((run step (run step s is).1 js).1,
        (run step s is).2 ++ (run step (run step s is).1 js).2) := by
  induction is generalizing s with
  | nil => simp
  | cons i is ih => simp [ih]

@[simp] theorem guarded_nil (ok : σ → ι → Prop) (s : σ) : Guarded step ok s [] := trivial

@[simp] theorem guarded_cons (ok : σ → ι → Prop) (s : σ) (i : ι) (is : List ι) :
    Guarded step ok s (i :: is) ↔ ok s i ∧ Guarded step ok (step s i).1 is := Iff.rfl

theorem guarded_append (ok : σ → ι → Prop) (s : σ) (is js : List ι) :
    Guarded step ok s (is ++ js) ↔
      Guarded step ok s is ∧ Guarded step ok (run step s is).1 js := by
  induction is generalizing s with
  | nil => simp
  | cons i is ih => simp [ih, and_assoc]

theorem guarded_true (s : σ) (is : List ι) : Guarded step (fun _ _ => True) s is := by
  induction is generalizing s with
  | nil => exact trivial
  | cons i is ih => exact ⟨trivial, ih _⟩

theorem run_invariant_append {ok : σ → ι → Prop} {I : σ → List ε → Prop}
    (hstep : ∀ s tr i, I s tr → ok s i → I (step s i).1 (tr ++ (step s i).2))
    {s : σ} {tr : List ε} (h : I s tr) {is : List ι} (hok : Guarded step ok s is) :
    I (run step s is).1 (tr ++ (run step s is).2) := by
  induction is generalizing s tr with
  | nil => simpa using h
  | cons i is ih =>
    have hnext := ih (hstep s tr i h hok.1) hok.2
    simpa only [run_cons, List.append_assoc] using hnext

/-- Induction over a guarded run: an invariant of the state and of the trace so
far that every guarded step keeps holds at the end of the run. -/
theorem run_invariant_of_guarded {ok : σ → ι → Prop} {I : σ → List ε → Prop}
    (hstep : ∀ s tr i, I s tr → ok s i → I (step s i).1 (tr ++ (step s i).2))
    {s : σ} (h : I s []) {is : List ι} (hok : Guarded step ok s is) :
    I (run step s is).1 (run step s is).2 := by
  simpa only [List.nil_append] using run_invariant_append hstep h hok

/-- Induction over a run without a guard. -/
theorem run_invariant {I : σ → List ε → Prop}
    (hstep : ∀ s tr i, I s tr → I (step s i).1 (tr ++ (step s i).2))
    {s : σ} (h : I s []) (is : List ι) : I (run step s is).1 (run step s is).2 := by
  exact run_invariant_of_guarded (fun s tr i hi _ => hstep s tr i hi) h (guarded_true s is)

/-- What holds of the events of every step holds of the events of a run. -/
theorem forall_mem_run {p : ε → Prop} (hstep : ∀ s i, ∀ e ∈ (step s i).2, p e) (s : σ)
    (is : List ι) : ∀ e ∈ (run step s is).2, p e := by
  induction is generalizing s with
  | nil =>
    intro e he
    exact absurd he (by simp)
  | cons i is ih =>
    intro e he
    rcases List.mem_append.mp he with he | he
    · exact hstep s i e he
    · exact ih _ e he

/-- If no step has events, a run has none. -/
theorem run_events_eq_nil (hstep : ∀ s i, (step s i).2 = []) (s : σ) (is : List ι) :
    (run step s is).2 = [] := by
  refine List.eq_nil_iff_forall_not_mem.mpr (forall_mem_run (fun s i e he => ?_) s is)
  rw [hstep s i] at he
  exact absurd he (by simp)

/-- A state predicate kept by the steps on the inputs of a run holds at its end. -/
theorem run_state_invariant {P : σ → Prop} (is : List ι)
    (hstep : ∀ s, ∀ i ∈ is, P s → P (step s i).1) {s : σ} (h : P s) : P (run step s is).1 := by
  induction is generalizing s with
  | nil => exact h
  | cons i is ih =>
    have hhead := hstep s i (by simp) h
    exact ih (fun s j hj => hstep s j (by simp [hj])) hhead

/-- A guard that, with an invariant, implies another one at every step. -/
theorem Guarded.of_invariant {ok ok' : σ → ι → Prop} {P : σ → Prop}
    (hstep : ∀ s i, P s → ok s i → P (step s i).1 ∧ ok' s i) {s : σ} (h : P s) {is : List ι}
    (hok : Guarded step ok s is) : Guarded step ok' s is := by
  induction is generalizing s with
  | nil => exact trivial
  | cons i is ih =>
    obtain ⟨hnext, hhead⟩ := hstep s i h hok.1
    exact ⟨hhead, ih hnext hok.2⟩

/-- If a predicate survives a step exactly when the step is `ok`, then the runs in
which it holds all the time are the guarded ones. -/
theorem guarded_iff_invariant {ok : σ → ι → Prop} {P : σ → Prop} (is : List ι)
    (hstep : ∀ s, ∀ i ∈ is, P s → (P (step s i).1 ↔ ok s i)) {s : σ} (h : P s) :
    Guarded step ok s is ↔ ∀ k, P (run step s (is.take k)).1 := by
  induction is generalizing s with
  | nil => simpa using h
  | cons i is ih =>
    have hhead := hstep s i (by simp) h
    have htail := @ih fun s j hj => hstep s j (by simp [hj])
    constructor
    · rintro ⟨hok, hrest⟩ k
      have hnext := hhead.mpr hok
      cases k with
      | zero => exact h
      | succ k => exact (htail hnext).mp hrest k
    · intro hall
      have hnext : P (step s i).1 := hall 1
      exact ⟨hhead.mp hnext, (htail hnext).mpr fun k => hall (k + 1)⟩

/-- Two runs, from `s` and from `t`, that differ only in inputs that satisfy `skip`
in the state they arrive in. -/
inductive SameBut (step : σ → ι → σ × List ε) (skip : σ → ι → Prop) : σ → σ → List ι → List ι → Prop
  | nil (s t : σ) : SameBut step skip s t [] []
  | both {s t : σ} {i : ι} {is js : List ι}
      (h : SameBut step skip (step s i).1 (step t i).1 is js) :
      SameBut step skip s t (i :: is) (i :: js)
  | left {s t : σ} {i : ι} {is js : List ι} (hskip : skip s i)
      (h : SameBut step skip (step s i).1 t is js) : SameBut step skip s t (i :: is) js
  | right {s t : σ} {i : ι} {is js : List ι} (hskip : skip t i)
      (h : SameBut step skip s (step t i).1 is js) : SameBut step skip s t is (i :: js)

/-- If the inputs that are skipped have no effect, the runs end in the same state
with the same events. -/
theorem SameBut.run_eq {skip : σ → ι → Prop} (hskip : ∀ s i, skip s i → step s i = (s, []))
    {s t : σ} {is js : List ι} (h : SameBut step skip s t is js) (hst : s = t) :
    run step s is = run step t js := by
  induction h with
  | nil s t => rw [hst]
  | both _ ih =>
    subst hst
    rw [run_cons, run_cons, ih rfl]
  | left hs _ ih =>
    have hstep := hskip _ _ hs
    rw [hstep] at ih
    rw [run_cons, hstep]
    simpa using ih hst
  | right ht _ ih =>
    have hstep := hskip _ _ ht
    rw [hstep] at ih
    rw [run_cons, hstep]
    simpa using ih hst

/-- Leaving out the inputs that `keep` rejects: if they change nothing that `R` relates
and cause no event that `out` keeps, the two runs stay related, and the events kept of
the one are the events of the other. -/
theorem run_filter {R : σ → σ → Prop} {keep : ι → Bool} {out : ε → Bool} (is : List ι)
    (hskip : ∀ s t, ∀ i ∈ is, R s t → keep i = false →
      R (step s i).1 t ∧ (step s i).2.filter out = [])
    (hkeep : ∀ s t, ∀ i ∈ is, R s t → keep i = true →
      R (step s i).1 (step t i).1 ∧ (step s i).2.filter out = (step t i).2)
    {s t : σ} (h : R s t) :
    R (run step s is).1 (run step t (is.filter keep)).1 ∧
      (run step s is).2.filter out = (run step t (is.filter keep)).2 := by
  induction is generalizing s t with
  | nil => exact ⟨h, rfl⟩
  | cons i is ih =>
    have ih' := @ih (fun s t j hj => hskip s t j (by simp [hj])) fun s t j hj =>
      hkeep s t j (by simp [hj])
    cases hi : keep i with
    | false =>
      obtain ⟨hnext, hout⟩ := hskip s t i (by simp) h hi
      rw [List.filter_cons_of_neg (by simp [hi]), run_cons, List.filter_append, hout]
      exact ih' hnext
    | true =>
      obtain ⟨hnext, hout⟩ := hkeep s t i (by simp) h hi
      obtain ⟨hend, hrest⟩ := ih' hnext
      rw [List.filter_cons_of_pos hi, run_cons, run_cons, List.filter_append, hout]
      exact ⟨hend, by rw [hrest]⟩

/-- The machine that moves like `step` and reports `obs` of each step instead of its events. -/
def observe {γ : Type*} (step : σ → ι → σ × List ε) (obs : σ → ι → List γ) (s : σ) (i : ι) :
    σ × List γ := ((step s i).1, obs s i)

section Observe

variable {γ : Type*} (step) (obs : σ → ι → List γ)

@[simp] theorem run_observe_fst (s : σ) (is : List ι) :
    (run (observe step obs) s is).1 = (run step s is).1 := by
  induction is generalizing s with
  | nil => rfl
  | cons i is ih => exact ih _

@[simp] theorem run_observe_inputs (s : σ) (is : List ι) :
    (run (observe step fun _ i => [i]) s is).2 = is := by
  induction is generalizing s with
  | nil => rfl
  | cons i is ih => exact congrArg (i :: ·) (ih _)

theorem observe_invariant_append {ok : σ → ι → Prop} {I : σ → List ε → List γ → Prop}
    (hstep : ∀ s tr log i, I s tr log → ok s i →
      I (step s i).1 (tr ++ (step s i).2) (log ++ obs s i))
    {s : σ} {tr : List ε} {log : List γ} (h : I s tr log) {is : List ι}
    (hok : Guarded step ok s is) :
    I (run step s is).1 (tr ++ (run step s is).2) (log ++ (run (observe step obs) s is).2) := by
  induction is generalizing s tr log with
  | nil => simpa using h
  | cons i is ih =>
    have hnext := ih (hstep s tr log i h hok.1) hok.2
    simpa only [run_cons, observe, List.append_assoc] using hnext

/-- Induction over a guarded run with what is observed of it: an invariant of the state, of the
trace and of the observations so far. -/
theorem observe_invariant_of_guarded {ok : σ → ι → Prop} {I : σ → List ε → List γ → Prop}
    (hstep : ∀ s tr log i, I s tr log → ok s i →
      I (step s i).1 (tr ++ (step s i).2) (log ++ obs s i))
    {s : σ} (h : I s [] []) {is : List ι} (hok : Guarded step ok s is) :
    I (run step s is).1 (run step s is).2 (run (observe step obs) s is).2 := by
  simpa only [List.nil_append] using observe_invariant_append step obs hstep h hok

/-- The same for runs without a guard. -/
theorem observe_invariant {I : σ → List ε → List γ → Prop}
    (hstep : ∀ s tr log i, I s tr log → I (step s i).1 (tr ++ (step s i).2) (log ++ obs s i))
    {s : σ} (h : I s [] []) (is : List ι) :
    I (run step s is).1 (run step s is).2 (run (observe step obs) s is).2 :=
  observe_invariant_of_guarded step obs (fun s tr log i hi _ => hstep s tr log i hi) h
    (guarded_true s is)

end Observe

/-- An allowance for the inputs still to come, of which every step takes no more than its part,
bounds the weight of the events of a run. -/
theorem run_weight_le {w : List ε → ℕ} {b : List ι → ℕ} {P : σ → Prop} (hnil : w [] = 0)
    (happend : ∀ es fs, w (es ++ fs) = w es + w fs) (hinv : ∀ s i, P s → P (step s i).1)
    (hstep : ∀ s i is, P s → w (step s i).2 + b is ≤ b (i :: is)) {s : σ} (hs : P s)
    (is : List ι) : w (run step s is).2 ≤ b is := by
  induction is generalizing s with
  | nil =>
    rw [run_nil, hnil]
    exact Nat.zero_le _
  | cons i is ih =>
    rw [run_cons, happend]
    exact Nat.le_trans (Nat.add_le_add_left (ih (hinv s i hs)) _) (hstep s i is hs)

/-- A loop over the slots `0`, …, `n - 1` that brings each slot into order at its turn and
leaves the others in order. -/
theorem run_range_forall {step : σ → ℕ → σ × List ε} {Q : ℕ → σ → Prop}
    (hself : ∀ s j, Q j (step s j).1) (hkeep : ∀ s j k, k ≠ j → Q k s → Q k (step s j).1)
    (s : σ) (n : ℕ) : ∀ j < n, Q j (run step s (List.range n)).1 := by
  induction n with
  | zero => exact fun j hj => absurd hj (Nat.not_lt_zero j)
  | succ n ih =>
    intro j hj
    rw [List.range_succ, run_append]
    by_cases hjn : j = n
    · subst hjn
      exact hself _ j
    · exact hkeep _ n j hjn (ih j (by omega))

/-- The machine with a clock beside its state: every input says up to when it lasts. -/
def clocked {τ : Type*} (step : σ → ι → σ × List ε) (c : σ × τ) (x : ι × τ) :
    (σ × τ) × List ε := (((step c.1 x.1).1, x.2), (step c.1 x.1).2)

theorem run_clocked {τ : Type*} (step : σ → ι → σ × List ε) (c : σ × τ) (xs : List (ι × τ)) :
    (run (clocked step) c xs).1.1 = (run step c.1 (xs.map Prod.fst)).1 ∧
      (run (clocked step) c xs).2 = (run step c.1 (xs.map Prod.fst)).2 := by
  induction xs generalizing c with
  | nil => exact ⟨rfl, rfl⟩
  | cons x xs ih =>
    obtain ⟨hstate, htrace⟩ := ih (clocked step c x).1
    exact ⟨hstate, congrArg ((clocked step c x).2 ++ ·) htrace⟩

/-- A loop whose body may leave it, with the reason it was left for; `none` if the inputs have
run out. -/
def runUntil {ξ : Type*} (body : σ → ι → (σ × List ε) × Option ξ) :
    σ → List ι → (σ × List ε) × Option ξ
  | s, [] => ((s, []), none)
  | s, i :: is =>
    match body s i with
    | (r, some x) => (r, some x)
    | (r, none) =>
      let rest := runUntil body r.1 is
      ((rest.1.1, r.2 ++ rest.1.2), rest.2)

/-- What the rounds of a loop read, up to the first that leaves it. -/
def readUntil {κ ξ : Type*} (reads : ι → List κ × Option ξ) : List ι → List κ × Option ξ
  | [] => ([], none)
  | i :: is =>
    match reads i with
    | (ks, some x) => (ks, some x)
    | (ks, none) => (ks ++ (readUntil reads is).1, (readUntil reads is).2)

section Until

variable {κ ξ : Type*} {reads : ι → List κ × Option ξ}

theorem readUntil_cons_none {i : ι} (h : (reads i).2 = none) (is : List ι) :
    readUntil reads (i :: is) =
      ((reads i).1 ++ (readUntil reads is).1, (readUntil reads is).2) := by
  rw [readUntil]
  split
  · next ks x hi => exact absurd h (by simp [hi])
  · next ks hi => rw [hi]

/-- If every round runs a machine on what it reads, and what it reads does not depend on the
state, then so does the loop. -/
theorem runUntil_eq_run {step : σ → κ → σ × List ε}
    {body : σ → ι → (σ × List ε) × Option ξ}
    (hbody : ∀ s i, body s i = (run step s (reads i).1, (reads i).2)) (s : σ) (is : List ι) :
    runUntil body s is = (run step s (readUntil reads is).1, (readUntil reads is).2) := by
  induction is generalizing s with
  | nil => rfl
  | cons i is ih =>
    rw [runUntil, readUntil, hbody]
    rcases reads i with ⟨ks, _ | x⟩
    · simp only [ih, run_append]
    · rfl

/-- The state after one more round. -/
theorem runUntil_concat {body : σ → ι → (σ × List ε) × Option ξ} {s : σ} {is : List ι}
    (h : (runUntil body s is).2 = none) (i : ι) :
    (runUntil body s (is ++ [i])).1.1 = (body (runUntil body s is).1.1 i).1.1 := by
  induction is generalizing s with
  | nil =>
    rcases hi : body s i with ⟨r, _ | x⟩ <;> simp [runUntil, hi]
  | cons j is ih =>
    rw [runUntil] at h
    rw [List.cons_append, runUntil, runUntil]
    split at h
    · exact absurd h (by simp)
    · exact ih h

/-- The loop goes on as long as no round leaves it. -/
theorem readUntil_eq_none_iff (is : List ι) :
    (readUntil reads is).2 = none ↔ ∀ i ∈ is, (reads i).2 = none := by
  induction is with
  | nil => simp [readUntil]
  | cons i is ih =>
    cases hi : (reads i).2 with
    | none => simp [readUntil_cons_none hi, hi, ih]
    | some x =>
      have hleft : (readUntil reads (i :: is)).2 = some x := by
        rw [readUntil]
        split
        · next hsome => simpa [hsome] using hi
        · next hnone => exact absurd hi (by simp [hnone])
      simp [hleft, hi]

theorem forall_mem_readUntil {p : κ → Prop} (h : ∀ i, ∀ k ∈ (reads i).1, p k) (is : List ι) :
    ∀ k ∈ (readUntil reads is).1, p k := by
  induction is with
  | nil => simp [readUntil]
  | cons i is ih =>
    have hi := h i
    rw [readUntil]
    split
    · next heq => exact (heq ▸ hi :)
    · next heq => exact List.forall_mem_append.mpr ⟨(heq ▸ hi :), ih⟩

end Until

/-- Finite sequences of a labelled step relation, with the labels concatenated. -/
inductive Steps (R : σ → List ε → σ → Prop) : σ → List ε → σ → Prop
  | refl (s : σ) : Steps R s [] s
  | head {s t u : σ} {es fs : List ε} (h : R s es t) (rest : Steps R t fs u) :
      Steps R s (es ++ fs) u

variable {R : σ → List ε → σ → Prop}

theorem Steps.single {s t : σ} {es : List ε} (h : R s es t) : Steps R s es t := by
  simpa using Steps.head h (Steps.refl t)

theorem Steps.trans {s t u : σ} {es fs : List ε} (h : Steps R s es t) (h' : Steps R t fs u) :
    Steps R s (es ++ fs) u := by
  induction h with
  | refl => exact h'
  | head hstep _ ih =>
    rw [List.append_assoc]
    exact Steps.head hstep (ih h')

/-- Induction over a sequence of steps. -/
theorem Steps.invariant {I : σ → List ε → Prop}
    (hstep : ∀ {s es t} tr, I s tr → R s es t → I t (tr ++ es))
    {s t : σ} {es tr : List ε} (h : Steps R s es t) (hs : I s tr) : I t (tr ++ es) := by
  induction h generalizing tr with
  | refl => simpa using hs
  | head hR _ ih =>
    rw [← List.append_assoc]
    exact ih (hstep tr hs hR)

/-- The same from the start, where there is no trace yet. -/
theorem Steps.invariant_nil {I : σ → List ε → Prop}
    (hstep : ∀ {s es t} tr, I s tr → R s es t → I t (tr ++ es))
    {s t : σ} {es : List ε} (h : Steps R s es t) (hs : I s []) : I t es := by
  simpa only [List.nil_append] using h.invariant (fun tr hi hR => hstep tr hi hR) hs

/-- If every step of a machine is a sequence of steps of `R` on a part of the
state, then so is every run. -/
theorem steps_run {τ : Type*} {R : τ → List ε → τ → Prop} (part : σ → τ)
    (hstep : ∀ s i, Steps R (part s) (step s i).2 (part (step s i).1)) (s : σ) (is : List ι) :
    Steps R (part s) (run step s is).2 (part (run step s is).1) := by
  induction is generalizing s with
  | nil => exact Steps.refl _
  | cons i is ih => exact (hstep s i).trans (ih _)

end Machine
