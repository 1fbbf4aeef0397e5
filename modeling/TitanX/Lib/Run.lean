import Mathlib.Data.List.Induction
import Mathlib.Data.List.Forall2

/-!
# Runs of a deterministic machine

A component that is driven by a sequence of calls is a function
`step : σ → ι → σ × ο` from a state and a call to the next state and what the
call returned. A *run* is a list of calls, and its *trace* keeps, for every call,
the state before it, what it returned and the state after it.

Whole-run statements are proved by `run_invariant`: an invariant may speak about
the calls made so far as well as about the state, and about the trace, which is a
function of the calls. The induction is on the last call, so that the history
grows the way the program grows it. `run_simulation` is the same rule for two machines
that are driven side by side, and `run_component` the one for a machine inside another.
`trace_filter` takes calls out of a run that change nothing, and `outputs_isolated` those that
do not touch the part of the state in question.
-/

namespace TitanX

/-- One call of a run. -/
structure Transition (σ ι ο : Type) where
  /-- The state the call found. -/
  before : σ
  /-- The call. -/
  input : ι
  /-- What it returned. -/
  output : ο
  /-- The state it left. -/
  after : σ

section Run

variable {σ ι ο : Type} (step : σ → ι → σ × ο)

/-- The state after a sequence of calls. -/
def run (s : σ) : List ι → σ
  | [] => s
  | i :: is => run (step s i).1 is

/-- The calls of a run with the states around them. -/
def trace (s : σ) : List ι → List (Transition σ ι ο)
  | [] => []
  | i :: is => ⟨s, i, (step s i).2, (step s i).1⟩ :: trace (step s i).1 is

@[simp] theorem run_nil (s : σ) : run step s [] = s := rfl

@[simp] theorem trace_nil (s : σ) : trace step s [] = [] := rfl

theorem run_append (s : σ) (is js : List ι) :
    run step s (is ++ js) = run step (run step s is) js := by
  induction is generalizing s with
  | nil => rfl
  | cons i is ih => exact ih (step s i).1

theorem run_snoc (s : σ) (is : List ι) (i : ι) :
    run step s (is ++ [i]) = (step (run step s is) i).1 := by
  rw [run_append]; rfl

theorem trace_append (s : σ) (is js : List ι) :
    trace step s (is ++ js) = trace step s is ++ trace step (run step s is) js := by
  induction is generalizing s with
  | nil => rfl
  | cons i is ih => exact congrArg (List.cons _) (ih (step s i).1)

theorem flatMap_trace {β : Type} (f : ι → List β) (s : σ) (is : List ι) :
    (trace step s is).flatMap (fun t => f t.input) = is.flatMap f := by
  induction is generalizing s with
  | nil => rfl
  | cons i is ih => exact congrArg (f i ++ ·) (ih (step s i).1)

/-- The last call of a run, with the state the calls before it led to. -/
def lastCall (s : σ) (is : List ι) (i : ι) : Transition σ ι ο :=
  ⟨run step s is, i, (step (run step s is) i).2, (step (run step s is) i).1⟩

theorem trace_snoc (s : σ) (is : List ι) (i : ι) :
    trace step s (is ++ [i]) = trace step s is ++ [lastCall step s is i] := by
  rw [trace_append]; rfl

/-- Every transition of a trace is the last call of a prefix of the run. -/
theorem mem_trace {s : σ} {is : List ι} {t : Transition σ ι ο} (h : t ∈ trace step s is) :
    ∃ pre i post, is = pre ++ i :: post ∧ t = lastCall step s pre i := by
  induction is generalizing s with
  | nil => exact absurd h (by simp)
  | cons i is ih =>
      rcases List.mem_cons.mp h with rfl | h
      · exact ⟨[], i, is, rfl, rfl⟩
      · obtain ⟨pre, j, post, hcut, ht⟩ := ih h
        exact ⟨i :: pre, j, post, by rw [hcut]; rfl, ht⟩

/--
**The invariant rule.** `V` is what is assumed of the calls as a whole, and has
to pass to shorter runs; `P` holds at the start and every further call keeps it.
-/
theorem run_invariant {s : σ} {V : List ι → Prop} {P : List ι → σ → Prop}
    (hV : ∀ is i, V (is ++ [i]) → V is) (hinit : P [] s)
    (hstep : ∀ is i, V (is ++ [i]) → P is (run step s is) →
      P (is ++ [i]) (step (run step s is) i).1) :
    ∀ is, V is → P is (run step s is) := by
  intro is
  induction is using List.reverseRecOn with
  | nil => exact fun _ => hinit
  | append_singleton is i ih =>
      intro hok
      rw [run_snoc]
      exact hstep is i hok (ih (hV is i hok))

/-- The invariant rule for runs of any calls. -/
theorem run_always {s : σ} {P : List ι → σ → Prop} (hinit : P [] s)
    (hstep : ∀ is i, P is (run step s is) → P (is ++ [i]) (step (run step s is) i).1)
    (is : List ι) : P is (run step s is) :=
  run_invariant step (V := fun _ => True) (fun _ _ _ => trivial) hinit
    (fun is i _ hp => hstep is i hp) is trivial

/-- The invariant rule for runs all of whose calls meet a condition `Q`. -/
theorem trace_invariant {s : σ} {V : List ι → Prop} {Q : Transition σ ι ο → Prop} {P : σ → Prop}
    (hV : ∀ is i, V (is ++ [i]) → V is) (hinit : P s)
    (hstep : ∀ is i, V (is ++ [i]) → Q (lastCall step s is i) → P (run step s is) →
      P (step (run step s is) i).1) :
    ∀ is, V is → (∀ t ∈ trace step s is, Q t) → P (run step s is) := by
  intro is hok hQ
  refine run_invariant step (V := fun is => V is ∧ ∀ t ∈ trace step s is, Q t) (P := fun _ => P)
    (fun is i h => ⟨hV is i h.1, fun t ht => h.2 t ?_⟩) hinit
    (fun is i h hp => hstep is i h.1 (h.2 _ ?_) hp) is ⟨hok, hQ⟩
  · rw [trace_snoc]; exact List.mem_append_left _ ht
  · rw [trace_snoc]; exact List.mem_append_right _ (List.mem_cons_self ..)

theorem trace_always {s : σ} {Q : Transition σ ι ο → Prop} {P : σ → Prop} (hinit : P s)
    (hstep : ∀ is i, Q (lastCall step s is i) → P (run step s is) → P (step (run step s is) i).1)
    {is : List ι} (h : ∀ t ∈ trace step s is, Q t) : P (run step s is) :=
  trace_invariant step (V := fun _ => True) (fun _ _ _ => trivial) hinit
    (fun is i _ hQ hp => hstep is i hQ hp) is trivial h

/--
**The erasure rule.** Calls that leave every state as it is can be taken out of a run: the
others are found in the same states, return the same and lead to the same.
-/
theorem trace_filter (p : ι → Bool) (hidle : ∀ s i, p i = false → (step s i).1 = s) (s : σ)
    (is : List ι) :
    run step s (is.filter p) = run step s is
      ∧ trace step s (is.filter p) = (trace step s is).filter (fun t => p t.input) := by
  induction is generalizing s with
  | nil => exact ⟨rfl, rfl⟩
  | cons i is ih =>
      obtain ⟨hrun, htrace⟩ := ih (step s i).1
      cases hp : p i with
      | true =>
          rw [List.filter_cons_of_pos hp]
          refine ⟨hrun, ?_⟩
          rw [trace, trace, htrace]
          exact (List.filter_cons_of_pos (by exact hp)).symm
      | false =>
          have hs := hidle s i hp
          rw [List.filter_cons_of_neg (by simp [hp]), run, trace]
          rw [hs] at hrun htrace ⊢
          refine ⟨hrun, htrace.trans ?_⟩
          exact (List.filter_cons_of_neg (by simp [hp])).symm

end Run

/-! ## Two machines side by side -/

/-- What the calls of a run returned. -/
def outputs {σ ι ο : Type} (step : σ → ι → σ × ο) (s : σ) (is : List ι) : List ο :=
  (trace step s is).map Transition.output

/--
**The isolation rule.** `p` are the calls of one party and `part` is what they read and write
of the state. If the other calls leave that part alone, the party gets the answers it would
get if it were the only one to call.
-/
theorem outputs_isolated {σ τ ι ο : Type} (step : σ → ι → σ × ο) (part : σ → τ) (p : ι → Bool)
    (hother : ∀ s i, p i = false → part (step s i).1 = part s)
    (hown : ∀ s s' i, p i = true → part s = part s' →
      part (step s i).1 = part (step s' i).1 ∧ (step s i).2 = (step s' i).2)
    (is : List ι) {s s' : σ} (h : part s = part s') :
    ((trace step s is).filter (fun t => p t.input)).map Transition.output
      = outputs step s' (is.filter p) := by
  induction is generalizing s s' with
  | nil => rfl
  | cons i is ih =>
      rw [trace]
      cases hp : p i with
      | true =>
          obtain ⟨hpart, hout⟩ := hown s s' i hp h
          rw [List.filter_cons_of_pos (by exact hp), List.filter_cons_of_pos hp, List.map_cons,
            ih hpart]
          exact congrArg (· :: _) hout
      | false =>
          rw [List.filter_cons_of_neg (by simp [hp]), List.filter_cons_of_neg (by simp [hp])]
          exact ih ((hother s i hp).trans h)

theorem outputs_snoc {σ ι ο : Type} (step : σ → ι → σ × ο) (s : σ) (is : List ι) (i : ι) :
    outputs step s (is ++ [i]) = outputs step s is ++ [(step (run step s is) i).2] := by
  rw [outputs, trace_snoc, List.map_append]; rfl

theorem forall₂_snoc_left {α β : Type} {R : α → β → Prop} {a : α} :
    ∀ {as : List α} {bs : List β}, List.Forall₂ R (as ++ [a]) bs →
      ∃ bs' b, bs = bs' ++ [b] ∧ List.Forall₂ R as bs' ∧ R a b
  | [], _, .cons hab .nil => ⟨[], _, rfl, .nil, hab⟩
  | _ :: _, _, .cons hc h => by
      obtain ⟨bs', b, hbs, has, hab⟩ := forall₂_snoc_left h
      exact ⟨_ :: bs', b, by rw [hbs]; rfl, .cons hc has, hab⟩

/--
**The simulation rule.** Related states that make related calls return related values
and go to related states, for as long as the calls meet `V`.
-/
theorem run_simulation {σ σ' ι ι' ο ο' : Type} (step : σ → ι → σ × ο) (step' : σ' → ι' → σ' × ο')
    {s : σ} {s' : σ'} {V : List ι → Prop} {R : σ → σ' → Prop} {I : ι → ι' → Prop}
    {O : ο → ο' → Prop} (hV : ∀ is i, V (is ++ [i]) → V is) (hinit : R s s')
    (hstep : ∀ is i t' i', V (is ++ [i]) → I i i' → R (run step s is) t' →
      R (step (run step s is) i).1 (step' t' i').1 ∧ O (step (run step s is) i).2 (step' t' i').2) :
    ∀ is is', V is → List.Forall₂ I is is' →
      R (run step s is) (run step' s' is')
        ∧ List.Forall₂ O (outputs step s is) (outputs step' s' is') := by
  intro is
  induction is using List.reverseRecOn with
  | nil =>
      intro is' _ h
      cases h
      exact ⟨hinit, .nil⟩
  | append_singleton is i ih =>
      intro is' hok h
      obtain ⟨js, j, rfl, hjs, hij⟩ := forall₂_snoc_left h
      obtain ⟨hR, hO⟩ := ih js (hV is i hok) hjs
      obtain ⟨hR', hO'⟩ := hstep is i _ j hok hij hR
      rw [run_snoc, run_snoc, outputs_snoc, outputs_snoc]
      exact ⟨hR', List.rel_append hO (.cons hO' .nil)⟩

/-! ## A component of a machine -/

section Component

variable {σ σ' ι ι' ο ο' : Type} (step : σ → ι → σ × ο) (step' : σ' → ι' → σ' × ο')
  (part : σ → σ') (calls : Transition σ ι ο → List ι')

/--
**The component rule.** A part of the state is a machine of its own, and each call of the
whole machine makes some calls on it. After any run the part is where its own calls lead
it, in the order in which they were made.
-/
theorem run_component {s : σ}
    (hstep : ∀ is i, part (step (run step s is) i).1
      = run step' (part (run step s is)) (calls (lastCall step s is i))) (is : List ι) :
    part (run step s is) = run step' (part s) ((trace step s is).flatMap calls) := by
  induction is using List.reverseRecOn with
  | nil => rfl
  | append_singleton is i ih =>
      rw [run_snoc, trace_snoc, List.flatMap_append, List.flatMap_singleton, run_append, ← ih]
      exact hstep is i

/-- The calls on the part, with the states around them, are found in the run of the whole. -/
theorem trace_component {s : σ}
    (hstep : ∀ is i, part (step (run step s is) i).1
      = run step' (part (run step s is)) (calls (lastCall step s is i))) (is : List ι) :
    trace step' (part s) ((trace step s is).flatMap calls)
      = (trace step s is).flatMap (fun t => trace step' (part t.before) (calls t)) := by
  induction is using List.reverseRecOn with
  | nil => rfl
  | append_singleton is i ih =>
      rw [trace_snoc, List.flatMap_append, List.flatMap_append, List.flatMap_singleton,
        List.flatMap_singleton, trace_append, ih, ← run_component step step' part calls hstep is]
      rfl

end Component

end TitanX
