import TitanX.Model.EventStore

/-!
# The writer thread

What the event store hands to the database, and whether it can be shut down.

Every event that was pushed is either written, or in the writer's hand, or in the queue, in
this order (`StoreInv.contents`). That is enough for the order and for "exactly once": the
two drain loops take from the queue in different ways, but both write what comes next. A
`close` that returns has waited for the end of the writer, and the writer ends with an
empty queue.

Whether `close` returns at all is another matter. It stores `running_` and notifies without
the mutex, so both can happen after the writer has tested the predicate of its `wait` and
before it blocks. The notification is then lost, nobody sends another, and `join` waits for
a thread that waits for `close` (`close_hangs`).
-/

namespace TitanX.Proof

open TitanX EventStore

/-! ## What a step can do -/

/-- A step of the writer: its stage and the queue before, both after it, and what it passed
to `writeToDb`. -/
inductive Writes (running : Bool) :
    WriterStage → List OrderEvent → WriterStage → List OrderEvent → List OrderEvent → Prop where
  /-- At the end of the thread, blocked, or waiting for the mutex. -/
  | idle {w : WriterStage} {q : List OrderEvent} : Writes running w q w q []
  | stay {q : List OrderEvent} (hr : running = true) : Writes running .looping q .locking q []
  | leave {q : List OrderEvent} (hr : running = false) : Writes running .looping q .leaving q []
  | lock {q : List OrderEvent} : Writes running .locking q .testing q []
  | proceed {q : List OrderEvent} (h : q ≠ [] ∨ running = false) :
      Writes running .testing q .draining q []
  | block {q : List OrderEvent} (hq : q = []) (hr : running = true) :
      Writes running .testing q .blocking q []
  | wait {q : List OrderEvent} : Writes running .blocking q .waiting q []
  | relock {q : List OrderEvent} : Writes running .woken q .testing q []
  | pop {e : OrderEvent} {q : List OrderEvent} : Writes running .draining (e :: q) (.popped e) q []
  | drained {q : List OrderEvent} (hq : q = []) : Writes running .draining q .looping q []
  | release {e : OrderEvent} {q : List OrderEvent} : Writes running (.popped e) q (.writing e) q []
  | write {e : OrderEvent} {q : List OrderEvent} : Writes running (.writing e) q .relocking q [e]
  | regain {q : List OrderEvent} : Writes running .relocking q .draining q []
  | lockLast {q : List OrderEvent} : Writes running .leaving q .flushing q []
  | flush {e : OrderEvent} {q : List OrderEvent} :
      Writes running .flushing (e :: q) .flushed (e :: q) [e]
  | finish {q : List OrderEvent} (hq : q = []) : Writes running .flushing q .ended q []
  | popLast {q : List OrderEvent} : Writes running .flushed q .flushing q.tail []

/-- What an action leads to. -/
inductive Steps (s : EventStore) : EventStore.Action → EventStore → Prop where
  /-- An `append` call begins, takes or releases the mutex, or does nothing. -/
  | quiet {a : EventStore.Action} {appends : List AppendCall} {m : Option Holder} :
      Steps s a { s with appends, queueMutex := m }
  | pushed {i : Nat} {appends : List AppendCall} (e : OrderEvent) :
      Steps s (.appendStep i) { s with
        queue := s.queue ++ [e], pushed := s.pushed ++ [e], appends }
  /-- A notification by `append`, or a wake-up without one. -/
  | notified {a : EventStore.Action} {appends : List AppendCall} :
      Steps s a { s with writer := s.writer.notified, appends }
  | wrote {w : WriterStage} {q ws : List OrderEvent} {m : Option Holder}
      (h : Writes s.running s.writer s.queue w q ws) :
      Steps s .writerStep { s with
        writer := w, queue := q, written := s.written ++ ws, queueMutex := m }
  | called (h : s.closer = .uncalled) : Steps s .close { s with closer := .store }
  | stored (h : s.closer = .store) :
      Steps s .closeStep { s with running := false, closer := .notify }
  | closeNotified (h : s.closer = .notify) :
      Steps s .closeStep { s with writer := s.writer.notified, closer := .join }
  | joined (h : s.closer = .join) (hw : s.writer = .ended) :
      Steps s .closeStep { s with closer := .returned }

theorem Steps.refl (s : EventStore) (a : EventStore.Action) : Steps s a s := .quiet

/-- A step of the writer that writes nothing. -/
theorem Steps.silent {s : EventStore} {w : WriterStage} {q : List OrderEvent} {m : Option Holder}
    (h : Writes s.running s.writer s.queue w q []) :
    Steps s .writerStep { s with writer := w, queue := q, queueMutex := m } := by
  have hs : Steps s .writerStep { s with
      writer := w, queue := q, written := s.written ++ [], queueMutex := m } := .wrote h
  rwa [List.append_nil] at hs

theorem steps_append (s : EventStore) (i : Nat) (call : AppendCall) :
    Steps s (.appendStep i) (s.append i call) := by
  unfold EventStore.append
  cases call.stage with
  | lock =>
      dsimp only
      split
      · exact .quiet
      · exact .refl s _
  | push => exact .pushed _
  | unlock => exact .quiet
  | notify => exact .notified
  | returned => exact .refl s _

theorem steps_lockThen {s : EventStore} {w : WriterStage}
    (h : Writes s.running s.writer s.queue w s.queue []) : Steps s .writerStep (s.lockThen w) := by
  unfold EventStore.lockThen
  split
  · exact .silent h
  · exact .refl s _

theorem steps_writerLoop (s : EventStore) : Steps s .writerStep s.writerLoop := by
  unfold EventStore.writerLoop
  cases hw : s.writer with
  | looping =>
      refine .silent (m := s.queueMutex) ?_
      rw [hw]
      cases hr : s.running with
      | true => exact .stay rfl
      | false => exact .leave rfl
  | locking => exact steps_lockThen (by rw [hw]; exact .lock)
  | testing =>
      refine .silent (m := s.queueMutex) ?_
      rw [hw]
      cases hr : s.running with
      | false => simpa using Writes.proceed (Or.inr rfl)
      | true =>
          cases hq : s.queue with
          | nil => exact .block rfl rfl
          | cons e q => exact .proceed (Or.inl (List.cons_ne_nil e q))
  | blocking => exact .silent (by rw [hw]; exact .wait)
  | waiting => exact .refl s _
  | woken => exact steps_lockThen (by rw [hw]; exact .relock)
  | draining =>
      cases hq : s.queue with
      | nil =>
          have hs : Steps s .writerStep { s with
              writer := .looping, queue := s.queue, queueMutex := none } :=
            .silent (by rw [hw]; exact .drained hq)
          rwa [hq] at hs
      | cons e q => exact .silent (m := s.queueMutex) (by rw [hw, hq]; exact .pop)
  | popped e => exact .silent (by rw [hw]; exact .release)
  | writing e => exact .wrote (m := s.queueMutex) (by rw [hw]; exact .write)
  | relocking => exact steps_lockThen (by rw [hw]; exact .regain)
  | leaving => exact steps_lockThen (by rw [hw]; exact .lockLast)
  | flushing =>
      cases hq : s.queue with
      | nil =>
          have hs : Steps s .writerStep { s with
              writer := .ended, queue := s.queue, queueMutex := none } :=
            .silent (by rw [hw]; exact .finish hq)
          rwa [hq] at hs
      | cons e q =>
          have hs : Steps s .writerStep { s with
              writer := .flushed, queue := e :: q, written := s.written ++ [e] } :=
            .wrote (m := s.queueMutex) (by rw [hw, hq]; exact .flush)
          exact hs
  | flushed => exact .silent (m := s.queueMutex) (by rw [hw]; exact .popLast)
  | ended => exact .refl s _

theorem steps_close (s : EventStore) : Steps s .closeStep s.close := by
  unfold EventStore.close
  cases hc : s.closer with
  | uncalled => exact .refl s _
  | store => exact .stored hc
  | notify => exact .closeNotified hc
  | join =>
      dsimp only
      split
      · exact .joined hc ‹_›
      · exact .refl s _
  | returned => exact .refl s _

/-- **Every action of the event store is one of these.** -/
theorem step_steps (s : EventStore) (a : EventStore.Action) : Steps s a (s.step a).1 := by
  cases a with
  | append e => exact .quiet
  | appendStep i =>
      unfold EventStore.step
      dsimp only
      cases s.appends[i]? with
      | none => exact .refl s _
      | some call => exact steps_append s i call
  | writerStep => exact steps_writerLoop s
  | wake => exact .notified
  | close =>
      unfold EventStore.step
      dsimp only
      split
      · exact .called ‹_›
      · exact .refl s _
  | closeStep => exact steps_close s

/-- The event store after any interleaving. -/
def storeAfter (actions : List EventStore.Action) : EventStore :=
  run EventStore.step EventStore.initial actions

/-! ## In order, exactly once -/

/-- The event that is out of the queue and not yet written. -/
def inHand : WriterStage → List OrderEvent
  | .popped e => [e]
  | .writing e => [e]
  | _ => []

/-- The part of the queue that is not yet written. -/
def unwritten : WriterStage → List OrderEvent → List OrderEvent
  | .flushed, q => q.tail
  | _, q => q

/-- The writer has read `running_` as false. -/
def Leaving (w : WriterStage) : Prop :=
  w = .leaving ∨ w = .flushing ∨ w = .flushed ∨ w = .ended

structure StoreInv (s : EventStore) : Prop where
  contents : s.pushed = s.written ++ (inHand s.writer ++ unwritten s.writer s.queue)
  front : s.writer = .flushed → s.queue ≠ []
  stays : s.running = true → ¬ Leaving s.writer
  runs : s.closer = .uncalled ∨ s.closer = .store → s.running = true
  joined : s.closer = .returned → s.writer = .ended

/-- A step of the writer writes what comes next. -/
theorem Writes.contents {r : Bool} {w w' : WriterStage} {q q' ws : List OrderEvent}
    (h : Writes r w q w' q' ws) :
    inHand w ++ unwritten w q = ws ++ (inHand w' ++ unwritten w' q') := by
  cases h <;> rfl

theorem Writes.front {r : Bool} {w w' : WriterStage} {q q' ws : List OrderEvent}
    (h : Writes r w q w' q' ws) (hf : w = .flushed → q ≠ []) : w' = .flushed → q' ≠ [] := by
  intro hw'
  cases h with
  | idle => exact hf hw'
  | flush => exact List.cons_ne_nil _ _
  | _ => simp at hw'

theorem Writes.leaving {r : Bool} {w w' : WriterStage} {q q' ws : List OrderEvent}
    (h : Writes r w q w' q' ws) (hl : Leaving w') : Leaving w ∨ r = false := by
  cases h with
  | leave hr => exact Or.inr hr
  | idle => exact Or.inl hl
  | _ => simp_all [Leaving]

theorem Leaving.notified {w : WriterStage} (h : Leaving w.notified) : Leaving w := by
  cases w <;> simp_all [Leaving, WriterStage.notified]

@[simp] theorem inHand_notified (w : WriterStage) : inHand w.notified = inHand w := by
  cases w <;> rfl

@[simp] theorem unwritten_notified (w : WriterStage) (q : List OrderEvent) :
    unwritten w.notified q = unwritten w q := by
  cases w <;> rfl

theorem notified_eq_flushed {w : WriterStage} (h : w.notified = .flushed) : w = .flushed := by
  cases w <;> simp_all [WriterStage.notified]

/-- An event that is pushed comes last. -/
theorem unwritten_push {w : WriterStage} {q : List OrderEvent} (hf : w = .flushed → q ≠ [])
    (e : OrderEvent) : unwritten w (q ++ [e]) = unwritten w q ++ [e] := by
  by_cases hw : w = .flushed
  · subst hw
    exact List.tail_append_of_ne_nil (hf rfl)
  · cases w <;> first | rfl | exact absurd rfl hw

theorem StoreInv.notified {s : EventStore} (h : StoreInv s) (appends : List AppendCall)
    {closer : CloseStage} (hruns : closer = .uncalled ∨ closer = .store → s.running = true)
    (hjoined : closer = .returned → s.writer = .ended) :
    StoreInv { s with writer := s.writer.notified, appends, closer } := by
  refine ⟨?_, fun hw => h.front (notified_eq_flushed hw), fun hr hl => h.stays hr hl.notified,
    hruns, fun hc => ?_⟩
  · rw [h.contents, inHand_notified, unwritten_notified]
  · dsimp only
    rw [hjoined hc]
    rfl

/-- **What one step preserves.** -/
theorem storeInv_steps {s s' : EventStore} {a : EventStore.Action} (h : StoreInv s)
    (hs : Steps s a s') :
    StoreInv s' := by
  cases hs with
  | quiet => exact ⟨h.contents, h.front, h.stays, h.runs, h.joined⟩
  | pushed e =>
      refine ⟨?_, fun _ => by simp, h.stays, h.runs, h.joined⟩
      rw [h.contents, unwritten_push h.front, List.append_assoc, List.append_assoc]
  | notified => exact h.notified _ h.runs h.joined
  | wrote hw =>
      refine ⟨?_, hw.front h.front, fun hr hl => ?_, h.runs, fun hc => ?_⟩
      · rw [h.contents, hw.contents, List.append_assoc]
      · rcases hw.leaving hl with hl | hr'
        · exact h.stays hr hl
        · exact absurd (hr.symm.trans hr') (by decide)
      · have hend := h.joined hc
        rw [hend] at hw
        cases hw
        rfl
  | called hc => exact ⟨h.contents, h.front, h.stays, fun _ => h.runs (Or.inl hc), by simp⟩
  | stored hc => exact ⟨h.contents, h.front, by simp, by simp, by simp⟩
  | closeNotified hc => exact h.notified _ (by simp) (by simp)
  | joined hc hw => exact ⟨h.contents, h.front, h.stays, by simp, fun _ => hw⟩

theorem storeInv_reachable (actions : List EventStore.Action) : StoreInv (storeAfter actions) := by
  refine run_always EventStore.step (P := fun _ s => StoreInv s) ?_ ?_ actions
  · exact ⟨rfl, by simp [EventStore.initial], by simp [EventStore.initial, Leaving],
      fun _ => rfl, by simp [EventStore.initial]⟩
  · intro is a h
    exact storeInv_steps h (step_steps _ a)

/-- Once `P` was pushed, `P` comes first in what was pushed, and the writer does not end
without it. -/
structure Keeps (P : List OrderEvent) (s : EventStore) : Prop where
  inv : StoreInv s
  pushed : P <+: s.pushed
  ended : s.writer = .ended → P <+: s.written

/-- The writer ends where nothing is left. -/
theorem Writes.ended {r : Bool} {w : WriterStage} {q q' ws : List OrderEvent}
    (h : Writes r w q .ended q' ws) :
    w = .ended ∨ (inHand w ++ unwritten w q = [] ∧ ws = []) := by
  cases h with
  | idle => exact Or.inl rfl
  | finish hq => exact Or.inr ⟨hq, rfl⟩

theorem notified_eq_ended {w : WriterStage} (h : w.notified = .ended) : w = .ended := by
  cases w <;> simp_all [WriterStage.notified]

theorem keeps_steps {P : List OrderEvent} {s s' : EventStore} {a : EventStore.Action} (h : Keeps P s)
    (hs : Steps s a s') : Keeps P s' := by
  refine ⟨storeInv_steps h.inv hs, ?_, ?_⟩
  · cases hs with
    | pushed e => exact h.pushed.trans (List.prefix_append _ _)
    | _ => exact h.pushed
  · intro hend
    cases hs with
    | wrote hw =>
        dsimp only at hend ⊢
        subst hend
        rcases hw.ended with hend | ⟨hnone, rfl⟩
        · exact (h.ended hend).trans (List.prefix_append _ _)
        · -- everything pushed is written
          have hall := h.inv.contents
          rw [hnone] at hall
          rw [← hall]
          exact h.pushed
    | notified => exact h.ended (notified_eq_ended hend)
    | closeNotified => exact h.ended (notified_eq_ended hend)
    | _ => exact h.ended hend

/-- Until it is called, `close` does nothing. -/
theorem closer_uncalled (actions : List EventStore.Action) (h : .close ∉ actions) :
    (storeAfter actions).closer = .uncalled := by
  refine run_invariant EventStore.step (V := fun is => .close ∉ is)
    (P := fun _ s => s.closer = .uncalled) ?_ rfl ?_ actions h
  · intro is a ha hmem
    exact ha (List.mem_append_left _ hmem)
  · intro is a ha hc
    have hs := step_steps (run EventStore.step EventStore.initial is) a
    generalize ((run EventStore.step EventStore.initial is).step a).1 = s' at hs
    cases hs with
    | called => exact absurd (List.mem_append_right _ (List.mem_cons_self ..)) ha
    | stored hc' => exact absurd (hc.symm.trans hc') (by decide)
    | closeNotified hc' => exact absurd (hc.symm.trans hc') (by decide)
    | joined hc' => exact absurd (hc.symm.trans hc') (by decide)
    | _ => exact hc

/-- What was pushed before `close` was called is kept from then on. -/
theorem keeps_pushed {before : List EventStore.Action} (h : .close ∉ before)
    (later : List EventStore.Action) :
    Keeps (storeAfter before).pushed (storeAfter (before ++ later)) := by
  have hinv := storeInv_reachable before
  have hnot : (storeAfter before).writer ≠ .ended := by
    intro hend
    refine hinv.stays (hinv.runs (Or.inl (closer_uncalled before h))) ?_
    exact Or.inr (Or.inr (Or.inr hend))
  unfold storeAfter
  rw [run_append]
  refine run_always EventStore.step (P := fun _ s => Keeps (storeAfter before).pushed s) ?_ ?_ later
  · exact ⟨hinv, List.prefix_refl _, fun hend => absurd hend hnot⟩
  · intro is a hk
    exact keeps_steps hk (step_steps _ a)

/--
**In order, exactly once.** After any interleaving of any number of `append` calls, the
writer and `close`, the events passed to `writeToDb` are the first of those that were
pushed, in the same order and none of them twice. If `close` was called after `before`
and has returned, every event that was pushed in `before` is among them.
-/
theorem event_store_in_order (actions : List EventStore.Action) :
    (storeAfter actions).written <+: (storeAfter actions).pushed
      ∧ (∀ e, (storeAfter actions).written.count e ≤ (storeAfter actions).pushed.count e)
      ∧ ∀ before after, actions = before ++ .close :: after → .close ∉ before →
          (storeAfter actions).closer = .returned →
          (storeAfter before).pushed <+: (storeAfter actions).written := by
  have hinv := storeInv_reachable actions
  have hfirst : (storeAfter actions).written <+: (storeAfter actions).pushed := by
    rw [hinv.contents]
    exact List.prefix_append _ _
  refine ⟨hfirst, fun e => hfirst.sublist.count_le e, fun before after hcut hnew hret => ?_⟩
  have hkeeps := keeps_pushed hnew (.close :: after)
  rw [← hcut] at hkeeps
  exact hkeeps.ended (hinv.joined hret)

/-- The event of a limit order of `A` for `n` shares. -/
def receivedEvent (n : Int) : OrderEvent :=
  OrderEvent.received (Order.create "a" 0 "A" "AAPL" .buy .limit 100 0 n)

/-- Two calls of `append` push their events, in the order opposite to that in which they
began; the writer takes the first one. -/
def twoAppends : List EventStore.Action :=
  [.append (receivedEvent 1), .append (receivedEvent 2), .writerStep,
    .appendStep 1, .appendStep 1, .appendStep 1, .appendStep 0, .appendStep 0, .appendStep 0,
    .writerStep, .writerStep, .writerStep, .writerStep]

/-- `close` is called during the first write, and the writer drains the queue. -/
def closeDuringWrite : List EventStore.Action :=
  [.close, .closeStep, .closeStep, .writerStep, .writerStep, .writerStep, .writerStep, .writerStep,
    .writerStep, .writerStep, .writerStep, .writerStep, .writerStep, .closeStep]

theorem event_store_in_order_two_appends :
    (storeAfter (twoAppends ++ closeDuringWrite)).closer = .returned
      ∧ (storeAfter twoAppends).pushed = [receivedEvent 2, receivedEvent 1]
      ∧ (storeAfter twoAppends).written = []
      ∧ (storeAfter twoAppends).pushed
          <+: (storeAfter (twoAppends ++ closeDuringWrite)).written := by
  have hret : (storeAfter (twoAppends ++ closeDuringWrite)).closer = .returned := by decide
  exact ⟨hret, by decide, by decide,
    (event_store_in_order _).2.2 twoAppends closeDuringWrite.tail rfl (by decide) hret⟩

/-! ## Shutdown -/

/-- `close` waits in `join`, the writer is blocked in `wait`, and every call that could
notify it has returned. -/
def Hung (s : EventStore) : Prop :=
  s.closer = .join ∧ s.running = false ∧ s.writer = .waiting
    ∧ ∀ call ∈ s.appends, call.stage = .returned

instance (s : EventStore) : Decidable (Hung s) := inferInstanceAs (Decidable (_ ∧ _))

/-- Not an action of the threads there are: a new call of `append`, or a wake-up without
notification. -/
def Outer (a : EventStore.Action) : Prop := a = .wake ∨ ∃ e, a = .append e

/-- A hung store has no step left but a new call of `append` or a wake-up out of nowhere. -/
theorem Hung.stuck {s : EventStore} (h : Hung s) {a : EventStore.Action} (ha : ¬ Outer a) :
    (s.step a).1 = s := by
  obtain ⟨hc, -, hw, hcalls⟩ := h
  cases a with
  | append e => exact absurd (Or.inr ⟨e, rfl⟩) ha
  | appendStep i =>
      unfold EventStore.step
      dsimp only
      cases hi : s.appends[i]? with
      | none => rfl
      | some call =>
          have hstage := hcalls call (List.mem_of_getElem? hi)
          dsimp only
          unfold EventStore.append
          rw [hstage]
  | writerStep =>
      unfold EventStore.step EventStore.writerLoop
      rw [hw]
  | wake => exact absurd (Or.inl rfl) ha
  | close =>
      unfold EventStore.step
      dsimp only
      rw [if_neg (by rw [hc]; decide)]
  | closeStep =>
      unfold EventStore.step EventStore.close
      rw [hc]
      dsimp only
      rw [if_neg (by rw [hw]; decide)]

theorem Hung.for_ever {actions later : List EventStore.Action} (h : Hung (storeAfter actions))
    (hl : ∀ a ∈ later, ¬ Outer a) : storeAfter (actions ++ later) = storeAfter actions := by
  refine (run_append EventStore.step _ actions later).trans ?_
  induction later with
  | nil => rfl
  | cons a later ih =>
      have hstep := h.stuck (hl a (List.mem_cons_self ..))
      change run EventStore.step ((storeAfter actions).step a).1 later = storeAfter actions
      rw [hstep]
      exact ih (fun b hb => hl b (List.mem_cons_of_mem a hb))

/-- The writer tests its predicate; `close` stores and notifies; the writer blocks. -/
def lostWakeUp : List EventStore.Action :=
  [.writerStep, .writerStep, .writerStep, .close, .closeStep, .closeStep, .writerStep]

/-- **Shutdown can hang.** -/
theorem close_hangs :
    Hung (storeAfter lostWakeUp)
      ∧ ∀ later, (∀ a ∈ later, ¬ Outer a) →
          (storeAfter (lostWakeUp ++ later)).closer = .join := by
  have hhung : Hung (storeAfter lostWakeUp) := by decide
  refine ⟨hhung, fun later hl => ?_⟩
  rw [hhung.for_ever hl]
  exact hhung.1

/-- `close` notifies while the writer is between the test of its predicate and the moment it
blocks. -/
def Missed (t : Transition EventStore EventStore.Action Unit) : Prop :=
  t.input = .closeStep ∧ t.before.closer = .notify ∧ t.before.writer = .blocking

instance (t : Transition EventStore EventStore.Action Unit) : Decidable (Missed t) :=
  inferInstanceAs (Decidable (_ ∧ _))

/-- The writer is blocked, or is about to block. -/
def Blocked (w : WriterStage) : Prop := w = .blocking ∨ w = .waiting

/-- Once `running_` is false, no test of the predicate sends the writer to sleep. -/
theorem Writes.blocked {r : Bool} {w w' : WriterStage} {q q' ws : List OrderEvent}
    (h : Writes r w q w' q' ws) (hb : Blocked w') : Blocked w ∨ r = true := by
  cases h with
  | block _ hr => exact Or.inr hr
  | idle => exact Or.inl hb
  | wait => exact Or.inl (Or.inl rfl)
  | _ => simp [Blocked] at hb

theorem Blocked.notified {w : WriterStage} (h : Blocked w.notified) : w = .blocking := by
  cases w <;> simp_all [Blocked, WriterStage.notified]

/-- After its notification `close` finds the writer awake. -/
structure Awake (s : EventStore) : Prop where
  stopped : s.closer = .notify ∨ s.closer = .join ∨ s.closer = .returned → s.running = false
  awake : s.closer = .join → ¬ Blocked s.writer

theorem awake_steps {s s' : EventStore} {a : EventStore.Action} (h : Awake s)
    (hmiss : a = .closeStep → s.closer = .notify → s.writer ≠ .blocking) (hs : Steps s a s') :
    Awake s' := by
  cases hs with
  | quiet => exact ⟨h.stopped, h.awake⟩
  | pushed e => exact ⟨h.stopped, h.awake⟩
  | notified =>
      refine ⟨h.stopped, fun hc hb => h.awake hc (Or.inl hb.notified)⟩
  | wrote hw =>
      refine ⟨h.stopped, fun hc hb => ?_⟩
      rcases hw.blocked hb with hb | hr
      · exact h.awake hc hb
      · have hstop := h.stopped (Or.inr (Or.inl hc))
        rw [hr] at hstop
        exact absurd hstop (by decide)
  | called hc => exact ⟨by simp, by simp⟩
  | stored hc => exact ⟨fun _ => rfl, by simp⟩
  | closeNotified hc =>
      refine ⟨fun _ => h.stopped (Or.inl hc), fun _ hb => ?_⟩
      exact hmiss rfl hc hb.notified
  | joined hc hw => exact ⟨fun _ => h.stopped (Or.inr (Or.inl hc)), by simp⟩

/--
**No other way to hang.** As long as `close` does not notify between the writer's test of
its predicate and its blocking, the store is never hung.
-/
theorem close_wakes_writer {actions : List EventStore.Action}
    (h : ∀ t ∈ trace EventStore.step EventStore.initial actions, ¬ Missed t) :
    ¬ Hung (storeAfter actions) := by
  have hawake : Awake (storeAfter actions) := by
    refine trace_always EventStore.step (P := Awake) ?_ ?_ h
    · exact ⟨by simp [EventStore.initial], by simp [EventStore.initial]⟩
    · intro is a hmiss hp
      exact awake_steps hp (fun ha hc hw => hmiss ⟨ha, hc, hw⟩) (step_steps _ a)
  intro hhung
  exact hawake.awake hhung.1 (Or.inr hhung.2.2.1)

/-- The writer blocks first, and `close` wakes it. -/
def wokenByClose : List EventStore.Action :=
  [.writerStep, .writerStep, .writerStep, .writerStep, .close, .closeStep, .closeStep]

theorem close_wakes_writer_blocked :
    (storeAfter wokenByClose).closer = .join ∧ (storeAfter wokenByClose).writer = .woken
      ∧ ¬ Hung (storeAfter wokenByClose) := by
  have hmiss : ∀ t ∈ trace EventStore.step EventStore.initial wokenByClose, ¬ Missed t := by
    decide
  exact ⟨by decide, by decide, close_wakes_writer hmiss⟩

end TitanX.Proof
