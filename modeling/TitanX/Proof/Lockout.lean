import TitanX.Model.MarketData
import TitanX.Proof.Breaker
import TitanX.Proof.Settlement

/-!
# What goes on after the breaker has locked up

A trade that moves the price too far makes `recordTrade` wait for the mutex it holds. The
thread is lost, and with it the mutex. The other threads are not stopped at once: a call
that is past its risk check still matches, and each call with trades to hand over gets one
more of them booked before it waits as well. `lockout` bounds what is left: nothing is
approved any more, whatever is matched was approved before, and each call that was past its
risk check delivers one more trade at most. The health check, which asks the breaker too,
does not answer again.
-/

namespace TitanX.Proof

open TitanX Exchange

/-- A call between its approval and its end. It can deliver one trade before it waits. -/
def underWay (f : Flight) : Bool :=
  match f.stage with
  | .approved => true
  | .booked => true
  | .ready => true
  | .delivering _ _ => true
  | _ => false

/-- Where a call that begins under the lock can be. -/
def shutOut (f : Flight) : Bool :=
  match f.stage with
  | .checking => true
  | .finished => true
  | .stuck => true
  | _ => false

theorem underWay_eq_not_shutOut (f : Flight) : underWay f = !shutOut f := by
  unfold underWay shutOut
  cases f.stage <;> rfl

/-! ## One step under the lock -/

theorem fillConsumer_held {r : RiskEngine} (h : r.circuitBreaker.held = true) (now : Int)
    (t : Trade) :
    ∃ r', MatchingEngine.fillConsumer r now t = .blocked r'
      ∧ r'.circuitBreaker = r.circuitBreaker := by
  have hrec : ∀ r₀ : RiskEngine, r₀.circuitBreaker = r.circuitBreaker →
      ∃ r', r₀.updateLastTradePrice now t.symbol t.price = .blocked r'
        ∧ r'.circuitBreaker = r.circuitBreaker := by
    intro r₀ hr₀
    have hheld : r₀.circuitBreaker.held = true := by rw [hr₀]; exact h
    unfold RiskEngine.updateLastTradePrice CircuitBreaker.recordTrade
    dsimp only
    rw [locked_held hheld]
    exact ⟨_, rfl, hr₀⟩
  exact hrec _ rfl

/-- What a step of a call does while the mutex is held. -/
structure HeldStep (e e' : MatchingEngine) (f f' : Flight) (h : List Happening) : Prop where
  breaker : e'.riskEngine.circuitBreaker = e.riskEngine.circuitBreaker
  approved : approvedIn h = []
  /-- A call that delivers a trade is under way no longer. -/
  delivers : (handedOver h).length + (underWay f').toNat ≤ (underWay f).toNat
  stays : shutOut f = true → shutOut f' = true

theorem advance_held {e : MatchingEngine} (hheld : e.riskEngine.circuitBreaker.held = true)
    (f : Flight) :
    HeldStep e (advance e f).1 f { f with stage := (advance e f).2.1 } (advance e f).2.2 := by
  obtain ⟨env, order, stage⟩ := f
  cases stage with
  | checking =>
      rw [advance_check_blocked (checkPreTrade_held hheld order)]
      exact ⟨rfl, rfl, Nat.le_refl _, id⟩
  | approved => exact ⟨rfl, rfl, Nat.le_refl _, id⟩
  | booked => exact ⟨rfl, rfl, Nat.le_refl _, id⟩
  | ready => exact ⟨rfl, rfl, Nat.le_refl _, id⟩
  | delivering n rest =>
      cases rest with
      | cons fill rest =>
          obtain ⟨r', hblocked, hcb⟩ := fillConsumer_held hheld (env.clock n) fill.trade
          rw [advance_consume_blocked hblocked]
          exact ⟨hcb, rfl, Nat.le_refl _, fun _ => rfl⟩
      | nil =>
          cases n with
          | zero => exact ⟨rfl, rfl, Nat.zero_le _, fun _ => rfl⟩
          | succ n =>
              refine ⟨?_, rfl, Nat.zero_le _, fun _ => rfl⟩
              unfold advance MatchingEngine.checkStopTriggers
              dsimp only
              split
              · rfl
              · split <;> rfl
  | finished => exact ⟨rfl, rfl, Nat.le_refl _, id⟩
  | stuck => exact ⟨rfl, rfl, Nat.le_refl _, id⟩

theorem haltSymbol_held {g : Guarded CircuitBreaker} (h : g.held = true) (symbol : String) :
    (CircuitBreaker.haltSymbol g symbol).state = g := by
  rw [CircuitBreaker.haltSymbol, critical_held h]; rfl

theorem getHealth_held {e : MatchingEngine} (h : e.riskEngine.circuitBreaker.held = true) :
    HttpServer.getHealth e = none := by
  rw [HttpServer.getHealth, CircuitBreaker.haltStatus, critical_held h]; rfl

theorem resumeSymbol_held {g : Guarded CircuitBreaker} (h : g.held = true) (symbol : String) :
    (CircuitBreaker.resumeSymbol g symbol).state = g := by
  rw [CircuitBreaker.resumeSymbol, critical_held h]; rfl

/-! ## The rest of the run -/

/-- How the exchange stands to its state `s₀` at a moment when the mutex was held. -/
structure Frozen (s₀ s : Exchange) : Prop where
  held : s.engine.riskEngine.circuitBreaker.held = true
  approved : approvedIn s.log = approvedIn s₀.log
  delivers : (handedOver s.log).length + s.flights.countP underWay
    ≤ (handedOver s₀.log).length + s₀.flights.countP underWay
  began : s₀.flights.length ≤ s.flights.length
  later : ∀ i f, s₀.flights.length ≤ i → s.flights[i]? = some f → shutOut f = true

theorem frozen_refl {s : Exchange} (h : s.engine.riskEngine.circuitBreaker.held = true) :
    Frozen s s := by
  refine ⟨h, rfl, Nat.le_refl _, Nat.le_refl _, fun i f hi hf => ?_⟩
  rw [List.getElem?_eq_none hi] at hf
  cases hf

/-- An action that touches neither the log nor the calls nor the breaker. -/
theorem Frozen.frame {s₀ s : Exchange} (h : Frozen s₀ s) {e' : MatchingEngine}
    {hap : List Happening}
    (hcb : e'.riskEngine.circuitBreaker = s.engine.riskEngine.circuitBreaker)
    (hap₁ : approvedIn hap = []) (hap₂ : handedOver hap = []) :
    Frozen s₀ { s with engine := e', log := s.log ++ hap } := by
  refine ⟨by rw [hcb]; exact h.held, ?_, ?_, h.began, h.later⟩
  · rw [approvedIn_append, hap₁, List.append_nil]; exact h.approved
  · rw [handedOver_append, hap₂, List.append_nil]; exact h.delivers

theorem Frozen.unlogged {s₀ s : Exchange} (h : Frozen s₀ s) {e' : MatchingEngine}
    (hcb : e'.riskEngine.circuitBreaker = s.engine.riskEngine.circuitBreaker) :
    Frozen s₀ { s with engine := e' } :=
  ⟨by rw [hcb]; exact h.held, h.approved, h.delivers, h.began, h.later⟩

theorem Frozen.called {s₀ s : Exchange} (h : Frozen s₀ s) {f : Flight} (hf : shutOut f = true) :
    Frozen s₀ { s with flights := s.flights ++ [f] } := by
  refine ⟨h.held, h.approved, ?_, ?_, fun i g hi hg => ?_⟩
  · have hnew : underWay f = false := by rw [underWay_eq_not_shutOut, hf]; rfl
    dsimp only
    rw [List.countP_append, List.countP_singleton, if_neg (by rw [hnew]; decide), Nat.add_zero]
    exact h.delivers
  · dsimp only
    rw [List.length_append]
    exact Nat.le_trans h.began (Nat.le_add_right _ _)
  · by_cases hlt : i < s.flights.length
    · rw [List.getElem?_append_left hlt] at hg
      exact h.later i g hi hg
    · rw [List.getElem?_append_right (Nat.le_of_not_lt hlt)] at hg
      rw [List.mem_singleton.mp (List.mem_of_getElem? hg)]; exact hf

theorem Frozen.moved {s₀ s : Exchange} (h : Frozen s₀ s) {i : Nat} {f f' : Flight}
    (hf : s.flights[i]? = some f) {e' : MatchingEngine} {hap : List Happening}
    (hstep : HeldStep s.engine e' f f' hap) :
    Frozen s₀ ⟨e', s.flights.set i f', s.log ++ hap⟩ := by
  obtain ⟨hi, hget⟩ := List.getElem?_eq_some_iff.mp hf
  refine ⟨by rw [hstep.breaker]; exact h.held, ?_, ?_, ?_, fun j g hj hg => ?_⟩
  · rw [approvedIn_append, hstep.approved, List.append_nil]; exact h.approved
  · -- the call that moves is counted once before and once after
    obtain ⟨l₁, l₂, hcut, -, hset⟩ : ∃ l₁ l₂, s.flights = l₁ ++ s.flights[i] :: l₂
        ∧ l₁.length = i ∧ s.flights.set i f' = l₁ ++ f' :: l₂ := List.exists_of_set hi
    rw [hget] at hcut
    have hold := h.delivers
    have hmove := hstep.delivers
    have hcount : ∀ g : Flight, (l₁ ++ g :: l₂).countP underWay
        = l₁.countP underWay + l₂.countP underWay + (underWay g).toNat := by
      intro g
      rw [List.countP_append, List.countP_cons]
      cases underWay g
      · simp
      · simp; omega
    rw [hcut, hcount] at hold
    rw [handedOver_append, List.length_append, hset, hcount]
    omega
  · rw [List.length_set]; exact h.began
  · by_cases hji : i = j
    · subst hji
      rw [List.getElem?_set_self hi] at hg
      rw [← Option.some.inj hg]
      exact hstep.stays (h.later i f hj hf)
    · rw [List.getElem?_set_ne hji] at hg
      exact h.later j g hj hg

theorem frozen_step {s₀ s : Exchange} (h : Frozen s₀ s) (a : Action) :
    Frozen s₀ (s.step a).1 := by
  cases a with
  | call env order =>
      refine h.called ?_
      cases s.engine.halted <;> rfl
  | proceed i =>
      unfold Exchange.step
      dsimp only
      cases hf : s.flights[i]? with
      | none => exact h
      | some f => exact h.moved hf (advance_held h.held f)
  | cancel symbol orderId =>
      refine h.unlogged ?_
      rw [riskEngine_cancel]
  | halt => exact h.frame rfl rfl rfl
  | resume => exact h.frame rfl rfl rfl
  | haltSymbol symbol => exact h.unlogged (haltSymbol_held h.held symbol)
  | resumeSymbol symbol => exact h.unlogged (resumeSymbol_held h.held symbol)

theorem frozen_reachable {pre : List Action}
    (h : (exchangeAfter pre).engine.riskEngine.circuitBreaker.held = true) (post : List Action) :
    Frozen (exchangeAfter pre) (exchangeAfter (pre ++ post)) := by
  unfold exchangeAfter
  rw [run_append]
  exact run_always Exchange.step (P := fun _ s => Frozen (exchangeAfter pre) s)
    (frozen_refl h) (fun is a hp => frozen_step hp a) post

/-! ## The trades of one call -/

/-- The trades that an action hands over, if it is a step of call `i`. -/
def handedOverBy (i : Nat) (t : Transition Exchange Action Unit) : List Trade :=
  match t.input with
  | .proceed j =>
      if j = i then (handedOver t.after.log).drop (handedOver t.before.log).length else []
  | _ => []

/-- The trades that call `i` hands over in the actions `post`. -/
def deliveredBy (i : Nat) (s : Exchange) (post : List Action) : List Trade :=
  (trace Exchange.step s post).flatMap (handedOverBy i)

/-- Call `i` has begun and is under way. -/
def isUnderWay (s : Exchange) (i : Nat) : Bool := s.flights[i]?.any underWay

/-- A step that hands over a trade of call `i` ends the call, and no step puts it under way. -/
theorem handedOverBy_held {s : Exchange} (h : s.engine.riskEngine.circuitBreaker.held = true)
    (i : Nat) (a : Action) :
    (handedOverBy i ⟨s, a, (), (s.step a).1⟩).length + (isUnderWay (s.step a).1 i).toNat
      ≤ (isUnderWay s i).toNat := by
  cases a with
  | call env order =>
      have hnew : underWay ⟨env, order, if s.engine.halted then .finished else .checking⟩ = false := by
        cases s.engine.halted <;> rfl
      unfold handedOverBy isUnderWay Exchange.step
      dsimp only
      rw [List.length_nil, Nat.zero_add]
      by_cases hlt : i < s.flights.length
      · rw [List.getElem?_append_left hlt]
      · rw [List.getElem?_append_right (Nat.le_of_not_lt hlt)]
        cases hf : [(⟨env, order, if s.engine.halted then .finished else .checking⟩ : Flight)][i
            - s.flights.length]? with
        | none => exact Nat.zero_le _
        | some f =>
            rw [List.mem_singleton.mp (List.mem_of_getElem? hf), Option.any_some, hnew]
            exact Nat.zero_le _
  | proceed j =>
      unfold handedOverBy isUnderWay Exchange.step
      dsimp only
      cases hf : s.flights[j]? with
      | none =>
          rw [List.drop_length]
          split <;> exact Nat.le_of_eq (Nat.zero_add _)
      | some f =>
          have hstep := (advance_held h f).delivers
          have hj := (List.getElem?_eq_some_iff.mp hf).1
          dsimp only
          rw [handedOver_append, List.drop_left]
          by_cases hji : j = i
          · subst hji
            rw [if_pos rfl, List.getElem?_set_self hj, hf, Option.any_some, Option.any_some]
            exact hstep
          · rw [if_neg hji, List.getElem?_set_ne hji]
            exact Nat.le_of_eq (Nat.zero_add _)
  | cancel symbol orderId => exact Nat.le_of_eq (Nat.zero_add _)
  | halt => exact Nat.le_of_eq (Nat.zero_add _)
  | resume => exact Nat.le_of_eq (Nat.zero_add _)
  | haltSymbol symbol => exact Nat.le_of_eq (Nat.zero_add _)
  | resumeSymbol symbol => exact Nat.le_of_eq (Nat.zero_add _)

/-- **One trade more for each call.** -/
theorem deliveredBy_held (i : Nat) (post : List Action) {s : Exchange}
    (h : s.engine.riskEngine.circuitBreaker.held = true) :
    (deliveredBy i s post).length ≤ (isUnderWay s i).toNat := by
  induction post generalizing s with
  | nil => exact Nat.zero_le _
  | cons a post ih =>
      have hheld : (s.step a).1.engine.riskEngine.circuitBreaker.held = true :=
        (frozen_step (frozen_refl h) a).held
      have hrest := ih hheld
      have hstep := handedOverBy_held h i a
      have hcons : deliveredBy i s (a :: post)
          = handedOverBy i ⟨s, a, (), (s.step a).1⟩ ++ deliveredBy i (s.step a).1 post :=
        List.flatMap_cons
      rw [hcons, List.length_append]
      omega

/--
**What goes on after the breaker has locked up.** If the breaker's mutex is held after
`pre`, it stays held in every continuation. Nothing is approved any more, whatever is
matched was approved before, each call that was under way delivers one trade more at most,
a call that begins later never gets past its risk check, and the health check hangs.
-/
theorem lockout {pre : List Action}
    (h : (exchangeAfter pre).engine.riskEngine.circuitBreaker.held = true) (post : List Action) :
    (exchangeAfter (pre ++ post)).engine.riskEngine.circuitBreaker.held = true
      ∧ approvedIn (exchangeAfter (pre ++ post)).log = approvedIn (exchangeAfter pre).log
      ∧ (∀ o ∈ matchedIn (exchangeAfter (pre ++ post)).log,
          o ∈ approvedIn (exchangeAfter pre).log)
      ∧ (∀ i, (deliveredBy i (exchangeAfter pre) post).length
          ≤ (isUnderWay (exchangeAfter pre) i).toNat)
      ∧ (handedOver (exchangeAfter (pre ++ post)).log).length
          ≤ (handedOver (exchangeAfter pre).log).length
            + (exchangeAfter pre).flights.countP underWay
      ∧ (∀ i f, (exchangeAfter pre).flights.length ≤ i →
          (exchangeAfter (pre ++ post)).flights[i]? = some f → shutOut f = true)
      ∧ HttpServer.getHealth (exchangeAfter (pre ++ post)).engine = none := by
  have hl := frozen_reachable h post
  refine ⟨hl.held, hl.approved, fun o ho => ?_, fun i => deliveredBy_held i post h, ?_, hl.later,
    getHealth_held hl.held⟩
  · rw [← hl.approved]
    exact (lifeInv_reachable (pre ++ post)).lives.mem_iff.mpr (List.mem_append_left _ ho)
  · exact Nat.le_trans (Nat.le_add_right _ _) hl.delivers

/-- Two trades 6% apart, the second of which locks up the breaker, while a buy of `D` is
approved and a sell of `E` has not been checked. -/
def lockingCalls : List Action :=
  [.call stillEnv (Order.create "a1" 0 "A" "AAPL" .sell .limit 1000 0 5),
    .proceed 0, .proceed 0, .proceed 0, .proceed 0, .proceed 0,
    .call stillEnv (Order.create "b1" 0 "B" "AAPL" .buy .limit 1000 0 5),
    .proceed 1, .proceed 1, .proceed 1, .proceed 1, .proceed 1, .proceed 1,
    .call stillEnv (Order.create "a2" 0 "A" "AAPL" .sell .limit 1060 0 9),
    .proceed 2, .proceed 2, .proceed 2, .proceed 2, .proceed 2,
    .call stillEnv (Order.create "d" 0 "D" "AAPL" .buy .limit 1060 0 4),
    .proceed 3, .proceed 3, .proceed 3,
    .call stillEnv (Order.create "b2" 0 "B" "AAPL" .buy .limit 1060 0 5),
    .proceed 4, .proceed 4, .proceed 4, .proceed 4, .proceed 4]

/-- The buy of `D` still trades and its trade is booked; a call that begins later waits. -/
def afterLocking : List Action :=
  [.proceed 3, .proceed 3, .proceed 3,
    .call stillEnv (Order.create "e" 0 "E" "AAPL" .sell .limit 1000 0 5), .proceed 5, .proceed 5]

theorem lockout_afterLocking :
    (exchangeAfter lockingCalls).flights.countP underWay = 1
      ∧ (handedOver (exchangeAfter lockingCalls).log).length = 2
      ∧ (handedOver (exchangeAfter (lockingCalls ++ afterLocking)).log).length = 3
      ∧ (deliveredBy 3 (exchangeAfter lockingCalls) afterLocking).length = 1
      ∧ approvedIn (exchangeAfter (lockingCalls ++ afterLocking)).log
        = approvedIn (exchangeAfter lockingCalls).log :=
  ⟨by decide, by decide, by decide, by decide, (lockout (by decide) afterLocking).2.1⟩

end TitanX.Proof
