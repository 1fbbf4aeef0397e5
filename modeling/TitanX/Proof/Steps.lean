import TitanX.Model.Concurrent
import TitanX.Proof.EngineRun

/-!
# What a step of the exchange can do

One constructor for each atomic step of a `submit` call (`Proceeds`) and one for each kind
of action (`Happens`). Everything that is proved about interleavings by induction is a
case analysis of these two, with the engine's functions already taken apart.
-/

namespace TitanX.Proof

open TitanX Exchange

/-- The next step of the call with `order`: where the call stood, the engine after the
step, where the call stands then, and what happened. -/
inductive Proceeds (e : MatchingEngine) (env : SubmitEnv) (order : Order) :
    Stage → MatchingEngine → Stage → List Happening → Prop where
  /-- The risk check refuses the order, or waits. -/
  | refused {r : RiskEngine} {stage : Stage} (hr : Refusal e.riskEngine r)
      (hs : stage = .finished ∨ stage = .stuck) :
      Proceeds e env order .checking { e with riskEngine := r } stage []
  | approved {r : RiskEngine} (hr : Approval e.riskEngine order r) :
      Proceeds e env order .checking { e with riskEngine := r } .approved [.approved order]
  | booked : Proceeds e env order .approved (e.getOrCreateBook order.symbol) .booked []
  | locked : Proceeds e env order .booked (e.getOrCreateLock order.symbol) .ready []
  | matched {fills : List Fill} {b : OrderBook}
      (hm : (e.bookOf order.symbol).matchIncoming env.amb order = (fills, b)) :
      Proceeds e env order .ready { e with books := e.books.insert order.symbol b }
        (.delivering 0 fills) [.matched order fills]
  /-- The consumer takes a fill, and returns or waits. -/
  | consumed {n : Nat} {fill : Fill} {rest : List Fill} {r : RiskEngine} {stage : Stage}
      (hr : r = (MatchingEngine.fillConsumer e.riskEngine (env.clock n) fill.trade).state)
      (hs : stage = .delivering (n + 1) rest ∨ stage = .stuck) :
      Proceeds e env order (.delivering n (fill :: rest)) { e with riskEngine := r } stage
        [.consumed fill.trade]
  /-- All fills are delivered, and there is no stop order to trigger. -/
  | ended {n : Nat} {h : List Happening} (hh : h = [] ∨ h = [.triggered order.symbol []]) :
      Proceeds e env order (.delivering n []) e .finished h
  | idle {stage : Stage} (hs : stage = .finished ∨ stage = .stuck) :
      Proceeds e env order stage e stage []

section Advance

variable {e : MatchingEngine} {env : SubmitEnv} {order : Order}

theorem advance_refused {res : RiskResult} {r : RiskEngine}
    (hc : e.riskEngine.checkPreTrade order = .returned res r) (ha : res.approved = false) :
    advance e ⟨env, order, .checking⟩ = ({ e with riskEngine := r }, .finished, []) := by
  unfold advance
  dsimp only
  rw [hc]
  dsimp only
  rw [if_neg (by rw [ha]; decide)]

theorem advance_approved {res : RiskResult} {r : RiskEngine}
    (hc : e.riskEngine.checkPreTrade order = .returned res r) (ha : res.approved = true) :
    advance e ⟨env, order, .checking⟩
      = ({ e with riskEngine := r }, .approved, [.approved order]) := by
  unfold advance
  dsimp only
  rw [hc]
  dsimp only
  rw [if_pos ha]

theorem advance_check_blocked {r : RiskEngine}
    (hc : e.riskEngine.checkPreTrade order = .blocked r) :
    advance e ⟨env, order, .checking⟩ = ({ e with riskEngine := r }, .stuck, []) := by
  unfold advance; dsimp only; rw [hc]

theorem advance_consumed {n : Nat} {fill : Fill} {rest : List Fill} {u : Unit} {r : RiskEngine}
    (hc : MatchingEngine.fillConsumer e.riskEngine (env.clock n) fill.trade = .returned u r) :
    advance e ⟨env, order, .delivering n (fill :: rest)⟩
      = ({ e with riskEngine := r }, .delivering (n + 1) rest, [.consumed fill.trade]) := by
  unfold advance; dsimp only; rw [hc]

theorem advance_consume_blocked {n : Nat} {fill : Fill} {rest : List Fill} {r : RiskEngine}
    (hc : MatchingEngine.fillConsumer e.riskEngine (env.clock n) fill.trade = .blocked r) :
    advance e ⟨env, order, .delivering n (fill :: rest)⟩
      = ({ e with riskEngine := r }, .stuck, [.consumed fill.trade]) := by
  unfold advance; dsimp only; rw [hc]

theorem Proceeds.of_eq {f : Flight} {e' : MatchingEngine} {stage : Stage} {h : List Happening}
    (hadv : advance e f = (e', stage, h)) (hm : Proceeds e f.env f.order f.stage e' stage h) :
    Proceeds e f.env f.order f.stage (advance e f).1 (advance e f).2.1 (advance e f).2.2 := by
  rw [hadv]; exact hm

theorem advance_proceeds (hstops : e.stopOrders = ∅) (f : Flight) :
    Proceeds e f.env f.order f.stage (advance e f).1 (advance e f).2.1 (advance e f).2.2 := by
  obtain ⟨env, order, stage⟩ := f
  cases stage with
  | checking =>
      rcases checkPreTrade_cases e.riskEngine order with
        ⟨r', heq, href, -⟩ | ⟨res, r', heq, happ, href, -⟩ | ⟨res, r', heq, happ, hap, -⟩
      · exact .of_eq (advance_check_blocked heq) (.refused href (Or.inr rfl))
      · exact .of_eq (advance_refused heq happ) (.refused href (Or.inl rfl))
      · exact .of_eq (advance_approved heq happ) (.approved hap)
  | approved => exact .booked
  | booked => exact .locked
  | ready => exact .matched rfl
  | delivering n rest =>
      cases rest with
      | cons fill rest =>
          cases heq : MatchingEngine.fillConsumer e.riskEngine (env.clock n) fill.trade with
          | blocked r =>
              exact .of_eq (advance_consume_blocked heq)
                (.consumed (by rw [heq]; rfl) (Or.inr rfl))
          | returned _ r =>
              exact .of_eq (advance_consumed heq) (.consumed (by rw [heq]; rfl) (Or.inl rfl))
      | nil =>
          cases n with
          | zero => exact .ended (Or.inl rfl)
          | succ n =>
              have hadv : advance e ⟨env, order, .delivering (n + 1) []⟩
                  = (e, .finished, [.triggered order.symbol []]) := by
                unfold advance; dsimp only; rw [checkStopTriggers_none hstops]
              exact .of_eq hadv (.ended (Or.inr rfl))
  | finished => exact .idle (Or.inl rfl)
  | stuck => exact .idle (Or.inr rfl)

end Advance

/-- What the other calls may change: the kill switch, the breaker, and by a removal the
book of a symbol. -/
structure Outside (e e' : MatchingEngine) : Prop where
  stops : e'.stopOrders = e.stopOrders
  risk : ∃ cb, e'.riskEngine = { e.riskEngine with circuitBreaker := cb }
  book : ∀ symbol, e'.bookOf symbol = e.bookOf symbol
    ∨ ∃ orderId, e'.bookOf symbol = ((e.bookOf symbol).removeFromBook orderId).2

/-- What an action leads to. -/
inductive Happens (s : Exchange) : Action → Exchange → Prop where
  | called {env : SubmitEnv} {order : Order} {stage : Stage}
      (hs : stage = .finished ∨ stage = .checking) :
      Happens s (.call env order) { s with flights := s.flights ++ [⟨env, order, stage⟩] }
  | moved {i : Nat} {l₁ l₂ : List Flight} {f : Flight} {e' : MatchingEngine} {stage : Stage}
      {h : List Happening} (hf : s.flights[i]? = some f) (hcut : s.flights = l₁ ++ f :: l₂)
      (hm : Proceeds s.engine f.env f.order f.stage e' stage h) :
      Happens s (.proceed i) ⟨e', l₁ ++ { f with stage } :: l₂, s.log ++ h⟩
  /-- There is no such call. -/
  | missed {i : Nat} : Happens s (.proceed i) s
  | outside {a : Action} {e' : MatchingEngine} {h : List Happening} (ho : Outside s.engine e')
      (hh : h = [] ∨ h = [.halted] ∨ h = [.resumed]) :
      Happens s a { s with engine := e', log := s.log ++ h }

/-- The calls after one of them has moved. -/
theorem mem_moved {l₁ l₂ : List Flight} {f g : Flight} :
    g ∈ l₁ ++ f :: l₂ ↔ g = f ∨ g ∈ l₁ ++ l₂ := by
  rw [List.mem_append, List.mem_cons, List.mem_append, or_left_comm]

/-- The calls besides the one that moves. -/
theorem mem_flights_of_cut {s : Exchange} {l₁ l₂ : List Flight} {f g : Flight}
    (hcut : s.flights = l₁ ++ f :: l₂) (hg : g ∈ l₁ ++ l₂) : g ∈ s.flights := by
  rw [hcut]; exact mem_moved.mpr (Or.inr hg)

theorem outside_onBreaker (e : MatchingEngine)
    (o : Guarded CircuitBreaker → Outcome (Guarded CircuitBreaker) Unit) :
    Outside e (onBreaker e o) := ⟨rfl, ⟨_, rfl⟩, fun _ => Or.inl rfl⟩

theorem outside_cancel (e : MatchingEngine) (symbol orderId : String) :
    Outside e (e.cancel symbol orderId).2 := by
  refine ⟨stopOrders_cancel e symbol orderId, ⟨e.riskEngine.circuitBreaker, ?_⟩, fun symbol' => ?_⟩
  · rw [riskEngine_cancel]
  · rcases bookOf_cancel e symbol orderId symbol' with h | h
    · exact Or.inl h
    · exact Or.inr ⟨orderId, h⟩

/-- An action from outside that the log does not mention. -/
theorem Happens.unlogged {s : Exchange} {a : Action} {e' : MatchingEngine}
    (ho : Outside s.engine e') : Happens s a { s with engine := e' } := by
  have h : Happens s a { s with engine := e', log := s.log ++ [] } := .outside ho (Or.inl rfl)
  rwa [List.append_nil] at h

/-- **Every action of the exchange is one of these.** -/
theorem step_happens {s : Exchange} (hstops : s.engine.stopOrders = ∅) (a : Action) :
    Happens s a (s.step a).1 := by
  cases a with
  | call env order =>
      refine .called ?_
      cases s.engine.halted
      · exact Or.inr rfl
      · exact Or.inl rfl
  | proceed i =>
      unfold Exchange.step
      dsimp only
      cases hf : s.flights[i]? with
      | none => exact .missed
      | some f =>
          obtain ⟨hi, hget⟩ := List.getElem?_eq_some_iff.mp hf
          have hset : ∃ l₁ l₂, s.flights = l₁ ++ s.flights[i] :: l₂ ∧ l₁.length = i ∧
              s.flights.set i { f with stage := (advance s.engine f).2.1 }
                = l₁ ++ { f with stage := (advance s.engine f).2.1 } :: l₂ :=
            List.exists_of_set hi
          obtain ⟨l₁, l₂, hl, -, hset⟩ := hset
          rw [hget] at hl
          dsimp only
          rw [hset]
          exact .moved hf hl (advance_proceeds hstops f)
  | cancel symbol orderId => exact .unlogged (outside_cancel _ symbol orderId)
  | halt => exact .outside ⟨rfl, ⟨_, rfl⟩, fun _ => Or.inl rfl⟩ (Or.inr (Or.inl rfl))
  | resume => exact .outside ⟨rfl, ⟨_, rfl⟩, fun _ => Or.inl rfl⟩ (Or.inr (Or.inr rfl))
  | haltSymbol symbol => exact .unlogged (outside_onBreaker _ _)
  | resumeSymbol symbol => exact .unlogged (outside_onBreaker _ _)

end TitanX.Proof
