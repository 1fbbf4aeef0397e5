import TitanX.Proof.Ledger
import TitanX.Proof.Interleave

/-!
# Trades reach the consumer in the order of their execution

`match` runs under the lock of its symbol and the fill consumer after the lock has been
given back. The last trade price of a book is that of the last trade executed in it, and
the one of the risk engine is that of the last trade handed to the consumer
(`pricesInv_reachable`), in every interleaving. The two sequences agree as long as no
call trades in a symbol while another one still has trades of it to hand over
(`delivered_in_order`). Nothing in the engine prevents that, and then the risk engine is
left with an old price (`delivered_out_of_order`).
-/

namespace TitanX.Proof

open TitanX OrderBook Exchange

/-! ## What was executed and what was handed over -/

def ofSymbol (symbol : String) (trades : List Trade) : List Trade :=
  trades.filter (fun t => t.symbol = symbol)

/-- The trades handed to the fill consumer. -/
def handedOver (log : List Happening) : List Trade :=
  log.flatMap (fun h => match h with
    | .consumed trade => [trade]
    | _ => [])

def executions (symbol : String) (log : List Happening) : List Trade :=
  ofSymbol symbol ((executedIn log).map Fill.trade)

def deliveries (symbol : String) (log : List Happening) : List Trade :=
  ofSymbol symbol (handedOver log)

theorem executions_append (symbol : String) (log log' : List Happening) :
    executions symbol (log ++ log') = executions symbol log ++ executions symbol log' := by
  rw [executions, executedIn_append, List.map_append, ofSymbol, List.filter_append]; rfl

theorem deliveries_append (symbol : String) (log log' : List Happening) :
    deliveries symbol (log ++ log') = deliveries symbol log ++ deliveries symbol log' := by
  rw [deliveries, handedOver, List.flatMap_append, ofSymbol, List.filter_append]; rfl

/-- Trades that are all of one symbol. -/
theorem ofSymbol_own {symbol' : String} {fills : List Fill}
    (h : ∀ x ∈ fills, x.trade.symbol = symbol') (symbol : String) :
    ofSymbol symbol (fills.map Fill.trade)
      = if symbol = symbol' then fills.map Fill.trade else [] := by
  rw [ofSymbol]
  split
  · rename_i hs
    refine List.filter_eq_self.mpr (fun t ht => ?_)
    obtain ⟨x, hx, rfl⟩ := List.mem_map.mp ht
    rw [decide_eq_true_iff, h x hx, hs]
  · rename_i hs
    refine List.filter_eq_nil_iff.mpr (fun t ht => ?_)
    obtain ⟨x, hx, rfl⟩ := List.mem_map.mp ht
    rw [decide_eq_true_iff, h x hx]
    exact fun heq => hs heq.symm

theorem executions_matched (symbol : String) (order : Order) (fills : List Fill) :
    executions symbol [.matched order fills] = ofSymbol symbol (fills.map Fill.trade) := by
  rw [executions, executedIn, List.flatMap_singleton]

theorem deliveries_consumed (symbol : String) (t : Trade) :
    deliveries symbol [.consumed t] = if t.symbol = symbol then [t] else [] := by
  rw [deliveries, handedOver, List.flatMap_singleton, ofSymbol, List.filter_singleton]
  simp

/-- The actions from outside execute and deliver nothing. -/
theorem outside_log {h : List Happening} (hh : h = [] ∨ h = [.halted] ∨ h = [.resumed])
    (symbol : String) : executions symbol h = [] ∧ deliveries symbol h = [] := by
  rcases hh with rfl | rfl | rfl <;> exact ⟨rfl, rfl⟩

theorem match_own {b b' : OrderBook} (h : RepInv b) {amb : Ambient} {o : Order} {fills : List Fill}
    (hm : b.matchIncoming amb o = (fills, b')) : ∀ x ∈ fills, x.trade.symbol = o.symbol := by
  intro x hx
  have hx' : x ∈ (b.matchIncoming amb o).1 := by rw [hm]; exact hx
  exact (match_callBy h amb o x hx').2.2.1

/-- The fills a call has still to hand over. -/
def pending (f : Flight) : List Fill :=
  match f.stage with
  | .delivering _ rest => rest
  | _ => []

/-! ## Prices follow the two sequences -/

section OneStep

variable {e e' : MatchingEngine} {env : SubmitEnv} {order : Order} {stage stage' : Stage}
  {h : List Happening}

theorem proceeds_book (hm : Proceeds e env order stage e' stage' h)
    (hrep : RepInv (e.bookOf order.symbol)) (symbol : String) :
    (e'.bookOf symbol).lastTradePrice
      = lastPrice (e.bookOf symbol).lastTradePrice (executions symbol h) := by
  cases hm with
  | refused _ _ => rfl
  | approved _ => rfl
  | booked => rw [bookOf_getOrCreateBook]; rfl
  | locked => rfl
  | matched hm =>
      have hlast := match_lastTradePrice (e.bookOf order.symbol) env.amb order
      rw [hm] at hlast
      rw [bookOf_setBook, executions_matched, ofSymbol_own (match_own hrep hm)]
      split
      · rename_i hs
        rw [hs]; exact hlast
      · rfl
  | consumed _ _ => rfl
  | ended hh => rcases hh with rfl | rfl <;> rfl
  | idle _ => rfl

theorem proceeds_risk (hm : Proceeds e env order stage e' stage' h) (symbol : String) :
    e'.riskEngine.lastTradePrices.lookup symbol
      = lastPrice (e.riskEngine.lastTradePrices.lookup symbol) (deliveries symbol h) := by
  cases hm with
  | refused hr _ => exact congrArg (Finmap.lookup symbol) hr.same.lastTradePrices
  | approved hr => exact congrArg (Finmap.lookup symbol) hr.same.lastTradePrices
  | booked => rfl
  | locked => rfl
  | matched _ => rfl
  | @consumed n fill rest r _ hr _ =>
      obtain ⟨cb, heq⟩ := fillConsumer_state e.riskEngine (env.clock n) fill.trade
      have hprices : r.lastTradePrices
          = e.riskEngine.lastTradePrices.insert fill.trade.symbol fill.trade.price := by
        rw [hr, heq]
      dsimp only
      rw [hprices, deliveries_consumed]
      split
      · rename_i hs
        rw [← hs, Finmap.lookup_insert]; rfl
      · rename_i hs
        rw [Finmap.lookup_insert_of_ne _ (Ne.symm hs)]; rfl
  | ended hh => rcases hh with rfl | rfl <;> rfl
  | idle _ => rfl

/-- A call gets fills to deliver by its match, and later only hands them over. -/
theorem proceeds_pending (hm : Proceeds e env order stage e' stage' h) :
    pending ⟨env, order, stage'⟩ ⊆ pending ⟨env, order, stage⟩
      ∨ (stage = .ready
        ∧ pending ⟨env, order, stage'⟩
          = ((e.bookOf order.symbol).matchIncoming env.amb order).1) := by
  cases hm with
  | refused _ hs => rcases hs with rfl | rfl <;> exact Or.inl (List.nil_subset _)
  | approved _ => exact Or.inl (List.nil_subset _)
  | booked => exact Or.inl (List.nil_subset _)
  | locked => exact Or.inl (List.nil_subset _)
  | matched hm => exact Or.inr ⟨rfl, by rw [hm]; rfl⟩
  | consumed _ hs =>
      rcases hs with rfl | rfl
      · exact Or.inl (List.subset_cons_self _ _)
      · exact Or.inl (List.nil_subset _)
  | ended _ => exact Or.inl (List.nil_subset _)
  | idle _ => exact Or.inl (List.Subset.refl _)

/-- A call hands over trades of its own symbol. -/
theorem proceeds_own (hm : Proceeds e env order stage e' stage' h)
    (hrep : RepInv (e.bookOf order.symbol))
    (hown : ∀ x ∈ pending ⟨env, order, stage⟩, x.trade.symbol = order.symbol) :
    ∀ x ∈ pending ⟨env, order, stage'⟩, x.trade.symbol = order.symbol := by
  intro x hx
  rcases proceeds_pending hm with hsub | ⟨-, hfills⟩
  · exact hown x (hsub hx)
  · rw [hfills] at hx
    exact match_own hrep rfl x hx

/-- A step of a call on another symbol. -/
theorem proceeds_elsewhere (hm : Proceeds e env order stage e' stage' h)
    (hrep : RepInv (e.bookOf order.symbol))
    (hown : ∀ x ∈ pending ⟨env, order, stage⟩, x.trade.symbol = order.symbol) {symbol : String}
    (hs : symbol ≠ order.symbol) : executions symbol h = [] ∧ deliveries symbol h = [] := by
  cases hm with
  | refused _ _ => exact ⟨rfl, rfl⟩
  | approved _ => exact ⟨rfl, rfl⟩
  | booked => exact ⟨rfl, rfl⟩
  | locked => exact ⟨rfl, rfl⟩
  | matched hm =>
      refine ⟨?_, rfl⟩
      rw [executions_matched, ofSymbol_own (match_own hrep hm), if_neg hs]
  | @consumed n fill rest r _ _ _ =>
      refine ⟨rfl, ?_⟩
      rw [deliveries_consumed, if_neg]
      rw [hown fill (List.mem_cons_self ..)]
      exact Ne.symm hs
  | ended hh => rcases hh with rfl | rfl <;> exact ⟨rfl, rfl⟩
  | idle _ => exact ⟨rfl, rfl⟩

theorem proceeds_stuck (hm : Proceeds e env order stage e' stage' h) (hs : stage = .stuck) :
    stage' = .stuck := by
  subst hs
  cases hm with
  | idle _ => rfl

end OneStep

structure PricesInv (s : Exchange) : Prop where
  book : ∀ symbol, (s.engine.bookOf symbol).lastTradePrice = lastPrice none (executions symbol s.log)
  risk : ∀ symbol,
    s.engine.riskEngine.lastTradePrices.lookup symbol = lastPrice none (deliveries symbol s.log)
  own : ∀ f ∈ s.flights, ∀ x ∈ pending f, x.trade.symbol = f.order.symbol

theorem pricesInv_step {s : Exchange} (hinv : ExchangeInv s) (h : PricesInv s) (a : Action) :
    PricesInv (s.step a).1 := by
  have hhappens := step_happens hinv.engine.stops a
  generalize (s.step a).1 = s' at hhappens
  cases hhappens with
  | @called env order stage hs =>
      refine ⟨h.book, h.risk, fun f hf => ?_⟩
      rcases List.mem_append.mp hf with hf | hf
      · exact h.own f hf
      · rw [List.mem_singleton.mp hf]
        rcases hs with rfl | rfl <;> exact fun x hx => absurd hx List.not_mem_nil
  | @moved i l₁ l₂ f e' stage hap hf hcut hm =>
      have hrep := (hinv.engine.bookOf f.order.symbol).rep
      have hmem : f ∈ s.flights := List.mem_of_getElem? hf
      refine ⟨fun symbol => ?_, fun symbol => ?_, fun g hg => ?_⟩
      · rw [executions_append, lastPrice_append, ← h.book]
        exact proceeds_book hm hrep symbol
      · rw [deliveries_append, lastPrice_append, ← h.risk]
        exact proceeds_risk hm symbol
      · rcases mem_moved.mp hg with rfl | hg
        · exact proceeds_own hm hrep (h.own f hmem)
        · exact h.own g (mem_flights_of_cut hcut hg)
  | missed => exact h
  | @outside a e' hap ho hh =>
      obtain ⟨cb, hcb⟩ := ho.risk
      refine ⟨fun symbol => ?_, fun symbol => ?_, h.own⟩
      · rw [executions_append, (outside_log hh symbol).1, List.append_nil, ← h.book]
        rcases ho.book symbol with heq | ⟨orderId, heq⟩
        · exact congrArg OrderBook.lastTradePrice heq
        · exact (congrArg OrderBook.lastTradePrice heq).trans (removeFromBook_lastTradePrice ..)
      · rw [deliveries_append, (outside_log hh symbol).2, List.append_nil, ← h.risk]
        show e'.riskEngine.lastTradePrices.lookup symbol = _
        rw [hcb]

theorem pricesInv_initial : PricesInv Exchange.initial :=
  ⟨fun _ => rfl, fun _ => rfl, fun _ hf => absurd hf List.not_mem_nil⟩

/-- **The book has the price of the last execution and the risk engine that of the last
delivery**, under any interleaving. -/
theorem pricesInv_reachable (actions : List Action) : PricesInv (exchangeAfter actions) :=
  run_always Exchange.step (P := fun _ s => PricesInv s) pricesInv_initial
    (fun is a hp => pricesInv_step (exchangeInv_reachable is) hp a) actions

/-! ## The backlog of a symbol -/

/-- The trades of `symbol` that are executed and that a call has still to hand over. -/
def backlog (symbol : String) (flights : List Flight) : List Trade :=
  flights.flatMap (fun f => ofSymbol symbol ((pending f).map Fill.trade))

/-- A call has trades to hand over, or is waiting for the breaker and will not hand over
anything any more. -/
def owes (f : Flight) : Bool :=
  match f.stage with
  | .delivering _ rest => !rest.isEmpty
  | .stuck => true
  | _ => false

/-- The order of the call that an action lets match. -/
def matching (s : Exchange) : Action → Option Order
  | .proceed i =>
      (s.flights[i]?).bind (fun f => match f.stage with
        | .ready => some f.order
        | _ => none)
  | _ => none

/-- A call that will trade is let to match only when no call on its symbol owes trades. -/
def InTurn (t : Transition Exchange Action Unit) : Prop :=
  ∀ o ∈ matching t.before t.input, WouldFill (t.before.engine.bookOf o.symbol) o →
    ∀ g ∈ t.before.flights, g.order.symbol = o.symbol → owes g = false

/-- What was executed is what was delivered, what is to be delivered, and what calls that
got stuck have kept. -/
def Backed (symbol : String) (s : Exchange) : Prop :=
  ∃ lost, executions symbol s.log = deliveries symbol s.log ++ backlog symbol s.flights ++ lost
    ∧ (lost ≠ [] → ∃ f ∈ s.flights, f.order.symbol = symbol ∧ f.stage = .stuck)

structure InOrder (s : Exchange) : Prop where
  backed : ∀ symbol, Backed symbol s
  /-- At most one call has trades of a symbol to deliver. -/
  single : s.flights.Pairwise (fun f g =>
    f.order.symbol = g.order.symbol → pending f = [] ∨ pending g = [])

theorem pending_of_not_owes {f : Flight} (h : owes f = false) : pending f = [] := by
  unfold owes at h
  unfold pending
  split
  · rename_i n rest hst
    rw [hst] at h
    simpa using h
  · rfl

theorem backlog_append (symbol : String) (l l' : List Flight) :
    backlog symbol (l ++ l') = backlog symbol l ++ backlog symbol l' := List.flatMap_append

theorem backlog_cut (symbol : String) (l₁ l₂ : List Flight) (f : Flight) :
    backlog symbol (l₁ ++ f :: l₂)
      = backlog symbol l₁ ++ ofSymbol symbol ((pending f).map Fill.trade) ++ backlog symbol l₂ := by
  rw [backlog_append, List.append_assoc]; rfl

/-- Calls on `symbol` with nothing to deliver, and calls on other symbols. -/
theorem backlog_eq_nil {symbol : String} {l : List Flight}
    (hown : ∀ f ∈ l, ∀ x ∈ pending f, x.trade.symbol = f.order.symbol)
    (hl : ∀ f ∈ l, f.order.symbol = symbol → pending f = []) : backlog symbol l = [] := by
  refine List.flatMap_eq_nil_iff.mpr (fun f hf => ?_)
  rw [ofSymbol_own (hown f hf)]
  split
  · rename_i hs
    rw [hl f hf hs.symm]; rfl
  · rfl

section Move

variable {s : Exchange} {l₁ l₂ : List Flight} {f : Flight} {e' : MatchingEngine} {stage : Stage}
  {h : List Happening} {symbol : String}

theorem backlog_sides (h₀ : backlog symbol (l₁ ++ l₂) = []) :
    backlog symbol l₁ = [] ∧ backlog symbol l₂ = [] := by
  rw [backlog_append] at h₀
  exact List.append_eq_nil_iff.mp h₀

/-- A step that does not concern the trades of `symbol`. -/
theorem Backed.quiet (hb : Backed symbol s) (hcut : s.flights = l₁ ++ f :: l₂)
    (hex : executions symbol h = []) (hdel : deliveries symbol h = [])
    (hpend : ofSymbol symbol ((pending { f with stage }).map Fill.trade)
      = ofSymbol symbol ((pending f).map Fill.trade))
    (hstuck : f.stage = .stuck → stage = .stuck) :
    Backed symbol ⟨e', l₁ ++ { f with stage } :: l₂, s.log ++ h⟩ := by
  obtain ⟨lost, heq, hlost⟩ := hb
  refine ⟨lost, ?_, fun hne => ?_⟩
  · rw [executions_append, deliveries_append, hex, hdel, List.append_nil, List.append_nil, heq,
      hcut, backlog_cut, backlog_cut, hpend]
  · obtain ⟨g, hg, hs, hst⟩ := hlost hne
    rw [hcut] at hg
    rcases mem_moved.mp hg with rfl | hg
    · exact ⟨_, mem_moved.mpr (Or.inl rfl), hs, hstuck hst⟩
    · exact ⟨g, mem_moved.mpr (Or.inr hg), hs, hst⟩

/-- The trades of a match are the backlog, if there was none before. -/
theorem Backed.matched (hb : Backed f.order.symbol s) (hcut : s.flights = l₁ ++ f :: l₂)
    {fills : List Fill} (hst : f.stage = .ready)
    (hownf : ∀ x ∈ fills, x.trade.symbol = f.order.symbol)
    (hown : ∀ g ∈ s.flights, ∀ x ∈ pending g, x.trade.symbol = g.order.symbol)
    (hnone : ∀ g ∈ s.flights, g.order.symbol = f.order.symbol → owes g = false) :
    Backed f.order.symbol ⟨e', l₁ ++ { f with stage := .delivering 0 fills } :: l₂,
      s.log ++ [.matched f.order fills]⟩ := by
  obtain ⟨lost, heq, hlost⟩ := hb
  have hnolost : lost = [] := by
    by_contra hne
    obtain ⟨g, hg, hs, hgst⟩ := hlost hne
    have howes := hnone g hg hs
    rw [owes, hgst] at howes
    cases howes
  have hempty : backlog f.order.symbol (l₁ ++ l₂) = [] :=
    backlog_eq_nil (fun g hg => hown g (mem_flights_of_cut hcut hg))
      (fun g hg hs => pending_of_not_owes (hnone g (mem_flights_of_cut hcut hg) hs))
  obtain ⟨h₁, h₂⟩ := backlog_sides hempty
  have hpf : pending f = [] := by rw [pending, hst]
  rw [hcut, backlog_cut, h₁, h₂, hpf, hnolost] at heq
  refine ⟨[], ?_, fun hne => absurd rfl hne⟩
  have hfills : ofSymbol f.order.symbol (fills.map Fill.trade) = fills.map Fill.trade := by
    rw [ofSymbol_own hownf, if_pos rfl]
  have hpend : pending { f with stage := .delivering 0 fills } = fills := rfl
  have hdel : deliveries f.order.symbol [.matched f.order fills] = [] := rfl
  rw [executions_append, deliveries_append, heq, executions_matched, hdel, backlog_cut, h₁, h₂,
    hpend, hfills]
  simp [ofSymbol]

/-- The first trade of the backlog is delivered; the others follow, or are lost. -/
theorem Backed.consumed (hb : Backed f.order.symbol s) (hcut : s.flights = l₁ ++ f :: l₂)
    {n : Nat} {fill : Fill} {rest : List Fill} (hst : f.stage = .delivering n (fill :: rest))
    (hstage : stage = .delivering (n + 1) rest ∨ stage = .stuck)
    (hownf : ∀ x ∈ fill :: rest, x.trade.symbol = f.order.symbol)
    (hempty : backlog f.order.symbol (l₁ ++ l₂) = []) :
    Backed f.order.symbol ⟨e', l₁ ++ { f with stage } :: l₂, s.log ++ [.consumed fill.trade]⟩ := by
  obtain ⟨lost, heq, hlost⟩ := hb
  obtain ⟨h₁, h₂⟩ := backlog_sides hempty
  have hpf : ofSymbol f.order.symbol ((pending f).map Fill.trade)
      = fill.trade :: rest.map Fill.trade := by
    rw [pending, hst, ofSymbol_own hownf, if_pos rfl]; rfl
  have hex : executions f.order.symbol [.consumed fill.trade] = [] := rfl
  have hdel : deliveries f.order.symbol [.consumed fill.trade] = [fill.trade] := by
    rw [deliveries_consumed, if_pos (hownf fill (List.mem_cons_self ..))]
  rw [hcut, backlog_cut, h₁, h₂, hpf] at heq
  rcases hstage with rfl | rfl
  · have hpend : ofSymbol f.order.symbol ((pending { f with stage := .delivering (n + 1) rest }).map
        Fill.trade) = rest.map Fill.trade := by
      rw [pending, ofSymbol_own (fun x hx => hownf x (List.mem_cons_of_mem _ hx)), if_pos rfl]
    refine ⟨lost, ?_, fun hne => ?_⟩
    · rw [executions_append, deliveries_append, heq, hex, hdel, backlog_cut, h₁, h₂, hpend]
      simp
    · obtain ⟨g, hg, hs, hgst⟩ := hlost hne
      have hne' : g ≠ f := by
        intro hgf
        rw [hgf, hst] at hgst
        cases hgst
      rw [hcut] at hg
      exact ⟨g, mem_moved.mpr (Or.inr ((mem_moved.mp hg).resolve_left hne')), hs, hgst⟩
  · refine ⟨rest.map Fill.trade ++ lost, ?_, fun _ =>
      ⟨_, mem_moved.mpr (Or.inl rfl), rfl, rfl⟩⟩
    have hpend : ofSymbol f.order.symbol ((pending { f with stage := .stuck }).map
        Fill.trade) = [] := rfl
    rw [executions_append, deliveries_append, heq, hex, hdel, backlog_cut, h₁, h₂, hpend]
    simp

/-- **What one step of a call does to the trades of a symbol.** -/
theorem Backed.proceeds (hb : Backed symbol s) (hinv : ExchangeInv s) (hp : PricesInv s)
    (hcut : s.flights = l₁ ++ f :: l₂)
    (hm : Proceeds s.engine f.env f.order f.stage e' stage h)
    (hturn : f.stage = .ready → WouldFill (s.engine.bookOf f.order.symbol) f.order →
      ∀ g ∈ s.flights, g.order.symbol = f.order.symbol → owes g = false)
    (hsingle : pending f ≠ [] → ∀ g ∈ l₁ ++ l₂, g.order.symbol = f.order.symbol → pending g = []) :
    Backed symbol ⟨e', l₁ ++ { f with stage } :: l₂, s.log ++ h⟩ := by
  have hrep := (hinv.engine.bookOf f.order.symbol).rep
  have hmem : f ∈ s.flights := by rw [hcut]; exact mem_moved.mpr (Or.inl rfl)
  have hown := hp.own f hmem
  by_cases hsym : symbol = f.order.symbol
  swap
  · -- the call has trades of its own symbol, before the step and after it
    obtain ⟨hex, hdel⟩ := proceeds_elsewhere hm hrep hown hsym
    refine hb.quiet hcut hex hdel ?_ (proceeds_stuck hm)
    rw [ofSymbol_own (proceeds_own hm hrep hown), ofSymbol_own hown, if_neg hsym, if_neg hsym]
  subst hsym
  obtain ⟨env, order, before⟩ := f
  dsimp only at hm hturn hrep
  cases hm with
  | refused _ hs =>
      rcases hs with rfl | rfl <;> exact hb.quiet hcut rfl rfl rfl Stage.noConfusion
  | approved _ => exact hb.quiet hcut rfl rfl rfl Stage.noConfusion
  | booked => exact hb.quiet hcut rfl rfl rfl Stage.noConfusion
  | locked => exact hb.quiet hcut rfl rfl rfl Stage.noConfusion
  | @matched fills b hm =>
      by_cases hfills : fills = []
      · subst hfills
        exact hb.quiet hcut rfl rfl rfl Stage.noConfusion
      · have hfill : WouldFill (s.engine.bookOf order.symbol) order :=
          (match_fills_iff hrep env.amb order).mp (by rw [hm]; exact hfills)
        exact hb.matched hcut rfl (match_own hrep hm) hp.own (hturn rfl hfill)
  | consumed _ hs =>
      exact hb.consumed hcut rfl hs hown (backlog_eq_nil
        (fun g hg => hp.own g (mem_flights_of_cut hcut hg)) (hsingle (List.cons_ne_nil _ _)))
  | ended hh => rcases hh with rfl | rfl <;> exact hb.quiet hcut rfl rfl rfl Stage.noConfusion
  | idle _ => exact hb.quiet hcut rfl rfl rfl id

end Move

theorem inOrder_called {s : Exchange} (h : InOrder s) {env : SubmitEnv} {order : Order}
    {stage : Stage} (hs : stage = .finished ∨ stage = .checking) :
    InOrder { s with flights := s.flights ++ [⟨env, order, stage⟩] } := by
  have hpend : pending ⟨env, order, stage⟩ = [] := by rcases hs with rfl | rfl <;> rfl
  refine ⟨fun symbol => ?_, ?_⟩
  · obtain ⟨lost, heq, hlost⟩ := h.backed symbol
    refine ⟨lost, ?_, fun hne => ?_⟩
    · have hnew : backlog symbol [⟨env, order, stage⟩] = [] := by
        rw [backlog, List.flatMap_singleton, hpend]; rfl
      rw [backlog_append, hnew, List.append_nil]; exact heq
    · obtain ⟨g, hg, hgs⟩ := hlost hne
      exact ⟨g, List.mem_append_left _ hg, hgs⟩
  · refine List.pairwise_append.mpr ⟨h.single, List.pairwise_singleton .., fun g _ g' hg' _ => ?_⟩
    rw [List.mem_singleton.mp hg']; exact Or.inr hpend

theorem inOrder_moved {s : Exchange} (hinv : ExchangeInv s) (hp : PricesInv s) (h : InOrder s)
    {l₁ l₂ : List Flight} {f : Flight} {e' : MatchingEngine} {stage : Stage} {hap : List Happening}
    (hcut : s.flights = l₁ ++ f :: l₂)
    (hm : Proceeds s.engine f.env f.order f.stage e' stage hap)
    (hturn : f.stage = .ready → WouldFill (s.engine.bookOf f.order.symbol) f.order →
      ∀ g ∈ s.flights, g.order.symbol = f.order.symbol → owes g = false) :
    InOrder ⟨e', l₁ ++ { f with stage } :: l₂, s.log ++ hap⟩ := by
  have hrep := (hinv.engine.bookOf f.order.symbol).rep
  -- the call that moves may be listed first
  have hsymm : ∀ {f g : Flight},
      (f.order.symbol = g.order.symbol → pending f = [] ∨ pending g = []) →
      g.order.symbol = f.order.symbol → pending g = [] ∨ pending f = [] :=
    fun hfg heq => (hfg heq.symm).symm
  have hall := h.single
  rw [hcut, List.pairwise_middle hsymm, List.pairwise_cons] at hall
  obtain ⟨hfirst, hothers⟩ := hall
  have hsingle : pending f ≠ [] → ∀ g ∈ l₁ ++ l₂, g.order.symbol = f.order.symbol →
      pending g = [] := fun hne g hg heq => (hfirst g hg heq.symm).resolve_left hne
  refine ⟨fun symbol => (h.backed symbol).proceeds hinv hp hcut hm hturn hsingle, ?_⟩
  rw [List.pairwise_middle hsymm, List.pairwise_cons]
  refine ⟨fun g hg heq => ?_, hothers⟩
  by_cases hne : pending { f with stage } = []
  · exact Or.inl hne
  refine Or.inr ?_
  rcases proceeds_pending hm with hsub | ⟨hst, hfills⟩
  · have hpf : pending f ≠ [] := fun hpf => hne (List.subset_nil.mp (hpf ▸ hsub))
    exact hsingle hpf g hg heq.symm
  · have hfill : WouldFill (s.engine.bookOf f.order.symbol) f.order :=
      (match_fills_iff hrep f.env.amb f.order).mp (hfills ▸ hne)
    exact pending_of_not_owes (hturn hst hfill g (mem_flights_of_cut hcut hg) heq.symm)

theorem inOrder_step {s : Exchange} (hinv : ExchangeInv s) (hp : PricesInv s) (h : InOrder s)
    {a : Action} (hturn : InTurn ⟨s, a, (), (s.step a).1⟩) : InOrder (s.step a).1 := by
  have hhappens := step_happens hinv.engine.stops a
  generalize (s.step a).1 = s' at hhappens hturn
  cases hhappens with
  | called hs => exact inOrder_called h hs
  | @moved i l₁ l₂ f e' stage hap hf hcut hm =>
      refine inOrder_moved hinv hp h hcut hm (fun hst => hturn f.order ?_)
      show matching s (.proceed i) = some f.order
      simp [matching, hf, hst]
  | missed => exact h
  | outside ho hh =>
      refine ⟨fun symbol => ?_, h.single⟩
      obtain ⟨lost, heq, hlost⟩ := h.backed symbol
      obtain ⟨hex, hdel⟩ := outside_log hh symbol
      refine ⟨lost, ?_, hlost⟩
      rw [executions_append, deliveries_append, hex, hdel, List.append_nil, List.append_nil]
      exact heq

theorem inOrder_initial : InOrder Exchange.initial :=
  ⟨fun _ => ⟨[], rfl, fun hne => absurd rfl hne⟩, List.Pairwise.nil⟩

theorem inOrder_reachable {actions : List Action}
    (h : ∀ t ∈ trace Exchange.step Exchange.initial actions, InTurn t) :
    InOrder (exchangeAfter actions) :=
  trace_always Exchange.step (Q := InTurn) (P := InOrder) inOrder_initial
    (fun is _ hturn hp =>
      inOrder_step (exchangeInv_reachable is) (pricesInv_reachable is) hp hturn) h

/-! ## Order of delivery -/

def finished (f : Flight) : Bool :=
  match f.stage with
  | .finished => true
  | _ => false

/-- The trades of a symbol reach the consumer in the order of their execution, and with no
call in flight all of them have, and the risk engine has the book's last price. -/
def DeliveredInOrder (s : Exchange) : Prop :=
  ∀ symbol, deliveries symbol s.log <+: executions symbol s.log
    ∧ ((∀ f ∈ s.flights, finished f = true) →
      deliveries symbol s.log = executions symbol s.log
        ∧ s.engine.riskEngine.lastTradePrices.lookup symbol
          = (s.engine.bookOf symbol).lastTradePrice)

theorem stage_of_finished {f : Flight} (h : finished f = true) : f.stage = .finished := by
  unfold finished at h
  split at h
  · assumption
  · cases h

/--
**Trades are delivered in the order of their execution**, under every interleaving in
which a call that will trade matches only when no call on its symbol owes trades to the
consumer.
-/
theorem delivered_in_order (actions : List Action)
    (h : ∀ t ∈ trace Exchange.step Exchange.initial actions, InTurn t) :
    DeliveredInOrder (exchangeAfter actions) := by
  intro symbol
  obtain ⟨lost, heq, hlost⟩ := (inOrder_reachable h).backed symbol
  refine ⟨⟨_, (List.append_assoc ..).symm.trans heq.symm⟩, fun hdone => ?_⟩
  have hnolost : lost = [] := by
    by_contra hne
    obtain ⟨f, hf, -, hst⟩ := hlost hne
    exact Stage.noConfusion (hst.symm.trans (stage_of_finished (hdone f hf)))
  have hempty : backlog symbol (exchangeAfter actions).flights = [] := by
    refine List.flatMap_eq_nil_iff.mpr (fun f hf => ?_)
    rw [pending, stage_of_finished (hdone f hf)]; rfl
  rw [hnolost, hempty, List.append_nil, List.append_nil] at heq
  have hprices := pricesInv_reachable actions
  refine ⟨heq.symm, ?_⟩
  rw [hprices.risk, hprices.book, heq]

/-- Two sells rest, at 100 and at 101. -/
def twoLevels : List Action :=
  [.call stillEnv (Order.create "s1" 0 "A" "AAPL" .sell .limit 100 0 5),
    .proceed 0, .proceed 0, .proceed 0, .proceed 0, .proceed 0,
    .call stillEnv (Order.create "s2" 0 "B" "AAPL" .sell .limit 101 0 5),
    .proceed 1, .proceed 1, .proceed 1, .proceed 1, .proceed 1,
    .call stillEnv (Order.create "b1" 0 "C" "AAPL" .buy .limit 101 0 5),
    .call stillEnv (Order.create "b2" 0 "D" "AAPL" .buy .limit 101 0 5)]

/-- The two buys are checked side by side, and each delivers before the other matches. -/
theorem delivered_in_order_levels :
    let actions := twoLevels ++ [.proceed 2, .proceed 3, .proceed 2, .proceed 3, .proceed 2,
      .proceed 2, .proceed 3, .proceed 2, .proceed 2, .proceed 3, .proceed 3, .proceed 3]
    (executions "AAPL" (exchangeAfter actions).log).map Trade.price = [100, 101]
      ∧ DeliveredInOrder (exchangeAfter actions) := by
  refine ⟨by decide, delivered_in_order _ ?_⟩
  have hturn : ∀ t ∈ trace Exchange.step Exchange.initial (twoLevels ++ [.proceed 2, .proceed 3,
      .proceed 2, .proceed 3, .proceed 2, .proceed 2, .proceed 3, .proceed 2, .proceed 2,
      .proceed 3, .proceed 3, .proceed 3]),
      ∀ o ∈ matching t.before t.input, ∀ g ∈ t.before.flights,
        g.order.symbol = o.symbol → owes g = false := by decide
  exact fun t ht o ho _ => hturn t ht o ho

/-- The first buy matches at 100 and the second at 101, and the second is first to
deliver: the risk engine is left with 100. -/
theorem delivered_out_of_order :
    let s := exchangeAfter (twoLevels ++ [.proceed 2, .proceed 2, .proceed 2, .proceed 2,
      .proceed 3, .proceed 3, .proceed 3, .proceed 3, .proceed 3, .proceed 3, .proceed 2, .proceed 2])
    (∀ f ∈ s.flights, finished f = true)
      ∧ (executions "AAPL" s.log).map Trade.price = [100, 101]
      ∧ (deliveries "AAPL" s.log).map Trade.price = [101, 100]
      ∧ (s.engine.bookOf "AAPL").lastTradePrice = some 101
      ∧ s.engine.riskEngine.lastTradePrices.lookup "AAPL" = some 100
      ∧ ¬ DeliveredInOrder s := by
  intro s
  have hdone : ∀ f ∈ s.flights, finished f = true := by decide
  have hbook : (s.engine.bookOf "AAPL").lastTradePrice = some 101 := by decide
  have hrisk : s.engine.riskEngine.lastTradePrices.lookup "AAPL" = some 100 := by decide
  refine ⟨hdone, by decide, by decide, hbook, hrisk, fun h => ?_⟩
  have heq := ((h "AAPL").2 hdone).2
  rw [hbook, hrisk] at heq
  exact absurd heq (by decide)

end TitanX.Proof
