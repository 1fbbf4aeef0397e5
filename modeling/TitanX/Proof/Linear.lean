import TitanX.Proof.Delivery
import TitanX.Proof.OneLife
import TitanX.Proof.Priority

/-!
# The books are linearizable

`submit` calls overlap, with each other and with `cancel`, but each of them touches the
book of its symbol once, under the symbol's lock. In the order in which they get the lock
these are the calls of a sequential run on that book (`linearized`): the run leads to the
book that the exchange has, and answers every call as the exchange did, in the same order
(`books_linearizable`). The point at which a call takes effect is a step of the call
itself, so it lies between its beginning and its end.

The run is one with distinct ids, so whatever holds of sequential runs holds of the
exchange under every interleaving (`interleaved_market_sound`, `interleaved_priority`).
-/

namespace TitanX.Proof

open TitanX OrderBook Exchange

/-! ## The order of the calls on a book -/

/-- The match of a call that has its book and its lock. -/
def matchCalls (symbol : String) (f : Flight) : List BookOp :=
  match f.stage with
  | .ready => if symbol = f.order.symbol then [.matchIncoming f.env.amb f.order] else []
  | _ => []

/-- The calls that an action makes on the book of `symbol`, one at most. -/
def bookCalls (symbol : String) (s : Exchange) : Action → List BookOp
  | .proceed i =>
      match s.flights[i]? with
      | none => []
      | some f => matchCalls symbol f
  | .cancel symbol' orderId =>
      if symbol = symbol' ∧ symbol ∈ s.engine.books ∧ symbol ∈ s.engine.locks then
        [.removeFromBook orderId]
      else []
  | _ => []

/-- The calls on the book of `symbol`, in the order in which they had its lock. -/
def linearized (symbol : String) (actions : List Action) : List BookOp :=
  (trace Exchange.step Exchange.initial actions).flatMap
    (fun t => bookCalls symbol t.before t.input)

/-- What the `match` calls of a run on a book returned. -/
def answers (calls : List (Transition OrderBook BookOp BookOut)) : List (Order × List Fill) :=
  calls.flatMap (fun t => match t.input with
    | .matchIncoming _ o => [(o, t.output.fills)]
    | .removeFromBook _ => [])

/-- What the `submit` calls on `symbol` got from its book. -/
def answered (symbol : String) (log : List Happening) : List (Order × List Fill) :=
  log.flatMap (fun h => match h with
    | .matched o fills => if symbol = o.symbol then [(o, fills)] else []
    | _ => [])

/-- The executions in `symbol`. -/
def fillsIn (symbol : String) (log : List Happening) : List Fill :=
  (executedIn log).filter (fun f => symbol = f.trade.symbol)

theorem answered_append (symbol : String) (log log' : List Happening) :
    answered symbol (log ++ log') = answered symbol log ++ answered symbol log' :=
  List.flatMap_append

theorem fillsIn_append (symbol : String) (log log' : List Happening) :
    fillsIn symbol (log ++ log') = fillsIn symbol log ++ fillsIn symbol log' := by
  rw [fillsIn, executedIn_append, List.filter_append]; rfl

theorem answers_append (calls calls' : List (Transition OrderBook BookOp BookOut)) :
    answers (calls ++ calls') = answers calls ++ answers calls' := List.flatMap_append

/-! ## One step -/

/-- A step takes the book of `symbol` where the calls `ops` lead it, and logs what they
returned. -/
structure BookStep (symbol : String) (b b' : OrderBook) (h : List Happening) (ops : List BookOp) :
    Prop where
  book : b' = run OrderBook.step b ops
  answers : answered symbol h = answers (trace OrderBook.step b ops)
  fills : fillsIn symbol h = (trace OrderBook.step b ops).flatMap (fun t => t.output.fills)

theorem BookStep.none {symbol : String} {b b' : OrderBook} {h : List Happening} (hb : b' = b)
    (ha : answered symbol h = []) (hf : fillsIn symbol h = []) : BookStep symbol b b' h [] :=
  ⟨hb, ha, hf⟩

theorem fillsIn_matched {symbol : String} {order : Order} {fills : List Fill}
    (hown : ∀ x ∈ fills, x.trade.symbol = order.symbol) :
    fillsIn symbol [.matched order fills] = if symbol = order.symbol then fills else [] := by
  rw [fillsIn, executedIn, List.flatMap_singleton]
  dsimp only
  split
  · rename_i hs
    exact List.filter_eq_self.mpr (fun x hx => by rw [decide_eq_true_iff, hown x hx, hs])
  · rename_i hs
    exact List.filter_eq_nil_iff.mpr (fun x hx => by rw [decide_eq_true_iff, hown x hx]; exact hs)

/-- A step of a `submit` call. -/
theorem bookStep_proceeds {e e' : MatchingEngine} {f : Flight} {stage : Stage}
    {h : List Happening} (hrep : RepInv (e.bookOf f.order.symbol))
    (hm : Proceeds e f.env f.order f.stage e' stage h) (symbol : String) :
    BookStep symbol (e.bookOf symbol) (e'.bookOf symbol) h (matchCalls symbol f) := by
  obtain ⟨env, order, before⟩ := f
  dsimp only at hm hrep
  cases hm with
  | refused _ _ => exact .none rfl rfl rfl
  | approved _ => exact .none rfl rfl rfl
  | booked => exact .none (bookOf_getOrCreateBook e order.symbol symbol) rfl rfl
  | locked => exact .none rfl rfl rfl
  | @matched fills b hm =>
      have hcalls : matchCalls symbol ⟨env, order, .ready⟩
          = if symbol = order.symbol then [.matchIncoming env.amb order] else [] := rfl
      have hanswered : answered symbol [.matched order fills]
          = if symbol = order.symbol then [(order, fills)] else [] := List.flatMap_singleton ..
      have hfills : fillsIn symbol [.matched order fills]
          = if symbol = order.symbol then fills else [] := fillsIn_matched (match_own hrep hm)
      rw [hcalls]
      by_cases hs : symbol = order.symbol
      · subst hs
        rw [if_pos rfl] at hanswered hfills ⊢
        refine ⟨?_, ?_, ?_⟩
        · rw [bookOf_setBook, if_pos rfl]
          exact (congrArg Prod.snd hm).symm
        · rw [hanswered]
          exact congrArg (fun r => [(order, r.1)]) hm.symm
        · rw [hfills]
          exact (congrArg Prod.fst hm).symm.trans (List.flatMap_singleton ..).symm
      · rw [if_neg hs] at hanswered hfills ⊢
        exact .none (by rw [bookOf_setBook, if_neg hs]) hanswered hfills
  | consumed _ _ => exact .none rfl rfl rfl
  | ended hh => rcases hh with rfl | rfl <;> exact .none rfl rfl rfl
  | idle hs => rcases hs with rfl | rfl <;> exact .none rfl rfl rfl

/-- A removal through `cancel`. -/
theorem bookStep_cancel (e : MatchingEngine) (symbol' orderId symbol : String) :
    BookStep symbol (e.bookOf symbol) ((e.cancel symbol' orderId).2.bookOf symbol) []
      (if symbol = symbol' ∧ symbol ∈ e.books ∧ symbol ∈ e.locks then [.removeFromBook orderId]
        else []) := by
  by_cases hs : symbol = symbol' ∧ symbol ∈ e.books ∧ symbol ∈ e.locks
  · rw [if_pos hs]
    obtain ⟨rfl, hbook, hlock⟩ := hs
    obtain ⟨b, hl⟩ := Option.isSome_iff_exists.mp (Finmap.lookup_isSome.mpr hbook)
    have hcancel : (e.cancel symbol orderId).2
        = { e with books := e.books.insert symbol (b.removeFromBook orderId).2 } := by
      unfold MatchingEngine.cancel
      rw [hl]
      dsimp only
      rw [if_pos hlock]
    refine ⟨?_, rfl, rfl⟩
    rw [hcancel, bookOf_setBook, if_pos rfl, bookOf_of_lookup hl]
    rfl
  · rw [if_neg hs]
    refine .none ?_ rfl rfl
    unfold MatchingEngine.cancel
    cases hl : e.books.lookup symbol' with
    | none => rfl
    | some b =>
        dsimp only
        split
        · rename_i hlock
          have hne : symbol ≠ symbol' := by
            rintro rfl
            exact hs ⟨rfl, Finmap.lookup_isSome.mp (by rw [hl]; rfl), hlock⟩
          rw [bookOf_setBook, if_neg hne]
        · rfl

/-- **What one action does to a book.** -/
theorem bookStep_step {s : Exchange} (hinv : ExchangeInv s) (a : Action) (symbol : String) :
    ∃ h, (s.step a).1.log = s.log ++ h
      ∧ BookStep symbol (s.engine.bookOf symbol) ((s.step a).1.engine.bookOf symbol) h
          (bookCalls symbol s a) := by
  cases a with
  | call env order => exact ⟨[], (List.append_nil _).symm, .none rfl rfl rfl⟩
  | proceed i =>
      unfold Exchange.step bookCalls
      dsimp only
      cases s.flights[i]? with
      | none => exact ⟨[], (List.append_nil _).symm, .none rfl rfl rfl⟩
      | some f =>
          exact ⟨_, rfl, bookStep_proceeds (hinv.engine.bookOf f.order.symbol).rep
            (advance_proceeds hinv.engine.stops f) symbol⟩
  | cancel symbol' orderId =>
      exact ⟨[], (List.append_nil _).symm, bookStep_cancel s.engine symbol' orderId symbol⟩
  | halt => exact ⟨[.halted], rfl, .none rfl rfl rfl⟩
  | resume => exact ⟨[.resumed], rfl, .none rfl rfl rfl⟩
  | haltSymbol _ => exact ⟨[], (List.append_nil _).symm, .none rfl rfl rfl⟩
  | resumeSymbol _ => exact ⟨[], (List.append_nil _).symm, .none rfl rfl rfl⟩

/-! ## Every interleaving -/

theorem linearized_snoc (symbol : String) (actions : List Action) (a : Action) :
    linearized symbol (actions ++ [a])
      = linearized symbol actions ++ bookCalls symbol (exchangeAfter actions) a := by
  unfold linearized
  rw [trace_snoc, List.flatMap_append, List.flatMap_singleton]; rfl

/-- The book of a symbol is the one of the sequential run. -/
theorem bookOf_linearized (actions : List Action) (symbol : String) :
    (exchangeAfter actions).engine.bookOf symbol = bookAfter symbol (linearized symbol actions) :=
  run_component Exchange.step OrderBook.step (fun s => s.engine.bookOf symbol)
    (fun t => bookCalls symbol t.before t.input)
    (fun is a => by
      obtain ⟨h, -, hstep⟩ := bookStep_step (exchangeInv_reachable is) a symbol
      exact hstep.book) actions

/-- The log has what the calls of the sequential run returned. -/
theorem log_linearized (actions : List Action) (symbol : String) :
    answered symbol (exchangeAfter actions).log
        = answers (bookTrace symbol (linearized symbol actions))
      ∧ fillsIn symbol (exchangeAfter actions).log
        = fillsOf symbol (linearized symbol actions) := by
  refine run_always Exchange.step
    (P := fun is s => answered symbol s.log = answers (bookTrace symbol (linearized symbol is))
      ∧ fillsIn symbol s.log = fillsOf symbol (linearized symbol is)) ⟨rfl, rfl⟩ ?_ actions
  intro is a ih
  obtain ⟨h, hlog, hstep⟩ := bookStep_step (exchangeInv_reachable is) a symbol
  -- the run of the book goes on from the book that the exchange has
  have htrace : bookTrace symbol (linearized symbol (is ++ [a]))
      = bookTrace symbol (linearized symbol is)
        ++ trace OrderBook.step ((exchangeAfter is).engine.bookOf symbol)
          (bookCalls symbol (exchangeAfter is) a) := by
    rw [linearized_snoc, bookOf_linearized]
    exact trace_append OrderBook.step _ _ _
  have hlog' : ((run Exchange.step Exchange.initial is).step a).1.log
      = (run Exchange.step Exchange.initial is).log ++ h := hlog
  rw [hlog', answered_append, fillsIn_append, ih.1, ih.2, fillsOf, fillsOf, htrace,
    answers_append, List.flatMap_append, ← hstep.answers, ← hstep.fills]
  exact ⟨rfl, rfl⟩

theorem submitted_eq_answers (ops : List BookOp) (b : OrderBook) :
    submitted ops = (answers (trace OrderBook.step b ops)).map Prod.fst := by
  induction ops generalizing b with
  | nil => rfl
  | cons op ops ih =>
      cases op with
      | matchIncoming amb o => exact congrArg (o :: ·) (ih _)
      | removeFromBook id => exact ih _

theorem matchedIn_eq_answered (symbol : String) (log : List Happening) :
    (answered symbol log).map Prod.fst
      = (matchedIn log).filter (fun o => symbol = o.symbol) := by
  induction log with
  | nil => rfl
  | cons h log ih =>
      rw [← List.singleton_append, answered_append, matchedIn_append, List.map_append,
        List.filter_append, ih]
      congr 1
      cases h with
      | matched o fills =>
          by_cases hs : symbol = o.symbol
          · simp [answered, matchedIn, hs]
          · simp [answered, matchedIn, hs]
      | approved _ => rfl
      | triggered _ _ => rfl
      | consumed _ => rfl
      | halted => rfl
      | resumed => rfl

/-- The orders of the sequential run are those that were matched in the symbol. -/
theorem submitted_linearized (actions : List Action) (symbol : String) :
    submitted (linearized symbol actions)
      = (matchedIn (exchangeAfter actions).log).filter (fun o => symbol = o.symbol) := by
  rw [submitted_eq_answers _ (OrderBook.new symbol), ← matchedIn_eq_answered]
  exact congrArg _ (log_linearized actions symbol).1.symm

theorem distinctIds_linearized (actions : List Action) (symbol : String) :
    DistinctIds (linearized symbol actions) := by
  unfold DistinctIds
  rw [submitted_linearized]
  exact (lifeInv_reachable actions).matchedOnce.sublist
    ((List.filter_sublist ..).map Order.orderId)

/--
**The books are linearizable.** Under every interleaving the calls on a symbol, in the
order in which they had its lock, are a sequential run with distinct ids. That run leads to
the book the exchange has; it gave every `submit` the executions the exchange gave it, and
nothing else was executed in the symbol.
-/
theorem books_linearizable (actions : List Action) (symbol : String) :
    DistinctIds (linearized symbol actions)
      ∧ (exchangeAfter actions).engine.bookOf symbol = bookAfter symbol (linearized symbol actions)
      ∧ answered symbol (exchangeAfter actions).log
        = answers (bookTrace symbol (linearized symbol actions))
      ∧ fillsIn symbol (exchangeAfter actions).log
        = fillsOf symbol (linearized symbol actions) :=
  ⟨distinctIds_linearized actions symbol, bookOf_linearized actions symbol,
    log_linearized actions symbol⟩

/-- Three calls on one symbol and a cancel. The last call to begin is the first to get the
lock. -/
def overtakingCalls : List Action :=
  [.call stillEnv (Order.create "a" 0 "A" "AAPL" .sell .limit 100 0 5),
    .call stillEnv (Order.create "b" 0 "B" "AAPL" .sell .limit 100 0 5),
    .call stillEnv (Order.create "c" 0 "C" "AAPL" .buy .limit 100 0 7),
    .proceed 0, .proceed 1, .proceed 1, .proceed 1, .proceed 1, .proceed 0, .proceed 0, .proceed 0,
    .proceed 2, .proceed 2, .proceed 2, .proceed 2, .cancel "AAPL" "a"]

example : (answered "AAPL" (exchangeAfter overtakingCalls).log).map
    (fun x => (x.1.orderId, x.2.map (fun f => (f.trade.passiveOrderId, f.trade.quantity))))
      = [("b", []), ("a", []), ("c", [("b", 5), ("a", 2)])] := by decide

/-! ## What holds under every interleaving -/

/-- The orders come from `Order::create`. -/
def CreatedCalls (actions : List Action) : Prop :=
  ∀ env o, Action.call env o ∈ actions → o.Created

/-- An order in a call, or in the log as matched, was submitted. -/
structure CalledInv (actions : List Action) (s : Exchange) : Prop where
  flights : ∀ f ∈ s.flights, ∃ env, Action.call env f.order ∈ actions
  matched : ∀ o ∈ matchedIn s.log, ∃ env, Action.call env o ∈ actions

theorem proceeds_matchedIn {e e' : MatchingEngine} {env : SubmitEnv} {order : Order}
    {stage stage' : Stage} {h : List Happening} (hm : Proceeds e env order stage e' stage' h) :
    ∀ o ∈ matchedIn h, o = order := by
  have hnone : ∀ o ∈ ([] : List Order), o = order := fun _ ho => absurd ho List.not_mem_nil
  cases hm with
  | refused _ _ => exact hnone
  | approved _ => exact hnone
  | booked => exact hnone
  | locked => exact hnone
  | matched _ => exact fun o ho => List.mem_singleton.mp ho
  | consumed _ _ => exact hnone
  | ended hh => rcases hh with rfl | rfl <;> exact hnone
  | idle _ => exact hnone

theorem calledInv_step {s : Exchange} (hinv : ExchangeInv s) {actions : List Action}
    (h : CalledInv actions s) (a : Action) : CalledInv (actions ++ [a]) (s.step a).1 := by
  have hold : ∀ {o : Order}, (∃ env, Action.call env o ∈ actions) →
      ∃ env, Action.call env o ∈ actions ++ [a] :=
    fun ⟨env, hmem⟩ => ⟨env, List.mem_append_left _ hmem⟩
  have hhappens := step_happens hinv.engine.stops a
  generalize (s.step a).1 = s' at hhappens
  cases hhappens with
  | @called env order stage _ =>
      refine ⟨fun f hf => ?_, fun o ho => hold (h.matched o ho)⟩
      rcases List.mem_append.mp hf with hf | hf
      · exact hold (h.flights f hf)
      · rw [List.mem_singleton.mp hf]
        exact ⟨env, List.mem_append_right _ (List.mem_singleton.mpr rfl)⟩
  | @moved i l₁ l₂ f e' stage hap hf hcut hm =>
      have hcalled := h.flights f (List.mem_of_getElem? hf)
      refine ⟨fun g hg => ?_, fun o ho => ?_⟩
      · rcases mem_moved.mp hg with rfl | hg
        · exact hold hcalled
        · exact hold (h.flights g (mem_flights_of_cut hcut hg))
      · rw [matchedIn_append] at ho
        rcases List.mem_append.mp ho with ho | ho
        · exact hold (h.matched o ho)
        · rw [proceeds_matchedIn hm o ho]; exact hold hcalled
  | missed => exact ⟨fun f hf => hold (h.flights f hf), fun o ho => hold (h.matched o ho)⟩
  | outside _ hh =>
      refine ⟨fun f hf => hold (h.flights f hf), fun o ho => hold (h.matched o ?_)⟩
      rw [matchedIn_append] at ho
      rcases hh with rfl | rfl | rfl <;>
        exact (List.mem_append.mp ho).resolve_right List.not_mem_nil

theorem calledInv_reachable (actions : List Action) :
    CalledInv actions (exchangeAfter actions) :=
  run_always Exchange.step (P := CalledInv)
    ⟨fun _ hf => absurd hf List.not_mem_nil, fun _ ho => absurd ho List.not_mem_nil⟩
    (fun is a hp => calledInv_step (exchangeInv_reachable is) hp a) actions

theorem mem_submitted_linearized {actions : List Action} {symbol : String} {o : Order} :
    o ∈ submitted (linearized symbol actions)
      ↔ o ∈ matchedIn (exchangeAfter actions).log ∧ symbol = o.symbol := by
  rw [submitted_linearized, List.mem_filter, decide_eq_true_iff]

theorem validRun_linearized {actions : List Action} (hc : CreatedCalls actions)
    (symbol : String) : ValidRun (linearized symbol actions) where
  created := fun o ho => by
    obtain ⟨env, hmem⟩ := (calledInv_reachable actions).matched o
      (mem_submitted_linearized.mp ho).1
    exact hc env o hmem
  distinct := distinctIds_linearized actions symbol

/-- Only a `cancel` of the symbol removes an order from its book. -/
theorem not_cancelled_linearized {actions : List Action} {symbol id : String}
    (h : Action.cancel symbol id ∉ actions) :
    ¬ Cancelled symbol (linearized symbol actions) id := by
  rintro ⟨t, ht, hinput, -⟩
  obtain ⟨pre, op, post, hops, rfl⟩ := mem_trace OrderBook.step ht
  have hmem : BookOp.removeFromBook id ∈ linearized symbol actions := by
    rw [hops, ← hinput]; exact List.mem_append_right _ (List.mem_cons_self ..)
  obtain ⟨t', ht', hcall⟩ := List.mem_flatMap.mp hmem
  obtain ⟨pre', a, post', hactions, rfl⟩ := mem_trace Exchange.step ht'
  have ha : a ∈ actions := by
    rw [hactions]; exact List.mem_append_right _ (List.mem_cons_self ..)
  -- no other action makes a removal
  have hcancel : a = .cancel symbol id := by
    change BookOp.removeFromBook id ∈ bookCalls symbol _ a at hcall
    cases a with
    | proceed i =>
        unfold bookCalls matchCalls at hcall
        dsimp only at hcall
        split at hcall
        · exact absurd hcall List.not_mem_nil
        · split at hcall
          · split at hcall
            · exact absurd (List.mem_singleton.mp hcall) BookOp.noConfusion
            · exact absurd hcall List.not_mem_nil
          · exact absurd hcall List.not_mem_nil
    | cancel symbol' orderId =>
        unfold bookCalls at hcall
        dsimp only at hcall
        split at hcall
        · rename_i hs
          rw [hs.1, BookOp.removeFromBook.inj (List.mem_singleton.mp hcall)]
        · exact absurd hcall List.not_mem_nil
    | call _ _ => exact absurd hcall List.not_mem_nil
    | halt => exact absurd hcall List.not_mem_nil
    | resume => exact absurd hcall List.not_mem_nil
    | haltSymbol _ => exact absurd hcall List.not_mem_nil
    | resumeSymbol _ => exact absurd hcall List.not_mem_nil
  exact h (hcancel ▸ ha)

/--
**A sound market under every interleaving.** However the calls overlap, no resting bid of a
symbol reaches a resting ask. What was traded of an order and what is left of it never
exceed its quantity, and make it up exactly for a limit order that no `cancel` names. And
every execution is for a positive quantity, between two orders that passed the risk check,
at the price of the passive one, which the aggressor's limit allows.
-/
theorem interleaved_market_sound (actions : List Action) (hc : CreatedCalls actions)
    (symbol : String) :
    (∀ x ∈ ((exchangeAfter actions).engine.bookOf symbol).resting .buy,
        ∀ y ∈ ((exchangeAfter actions).engine.bookOf symbol).resting .sell, x.price < y.price)
      ∧ (∀ x ∈ matchedIn (exchangeAfter actions).log, symbol = x.symbol →
          traded x.orderId (fillsIn symbol (exchangeAfter actions).log)
              + openQty Order.orderId x.orderId
                (allOrders ((exchangeAfter actions).engine.bookOf symbol))
            ≤ max x.quantity 0
          ∧ (x.type = .limit → Action.cancel symbol x.orderId ∉ actions →
            traded x.orderId (fillsIn symbol (exchangeAfter actions).log)
                + openQty Order.orderId x.orderId
                  (allOrders ((exchangeAfter actions).engine.bookOf symbol))
              = max x.quantity 0))
      ∧ (∀ f ∈ fillsIn symbol (exchangeAfter actions).log, 0 < f.trade.quantity
          ∧ ∃ x ∈ approvedIn (exchangeAfter actions).log,
            ∃ y ∈ approvedIn (exchangeAfter actions).log,
              f.trade.aggressorOrderId = x.orderId ∧ f.trade.passiveOrderId = y.orderId
                ∧ y.side = x.side.opposite ∧ f.trade.price = y.price
                ∧ (PriceBound x → NoWorse x f.trade.price)) := by
  have hvalid := validRun_linearized hc symbol
  have happroved : ∀ o ∈ submitted (linearized symbol actions),
      o ∈ approvedIn (exchangeAfter actions).log := fun o ho =>
    (lifeInv_reachable actions).lives.mem_iff.mpr
      (List.mem_append_left _ (mem_submitted_linearized.mp ho).1)
  rw [bookOf_linearized, (log_linearized actions symbol).2]
  have hrep := (runInv_reachable symbol hvalid.distinct).rep
  refine ⟨fun x hx y hy => ?_, fun x hx hs => ?_, fun f hf => ?_⟩
  · have hxs : x.side = .buy := ((hrep.side .buy).mem hx).1
    have hys : y.side = .sell := ((hrep.side .sell).mem hy).1
    have hbetter := uncrossed_reachable symbol hvalid.distinct x (mem_allOrders.mpr ⟨_, hx⟩) y
      (mem_allOrders.mpr ⟨_, hy⟩) (by rw [hxs, hys]; rfl)
    rw [hxs] at hbetter
    exact hbetter
  · have hb := balanced_reachable symbol hvalid x (mem_submitted_linearized.mpr ⟨hx, hs⟩)
    exact ⟨hb.within, fun ht hcancel => hb.exact ht (not_cancelled_linearized hcancel)⟩
  · obtain ⟨pre, amb, o, post, hops, hcall⟩ := mem_fillsOf hf
    have hinv : RunInv pre (bookAfter symbol pre) := by
      have hd := hvalid.distinct
      rw [hops] at hd
      exact runInv_reachable symbol hd.of_append
    have hsub : ∀ x, x ∈ submitted pre ∨ x = o → x ∈ submitted (linearized symbol actions) := by
      intro x hx
      rw [hops, submitted_append]
      rcases hx with hx | rfl
      · exact List.mem_append_left _ hx
      · exact List.mem_append_right _ (List.mem_cons_self ..)
    obtain ⟨crosses, hok⟩ := match_fillOk hinv.rep amb o f hcall
    obtain ⟨y, hy, hid, hside, hprice⟩ := hinv.passive hcall
    refine ⟨hok.positive, o, happroved o (hsub o (Or.inr rfl)), y,
      happroved y (hsub y (Or.inl hy)), hok.aggressorOrderId, hid, hside, hprice, fun hb => ?_⟩
    exact match_noWorse hinv.rep amb (hvalid.created o (hsub o (Or.inr rfl))) hb f hcall

theorem overtakingCalls_created : CreatedCalls overtakingCalls := by
  intro env o ho
  simp only [overtakingCalls, List.mem_cons, Action.call.injEq, reduceCtorEq, or_false,
    List.not_mem_nil] at ho
  rcases ho with ⟨-, rfl⟩ | ⟨-, rfl⟩ | ⟨-, rfl⟩ <;> exact Order.created_create ..

theorem interleaved_market_sound_overtaking :
    (allOrders ((exchangeAfter overtakingCalls).engine.bookOf "AAPL")).map Order.orderId = []
      ∧ (fillsIn "AAPL" (exchangeAfter overtakingCalls).log).map
          (fun f => (f.trade.passiveOrderId, f.trade.quantity)) = [("b", 5), ("a", 2)]
      ∧ ∀ f ∈ fillsIn "AAPL" (exchangeAfter overtakingCalls).log, 0 < f.trade.quantity :=
  ⟨by decide, by decide, fun f hf =>
    ((interleaved_market_sound overtakingCalls overtakingCalls_created "AAPL").2.2 f hf).1⟩

/-- An id that comes first in a list is followed there by the other. -/
theorem pair_sublist_of_idxOf_lt {l : List String} {a b : String} (h : l.idxOf a < l.idxOf b)
    (hb : b ∈ l) : [a, b].Sublist l := by
  induction l with
  | nil => exact absurd hb List.not_mem_nil
  | cons c l ih =>
      by_cases hca : c = a
      · subst hca
        have hne : c ≠ b := by
          rintro rfl
          exact absurd h (Nat.lt_irrefl _)
        exact (List.singleton_sublist.mpr (List.mem_of_ne_of_mem (Ne.symm hne) hb)).cons_cons c
      · have hcb : c ≠ b := by
          rintro rfl
          rw [List.idxOf_cons_self] at h
          exact absurd h (Nat.not_lt_zero _)
        rw [List.idxOf_cons_ne _ hca, List.idxOf_cons_ne _ hcb] at h
        exact (ih (Nat.lt_of_succ_lt_succ h) (List.mem_of_ne_of_mem (Ne.symm hcb) hb)).cons c

/--
**Price-time priority under every interleaving.** The passive party of a trade is the first
order of its side. Every other order that rested there had a worse price, or the same price
and its match, not its call, came later.
-/
theorem interleaved_priority (actions : List Action) (symbol : String) :
    ∀ f ∈ fillsIn symbol (exchangeAfter actions).log,
      ∃ y others, Levels.orders f.resting = y :: others ∧ y.orderId = f.trade.passiveOrderId
        ∧ ∀ x ∈ others, better y.side y.price x.price
          ∨ (x.price = y.price ∧ [y.orderId, x.orderId].Sublist
              ((matchedIn (exchangeAfter actions).log).map Order.orderId)) := by
  intro f hf
  rw [(log_linearized actions symbol).2] at hf
  have hd := distinctIds_linearized actions symbol
  have hrank := before_fills hd hf
  obtain ⟨pre, amb, o, post, hops, hcall⟩ := mem_fillsOf hf
  have hinv : RunInv pre (bookAfter symbol pre) := by
    rw [hops] at hd
    exact runInv_reachable symbol hd.of_append
  obtain ⟨_, hok⟩ := match_fillOk hinv.rep amb o f hcall
  obtain ⟨y, rest, behind, hres, hid, -⟩ := hok.head
  have horders : Levels.orders f.resting = y :: (rest ++ Levels.orders behind) := by
    rw [hres]; rfl
  have hmem : ∀ x ∈ Levels.orders f.resting,
      x.orderId ∈ (submitted (linearized symbol actions)).map Order.orderId := by
    intro x hx
    obtain ⟨x₀, hx₀, hv⟩ := hok.versions x hx
    obtain ⟨x₁, hx₁, hv₁⟩ := hinv.versions x₀ (mem_allOrders.mpr ⟨_, hx₀⟩)
    rw [hops, submitted_append, List.map_append, hv.orderId, hv₁.orderId]
    exact List.mem_append_left _ (List.mem_map_of_mem hx₁)
  have hside : y.side = f.trade.aggressorSide.opposite := by
    rw [hok.aggressorSide]
    exact (hok.side.mem (by rw [horders]; exact List.mem_cons_self ..)).1
  rw [horders] at hrank
  refine ⟨y, _, horders, hid.symm, fun x hx => ?_⟩
  rcases (List.pairwise_cons.mp hrank).1 x hx with hp | ⟨hp, ha⟩
  · exact Or.inl (hside ▸ hp)
  · refine Or.inr ⟨hp.symm, ?_⟩
    -- the sequence of one book is a part of the sequence of all matches
    have hpair := pair_sublist_of_idxOf_lt ha
      (hmem x (by rw [horders]; exact List.mem_cons_of_mem _ hx))
    rw [submitted_linearized] at hpair
    exact hpair.trans ((List.filter_sublist ..).map Order.orderId)

theorem interleaved_priority_overtaking :
    ∃ f ∈ fillsIn "AAPL" (exchangeAfter overtakingCalls).log,
      (Levels.orders f.resting).map Order.orderId = ["b", "a"]
        ∧ ∃ y others, Levels.orders f.resting = y :: others ∧ y.orderId = f.trade.passiveOrderId
          ∧ ∀ x ∈ others, better y.side y.price x.price
            ∨ (x.price = y.price ∧ [y.orderId, x.orderId].Sublist
                ((matchedIn (exchangeAfter overtakingCalls).log).map Order.orderId)) := by
  obtain ⟨f, hf, hresting⟩ : ∃ f ∈ fillsIn "AAPL" (exchangeAfter overtakingCalls).log,
      (Levels.orders f.resting).map Order.orderId = ["b", "a"] := by decide
  exact ⟨f, hf, hresting, interleaved_priority overtakingCalls "AAPL" f hf⟩

end TitanX.Proof
