import TitanX.Proof.Conserve
import TitanX.Proof.Crossing
import TitanX.Proof.EngineRun

/-!
# The position ledger and the trades

A trade moves two accounts. The fill consumer of `main.cpp` tells the Redis ledger
about both, and the risk engine about the aggressor only. So the first trade of a run
puts the passive party's recorded position out by its quantity, and
`ledger_matches_iff` says that this is the whole story: the ledger agrees with the
trades after every call that returns if and only if no such call executes anything.

The positions implied by the trades are `positionOf`; within one call they are the
`executed` accounts of `Conserve`, kept by account (`positionOf_call`).
-/

namespace TitanX

def Trade.buyer (t : Trade) : String :=
  if t.aggressorSide = .buy then t.aggressorAccountId else t.passiveAccountId

def Trade.seller (t : Trade) : String :=
  if t.aggressorSide = .buy then t.passiveAccountId else t.aggressorAccountId

end TitanX

namespace TitanX.Proof

open TitanX MatchingEngine

/-! ## Positions implied by trades -/

/-- What a trade in `symbol` does to the position of `account`. -/
def positionChange (account symbol : String) (t : Trade) : Int :=
  if t.symbol = symbol then
    (if t.buyer = account then t.quantity else 0) - (if t.seller = account then t.quantity else 0)
  else 0

/-- Bought minus sold, over all trades. -/
def positionOf (account symbol : String) (fills : List Fill) : Int :=
  (fills.map (fun f => positionChange account symbol f.trade)).sum

/-- Bought counts up, sold counts down. -/
def signed : OrderSide → Int → Int
  | .buy, n => n
  | .sell, n => -n

theorem positionOf_append (account symbol : String) (fills fills' : List Fill) :
    positionOf account symbol (fills ++ fills')
      = positionOf account symbol fills + positionOf account symbol fills' := by
  simp [positionOf]

/-- What is the same in all trades of one call. -/
def CallBy (o : Order) (fills : List Fill) : Prop :=
  ∀ f ∈ fills, f.trade.aggressorAccountId = o.accountId ∧ f.trade.aggressorSide = o.side
    ∧ f.trade.symbol = o.symbol ∧ 0 < f.trade.quantity

theorem match_callBy {b : OrderBook} (h : RepInv b) (amb : Ambient) (o : Order) :
    CallBy o (b.matchIncoming amb o).1 := by
  intro f hf
  obtain ⟨_, hok⟩ := match_fillOk h amb o f hf
  exact ⟨hok.aggressorAccountId, hok.aggressorSide, hok.symbol, hok.positive⟩

/-- The position change of one call: what the account executed as aggressor, less what
it executed as passive party, with the sign of the incoming side. -/
theorem positionOf_call {o : Order} {fills : List Fill} (h : CallBy o fills) (account : String) :
    positionOf account o.symbol fills
      = signed o.side (executed Trade.aggressorAccountId account fills
          - executed Trade.passiveAccountId account fills) := by
  induction fills with
  | nil => cases o.side <;> rfl
  | cons f fills ih =>
      have hrest := ih (fun f' hf' => h f' (List.mem_cons_of_mem _ hf'))
      obtain ⟨-, hside, hsym, -⟩ := h f (List.mem_cons_self ..)
      simp only [positionOf, executed, List.map_cons, List.sum_cons] at hrest ⊢
      rw [hrest, positionChange, if_pos hsym, Trade.buyer, Trade.seller, hside]
      cases o.side with
      | buy => simp only [signed, if_true]; omega
      | sell => simp only [signed, reduceCtorEq, if_false]; omega

/-- A call leaves the positions in other symbols. -/
theorem positionOf_other {o : Order} {fills : List Fill} (h : CallBy o fills) (account : String)
    {symbol : String} (hs : symbol ≠ o.symbol) : positionOf account symbol fills = 0 := by
  refine List.sum_eq_zero (fun n hn => ?_)
  obtain ⟨f, hf, rfl⟩ := List.mem_map.mp hn
  exact if_neg (by rw [(h f hf).2.2.1]; exact hs.symm)

section Party

variable {party : Trade → String} {x : String} {fills : List Fill}

theorem executed_eq_zero (h : ∀ f ∈ fills, party f.trade ≠ x) : executed party x fills = 0 := by
  refine List.sum_eq_zero (fun n hn => ?_)
  obtain ⟨f, hf, rfl⟩ := List.mem_map.mp hn
  exact if_neg (h f hf)

theorem executed_nonneg (h : ∀ f ∈ fills, 0 < f.trade.quantity) : 0 ≤ executed party x fills := by
  refine List.sum_nonneg (fun n hn => ?_)
  obtain ⟨f, hf, rfl⟩ := List.mem_map.mp hn
  have := h f hf
  split <;> omega

theorem executed_pos (h : ∀ f ∈ fills, 0 < f.trade.quantity) {f : Fill} (hf : f ∈ fills) :
    0 < executed party (party f.trade) fills := by
  obtain ⟨l₁, l₂, rfl⟩ := List.append_of_mem hf
  have h₁ : 0 ≤ executed party (party f.trade) l₁ :=
    executed_nonneg (fun f' hf' => h f' (List.mem_append_left _ hf'))
  have h₂ : 0 ≤ executed party (party f.trade) l₂ :=
    executed_nonneg (fun f' hf' => h f' (List.mem_append_right _ (List.mem_cons_of_mem _ hf')))
  have hq := h f hf
  have hsum : executed party (party f.trade) (l₁ ++ f :: l₂)
      = executed party (party f.trade) l₁ + (f.trade.quantity
        + executed party (party f.trade) l₂) := by
    simp [executed]
  omega

end Party

/-- A call moves the position of everyone it trades with, the caller aside. -/
theorem positionOf_passive_ne {o : Order} {fills : List Fill} (h : CallBy o fills) {f : Fill}
    (hf : f ∈ fills) (hne : o.accountId ≠ f.trade.passiveAccountId) :
    positionOf f.trade.passiveAccountId o.symbol fills ≠ 0 := by
  have hpas : 0 < executed Trade.passiveAccountId f.trade.passiveAccountId fills :=
    executed_pos (fun f' hf' => (h f' hf').2.2.2) hf
  have hagg : executed Trade.aggressorAccountId f.trade.passiveAccountId fills = 0 :=
    executed_eq_zero (fun f' hf' => by rw [(h f' hf').1]; exact hne)
  rw [positionOf_call h, hagg]
  cases o.side with
  | buy => simp only [signed]; omega
  | sell => simp only [signed]; omega

/-! ## When a call trades -/

/-- The order brings a quantity, and there is something for it to trade with. -/
def WouldFill (b : OrderBook) (o : Order) : Prop :=
  0 < o.remainingQuantity ∧
    match o.type with
    | .market => b.resting o.side.opposite ≠ []
    | .limit | .ioc => ∃ x ∈ b.resting o.side.opposite, OrderBook.crossesLimit o x.price = true
    | .fok => o.quantity ≤ b.availableQuantityAtOrBetter o ∧ b.resting o.side.opposite ≠ []
    | .stopLimit => False

theorem crossMono_all (s : OrderSide) : CrossMono s (fun _ => true) := fun _ _ _ _ => rfl

theorem matchLimit_fills (b : OrderBook) (amb : Ambient) (o : Order) :
    (b.matchLimit amb o).1 = (b.sweep amb o (OrderBook.crossesLimit o)).1.fills := by
  rcases matchLimit_cases b amb o with ⟨-, heq⟩ | ⟨-, heq⟩ <;> rw [heq]

theorem market_fills_iff {b : OrderBook} (h : RepInv b) (amb : Ambient) (o : Order) :
    (b.matchMarket amb o).1 ≠ [] ↔ 0 < o.remainingQuantity ∧ b.resting o.side.opposite ≠ [] := by
  refine (sweep_fills_iff h amb (crossMono_all _)).trans (and_congr_right (fun _ => ?_))
  constructor
  · rintro ⟨x, hx, -⟩
    exact List.ne_nil_of_mem hx
  · intro hne
    obtain ⟨x, rest, heq⟩ := List.exists_cons_of_ne_nil hne
    exact ⟨x, by rw [heq]; exact List.mem_cons_self .., rfl⟩

/-- **A call of `match` trades exactly when `WouldFill` says so.** -/
theorem match_fills_iff {b : OrderBook} (h : RepInv b) (amb : Ambient) (o : Order) :
    (b.matchIncoming amb o).1 ≠ [] ↔ WouldFill b o := by
  unfold OrderBook.matchIncoming WouldFill
  cases o.type with
  | market => exact market_fills_iff h amb o
  | limit =>
      dsimp only
      rw [matchLimit_fills]
      exact sweep_fills_iff h amb (crossMono_limit o)
  | ioc =>
      dsimp only [OrderBook.matchIoc]
      rw [matchLimit_fills]
      exact sweep_fills_iff h amb (crossMono_limit o)
  | fok =>
      dsimp only [OrderBook.matchFok]
      split
      · rename_i hlt
        exact ⟨fun hne => absurd rfl hne, fun hw => absurd hw.2.1 (not_le.mpr hlt)⟩
      · rename_i hge
        rw [market_fills_iff h amb o]
        exact ⟨fun hw => ⟨hw.1, not_lt.mp hge, hw.2⟩, fun hw => ⟨hw.1, hw.2.2⟩⟩
  | stopLimit => exact ⟨fun hne => absurd rfl hne, fun hw => absurd hw.2 id⟩

theorem match_fills_nil {b : OrderBook} (h : RepInv b) (amb : Ambient) {o : Order}
    (hw : ¬ WouldFill b o) : (b.matchIncoming amb o).1 = [] := by
  by_contra hne
  exact hw ((match_fills_iff h amb o).mp hne)

/-! ## The recorded positions -/

/-- A delivery books trades on their aggressor, and on nobody else. -/
theorem deliver_position (clock : Nat → Int) {o : Order} {fills : List Fill} (n : Nat)
    (r : RiskEngine) (h : CallBy o fills) {account : String} (ha : account ≠ o.accountId)
    (symbol : String) :
    (deliver clock o n fills r).riskEngine.getNetPosition account symbol
      = r.getNetPosition account symbol := by
  refine deliver_rule (P := fun r' => r'.getNetPosition account symbol
    = r.getNetPosition account symbol) clock o fills n r ?_ rfl
  intro f hf r' now hr'
  obtain ⟨cb, heq⟩ := fillConsumer_state r' now f.trade
  have hbook := getNetPosition_recordFill r' f.trade.aggressorAccountId f.trade.symbol
    f.trade.aggressorSide f.trade.quantity account symbol
  rw [if_neg (fun hc => ha (hc.1.trans (h f hf).1)), hr'] at hbook
  rw [heq]
  exact hbook

/-- The ledger agrees with the trades, for every account and symbol. -/
def LedgerMatches (m : Market) : Prop :=
  ∀ account symbol, m.engine.riskEngine.getNetPosition account symbol
    = positionOf account symbol m.executed

/-- The call is a `submit` that is admitted and has something to trade with. -/
def Fills (e : MatchingEngine) : EngineOp → Prop
  | .submit _ o => e.halted = false ∧ Admissible e.riskEngine o ∧ WouldFill (e.bookOf o.symbol) o
  | _ => False

theorem LedgerMatches.quiet {m m' : Market} (h : LedgerMatches m) (hq : Quiet m m') :
    LedgerMatches m' := by
  intro account symbol
  rw [hq.executed, hq.same.getNetPosition, h account symbol]

/-- A call that trades nothing leaves the ledger and the trades as they agree. -/
theorem ledger_kept {m : Market} (hinv : EngineInv m.engine []) (h : LedgerMatches m)
    {op : EngineOp} (hn : ¬ Fills m.engine op) : LedgerMatches (m.step op).1 := by
  rcases quiet_or_admitted hinv op with ⟨hq, -⟩ | ⟨env, o, r', rfl, hap, heq, hh, ha⟩
  · exact h.quiet hq
  · have hnil : ((m.engine.bookOf o.symbol).matchIncoming env.amb o).1 = [] :=
      match_fills_nil (hinv.bookOf o.symbol).rep env.amb (fun hw => hn ⟨hh, ha, hw⟩)
    have hfills : ((({ m.engine with riskEngine := r' } : MatchingEngine).bookOf
        o.symbol).matchIncoming env.amb o).1 = [] := hnil
    rw [heq]
    intro account symbol
    rw [hnil, List.append_nil, ← h account symbol]
    unfold afterMatch
    rw [hfills]
    exact hap.same.getNetPosition account symbol

/-- A call that trades puts the first passive party's position out. -/
theorem ledger_broken {m : Market} (hinv : EngineInv m.engine []) (h : LedgerMatches m)
    {op : EngineOp} (hf : Fills m.engine op) : ¬ LedgerMatches (m.step op).1 := by
  rcases quiet_or_admitted hinv op with ⟨-, hna⟩ | ⟨env, o, r', rfl, hap, heq, -, -⟩
  · -- only a `submit` can trade, and it was not admitted
    cases op with
    | submit env o => exact absurd ⟨hf.1, hf.2.1⟩ (hna env o rfl)
    | cancel symbol orderId => exact absurd hf id
    | halt => exact absurd hf id
    | resume => exact absurd hf id
  · have hbook := hinv.bookOf o.symbol
    have hcall := match_callBy hbook.rep env.amb o
    have hne := (match_fills_iff hbook.rep env.amb o).mpr hf.2.2
    -- some trade, and its passive party, who is not the caller
    obtain ⟨f, hmem⟩ := List.exists_mem_of_ne_nil _ hne
    have hself : f.trade.aggressorAccountId ≠ f.trade.passiveAccountId :=
      (hinv.approve hap).no_self_trade hmem
    rw [(hcall f hmem).1] at hself
    intro hafter
    have hpos := hafter f.trade.passiveAccountId o.symbol
    rw [heq] at hpos
    dsimp only at hpos
    have hledger : (afterMatch { m.engine with riskEngine := r' } env o).riskEngine.getNetPosition
          f.trade.passiveAccountId o.symbol
        = m.engine.riskEngine.getNetPosition f.trade.passiveAccountId o.symbol :=
      (deliver_position env.clock 0 r' hcall hself.symm o.symbol).trans
        (hap.same.getNetPosition _ _)
    rw [hledger, h, positionOf_append] at hpos
    have hmoved := positionOf_passive_ne hcall hmem hself
    omega

/--
**When the ledger matches the trades.** The recorded positions equal the positions
implied by the trades after every call of a run that returns if and only if none of
these calls executes anything: none is a `submit` that is admitted and finds something
to trade with.
-/
theorem ledger_matches_iff (ops : List EngineOp) :
    (∀ pre post, ops = pre ++ post → AllComplete pre → LedgerMatches (marketAfter pre))
      ↔ ∀ pre op post, ops = pre ++ op :: post → AllComplete (pre ++ [op]) →
          ¬ Fills (marketAfter pre).engine op := by
  constructor
  · intro hall pre op post hops hc hf
    have hbefore := hall pre (op :: post) hops hc.of_append
    have hafter := hall (pre ++ [op]) post (by rw [hops]; simp) hc
    rw [marketAfter, run_snoc] at hafter
    exact ledger_broken (engineInv_reachable pre) hbefore hf hafter
  · intro hn pre post hops hc
    -- over the prefixes of `pre`: each of them returns, and continues to `ops`
    refine run_invariant Market.step
      (V := fun is => AllComplete is ∧ ∃ rest, ops = is ++ rest) (P := fun _ => LedgerMatches)
      ?_ (fun account symbol => rfl) ?_ pre ⟨hc, post, hops⟩
    · intro is op hv
      obtain ⟨hcs, rest, hrest⟩ := hv
      exact ⟨hcs.of_append, op :: rest, by rw [hrest]; simp⟩
    · intro is op hv hp
      obtain ⟨hcs, rest, hrest⟩ := hv
      exact ledger_kept (engineInv_reachable is) hp (hn is op rest (by rw [hrest]; simp) hcs)

/-- `A` rests a buy of 10 and `B` sells 10 into it. -/
def passiveFillRun : List EngineOp :=
  [.submit stillEnv (Order.create "a" 0 "A" "AAPL" .buy .limit 10000000000 0 10),
    .submit stillEnv (Order.create "b" 0 "B" "AAPL" .sell .limit 10000000000 0 10)]

/-- Both calls complete, `A` has bought 10, and its recorded position is 0. -/
theorem passive_fill_not_recorded :
    (marketTrace passiveFillRun).map (fun t => t.output.submitted.completed) = [true, true]
      ∧ positionOf "A" "AAPL" (marketAfter passiveFillRun).executed = 10
      ∧ (marketAfter passiveFillRun).engine.riskEngine.getNetPosition "A" "AAPL" = 0
      ∧ ¬ LedgerMatches (marketAfter passiveFillRun) := by
  refine ⟨by decide, by decide, by decide, fun h => ?_⟩
  exact absurd (h "A" "AAPL") (by decide)

end TitanX.Proof
