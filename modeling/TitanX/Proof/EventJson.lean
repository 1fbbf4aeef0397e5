import TitanX.Model.EventJson
import TitanX.Proof.Price

/-!
# What the payload of an event keeps

The payload is all that the table has of an event beyond a few columns, so what it does not
keep is lost to an audit. As long as `dump` prints different values differently, as the compact
text of `Lib.Json` does, it keeps what `to_json` does: the names of the enumerations are distinct,
and what is lost are the times below a millisecond and the prices below a cent.
-/

namespace TitanX.Proof

open TitanX Binary64

/-! ## Prices -/

/-- The cents that are printed of a price. -/
def centsOf (p : Int) : Nat := (roundEven (fixedToPrice p * 100)).toNat

theorem fixedToPrice_nonneg {p : Int} (h : 0 ≤ p) : 0 ≤ fixedToPrice p := by
  have hp : (0 : ℚ) ≤ p := by exact_mod_cast h
  exact nearest_nonneg (div_nonneg (nearest_nonneg hp) (by norm_num [priceScale]))

theorem priceToString_eq {p : Int} (h : 0 ≤ p) : priceToString p = hundredths (centsOf p) := by
  have hnonneg := fixedToPrice_nonneg h
  unfold priceToString formatTwoPlaces
  rw [if_neg (not_lt.mpr hnonneg), abs_of_nonneg hnonneg]
  exact String.empty_append

theorem hundredths_inj {c d : Nat} (h : hundredths c = hundredths d) : c = d := by
  have hvalue : some (Number.finite ((c : ℚ) / 100)) = some (.finite ((d : ℚ) / 100)) := by
    rw [← readNumber_hundredths, h, readNumber_hundredths]
  have hcast : (c : ℚ) = d := by
    have := Number.finite.inj (Option.some.inj hvalue)
    linarith
  exact_mod_cast hcast

theorem priceToString_inj {p q : Int} (hp : 0 ≤ p) (hq : 0 ≤ q) :
    priceToString p = priceToString q ↔ centsOf p = centsOf q := by
  rw [priceToString_eq hp, priceToString_eq hq]
  exact ⟨hundredths_inj, fun h => by rw [h]⟩

theorem centsOf_near {p : Int} (h₀ : 0 ≤ p) (hp : p ≤ 10 ^ 15) :
    |(centsOf p : Int) * 10 ^ 6 - p| ≤ 500001 := by
  obtain ⟨c, htext, hnear⟩ := priceToString_cents h₀ hp
  rw [priceToString_eq h₀] at htext
  rw [hundredths_inj htext]
  exact_mod_cast hnear

/-! ## Records -/

/-- The fixed-point price that a payload tells. -/
def recordedPrice (p : Int) : Int := centsOf p * 10 ^ 6

theorem recordedPrice_inj {p q : Int} : recordedPrice p = recordedPrice q ↔ centsOf p = centsOf q := by
  unfold recordedPrice
  omega

theorem recordedPrice_cents {p : Int} (h₀ : 0 ≤ p) (hp : p ≤ 10 ^ 15) (hdvd : 10 ^ 6 ∣ p) :
    recordedPrice p = p := by
  have hnear := abs_le.mp (centsOf_near h₀ hp)
  obtain ⟨k, rfl⟩ := hdvd
  unfold recordedPrice
  omega

/-- What a payload tells of an order. -/
def recordedOrder (o : Order) : Order :=
  { o with
    price := recordedPrice o.price
    stopPrice := recordedPrice o.stopPrice
    createdAt := toMillis o.createdAt
    updatedAt := toMillis o.updatedAt }

def recordedTrade (t : Trade) : Trade :=
  { t with price := recordedPrice t.price, executedAt := toMillis t.executedAt }

/-- What a payload tells of an event. -/
def recorded (e : OrderEvent) : OrderEvent :=
  { e with orderSnapshot := recordedOrder e.orderSnapshot, trade := e.trade.map recordedTrade }

def pricesOf (e : OrderEvent) : List Int :=
  [e.orderSnapshot.price, e.orderSnapshot.stopPrice] ++ (e.trade.map Trade.price).toList

theorem side_toText_inj {s s' : OrderSide} : s.toText = s'.toText ↔ s = s' := by
  cases s <;> cases s' <;> decide

theorem type_toText_inj {t t' : OrderType} : t.toText = t'.toText ↔ t = t' := by
  cases t <;> cases t' <;> decide

theorem status_toText_inj {s s' : OrderStatus} : s.toText = s'.toText ↔ s = s' := by
  cases s <;> cases s' <;> decide

theorem eventType_toText_inj {t t' : EventType} : t.toText = t'.toText ↔ t = t' := by
  cases t <;> cases t' <;> decide

theorem order_toJson_inj {o o' : Order} (hp : 0 ≤ o.price) (hs : 0 ≤ o.stopPrice)
    (hp' : 0 ≤ o'.price) (hs' : 0 ≤ o'.stopPrice) :
    o.toJson = o'.toJson ↔ recordedOrder o = recordedOrder o' := by
  simp only [Order.toJson, recordedOrder, Json.object.injEq, List.cons.injEq, Prod.mk.injEq,
    Json.text.injEq, Json.number.injEq, Order.mk.injEq, priceToString_inj hp hp',
    priceToString_inj hs hs', recordedPrice_inj, side_toText_inj, type_toText_inj,
    status_toText_inj, true_and, and_true]
  -- the members are sorted by key, the fields are not
  generalize centsOf o.price = c, centsOf o'.price = c'
  generalize centsOf o.stopPrice = k, centsOf o'.stopPrice = k'
  tauto

theorem trade_toJson_inj {t t' : Trade} (hp : 0 ≤ t.price) (hp' : 0 ≤ t'.price) :
    t.toJson = t'.toJson ↔ recordedTrade t = recordedTrade t' := by
  simp only [Trade.toJson, recordedTrade, Json.object.injEq, List.cons.injEq, Prod.mk.injEq,
    Json.text.injEq, Json.number.injEq, Trade.mk.injEq, priceToString_inj hp hp', recordedPrice_inj,
    side_toText_inj, true_and, and_true]
  generalize centsOf t.price = c, centsOf t'.price = c'
  tauto

/-- An absent member is `null`, and no text is. -/
theorem reason_inj {r r' : String} :
    (if r = "" then Json.null else .text r) = (if r' = "" then Json.null else .text r') ↔ r = r' := by
  constructor
  · intro h
    split at h <;> split at h
    · rename_i hr hr'
      rw [hr, hr']
    · cases h
    · cases h
    · exact Json.text.inj h
  · intro h
    rw [h]

theorem tradeJson_inj {t t' : Option Trade} (hp : ∀ p ∈ t.map Trade.price, 0 ≤ p)
    (hp' : ∀ p ∈ t'.map Trade.price, 0 ≤ p) :
    tradeJson t = tradeJson t' ↔ t.map recordedTrade = t'.map recordedTrade := by
  cases t with
  | none =>
      cases t' with
      | none => exact ⟨fun _ => rfl, fun _ => rfl⟩
      | some t' => exact ⟨fun h => (by cases h), fun h => (by cases h)⟩
  | some t =>
      cases t' with
      | none => exact ⟨fun h => (by cases h), fun h => (by cases h)⟩
      | some t' =>
          rw [Option.map_some, Option.map_some, Option.some.injEq]
          exact trade_toJson_inj (hp _ rfl) (hp' _ rfl)

/-! ## Payloads -/

/-- What is assumed of `dump`: values that differ have different texts, as far as their objects
are sorted maps. -/
def FaithfulDump (dump : Json → String) : Prop := Set.InjOn dump {j | j.ordered = true}

theorem ordered_order (o : Order) : o.toJson.ordered = true := by
  refine (Json.orderedMembers_iff _).mpr ⟨?_, ?_⟩
  · simp only [List.map_cons, List.map_nil]
    decide
  · simp [Json.ordered]

theorem ordered_trade (t : Trade) : t.toJson.ordered = true := by
  refine (Json.orderedMembers_iff _).mpr ⟨?_, ?_⟩
  · simp only [List.map_cons, List.map_nil]
    decide
  · simp [Json.ordered]

/-- Every event is a value that a sorted map can hold. -/
theorem ordered_event (e : OrderEvent) (eventId : String) (occurredAt : Int) :
    (e.toJson eventId occurredAt).ordered = true := by
  have htrade : (tradeJson e.trade).ordered = true := by
    cases e.trade with
    | none => rfl
    | some t => exact ordered_trade t
  have hreason : (if e.rejectionReason = "" then Json.null else .text e.rejectionReason).ordered = true := by
    split <;> rfl
  refine (Json.orderedMembers_iff _).mpr ⟨?_, ?_⟩
  · simp only [List.map_cons, List.map_nil]
    decide
  · simp [Json.ordered, ordered_order, htrade, hreason]

theorem pricesOf_nonneg {e : OrderEvent} (h : ∀ p ∈ pricesOf e, 0 ≤ p) :
    0 ≤ e.orderSnapshot.price ∧ 0 ≤ e.orderSnapshot.stopPrice
      ∧ ∀ p ∈ e.trade.map Trade.price, 0 ≤ p := by
  refine ⟨h _ (by simp [pricesOf]), h _ (by simp [pricesOf]), fun p hp => h p ?_⟩
  exact List.mem_append_right _ (Option.mem_toList.mpr hp)

theorem event_toJson_inj {e e' : OrderEvent} (h : ∀ p ∈ pricesOf e, 0 ≤ p)
    (h' : ∀ p ∈ pricesOf e', 0 ≤ p) (eventId eventId' : String) (occurredAt occurredAt' : Int) :
    e.toJson eventId occurredAt = e'.toJson eventId' occurredAt'
      ↔ recorded e = recorded e' ∧ eventId = eventId' ∧ toMillis occurredAt = toMillis occurredAt' := by
  obtain ⟨hp, hs, ht⟩ := pricesOf_nonneg h
  obtain ⟨hp', hs', ht'⟩ := pricesOf_nonneg h'
  simp only [OrderEvent.toJson, recorded, Json.object.injEq,
    List.cons.injEq, Prod.mk.injEq, Json.text.injEq, Json.number.injEq, OrderEvent.mk.injEq,
    order_toJson_inj hp hs hp' hs', reason_inj, tradeJson_inj ht ht', eventType_toText_inj,
    true_and, and_true]
  generalize recordedOrder e.orderSnapshot = o, recordedOrder e'.orderSnapshot = o'
  generalize e.trade.map recordedTrade = t, e'.trade.map recordedTrade = t'
  tauto

/--
**What the audit trail tells.** If values that differ have different texts, two payloads are the
same text if and only if they are those of the same event under the same id, times compared in
milliseconds and prices in cents. Up to `10 ^ 15` units the price told is half a cent off at most,
and that of a whole number of cents is exact.
-/
theorem payload_recorded {dump : Json → String} (hdump : FaithfulDump dump)
    {e e' : OrderEvent} (h : ∀ p ∈ pricesOf e, 0 ≤ p) (h' : ∀ p ∈ pricesOf e', 0 ≤ p)
    (eventId eventId' : String) (occurredAt occurredAt' : Int) :
    (e.payload dump eventId occurredAt = e'.payload dump eventId' occurredAt'
        ↔ recorded e = recorded e' ∧ eventId = eventId' ∧ toMillis occurredAt = toMillis occurredAt')
      ∧ ∀ p ∈ pricesOf e, p ≤ 10 ^ 15 →
          |recordedPrice p - p| ≤ 500001 ∧ (10 ^ 6 ∣ p → recordedPrice p = p) := by
  refine ⟨?_, fun p hp hle => ⟨centsOf_near (h p hp) hle, recordedPrice_cents (h p hp) hle⟩⟩
  unfold OrderEvent.payload
  rw [Set.InjOn.eq_iff hdump (ordered_event e _ _) (ordered_event e' _ _)]
  exact event_toJson_inj h h' eventId eventId' occurredAt occurredAt'

/-- The event of a limit order for one share of AAPL. -/
def pricedEvent (price : Int) : OrderEvent :=
  OrderEvent.received (Order.create "a" 0 "A" "AAPL" .buy .limit price 0 1)

theorem payload_recorded_units :
    recordedPrice 15025000000 = 15025000000
      ∧ (pricedEvent 15025000000).payload Json.compact "e" 0
          = (pricedEvent 15025000001).payload Json.compact "e" 999999
      ∧ (pricedEvent 15025000000).payload Json.compact "e" 0
          ≠ (pricedEvent 15026000000).payload Json.compact "e" 0 := by
  have hdump : FaithfulDump Json.compact := fun _ _ _ _ heq => Json.compact_inj.mp heq
  have hnonneg : ∀ price ∈ [15025000000, 15025000001, 15026000000],
      ∀ p ∈ pricesOf (pricedEvent price), 0 ≤ p := by decide
  have hsame := payload_recorded hdump (hnonneg 15025000000 (by decide))
    (hnonneg 15025000001 (by decide)) "e" "e" 0 999999
  have hother := payload_recorded hdump (hnonneg 15025000000 (by decide))
    (hnonneg 15026000000 (by decide)) "e" "e" 0 0
  refine ⟨(hsame.2 15025000000 (by decide) (by decide)).2 (by decide),
    hsame.1.mpr (by decide +kernel), fun heq => ?_⟩
  exact absurd (hother.1.mp heq).1 (by decide +kernel)

end TitanX.Proof
