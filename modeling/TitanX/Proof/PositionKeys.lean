import TitanX.Model.RedisPositionCache
import TitanX.Proof.Ledger
import Mathlib.Data.List.TakeWhile
import Mathlib.Data.Set.Function

/-!
# Positions in Redis

The cache keeps one integer for each key, and the key is made of the account and the symbol
with a colon between them. Each fill moves the right two keys by the right amounts, so the
positions are exact as long as no two pairs have one key, and only as long as that
(`redis_positions_exact_iff`): where two pairs share a key, a single trade shows it.

Accounts and symbols come from the clients. A colon in an account or a NUL in either one is
enough for two pairs to meet; without them the keys are different (`positionKey_injOn`).
-/

namespace TitanX.Proof

open TitanX RedisPositionCache

/-! ## One update -/

/-- The key as Redis sees it. -/
def redisKey (pair : String × String) : String := cString (positionKey pair.1 pair.2)

/-- An update moves the pairs with the same key. -/
theorem getPosition_updatePosition (c : RedisPositionCache) (a s : String) (delta : Int)
    (a' s' : String) :
    (c.updatePosition a s delta).getPosition a' s'
      = c.getPosition a' s' + if redisKey (a', s') = redisKey (a, s) then delta else 0 := by
  unfold updatePosition getPosition
  by_cases h : redisKey (a', s') = redisKey (a, s)
  · rw [if_pos h]
    unfold redisKey at h
    dsimp only at h ⊢
    rw [h, Finmap.lookup_insert]
    rfl
  · rw [if_neg h, Int.add_zero]
    unfold redisKey at h
    dsimp only at h ⊢
    rw [Finmap.lookup_insert_of_ne _ h]

/-- A quantity that can be negated in `int64_t`. -/
def Tradable (t : Trade) : Prop := 0 < t.quantity ∧ t.quantity < 9223372036854775808

/-- The two updates of a fill, as signed quantities. -/
theorem getPosition_consumeFill (c : RedisPositionCache) {t : Trade} (ht : Tradable t)
    (a s : String) :
    (c.consumeFill t).getPosition a s
      = c.getPosition a s
        + (if redisKey (a, s) = redisKey (t.aggressorAccountId, t.symbol)
            then signed t.aggressorSide t.quantity else 0)
        + (if redisKey (a, s) = redisKey (t.passiveAccountId, t.symbol)
            then signed t.aggressorSide.opposite t.quantity else 0) := by
  obtain ⟨hpos, hfits⟩ := ht
  unfold consumeFill
  dsimp only
  rw [getPosition_updatePosition, getPosition_updatePosition]
  have hneg : wrap64 (-t.quantity) = -t.quantity := wrap64_of_lt (by omega) (by omega)
  cases hside : t.aggressorSide with
  | buy =>
      change _ + (if _ then t.quantity else 0) + (if _ then wrap64 (-t.quantity) else 0) = _
      rw [hneg]
      rfl
  | sell =>
      change _ + (if _ then wrap64 (-t.quantity) else 0)
        + (if _ then wrap64 (-wrap64 (-t.quantity)) else 0) = _
      rw [hneg, Int.neg_neg, wrap64_of_lt (by omega) hfits]
      rfl

/-! ## Exactness -/

/-- Bought minus sold, over a list of trades. -/
def tradedPosition (account symbol : String) (trades : List Trade) : Int :=
  (trades.map (positionChange account symbol)).sum

/-- The cache after the consumer has seen the trades. -/
def cacheAfter (trades : List Trade) : RedisPositionCache :=
  trades.foldl consumeFill RedisPositionCache.initial

/-- A trade in a symbol of `Y` between accounts of `A`. -/
structure TradeAmong (A Y : Set String) (t : Trade) : Prop where
  tradable : Tradable t
  aggressor : t.aggressorAccountId ∈ A
  passive : t.passiveAccountId ∈ A
  symbol : t.symbol ∈ Y

/-- After any fills, the positions of the accounts `A` in the symbols `Y` are what the
trades say. -/
def SumExact (A Y : Set String) : Prop :=
  ∀ trades : List Trade, (∀ t ∈ trades, TradeAmong A Y t) → ∀ a ∈ A, ∀ s ∈ Y,
    (cacheAfter trades).getPosition a s = tradedPosition a s trades

/-- An update of one pair does not change the position of another. -/
def Framed (A Y : Set String) : Prop :=
  ∀ (c : RedisPositionCache) (delta : Int), ∀ a ∈ A, ∀ s ∈ Y, ∀ a' ∈ A, ∀ s' ∈ Y,
    (a', s') ≠ (a, s) → (c.updatePosition a s delta).getPosition a' s' = c.getPosition a' s'

/-- What a trade does to the position of an account, by the side the account was on. -/
theorem positionChange_eq (t : Trade) (a s : String) :
    positionChange a s t
      = (if (a, s) = (t.aggressorAccountId, t.symbol)
          then signed t.aggressorSide t.quantity else 0)
        + (if (a, s) = (t.passiveAccountId, t.symbol)
          then signed t.aggressorSide.opposite t.quantity else 0) := by
  unfold positionChange Trade.buyer Trade.seller
  by_cases hs : t.symbol = s
  · subst hs
    cases hside : t.aggressorSide <;>
      simp only [Prod.mk.injEq, and_true, if_true, reduceCtorEq, if_false, signed,
        OrderSide.opposite, eq_comm (a := a)] <;> split <;> split <;> omega
  · have hs' : ∀ x, (a, s) ≠ (x, t.symbol) := fun x h => hs (Prod.ext_iff.mp h).2.symm
    rw [if_neg hs, if_neg (hs' _), if_neg (hs' _)]
    rfl

section Among

variable {A Y : Set String} (hinj : Set.InjOn redisKey (A ×ˢ Y))

include hinj

theorem redisKey_eq_iff {a a' s s' : String} (ha : a ∈ A) (hs : s ∈ Y) (ha' : a' ∈ A)
    (hs' : s' ∈ Y) : redisKey (a, s) = redisKey (a', s') ↔ (a, s) = (a', s') :=
  ⟨fun h => hinj ⟨ha, hs⟩ ⟨ha', hs'⟩ h, fun h => by rw [h]⟩

/-- **What one fill preserves.** -/
theorem consumeFill_exact (c : RedisPositionCache) {t : Trade} (ht : TradeAmong A Y t)
    {a s : String} (ha : a ∈ A) (hs : s ∈ Y) :
    (c.consumeFill t).getPosition a s = c.getPosition a s + positionChange a s t := by
  rw [getPosition_consumeFill c ht.tradable, positionChange_eq]
  simp only [redisKey_eq_iff hinj ha hs ht.aggressor ht.symbol,
    redisKey_eq_iff hinj ha hs ht.passive ht.symbol]
  omega

theorem cacheAfter_exact (trades : List Trade) (ht : ∀ t ∈ trades, TradeAmong A Y t)
    {a s : String} (ha : a ∈ A) (hs : s ∈ Y) :
    (cacheAfter trades).getPosition a s = tradedPosition a s trades := by
  induction trades using List.reverseRecOn with
  | nil => exact congrArg (Option.getD · 0) (Finmap.lookup_empty _)
  | append_singleton trades t ih =>
      have hrest := ih (fun t' ht' => ht t' (List.mem_append_left _ ht'))
      have hlast := ht t (List.mem_append_right _ (List.mem_cons_self ..))
      unfold cacheAfter tradedPosition at hrest ⊢
      rw [List.foldl_append, List.map_append, List.sum_append, List.map_singleton,
        List.sum_singleton, ← hrest]
      exact consumeFill_exact hinj _ hlast ha hs

end Among

/-! ## Shared keys -/

/-- The trade that shows a shared key: `a` buys one share of `s` from `b`. -/
def oneShare (a b s : String) : Trade :=
  Trade.create "t" 0 (Order.create "x" 0 a s .buy .market 0 0 1)
    (Order.create "y" 0 b s .sell .limit 1 0 1) 1 1

/-- What the cache says after that trade, if the positions are exact. -/
theorem SumExact.after_oneShare {A Y : Set String} (h : SumExact A Y) {a b s a' s' : String}
    (ha : a ∈ A) (hb : b ∈ A) (hs : s ∈ Y) (ha' : a' ∈ A) (hs' : s' ∈ Y) :
    ((if redisKey (a', s') = redisKey (a, s) then 1 else 0)
        + (if redisKey (a', s') = redisKey (b, s) then -1 else 0) : Int)
      = (if (a', s') = (a, s) then 1 else 0) + (if (a', s') = (b, s) then -1 else 0) := by
  have hone : Tradable (oneShare a b s) :=
    ⟨(by decide : (0 : Int) < 1), (by decide : (1 : Int) < 9223372036854775808)⟩
  have htrade : TradeAmong A Y (oneShare a b s) := ⟨hone, ha, hb, hs⟩
  have hsum := h [oneShare a b s] (by simpa using htrade) a' ha' s' hs'
  have hcache : (cacheAfter [oneShare a b s]).getPosition a' s' = _ :=
    getPosition_consumeFill RedisPositionCache.initial hone a' s'
  have hempty : RedisPositionCache.initial.getPosition a' s' = 0 :=
    congrArg (Option.getD · 0) (Finmap.lookup_empty _)
  rw [hcache, hempty, Int.zero_add, tradedPosition, List.map_singleton, List.sum_singleton,
    positionChange_eq] at hsum
  exact hsum

/-- Exact positions tell the buyer's key from the seller's. -/
theorem SumExact.key_ne {A Y : Set String} (h : SumExact A Y) {a b s : String}
    (ha : a ∈ A) (hb : b ∈ A) (hs : s ∈ Y) (hab : a ≠ b) : redisKey (a, s) ≠ redisKey (b, s) := by
  intro hkey
  have hsum := h.after_oneShare ha hb hs ha hs
  have hne : (a, s) ≠ (b, s) := fun heq => hab (Prod.ext_iff.mp heq).1
  rw [if_pos rfl, if_pos hkey, if_pos rfl, if_neg hne] at hsum
  omega

theorem SumExact.injOn {A Y : Set String} (hA : A.Nontrivial) (h : SumExact A Y) :
    Set.InjOn redisKey (A ×ˢ Y) := by
  rintro ⟨a', s'⟩ ⟨ha', hs'⟩ ⟨a, s⟩ ⟨ha, hs⟩ hkey
  by_contra hne
  by_cases hsym : s' = s
  · subst hsym
    exact h.key_ne ha' ha hs' (fun heq => hne (Prod.ext heq rfl)) hkey
  · -- any other account sells to `a`; its key is not the shared one
    obtain ⟨b, hb, hba⟩ := hA.exists_ne a
    have hsum := h.after_oneShare ha hb hs ha' hs'
    have hkeyb : redisKey (a', s') ≠ redisKey (b, s) := by
      rw [hkey]
      exact h.key_ne ha hb hs hba.symm
    have hneb : (a', s') ≠ (b, s) := fun heq => hsym (Prod.ext_iff.mp heq).2
    rw [if_pos hkey, if_neg hkeyb, if_neg hne, if_neg hneb] at hsum
    omega

/--
**When the positions in Redis are exact.** For any symbols and any accounts, two of them at
least: the cache has bought minus sold for each pair after every sequence of fills among
them if and only if different pairs have different keys, and the updates of one pair leave
the others alone if and only if the same holds.
-/
theorem redis_positions_exact_iff {A Y : Set String} (hA : A.Nontrivial) :
    (SumExact A Y ↔ Set.InjOn redisKey (A ×ˢ Y)) ∧ (Framed A Y ↔ Set.InjOn redisKey (A ×ˢ Y)) := by
  refine ⟨⟨fun h => h.injOn hA, fun hinj trades ht a ha s hs =>
    cacheAfter_exact hinj trades ht ha hs⟩, fun h => ?_, fun hinj => ?_⟩
  · rintro ⟨a', s'⟩ ⟨ha', hs'⟩ ⟨a, s⟩ ⟨ha, hs⟩ hkey
    by_contra hne
    have hsame := h RedisPositionCache.initial 1 a ha s hs a' ha' s' hs' hne
    rw [getPosition_updatePosition, if_pos hkey] at hsame
    omega
  · intro c delta a ha s hs a' ha' s' hs' hne
    have hkey : redisKey (a', s') ≠ redisKey (a, s) :=
      fun hkey => hne (hinj ⟨ha', hs'⟩ ⟨ha, hs⟩ hkey)
    rw [getPosition_updatePosition, if_neg hkey, Int.add_zero]

/-! ## Keys without separators in the accounts -/

/-- The first colon is found again. -/
theorem append_colon_inj {l₁ l₂ r₁ r₂ : List Char} (h₁ : ':' ∉ l₁) (h₂ : ':' ∉ l₂)
    (h : l₁ ++ ':' :: r₁ = l₂ ++ ':' :: r₂) : l₁ = l₂ ∧ r₁ = r₂ := by
  induction l₁ generalizing l₂ with
  | nil =>
      cases l₂ with
      | nil => exact ⟨rfl, (List.cons.inj h).2⟩
      | cons c l₂ =>
          rw [List.nil_append, List.cons_append] at h
          exact absurd (List.mem_cons.mpr (Or.inl (List.cons.inj h).1)) h₂
  | cons c l₁ ih =>
      cases l₂ with
      | nil =>
          rw [List.nil_append, List.cons_append] at h
          exact absurd (List.mem_cons.mpr (Or.inl (List.cons.inj h).1.symm)) h₁
      | cons c' l₂ =>
          obtain ⟨hc, hrest⟩ := List.cons.inj h
          obtain ⟨hl, hr⟩ := ih (fun hm => h₁ (List.mem_cons_of_mem _ hm))
            (fun hm => h₂ (List.mem_cons_of_mem _ hm)) hrest
          exact ⟨by rw [hc, hl], hr⟩

theorem cString_of_no_nul {s : String} (h : Char.ofNat 0 ∉ s.toList) : cString s = s := by
  unfold cString
  rw [List.takeWhile_eq_self_iff.mpr, String.ofList_toList]
  intro c hc
  exact decide_eq_true (fun heq => h (by rw [← heq]; exact hc))

theorem toList_positionKey (a s : String) :
    (positionKey a s).toList = "pos:".toList ++ (a.toList ++ ':' :: s.toList) := by
  unfold positionKey
  simp [String.toList_append]

/-- Without a colon in an account and without a NUL, different pairs have different keys. -/
theorem positionKey_injOn :
    Set.InjOn redisKey ({a | ':' ∉ a.toList ∧ Char.ofNat 0 ∉ a.toList}
      ×ˢ {s | Char.ofNat 0 ∉ s.toList}) := by
  have hkey : ∀ a s : String, Char.ofNat 0 ∉ a.toList → Char.ofNat 0 ∉ s.toList →
      redisKey (a, s) = positionKey a s := by
    intro a s ha hs
    apply cString_of_no_nul
    rw [toList_positionKey]
    simp only [List.mem_append, List.mem_cons, not_or]
    exact ⟨by decide, ha, by decide, hs⟩
  rintro ⟨a, s⟩ ⟨⟨hac, han⟩, hsn⟩ ⟨a', s'⟩ ⟨⟨hac', han'⟩, hsn'⟩ h
  rw [hkey a s han hsn, hkey a' s' han' hsn'] at h
  have hl := congrArg String.toList h
  rw [toList_positionKey, toList_positionKey, List.append_cancel_left_eq] at hl
  obtain ⟨ha, hs⟩ := append_colon_inj hac hac' hl
  exact Prod.ext (String.toList_injective ha) (String.toList_injective hs)

/-- Two accounts and any two symbols, with tickers as they usually are. -/
theorem redis_positions_exact_tickers :
    SumExact {"alice", "bob"} {"AAPL", "MSFT"} := by
  refine (redis_positions_exact_iff ⟨"alice", by simp, "bob", by simp, by decide⟩).1.mpr ?_
  refine positionKey_injOn.mono (Set.prod_mono ?_ ?_)
  · rintro a (rfl | rfl) <;> decide
  · rintro s (rfl | rfl) <;> decide

/-- **Two pairs with one key.** `A:B` buys a share of `C` from `X`, and `A` has a share of
`B:C`, which it never traded. -/
theorem redis_position_shared :
    (cacheAfter [oneShare "A:B" "X" "C"]).getPosition "A" "B:C" = 1
      ∧ tradedPosition "A" "B:C" [oneShare "A:B" "X" "C"] = 0 := by
  decide

end TitanX.Proof
