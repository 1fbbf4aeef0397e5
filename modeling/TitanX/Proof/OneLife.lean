import TitanX.Proof.Interleave
import Mathlib.Algebra.BigOperators.Group.Finset.Basic

/-!
# An order id lives once

The risk engine enters an id the first time it gets past the breaker, and approves only
ids that are not entered. An approved order is on its way to one book until its call
matches it, so at any moment the approved orders are those that were matched and those
in flight, each once (`LifeInv.lives`). What rests in the book of a symbol was matched
there, and an id that was matched once rests in one book at most.
-/

namespace TitanX.Proof

open TitanX Exchange
open scoped List

/-! ## What the log says of an order -/

/-- The orders that passed the risk check. -/
def approvedIn (log : List Happening) : List Order :=
  log.flatMap (fun h => match h with
    | .approved order => [order]
    | _ => [])

/-- The orders that a book was called to match. The stop triggers match none, since there
is never a stop order (`EngineInv.stops`). -/
def matchedIn (log : List Happening) : List Order :=
  log.flatMap (fun h => match h with
    | .matched order _ => [order]
    | _ => [])

theorem approvedIn_append (log log' : List Happening) :
    approvedIn (log ++ log') = approvedIn log ++ approvedIn log' := List.flatMap_append

theorem matchedIn_append (log log' : List Happening) :
    matchedIn (log ++ log') = matchedIn log ++ matchedIn log' := List.flatMap_append

/-- How often `id` occurs in the queues of all books. -/
def occurrences (e : MatchingEngine) (id : String) : Nat :=
  ∑ symbol ∈ e.books.keys, ((allOrders (e.bookOf symbol)).map Order.orderId).count id

/-! ## One step -/

section OneStep

variable {e e' : MatchingEngine} {env : SubmitEnv} {order : Order} {stage stage' : Stage}
  {h : List Happening} {others : List Order}

/-- An approved order goes with its call, from the approval to the match. -/
theorem proceeds_lives (hm : Proceeds e env order stage e' stage' h) :
    approvedIn h ++ carries ⟨env, order, stage⟩ = matchedIn h ++ carries ⟨env, order, stage'⟩ := by
  cases hm with
  | refused _ hs => rcases hs with rfl | rfl <;> rfl
  | approved _ => rfl
  | booked => rfl
  | locked => rfl
  | matched _ => rfl
  | consumed _ hs => rcases hs with rfl | rfl <;> rfl
  | ended hh => rcases hh with rfl | rfl <;> rfl
  | idle _ => rfl

/-- Only ids that the risk engine does not know are approved, and it knows them then. -/
theorem proceeds_approves (hm : Proceeds e env order stage e' stage' h) :
    e.riskEngine.seenOrderIds ⊆ e'.riskEngine.seenOrderIds
      ∧ ((approvedIn h).map Order.orderId).Nodup
      ∧ ∀ o ∈ approvedIn h, o.orderId ∉ e.riskEngine.seenOrderIds
        ∧ o.orderId ∈ e'.riskEngine.seenOrderIds := by
  have hnone : (([] : List Order).map Order.orderId).Nodup ∧ ∀ o ∈ ([] : List Order),
      o.orderId ∉ e.riskEngine.seenOrderIds ∧ o.orderId ∈ e'.riskEngine.seenOrderIds :=
    ⟨List.nodup_nil, fun _ ho => absurd ho List.not_mem_nil⟩
  cases hm with
  | refused hr _ => exact ⟨hr.seen, hnone⟩
  | approved hr =>
      refine ⟨?_, List.nodup_singleton _, fun o ho => ?_⟩
      · rw [hr.seen]; exact Finset.subset_insert _ _
      · rw [List.mem_singleton.mp ho]
        exact ⟨hr.fresh, by rw [hr.seen]; exact Finset.mem_insert_self _ _⟩
  | booked => exact ⟨Finset.Subset.refl _, hnone⟩
  | locked => exact ⟨Finset.Subset.refl _, hnone⟩
  | matched _ => exact ⟨Finset.Subset.refl _, hnone⟩
  | @consumed n fill rest r _ hr _ =>
      obtain ⟨cb, heq⟩ := fillConsumer_state e.riskEngine (env.clock n) fill.trade
      have hseen : r.seenOrderIds = e.riskEngine.seenOrderIds := by
        rw [hr, heq]; rfl
      exact ⟨by rw [hseen], hnone⟩
  | ended hh => rcases hh with rfl | rfl <;> exact ⟨Finset.Subset.refl _, hnone⟩
  | idle _ => exact ⟨Finset.Subset.refl _, hnone⟩

/-- What rests after the step rested before, or its order has just been matched. -/
theorem proceeds_rests (hinv : EngineInv e (carries ⟨env, order, stage⟩ ++ others))
    (hm : Proceeds e env order stage e' stage' h) (symbol : String) :
    ∀ x ∈ allOrders (e'.bookOf symbol),
      (∃ y ∈ allOrders (e.bookOf symbol), y.orderId = x.orderId)
        ∨ ∃ o ∈ matchedIn h, o.symbol = symbol ∧ o.orderId = x.orderId := by
  intro x hx
  cases hm with
  | refused _ _ => exact Or.inl ⟨x, hx, rfl⟩
  | approved _ => exact Or.inl ⟨x, hx, rfl⟩
  | booked =>
      rw [bookOf_getOrCreateBook] at hx
      exact Or.inl ⟨x, hx, rfl⟩
  | locked => exact Or.inl ⟨x, hx, rfl⟩
  | @matched fills b hm =>
      rw [bookOf_setBook] at hx
      split at hx
      · rename_i hs
        subst hs
        have hbook := hinv.bookOf order.symbol
        have hafter := (matchInv hbook.rep env.amb
          (hbook.notResting (List.mem_cons_self ..))).versions
        rw [hm] at hafter
        rcases hafter x hx with hv | ⟨y, hy, hv⟩
        · exact Or.inr ⟨order, List.mem_singleton.mpr rfl, rfl, hv.orderId.symm⟩
        · exact Or.inl ⟨y, hy, hv.orderId.symm⟩
      · exact Or.inl ⟨x, hx, rfl⟩
  | consumed _ _ => exact Or.inl ⟨x, hx, rfl⟩
  | ended _ => exact Or.inl ⟨x, hx, rfl⟩
  | idle _ => exact Or.inl ⟨x, hx, rfl⟩

end OneStep

/-! ## Every interleaving -/

structure LifeInv (s : Exchange) : Prop where
  /-- No id is approved twice. -/
  once : ((approvedIn s.log).map Order.orderId).Nodup
  known : ∀ o ∈ approvedIn s.log, o.orderId ∈ s.engine.riskEngine.seenOrderIds
  /-- An approved order was matched or is in flight. -/
  lives : (approvedIn s.log).Perm (matchedIn s.log ++ inflight s.flights)
  /-- What rests was matched, in that book. -/
  rests : ∀ symbol, ∀ x ∈ allOrders (s.engine.bookOf symbol),
    ∃ o ∈ matchedIn s.log, o.symbol = symbol ∧ o.orderId = x.orderId

theorem lifeInv_initial : LifeInv Exchange.initial where
  once := List.nodup_nil
  known := fun _ ho => absurd ho List.not_mem_nil
  lives := List.Perm.refl _
  rests := fun _ _ hx => absurd hx List.not_mem_nil

section Moved

variable {s : Exchange} {l₁ l₂ : List Flight} {f : Flight} {e' : MatchingEngine} {stage : Stage}
  {h : List Happening}

theorem lifeInv_moved (hl : LifeInv s) (hinv : ExchangeInv s) (hcut : s.flights = l₁ ++ f :: l₂)
    (hm : Proceeds s.engine f.env f.order f.stage e' stage h) :
    LifeInv ⟨e', l₁ ++ { f with stage } :: l₂, s.log ++ h⟩ := by
  obtain ⟨hseen, hnd, hnew⟩ := proceeds_approves hm
  have hengine := hinv.engine
  rw [hcut] at hengine
  refine ⟨?_, fun o ho => ?_, ?_, fun symbol x hx => ?_⟩
  · -- the new id was not known, and every approved one is
    rw [approvedIn_append, List.map_append]
    refine List.nodup_append.mpr ⟨hl.once, hnd, fun id hid id' hid' => ?_⟩
    obtain ⟨o, ho, rfl⟩ := List.mem_map.mp hid
    obtain ⟨o', ho', rfl⟩ := List.mem_map.mp hid'
    exact fun heq => (hnew o' ho').1 (heq ▸ hl.known o ho)
  · rw [approvedIn_append] at ho
    rcases List.mem_append.mp ho with ho | ho
    · exact hseen (hl.known o ho)
    · exact (hnew o ho).2
  · have hlives := hl.lives
    rw [hcut] at hlives
    have hgoes := proceeds_lives hm
    -- the call that moves may be listed first, before and after
    calc approvedIn (s.log ++ h)
        = approvedIn s.log ++ approvedIn h := approvedIn_append ..
      _ ~ (matchedIn s.log ++ (carries f ++ inflight (l₁ ++ l₂))) ++ approvedIn h :=
          (hlives.trans ((inflight_perm l₁ l₂ f).append_left _)).append_right _
      _ ~ matchedIn s.log ++ (approvedIn h ++ (carries f ++ inflight (l₁ ++ l₂))) := by
          rw [List.append_assoc]
          exact List.perm_append_comm.append_left _
      _ = matchedIn (s.log ++ h) ++ (carries { f with stage } ++ inflight (l₁ ++ l₂)) := by
          rw [← List.append_assoc (approvedIn h), hgoes, matchedIn_append]
          simp only [List.append_assoc]
      _ ~ matchedIn (s.log ++ h) ++ inflight (l₁ ++ { f with stage } :: l₂) :=
          (inflight_perm l₁ l₂ _).symm.append_left _
  · rcases proceeds_rests (hengine.perm (inflight_perm l₁ l₂ f)) hm symbol x hx with
      ⟨y, hy, hid⟩ | ⟨o, ho, hs, hid⟩
    · obtain ⟨o, ho, hs, hid'⟩ := hl.rests symbol y hy
      exact ⟨o, by rw [matchedIn_append]; exact List.mem_append_left _ ho, hs, hid'.trans hid⟩
    · exact ⟨o, by rw [matchedIn_append]; exact List.mem_append_right _ ho, hs, hid⟩

end Moved

theorem lifeInv_step {s : Exchange} (hinv : ExchangeInv s) (hl : LifeInv s) (a : Action) :
    LifeInv (s.step a).1 := by
  have hhappens := step_happens hinv.engine.stops a
  generalize (s.step a).1 = s' at hhappens
  cases hhappens with
  | called hs =>
      refine ⟨hl.once, hl.known, ?_, hl.rests⟩
      rw [inflight_called hs]; exact hl.lives
  | moved _ hcut hm => exact lifeInv_moved hl hinv hcut hm
  | missed => exact hl
  | @outside a e' hap ho hh =>
      obtain ⟨cb, hcb⟩ := ho.risk
      have hseen : e'.riskEngine.seenOrderIds = s.engine.riskEngine.seenOrderIds := by rw [hcb]
      have hquiet : approvedIn (s.log ++ hap) = approvedIn s.log
          ∧ matchedIn (s.log ++ hap) = matchedIn s.log := by
        rw [approvedIn_append, matchedIn_append]
        rcases hh with rfl | rfl | rfl <;> exact ⟨List.append_nil _, List.append_nil _⟩
      refine ⟨?_, fun o hmem => ?_, ?_, fun symbol x hx => ?_⟩
      · rw [hquiet.1]; exact hl.once
      · rw [hquiet.1] at hmem
        rw [hseen]; exact hl.known o hmem
      · rw [hquiet.1, hquiet.2]; exact hl.lives
      · rw [hquiet.2]
        rcases ho.book symbol with heq | ⟨orderId, heq⟩
        · exact hl.rests symbol x (heq ▸ hx)
        · exact hl.rests symbol x
            (remove_subset (hinv.engine.bookOf symbol).rep orderId x (heq ▸ hx))

theorem lifeInv_reachable (actions : List Action) : LifeInv (exchangeAfter actions) :=
  run_always Exchange.step (P := fun _ s => LifeInv s) lifeInv_initial
    (fun is a hp => lifeInv_step (exchangeInv_reachable is) hp a) actions

/-! ## At most once -/

/-- No id is matched twice. -/
theorem LifeInv.matchedOnce {s : Exchange} (h : LifeInv s) :
    ((matchedIn s.log).map Order.orderId).Nodup := by
  have hnd := (h.lives.map Order.orderId).nodup_iff.mp h.once
  rw [List.map_append] at hnd
  exact hnd.of_append_left

/-- An id rests in one book at most. -/
theorem LifeInv.oneBook {s : Exchange} (h : LifeInv s) {symbol symbol' : String} {x y : Order}
    (hx : x ∈ allOrders (s.engine.bookOf symbol)) (hy : y ∈ allOrders (s.engine.bookOf symbol'))
    (hid : x.orderId = y.orderId) : symbol = symbol' := by
  obtain ⟨o, ho, hs, hxid⟩ := h.rests symbol x hx
  obtain ⟨o', ho', hs', hyid⟩ := h.rests symbol' y hy
  have heq : o = o' :=
    List.inj_on_of_nodup_map h.matchedOnce ho ho' (hxid.trans (hid.trans hyid.symm))
  rw [← hs, ← hs', heq]

theorem occurrences_le_one {s : Exchange} (h : LifeInv s) (hinv : ExchangeInv s) (id : String) :
    occurrences s.engine id ≤ 1 := by
  have hone : ∀ symbol, ((allOrders (s.engine.bookOf symbol)).map Order.orderId).count id ≤ 1 :=
    fun symbol => List.nodup_iff_count_le_one.mp
      (hinv.engine.bookOf symbol).rep.index.distinct id
  by_cases hrests : ∃ symbol ∈ s.engine.books.keys,
      id ∈ (allOrders (s.engine.bookOf symbol)).map Order.orderId
  · obtain ⟨symbol, hmem, hid⟩ := hrests
    have hothers : ∀ symbol' ∈ s.engine.books.keys, symbol' ≠ symbol →
        ((allOrders (s.engine.bookOf symbol')).map Order.orderId).count id = 0 := by
      intro symbol' _ hne
      refine List.count_eq_zero.mpr (fun hid' => hne ?_)
      obtain ⟨x, hx, hxid⟩ := List.mem_map.mp hid
      obtain ⟨y, hy, hyid⟩ := List.mem_map.mp hid'
      exact h.oneBook hy hx (hyid.trans hxid.symm)
    rw [occurrences, Finset.sum_eq_single_of_mem symbol hmem hothers]
    exact hone symbol
  · have hzero : occurrences s.engine id = 0 :=
      Finset.sum_eq_zero (fun symbol hmem =>
        List.count_eq_zero.mpr (fun hid => hrests ⟨symbol, hmem, hid⟩))
    omega

/--
**An order id is approved at most once, matched at most once, and rests at most once**
over all books, under any interleaving of any number of calls, also with one order in
several of them.
-/
theorem id_lives_once (actions : List Action) (id : String) :
    ((approvedIn (exchangeAfter actions).log).map Order.orderId).count id ≤ 1
      ∧ ((matchedIn (exchangeAfter actions).log).map Order.orderId).count id ≤ 1
      ∧ occurrences (exchangeAfter actions).engine id ≤ 1 := by
  have hlife := lifeInv_reachable actions
  exact ⟨List.nodup_iff_count_le_one.mp hlife.once id,
    List.nodup_iff_count_le_one.mp hlife.matchedOnce id,
    occurrences_le_one hlife (exchangeInv_reachable actions) id⟩

end TitanX.Proof
