import TitanX.Proof.Interleave

/-!
# A call that runs alone

The sequential model and the interleaving model are built from the same steps, and
here they are shown to agree: a `submit` call that begins and then takes all its
steps with no other call in between leaves the engine that `submit` leaves, and has
executed what `submit` reports (`submit_interleaves`). So every run of the sequential
engine is one of the interleavings (`sequential_is_interleaving`), and what holds of
every interleaving holds of it.
-/

namespace TitanX.Proof

open TitanX Exchange MatchingEngine

/-! ## Steps of one call -/

/-- The call `f` on engine `e` comes to stand as `f'` on `e'` by its own steps, during
which `h` happens. -/
inductive Alone : MatchingEngine → Flight → MatchingEngine → Flight → List Happening → Prop where
  | refl (e : MatchingEngine) (f : Flight) : Alone e f e f []
  | step {e e' : MatchingEngine} {f f' : Flight} {h : List Happening}
      (rest : Alone (advance e f).1 { f with stage := (advance e f).2.1 } e' f' h) :
      Alone e f e' f' ((advance e f).2.2 ++ h)

/-- A first step known by its result. -/
theorem Alone.of_eq {e e₁ e' : MatchingEngine} {f f' : Flight} {stage : Stage}
    {h₁ h : List Happening} (hadv : advance e f = (e₁, stage, h₁))
    (rest : Alone e₁ { f with stage } e' f' h) : Alone e f e' f' (h₁ ++ h) := by
  have hrest : Alone (advance e f).1 { f with stage := (advance e f).2.1 } e' f' h := by
    rw [hadv]; exact rest
  have hone := Alone.step hrest
  rw [hadv] at hone
  exact hone

theorem Alone.trans {e e' e'' : MatchingEngine} {f f' f'' : Flight} {h h' : List Happening}
    (h₁ : Alone e f e' f' h) (h₂ : Alone e' f' e'' f'' h') : Alone e f e'' f'' (h ++ h') := by
  induction h₁ with
  | refl e f => exact h₂
  | step _ ih =>
      rw [List.append_assoc]
      exact .step (ih h₂)

/-- Steps of the last call, as a run of the exchange. -/
theorem Alone.run {e e' : MatchingEngine} {f f' : Flight} {h : List Happening}
    (ha : Alone e f e' f' h) (flights : List Flight) (log : List Happening) :
    ∃ n, run Exchange.step ⟨e, flights ++ [f], log⟩
        (List.replicate n (.proceed flights.length))
      = ⟨e', flights ++ [f'], log ++ h⟩ := by
  induction ha generalizing log with
  | refl e f => exact ⟨0, by rw [List.append_nil]; rfl⟩
  | @step e e' f f' h _ ih =>
      obtain ⟨n, hn⟩ := ih (log ++ (advance e f).2.2)
      refine ⟨n + 1, ?_⟩
      have hstep : (Exchange.step ⟨e, flights ++ [f], log⟩ (.proceed flights.length)).1
          = ⟨(advance e f).1, flights ++ [{ f with stage := (advance e f).2.1 }],
              log ++ (advance e f).2.2⟩ := by
        simp [Exchange.step]
      rw [List.replicate_succ, TitanX.run, hstep, hn, List.append_assoc]

/-! ## `submit` -/

/-- The fills of a call, one by one. -/
theorem alone_deliver (env : SubmitEnv) (o : Order) : ∀ (fills : List Fill) (n : Nat)
    (e : MatchingEngine),
    Alone e ⟨env, o, .delivering n fills⟩
      { e with riskEngine := (deliver env.clock o n fills e.riskEngine).riskEngine }
      ⟨env, o, if (deliver env.clock o n fills e.riskEngine).completed then
          .delivering (n + fills.length) [] else .stuck⟩
      ((deliver env.clock o n fills e.riskEngine).consumed.map .consumed)
  | [], n, e => .refl _ _
  | f :: fills, n, e => by
      rw [deliver]
      cases hc : fillConsumer e.riskEngine (env.clock n) f.trade with
      | blocked r =>
          exact .of_eq (advance_consume_blocked hc) (.refl _ _)
      | returned _ r =>
          have hrest := alone_deliver env o fills (n + 1) { e with riskEngine := r }
          have hlen : n + (f :: fills).length = n + 1 + fills.length := by
            rw [List.length_cons]; omega
          dsimp only
          rw [hlen]
          exact .of_eq (advance_consumed hc) hrest

theorem executedIn_consumed (trades : List Trade) : executedIn (trades.map .consumed) = [] := by
  induction trades with
  | nil => rfl
  | cons t trades ih => exact ih

/-- The last step of a call: nothing without a trade, else the stop triggers. -/
theorem alone_last (e : MatchingEngine) (env : SubmitEnv) (o : Order) (fills : List Fill) :
    ∃ h, Alone e ⟨env, o, .delivering fills.length []⟩
        (if fills.isEmpty then ([], e) else e.checkStopTriggers env o.symbol).2 ⟨env, o, .finished⟩ h
      ∧ executedIn h = (if fills.isEmpty then ([], e) else e.checkStopTriggers env o.symbol).1 := by
  cases fills with
  | nil => exact ⟨_, .step (.refl _ _), rfl⟩
  | cons f fills =>
      refine ⟨_, .step (.refl _ _), ?_⟩
      rw [List.append_nil]
      exact List.append_nil _

/-- From the approval on, a call alone does what `process` does. -/
theorem alone_process (e : MatchingEngine) (env : SubmitEnv) (o : Order) :
    ∃ stage h, Alone e ⟨env, o, .approved⟩ (e.process env o).1 ⟨env, o, stage⟩ h
      ∧ executedIn h = (e.process env o).2.executed := by
  have hbook : Alone e ⟨env, o, .approved⟩ (e.getOrCreateBook o.symbol) ⟨env, o, .booked⟩ [] :=
    .step (.refl _ _)
  have hlock : Alone (e.getOrCreateBook o.symbol) ⟨env, o, .booked⟩
      ((e.getOrCreateBook o.symbol).getOrCreateLock o.symbol) ⟨env, o, .ready⟩ [] :=
    .step (.refl _ _)
  unfold process
  dsimp only
  generalize (e.getOrCreateBook o.symbol).getOrCreateLock o.symbol = e₁ at hlock ⊢
  have hmatch : Alone e₁ ⟨env, o, .ready⟩
      { e₁ with
        books := e₁.books.insert o.symbol ((e₁.bookOf o.symbol).matchIncoming env.amb o).2 }
      ⟨env, o, .delivering 0 ((e₁.bookOf o.symbol).matchIncoming env.amb o).1⟩
      [.matched o ((e₁.bookOf o.symbol).matchIncoming env.amb o).1] := .step (.refl _ _)
  generalize (e₁.bookOf o.symbol).matchIncoming env.amb o = m at hmatch ⊢
  have hdeliver := alone_deliver env o m.1 0 { e₁ with books := e₁.books.insert o.symbol m.2 }
  have hsofar : Alone e ⟨env, o, .approved⟩ _ _ ([.matched o m.1] ++ _) :=
    ((hbook.trans hlock).trans hmatch).trans hdeliver
  generalize deliver env.clock o 0 m.1 e₁.riskEngine = d at hsofar ⊢
  have hex : executedIn ([.matched o m.1] ++ d.consumed.map .consumed) = m.1 := by
    rw [executedIn_append, executedIn_consumed, List.append_nil]
    exact List.append_nil _
  cases hd : d.completed with
  | false =>
      rw [hd] at hsofar
      exact ⟨_, _, hsofar, hex⟩
  | true =>
      rw [hd, if_pos rfl, Nat.zero_add] at hsofar
      rw [if_pos rfl]
      obtain ⟨h, hlast, hlastex⟩ := alone_last _ env o m.1
      refine ⟨.finished, _, hsofar.trans hlast, ?_⟩
      rw [executedIn_append, hex, hlastex]

/-- A call that gets past the kill switch, alone. -/
theorem alone_submit {e : MatchingEngine} (hh : e.halted = false) (env : SubmitEnv) (o : Order) :
    ∃ stage h, Alone e ⟨env, o, .checking⟩ (e.submit env o).1 ⟨env, o, stage⟩ h
      ∧ executedIn h = (e.submit env o).2.executed := by
  unfold submit
  rw [if_neg (by rw [hh]; decide)]
  cases hc : e.riskEngine.checkPreTrade o with
  | blocked r => exact ⟨_, _, .of_eq (advance_check_blocked hc) (.refl _ _), rfl⟩
  | returned res r =>
      dsimp only
      cases ha : res.approved with
      | true =>
          obtain ⟨stage, h, halone, hex⟩ := alone_process { e with riskEngine := r } env o
          refine ⟨stage, _, .of_eq (advance_approved hc ha) halone, ?_⟩
          rw [executedIn_append, hex]; rfl
      | false => exact ⟨_, _, .of_eq (advance_refused hc ha) (.refl _ _), rfl⟩

/-- **A call that runs alone is `submit`.** -/
theorem submit_interleaves (s : Exchange) (env : SubmitEnv) (o : Order) :
    ∃ actions stage h,
      run Exchange.step s actions
        = ⟨(s.engine.submit env o).1, s.flights ++ [⟨env, o, stage⟩], s.log ++ h⟩
      ∧ executedIn h = (s.engine.submit env o).2.executed := by
  cases hh : s.engine.halted with
  | true =>
      refine ⟨[.call env o], .finished, [], ?_, ?_⟩
      · simp [run, Exchange.step, submit, hh]
      · simp [submit, hh, executedIn]
  | false =>
      obtain ⟨stage, h, halone, hex⟩ := alone_submit hh env o
      obtain ⟨n, hn⟩ := halone.run s.flights s.log
      refine ⟨.call env o :: List.replicate n (.proceed s.flights.length), stage, h, ?_, hex⟩
      rw [← hn, run]
      simp [Exchange.step, hh]

/-! ## Sequential runs -/

/-- **Every run of the sequential engine is an interleaving.** -/
theorem sequential_is_interleaving (ops : List EngineOp) :
    ∃ actions, (exchangeAfter actions).engine = (marketAfter ops).engine
      ∧ executedIn (exchangeAfter actions).log = (marketAfter ops).executed := by
  -- the actions of the last call are added to those of the calls before it
  induction ops using List.reverseRecOn with
  | nil => exact ⟨[], rfl, rfl⟩
  | append_singleton ops op ih =>
      obtain ⟨actions, heng, hex⟩ := ih
      have hafter : marketAfter (ops ++ [op]) = ((marketAfter ops).step op).1 := run_snoc ..
      rw [hafter]
      cases op with
      | submit env o =>
          obtain ⟨more, stage, h, hrun, hnew⟩ := submit_interleaves (exchangeAfter actions) env o
          refine ⟨actions ++ more, ?_, ?_⟩
          · rw [exchangeAfter, run_append]
            exact (congrArg Exchange.engine hrun).trans (by rw [heng]; rfl)
          · rw [exchangeAfter, run_append]
            refine (congrArg (fun s => executedIn s.log) hrun).trans ?_
            dsimp only
            rw [executedIn_append, hex, hnew, heng]; rfl
      | cancel symbol orderId =>
          refine ⟨actions ++ [.cancel symbol orderId], ?_, ?_⟩
          · rw [exchangeAfter, run_snoc]
            exact congrArg (fun e => (e.cancel symbol orderId).2) heng
          · rw [exchangeAfter, run_snoc]
            exact hex.trans (List.append_nil _).symm
      | halt =>
          refine ⟨actions ++ [.halt], ?_, ?_⟩
          · rw [exchangeAfter, run_snoc]
            exact congrArg halt heng
          · rw [exchangeAfter, run_snoc]
            exact (executedIn_append _ _).trans (congrArg (· ++ []) hex)
      | resume =>
          refine ⟨actions ++ [.resume], ?_, ?_⟩
          · rw [exchangeAfter, run_snoc]
            exact congrArg resume heng
          · rw [exchangeAfter, run_snoc]
            exact (executedIn_append _ _).trans (congrArg (· ++ []) hex)

end TitanX.Proof
