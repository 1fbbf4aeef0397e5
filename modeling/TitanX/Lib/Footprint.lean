import Mathlib.Data.Set.Basic
import Mathlib.Data.Setoid.Basic

/-!
# Footprints

A state has *places*: for each of them it is known when two states have the same there.
An operation is within a footprint, of the places `C` it may look at and the places `W`
it may write, if it leaves every other place as it was (`frame`), and if what it returns
and what it leaves at the places of `C` depend only on what was there (`reads`).

Operations are put together from others within the same footprint (`pure`, `write`,
`bind`, `read`, `ite`). Two operations neither of which writes where the other looks may be done in
either order (`Within.commute`).
-/

namespace TitanX

section Footprint

variable {σ κ α β : Type} {place : κ → Setoid σ} {C W : Set κ}

/-- The states have the same at every place of `C`. -/
def AgreeOn (place : κ → Setoid σ) (C : Set κ) (s s' : σ) : Prop := ∀ p ∈ C, (place p).r s s'

/-- The operation looks at `C` only and writes to `W` only. -/
structure Within (place : κ → Setoid σ) (C W : Set κ) (op : σ → α × σ) : Prop where
  frame : ∀ s, ∀ p ∉ W, (place p).r (op s).2 s
  reads : ∀ s s', AgreeOn place C s s' →
    (op s).1 = (op s').1 ∧ AgreeOn place C (op s).2 (op s').2

/-! ## Putting operations together -/

theorem Within.pure (a : α) : Within place C W (fun s => (a, s)) :=
  ⟨fun s p _ => (place p).refl s, fun _ _ h => ⟨rfl, h⟩⟩

/-- A write to the places of `Q`, of something that depends on the places of `C`. -/
theorem Within.write {Q : Set κ} {a : α} {f : σ → σ} (hQ : Q ⊆ W)
    (hframe : ∀ s, ∀ p ∉ Q, (place p).r (f s) s)
    (hown : ∀ s s', AgreeOn place C s s' → ∀ p ∈ Q, (place p).r (f s) (f s')) :
    Within place C W (fun s => (a, f s)) := by
  refine ⟨fun s p hp => hframe s p (fun hq => hp (hQ hq)), fun s s' h => ⟨rfl, fun p hp => ?_⟩⟩
  by_cases hq : p ∈ Q
  · exact hown s s' h p hq
  · exact (place p).trans (hframe s p hq) ((place p).trans (h p hp) ((place p).symm (hframe s' p hq)))

/-- One operation after the other. The second need only be within the footprint for what
the first can return. -/
theorem Within.bindOf {P : α → Prop} {f : σ → α × σ} {g : α → σ → β × σ} (hf : Within place C W f)
    (hP : ∀ s, P (f s).1) (hg : ∀ a, P a → Within place C W (g a)) :
    Within place C W (fun s => g (f s).1 (f s).2) := by
  refine ⟨fun s p hp => (place p).trans ((hg _ (hP s)).frame _ p hp) (hf.frame s p hp),
    fun s s' h => ?_⟩
  obtain ⟨hout, hstate⟩ := hf.reads s s' h
  rw [hout]
  exact (hg _ (hP s')).reads _ _ hstate

theorem Within.bind {f : σ → α × σ} {g : α → σ → β × σ} (hf : Within place C W f)
    (hg : ∀ a, Within place C W (g a)) : Within place C W (fun s => g (f s).1 (f s).2) :=
  hf.bindOf (P := fun _ => True) (fun _ => trivial) (fun a _ => hg a)

/-- Go on with what is read at the places of `C`. -/
theorem Within.read {get : σ → α} {f : α → σ → β × σ}
    (hget : ∀ s s', AgreeOn place C s s' → get s = get s') (hf : ∀ a, Within place C W (f a)) :
    Within place C W (fun s => f (get s) s) := by
  refine ⟨fun s => (hf _).frame s, fun s s' h => ?_⟩
  rw [hget s s' h]
  exact (hf _).reads s s' h

/-- A choice that depends on the places of `C`. -/
theorem Within.ite {c : σ → Prop} [DecidablePred c] {f g : σ → α × σ}
    (hc : ∀ s s', AgreeOn place C s s' → (c s ↔ c s')) (hf : Within place C W f)
    (hg : Within place C W g) : Within place C W (fun s => if c s then f s else g s) := by
  refine ⟨fun s => ?_, fun s s' h => ?_⟩
  · split
    · exact hf.frame s
    · exact hg.frame s
  · by_cases hs : c s
    · rw [if_pos hs, if_pos ((hc s s' h).mp hs)]
      exact hf.reads s s' h
    · rw [if_neg hs, if_neg (fun hs' => hs ((hc s s' h).mpr hs'))]
      exact hg.reads s s' h

/-! ## Independence -/

/-- An operation does not show at places it does not write. -/
theorem Within.agree {C' : Set κ} {op : σ → α × σ} (h : Within place C W op)
    (hdisj : ∀ p ∈ W, p ∉ C') (s : σ) : AgreeOn place C' (op s).2 s :=
  fun p hp => h.frame s p (fun hw => hdisj p hw hp)

/-- **Operations that do not write where the other looks commute**: each returns the same
in either order, and the states they end in have the same everywhere. -/
theorem Within.commute {C' W' : Set κ} {op : σ → α × σ} {op' : σ → β × σ}
    (h : Within place C W op) (h' : Within place C' W' op') (hW : W ⊆ C) (hW' : W' ⊆ C')
    (hdisj : ∀ p ∈ W, p ∉ C') (hdisj' : ∀ p ∈ W', p ∉ C) (s : σ) :
    (op (op' s).2).1 = (op s).1 ∧ (op' (op s).2).1 = (op' s).1
      ∧ ∀ p, (place p).r (op' (op s).2).2 (op (op' s).2).2 := by
  obtain ⟨hout, hstate⟩ := h.reads _ _ (h'.agree hdisj' s)
  obtain ⟨hout', hstate'⟩ := h'.reads _ _ (h.agree hdisj s)
  refine ⟨hout, hout', fun p => ?_⟩
  by_cases hp : p ∈ W
  · -- the second operation leaves `p` alone, and the first finds what it needs in both orders
    have hp' : p ∉ W' := fun hw => hdisj' p hw (hW hp)
    exact (place p).trans (h'.frame _ p hp') ((place p).symm (hstate p (hW hp)))
  · refine (place p).trans ?_ ((place p).symm (h.frame _ p hp))
    by_cases hp' : p ∈ W'
    · exact hstate' p (hW' hp')
    · exact (place p).trans (h'.frame _ p hp')
        ((place p).trans (h.frame s p hp) ((place p).symm (h'.frame s p hp')))

end Footprint

end TitanX
