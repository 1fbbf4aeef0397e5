import TitanX.Lib.OrdMap
import Mathlib.Data.Finmap
import Mathlib.Data.List.Forall2

/-!
# Related maps

Two ordered maps whose keys correspond under an order embedding and whose values
correspond under a relation, and two unordered ones with the same keys and related
values. The operations take related maps to related maps, so a simulation between two
programs that keep their data in such maps need only talk about the values.
-/

namespace TitanX

theorem forall₂_mem_right {α β : Type} {R : α → β → Prop} {as : List α} {bs : List β}
    (h : List.Forall₂ R as bs) {b : β} (hb : b ∈ bs) : ∃ a ∈ as, R a b := by
  induction h with
  | nil => exact absurd hb (by simp)
  | @cons a c as bs hac _ ih =>
      rcases List.mem_cons.mp hb with rfl | hb
      · exact ⟨a, List.mem_cons_self .., hac⟩
      · obtain ⟨a', ha', hR⟩ := ih hb
        exact ⟨a', List.mem_cons_of_mem _ ha', hR⟩

/-! ## Unordered maps -/

section Finmap

variable {κ β β' : Type} [DecidableEq κ]

/-- The same keys, bound to related values. -/
def FinmapRel (R : β → β' → Prop) (m : Finmap (fun _ : κ => β)) (m' : Finmap (fun _ : κ => β')) :
    Prop :=
  ∀ k, Option.Rel R (m.lookup k) (m'.lookup k)

variable {R : β → β' → Prop} {m : Finmap (fun _ : κ => β)} {m' : Finmap (fun _ : κ => β')}

theorem FinmapRel.insert (h : FinmapRel R m m') (k : κ) {v : β} {v' : β'} (hv : R v v') :
    FinmapRel R (m.insert k v) (m'.insert k v') := by
  intro x
  by_cases hx : x = k
  · rw [hx, Finmap.lookup_insert, Finmap.lookup_insert]
    exact .some hv
  · rw [Finmap.lookup_insert_of_ne _ hx, Finmap.lookup_insert_of_ne _ hx]
    exact h x

theorem FinmapRel.erase (h : FinmapRel R m m') (k : κ) : FinmapRel R (m.erase k) (m'.erase k) := by
  intro x
  by_cases hx : x = k
  · rw [hx, Finmap.lookup_erase, Finmap.lookup_erase]
    exact .none
  · rw [Finmap.lookup_erase_ne hx, Finmap.lookup_erase_ne hx]
    exact h x

theorem FinmapRel.lookup_cases (h : FinmapRel R m m') (k : κ) :
    (m.lookup k = none ∧ m'.lookup k = none)
      ∨ ∃ v v', m.lookup k = some v ∧ m'.lookup k = some v' ∧ R v v' := by
  have hk := h k
  revert hk
  cases m.lookup k <;> cases m'.lookup k <;> intro hk <;> cases hk
  · exact .inl ⟨rfl, rfl⟩
  · exact .inr ⟨_, _, rfl, rfl, by assumption⟩

theorem FinmapRel.keys (h : FinmapRel R m m') : m.keys = m'.keys := by
  ext k
  rw [Finmap.mem_keys, Finmap.mem_keys, Finmap.mem_iff, Finmap.mem_iff]
  have hk := h k
  revert hk
  cases m.lookup k <;> cases m'.lookup k <;> intro hk <;> cases hk <;> simp

end Finmap

namespace OrdMap

variable {κ κ' β β' : Type} {lt : κ → κ → Prop} {lt' : κ' → κ' → Prop}

/-! ## Related lookups -/

theorem rel_none_inv {R : β → β' → Prop} {b : Option β'} (h : Option.Rel R none b) : b = none := by
  cases h; rfl

theorem rel_some_inv {R : β → β' → Prop} {a : β} {b : Option β'} (h : Option.Rel R (some a) b) :
    ∃ a', b = some a' ∧ R a a' := by
  cases h with
  | some h => exact ⟨_, rfl, h⟩

/-! ## Ordered maps -/

/-- Bindings that correspond, in the same order. -/
def Related (f : κ → κ') (R : β → β' → Prop) : List (κ × β) → List (κ' × β') → Prop :=
  List.Forall₂ (fun e e' => e'.1 = f e.1 ∧ R e.2 e'.2)

section Rel

variable {f : κ → κ'} {R : β → β' → Prop}

theorem related_first {m : OrdMap κ β lt} {m' : OrdMap κ' β' lt'}
    (h : Related f R m.entries m'.entries) :
    m'.first?.map Prod.fst = (m.first?.map Prod.fst).map f := by
  unfold first?
  generalize m.entries = es at h
  generalize m'.entries = es' at h
  cases h with
  | nil => rfl
  | cons he _ => simp [he.1]

variable [DecidableEq κ] [DecidableEq κ']

theorem related_find? (hf : Function.Injective f) {m : OrdMap κ β lt} {m' : OrdMap κ' β' lt'}
    (h : Related f R m.entries m'.entries) (k : κ) :
    Option.Rel R (m.find? k) (m'.find? (f k)) := by
  unfold find?
  generalize m.entries = es at h
  generalize m'.entries = es' at h
  induction h with
  | nil => exact .none
  | @cons e e' es es' he _ ih =>
      obtain ⟨hkey, hval⟩ := he
      by_cases hk : e.1 = k
      · have hk' : e'.1 = f k := by rw [hkey, hk]
        rw [List.find?_cons_of_pos (by simpa using hk), List.find?_cons_of_pos (by simpa using hk')]
        exact .some hval
      · have hk' : e'.1 ≠ f k := fun heq => hk (hf (hkey.symm.trans heq))
        rw [List.find?_cons_of_neg (by simpa using hk), List.find?_cons_of_neg (by simpa using hk')]
        exact ih

theorem related_erase (hf : Function.Injective f) {m : OrdMap κ β lt} {m' : OrdMap κ' β' lt'}
    (h : Related f R m.entries m'.entries) (k : κ) :
    Related f R (m.erase k).entries (m'.erase (f k)).entries := by
  unfold erase
  dsimp only
  generalize m.entries = es at h
  generalize m'.entries = es' at h
  induction h with
  | nil => exact .nil
  | @cons e e' es es' he _ ih =>
      by_cases hk : e.1 = k
      · have hk' : e'.1 = f k := by rw [he.1, hk]
        rw [List.filter_cons_of_neg (by simpa using hk), List.filter_cons_of_neg (by simpa using hk')]
        exact ih
      · have hk' : e'.1 ≠ f k := fun heq => hk (hf (he.1.symm.trans heq))
        rw [List.filter_cons_of_pos (by simpa using hk), List.filter_cons_of_pos (by simpa using hk')]
        exact .cons he ih

variable [DecidableRel lt] [DecidableRel lt']

theorem related_upsertAux (hf : Function.Injective f) (hlt : ∀ a b, lt a b ↔ lt' (f a) (f b))
    {k : κ} {g : Option β → β} {g' : Option β' → β'} (hnone : R (g none) (g' none)) :
    ∀ {es : List (κ × β)} {es' : List (κ' × β')},
      (∀ v v', (k, v) ∈ es → R v v' → R (g (some v)) (g' (some v'))) → Related f R es es' →
      Related f R (upsertAux lt k g es) (upsertAux lt' (f k) g' es') := by
  intro es es' hsome h
  induction h with
  | nil => exact .cons ⟨rfl, hnone⟩ .nil
  | @cons e e' es es' he hes ih =>
      rw [upsertAux, upsertAux]
      by_cases hk : e.1 = k
      · have hk' : e'.1 = f k := by rw [he.1, hk]
        rw [if_pos hk, if_pos hk']
        refine .cons ⟨rfl, hsome e.2 e'.2 ?_ he.2⟩ hes
        rw [← hk]; exact List.mem_cons_self ..
      · have hk' : e'.1 ≠ f k := fun heq => hk (hf (he.1.symm.trans heq))
        rw [if_neg hk, if_neg hk']
        by_cases hl : lt k e.1
        · have hl' : lt' (f k) e'.1 := by rw [he.1]; exact (hlt _ _).mp hl
          rw [if_pos hl, if_pos hl']
          exact .cons ⟨rfl, hnone⟩ (.cons he hes)
        · have hl' : ¬ lt' (f k) e'.1 := by
            rw [he.1]; exact fun h => hl ((hlt _ _).mpr h)
          rw [if_neg hl, if_neg hl']
          exact .cons he (ih (fun v v' hv => hsome v v' (List.mem_cons_of_mem _ hv)))

variable [IsStrictTotalOrder κ lt] [IsStrictTotalOrder κ' lt']

/-- Writing a key keeps maps related if the new values are, and only what is bound to
the key matters for that. -/
theorem related_upsert (hf : Function.Injective f) (hlt : ∀ a b, lt a b ↔ lt' (f a) (f b))
    {m : OrdMap κ β lt} {m' : OrdMap κ' β' lt'} (h : Related f R m.entries m'.entries) {k : κ}
    {g : Option β → β} {g' : Option β' → β'} (hnone : R (g none) (g' none))
    (hsome : ∀ v v', (k, v) ∈ m.entries → R v v' → R (g (some v)) (g' (some v'))) :
    Related f R (m.upsert k g).entries (m'.upsert (f k) g').entries :=
  related_upsertAux hf hlt hnone hsome h

end Rel

end OrdMap

end TitanX
