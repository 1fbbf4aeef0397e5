import Mathlib.Order.Defs.Unbundled
import Mathlib.Data.List.Basic

/-!
# Ordered maps

`std::map<K, V, Compare>`: finitely many bindings, iterated in the order of the
comparator, at most one per key. The bindings are kept as a list, and the type
carries the proof that the list is sorted, so an unsorted map cannot be built and
`begin()` is always the least key.

What the rest of the development uses is not the recursion behind each operation
but where it acts: `upsert_split` and `split_of_find?` cut the bindings at the
key in question and say that everything on either side of the cut stays put.
-/

namespace TitanX

/-- A finite map whose bindings are listed in the order of `lt`. -/
structure OrdMap (κ β : Type) (lt : κ → κ → Prop) where
  /-- The bindings, in iteration order. -/
  entries : List (κ × β)
  /-- Keys strictly increase along the iteration. -/
  sorted : entries.Pairwise (fun a b => lt a.1 b.1)

namespace OrdMap

variable {κ β : Type} {lt : κ → κ → Prop}

@[ext] theorem ext {m m' : OrdMap κ β lt} (h : m.entries = m'.entries) : m = m' := by
  cases m; cases m'; cases h; rfl

instance [DecidableEq κ] [DecidableEq β] : DecidableEq (OrdMap κ β lt) := fun m m' =>
  decidable_of_iff (m.entries = m'.entries) ⟨ext, fun h => h ▸ rfl⟩

/-- The map without bindings. -/
def empty : OrdMap κ β lt := ⟨[], List.Pairwise.nil⟩

@[simp] theorem entries_empty : (empty : OrdMap κ β lt).entries = [] := rfl

/-- `begin()`, when there is one. -/
def first? (m : OrdMap κ β lt) : Option (κ × β) := m.entries.head?

/-- A list cut at `k` stays sorted whatever is bound to `k`. -/
theorem pairwise_cut [IsStrictTotalOrder κ lt] {k : κ} {v : β} {l₁ l₂ : List (κ × β)}
    (h : (l₁ ++ l₂).Pairwise (fun a b => lt a.1 b.1))
    (h₁ : ∀ e ∈ l₁, lt e.1 k) (h₂ : ∀ e ∈ l₂, lt k e.1) :
    (l₁ ++ (k, v) :: l₂).Pairwise (fun a b => lt a.1 b.1) := by
  obtain ⟨hl₁, hl₂, hcross⟩ := List.pairwise_append.mp h
  refine List.pairwise_append.mpr ⟨hl₁, List.pairwise_cons.mpr ⟨h₂, hl₂⟩, ?_⟩
  intro a ha b hb
  rcases List.mem_cons.mp hb with rfl | hb
  · exact h₁ a ha
  · exact hcross a ha b hb

section Operations

variable [DecidableEq κ]

/-- `find`. -/
def find? (m : OrdMap κ β lt) (k : κ) : Option β :=
  (m.entries.find? (fun e => e.1 = k)).map Prod.snd

/-- `erase`. -/
def erase (m : OrdMap κ β lt) (k : κ) : OrdMap κ β lt :=
  ⟨m.entries.filter (fun e => e.1 ≠ k), m.sorted.sublist List.filter_sublist⟩

/-- Walk to the place of `k` and rewrite what is bound there. -/
def upsertAux (lt : κ → κ → Prop) [DecidableRel lt] (k : κ) (f : Option β → β) : List (κ × β) → List (κ × β)
  | [] => [(k, f none)]
  | e :: es =>
      if e.1 = k then (k, f (some e.2)) :: es
      else if lt k e.1 then (k, f none) :: e :: es
      else e :: upsertAux lt k f es

/-- Where `upsertAux` acts: at the binding of `k`, or at the gap `k` belongs in. -/
theorem upsertAux_split [DecidableRel lt] [IsStrictTotalOrder κ lt] (k : κ) (f : Option β → β) :
    ∀ {es : List (κ × β)}, es.Pairwise (fun a b => lt a.1 b.1) →
    ∃ l₁ l₂, (∀ e ∈ l₁, lt e.1 k) ∧ (∀ e ∈ l₂, lt k e.1)
      ∧ ((es = l₁ ++ l₂ ∧ upsertAux lt k f es = l₁ ++ (k, f none) :: l₂)
        ∨ ∃ v, es = l₁ ++ (k, v) :: l₂
          ∧ upsertAux lt k f es = l₁ ++ (k, f (some v)) :: l₂)
  | [], _ => ⟨[], [], by simp, by simp, Or.inl ⟨rfl, rfl⟩⟩
  | e :: es, hs => by
      obtain ⟨hhd, htl⟩ := List.pairwise_cons.mp hs
      rw [upsertAux]
      by_cases hk : e.1 = k
      · rw [if_pos hk]
        refine ⟨[], es, by simp, fun x hx => hk ▸ hhd x hx, Or.inr ⟨e.2, ?_, rfl⟩⟩
        rw [← hk]; rfl
      · rw [if_neg hk]
        by_cases hlt : lt k e.1
        · rw [if_pos hlt]
          refine ⟨[], e :: es, by simp, ?_, Or.inl ⟨rfl, rfl⟩⟩
          intro x hx
          rcases List.mem_cons.mp hx with rfl | hx
          · exact hlt
          · exact IsTrans.trans _ _ _ hlt (hhd x hx)
        · rw [if_neg hlt]
          -- neither equal nor above, so `e` stays on the left of the cut
          have hek : lt e.1 k := by
            by_contra hne
            exact hk (Std.Trichotomous.trichotomous (r := lt) _ _ hne hlt)
          obtain ⟨l₁, l₂, hl₁, hl₂, hcut⟩ := upsertAux_split k f htl
          refine ⟨e :: l₁, l₂, ?_, hl₂, ?_⟩
          · intro x hx
            rcases List.mem_cons.mp hx with rfl | hx
            · exact hek
            · exact hl₁ x hx
          · rcases hcut with ⟨h1, h2⟩ | ⟨v, h1, h2⟩
            · exact Or.inl ⟨by rw [h1]; rfl, by rw [h2]; rfl⟩
            · exact Or.inr ⟨v, by rw [h1]; rfl, by rw [h2]; rfl⟩

theorem upsertAux_sorted [DecidableRel lt] [IsStrictTotalOrder κ lt] (k : κ) (f : Option β → β)
    {es : List (κ × β)} (hs : es.Pairwise (fun a b => lt a.1 b.1)) :
    (upsertAux lt k f es).Pairwise (fun a b => lt a.1 b.1) := by
  obtain ⟨l₁, l₂, h₁, h₂, ⟨he, hu⟩ | ⟨v, he, hu⟩⟩ := upsertAux_split k f hs
  · rw [hu]; exact pairwise_cut (he ▸ hs) h₁ h₂
  · rw [hu]
    have hsub : (l₁ ++ l₂).Sublist (l₁ ++ (k, v) :: l₂) :=
      List.Sublist.append_left (List.sublist_cons_self _ _) _
    exact pairwise_cut ((he ▸ hs).sublist hsub) h₁ h₂

/-- `m[k] = f(m[k])`, where `f` also says what a missing binding starts from. -/
def upsert [DecidableRel lt] [IsStrictTotalOrder κ lt] (m : OrdMap κ β lt) (k : κ)
    (f : Option β → β) : OrdMap κ β lt :=
  ⟨upsertAux lt k f m.entries, upsertAux_sorted k f m.sorted⟩

/-! ## Cutting the bindings at a key -/

theorem find?_eq_some {m : OrdMap κ β lt} {k : κ} {v : β} (h : m.find? k = some v) :
    ∃ l₁ l₂, m.entries = l₁ ++ (k, v) :: l₂ := by
  unfold find? at h
  obtain ⟨e, he, hv⟩ := Option.map_eq_some_iff.mp h
  have hk : e.1 = k := by simpa using List.find?_some he
  obtain ⟨l₁, l₂, hl⟩ := List.append_of_mem (List.mem_of_find?_eq_some he)
  exact ⟨l₁, l₂, by rw [hl, ← hk, ← hv]⟩

theorem find?_eq_none {m : OrdMap κ β lt} {k : κ} (h : m.find? k = none) :
    ∀ e ∈ m.entries, e.1 ≠ k := by
  intro e he
  unfold find? at h
  have := List.find?_eq_none.mp (Option.map_eq_none_iff.mp h) e he
  simpa using this

variable [IsStrictTotalOrder κ lt]

omit [DecidableEq κ] in
/-- A key is bound once: nothing on either side of its binding has that key. -/
theorem cut_unique {m : OrdMap κ β lt} {k : κ} {v : β} {l₁ l₂ : List (κ × β)}
    (h : m.entries = l₁ ++ (k, v) :: l₂) : ∀ e ∈ l₁ ++ l₂, e.1 ≠ k := by
  have hs := m.sorted
  rw [h] at hs
  obtain ⟨-, hr, hcross⟩ := List.pairwise_append.mp hs
  intro e he hek
  rcases List.mem_append.mp he with he | he
  · exact Std.Irrefl.irrefl (r := lt) k (hek ▸ hcross e he (k, v) (List.mem_cons_self ..))
  · exact Std.Irrefl.irrefl (r := lt) k (hek ▸ (List.pairwise_cons.mp hr).1 e he)

theorem find?_cut {m : OrdMap κ β lt} {k : κ} {v : β} {l₁ l₂ : List (κ × β)}
    (h : m.entries = l₁ ++ (k, v) :: l₂) : m.find? k = some v := by
  have hne : ∀ e ∈ l₁, ¬ (decide (e.1 = k)) = true := fun e he => by
    simpa using cut_unique h e (List.mem_append_left _ he)
  unfold find?
  rw [h, List.find?_append, List.find?_eq_none.mpr hne]
  simp

theorem erase_cut {m : OrdMap κ β lt} {k : κ} {v : β} {l₁ l₂ : List (κ × β)}
    (h : m.entries = l₁ ++ (k, v) :: l₂) : (m.erase k).entries = l₁ ++ l₂ := by
  have hne := cut_unique h
  show m.entries.filter _ = _
  rw [h, List.filter_append, List.filter_cons_of_neg (by simp), ← List.filter_append]
  exact List.filter_eq_self.mpr (fun e he => by simpa using hne e he)

variable [DecidableRel lt]

/-- Writing a bound key touches that binding and nothing else. -/
theorem upsert_cut {m : OrdMap κ β lt} {k : κ} {v : β} {l₁ l₂ : List (κ × β)}
    {f : Option β → β} (h : m.entries = l₁ ++ (k, v) :: l₂) :
    (m.upsert k f).entries = l₁ ++ (k, f (some v)) :: l₂ := by
  obtain ⟨r₁, r₂, h₁, h₂, ⟨he, hu⟩ | ⟨w, he, hu⟩⟩ := upsertAux_split k f m.sorted
  · -- `k` is bound, so the upsert did not find a gap
    exfalso
    have hmem : (k, v) ∈ r₁ ++ r₂ := he ▸ h ▸ List.mem_append_right _ (List.mem_cons_self ..)
    rcases List.mem_append.mp hmem with hm | hm
    · exact Std.Irrefl.irrefl (r := lt) k (h₁ _ hm)
    · exact Std.Irrefl.irrefl (r := lt) k (h₂ _ hm)
  · -- both cuts are at the only binding of `k`
    have hwv : w = v := Option.some.inj ((find?_cut he).symm.trans (find?_cut h))
    subst hwv
    have hkey : ∀ l l' : List (κ × β), (∀ e ∈ l, e.1 ≠ k) →
        (l ++ (k, w) :: l').takeWhile (fun e => e.1 ≠ k) = l
          ∧ (l ++ (k, w) :: l').dropWhile (fun e => e.1 ≠ k) = (k, w) :: l' := by
      intro l l' hl
      constructor
      · rw [List.takeWhile_append_of_pos (fun e he => by simpa using hl e he)]; simp
      · rw [List.dropWhile_append_of_pos (fun e he => by simpa using hl e he)]; simp
    have hl := hkey l₁ l₂ (fun e he' => cut_unique h e (List.mem_append_left _ he'))
    have hr := hkey r₁ r₂ (fun e he' => cut_unique he e (List.mem_append_left _ he'))
    rw [← h, he] at hl
    obtain ⟨rfl, rfl⟩ : r₁ = l₁ ∧ r₂ = l₂ :=
      ⟨hr.1.symm.trans hl.1, (List.cons.inj (hr.2.symm.trans hl.2)).2⟩
    exact hu

/-- Writing a missing key opens one binding in a gap and moves nothing. -/
theorem upsert_gap {m : OrdMap κ β lt} {k : κ} {f : Option β → β} (h : m.find? k = none) :
    ∃ l₁ l₂, m.entries = l₁ ++ l₂ ∧ (m.upsert k f).entries = l₁ ++ (k, f none) :: l₂ := by
  obtain ⟨l₁, l₂, -, -, ⟨he, hu⟩ | ⟨v, he, -⟩⟩ := upsertAux_split k f m.sorted
  · exact ⟨l₁, l₂, he, hu⟩
  · rw [find?_cut he] at h; exact absurd h (by simp)

/-- What is bound after a write. -/
theorem find?_upsert (m : OrdMap κ β lt) (k : κ) (f : Option β → β) (k' : κ) :
    (m.upsert k f).find? k' = if k' = k then some (f (m.find? k)) else m.find? k' := by
  have hskip : ∀ (l₁ l₂ : List (κ × β)) (v : β), k' ≠ k →
      (l₁ ++ (k, v) :: l₂).find? (fun e => e.1 = k') = (l₁ ++ l₂).find? (fun e => e.1 = k') := by
    intro l₁ l₂ v hne
    rw [List.find?_append, List.find?_append, List.find?_cons_of_neg (by simpa using Ne.symm hne)]
  cases hf : m.find? k with
  | some v =>
      obtain ⟨l₁, l₂, hcut⟩ := find?_eq_some hf
      have hup := upsert_cut (f := f) hcut
      by_cases hk : k' = k
      · rw [if_pos hk, hk, find?_cut hup]
      · rw [if_neg hk, find?, find?, hup, hcut, hskip l₁ l₂ _ hk, hskip l₁ l₂ _ hk]
  | none =>
      obtain ⟨l₁, l₂, hcut, hup⟩ := upsert_gap (f := f) hf
      by_cases hk : k' = k
      · rw [if_pos hk, hk, find?_cut hup]
      · rw [if_neg hk, find?, find?, hup, hcut, hskip l₁ l₂ _ hk]

end Operations

end OrdMap

end TitanX
