import Mathlib.Data.List.Perm.Basic
import Mathlib.Order.Lattice

/-!
# Priority queues

`java.util.PriorityQueue` by its documentation: `peek` and `poll` give a least element
of the queue, `offer` adds one, `removeIf` drops those that satisfy a predicate, and an
iteration visits all of them in no particular order. Which of several least elements
comes first, and how the elements are laid out, is left to the implementation, so the
operations are a class and what is known of them another.

A queue whose keys are all different has no such freedom: it hands its elements out in
the order of their keys (`peek?_eq_head`, `drain_eq`), and is as good as a sorted list.
-/

namespace TitanX

/-- The operations of a priority queue `Q` of `α`. -/
class PriorityQueue (Q : Type) (α : outParam Type) where
  empty : Q
  offer : Q → α → Q
  peek? : Q → Option α
  /-- The queue without the element that `peek?` shows. -/
  poll : Q → Q
  /-- Whether anything was removed, and the queue without it. -/
  removeIf : Q → (α → Bool) → Bool × Q
  /-- The elements, as an iterator visits them. -/
  elems : Q → List α

/-- What the documentation promises, for a queue ordered by `key`. -/
class LawfulPriorityQueue (Q : Type) {α : Type} [PriorityQueue Q α] {κ : outParam Type}
    [LinearOrder κ] (key : outParam (α → κ)) : Prop where
  elems_empty : PriorityQueue.elems (PriorityQueue.empty : Q) = []
  elems_offer : ∀ (q : Q) (a : α),
    (PriorityQueue.elems (PriorityQueue.offer q a)).Perm (a :: PriorityQueue.elems q)
  peek?_isSome : ∀ (q : Q), PriorityQueue.elems q ≠ [] → (PriorityQueue.peek? q).isSome = true
  elems_poll : ∀ (q : Q) (a : α), PriorityQueue.peek? q = some a →
    (PriorityQueue.elems q).Perm (a :: PriorityQueue.elems (PriorityQueue.poll q))
  peek?_le : ∀ (q : Q) (a : α), PriorityQueue.peek? q = some a →
    ∀ b ∈ PriorityQueue.elems q, key a ≤ key b
  removeIf_fst : ∀ (q : Q) (p : α → Bool),
    (PriorityQueue.removeIf q p).1 = (PriorityQueue.elems q).any p
  elems_removeIf : ∀ (q : Q) (p : α → Bool),
    (PriorityQueue.elems (PriorityQueue.removeIf q p).2).Perm
      ((PriorityQueue.elems q).filter (fun a => !p a))

namespace PriorityQueue

section Lawful

variable {Q α κ : Type} [PriorityQueue Q α] [LinearOrder κ] {key : α → κ}
  [lawful : LawfulPriorityQueue Q key]

/-! ## Queues with different keys -/

include lawful in
theorem peek?_eq_none {q : Q} (h : elems q = []) : peek? q = none := by
  cases hp : peek? q with
  | none => rfl
  | some a =>
      have hperm := LawfulPriorityQueue.elems_poll q a hp
      rw [h] at hperm
      exact absurd hperm.length_eq (by simp)

/-- The head of a strictly sorted arrangement of the elements is the one `peek?` shows. -/
theorem peek?_eq_head {q : Q} {a : α} {as : List α} (hperm : (elems q).Perm (a :: as))
    (hsorted : (a :: as).Pairwise (fun b c => key b < key c)) : peek? q = some a := by
  have hne : elems q ≠ [] := by
    intro h
    rw [h] at hperm
    exact absurd hperm.length_eq (by simp)
  obtain ⟨b, hb⟩ := Option.isSome_iff_exists.mp (LawfulPriorityQueue.peek?_isSome q hne)
  have hle := LawfulPriorityQueue.peek?_le q b hb a (hperm.mem_iff.mpr (List.mem_cons_self ..))
  have hmem : b ∈ elems q :=
    (LawfulPriorityQueue.elems_poll q b hb).mem_iff.mpr (List.mem_cons_self ..)
  -- everything behind the head has a larger key, and `b` has a least one
  rcases List.mem_cons.mp (hperm.mem_iff.mp hmem) with rfl | hb'
  · exact hb
  · exact absurd ((List.pairwise_cons.mp hsorted).1 b hb') (not_lt.mpr hle)

/-- And `poll` leaves the rest of the arrangement. -/
theorem elems_poll_tail {q : Q} {a : α} {as : List α} (hperm : (elems q).Perm (a :: as))
    (hsorted : (a :: as).Pairwise (fun b c => key b < key c)) : (elems (poll q)).Perm as := by
  have hpoll := LawfulPriorityQueue.elems_poll q a (peek?_eq_head hperm hsorted)
  exact (hpoll.symm.trans hperm).cons_inv

/-- The elements in the order in which `n` calls of `poll` give them. -/
def drain : Nat → Q → List α
  | 0, _ => []
  | n + 1, q =>
      match peek? q with
      | none => []
      | some a => a :: drain n (poll q)

/-- A strictly sorted arrangement of the elements is the order in which they come out. -/
theorem drain_eq : ∀ {as : List α} {q : Q}, (elems q).Perm as →
    as.Pairwise (fun b c => key b < key c) → drain as.length q = as
  | [], _, _, _ => rfl
  | a :: as, q, hperm, hsorted => by
      have hrest := drain_eq (elems_poll_tail hperm hsorted) (List.pairwise_cons.mp hsorted).2
      rw [List.length_cons, drain, peek?_eq_head hperm hsorted]
      exact congrArg (List.cons a) hrest

end Lawful

end PriorityQueue

/-! ## An implementation -/

/-- A queue kept as a list in order of arrival, searched for its first least element. -/
structure ListQueue {α κ : Type} (key : α → κ) where
  items : List α

namespace ListQueue

variable {α κ : Type} [LinearOrder κ] {key : α → κ}

/-- The first element with a least key, and the others in their order. -/
def extract (key : α → κ) : List α → Option (α × List α)
  | [] => none
  | a :: as =>
      match extract key as with
      | none => some (a, [])
      | some (b, bs) => if key a ≤ key b then some (a, as) else some (b, a :: bs)

theorem extract_eq_none {as : List α} (h : extract key as = none) : as = [] := by
  cases as with
  | nil => rfl
  | cons a as =>
      rw [extract] at h
      split at h
      · cases h
      · split at h <;> cases h

theorem extract_spec : ∀ {as : List α} {a : α} {rest : List α},
    extract key as = some (a, rest) → as.Perm (a :: rest) ∧ ∀ b ∈ as, key a ≤ key b
  | [], _, _, h => by cases h
  | c :: cs, a, rest, h => by
      rw [extract] at h
      split at h
      · rename_i hnone
        cases h
        rw [extract_eq_none hnone]
        exact ⟨List.Perm.refl _, fun b hb => by rw [List.mem_singleton.mp hb]⟩
      · rename_i b bs hsome
        obtain ⟨hperm, hmin⟩ := extract_spec hsome
        split at h
        · rename_i hle
          cases h
          refine ⟨List.Perm.refl _, fun x hx => ?_⟩
          rcases List.mem_cons.mp hx with rfl | hx
          · exact le_refl _
          · exact le_trans hle (hmin x hx)
        · rename_i hgt
          cases h
          refine ⟨(hperm.cons c).trans (List.Perm.swap ..), fun x hx => ?_⟩
          rcases List.mem_cons.mp hx with rfl | hx
          · exact le_of_lt (not_le.mp hgt)
          · exact hmin x hx

instance : PriorityQueue (ListQueue key) α where
  empty := ⟨[]⟩
  offer q a := ⟨q.items ++ [a]⟩
  peek? q := (extract key q.items).map Prod.fst
  poll q := ⟨((extract key q.items).map Prod.snd).getD []⟩
  removeIf q p := (q.items.any p, ⟨q.items.filter (fun a => !p a)⟩)
  elems q := q.items

instance : LawfulPriorityQueue (ListQueue key) key where
  elems_empty := rfl
  elems_offer q a := List.perm_append_singleton a q.items
  peek?_isSome q hne := by
    cases he : extract key q.items with
    | none => exact absurd (extract_eq_none he) hne
    | some r => simp [PriorityQueue.peek?, he]
  elems_poll q a h := by
    obtain ⟨⟨b, rest⟩, he, rfl⟩ := Option.map_eq_some_iff.mp h
    have hpoll : PriorityQueue.elems (PriorityQueue.poll q) = rest := by
      simp [PriorityQueue.elems, PriorityQueue.poll, he]
    rw [hpoll]
    exact (extract_spec he).1
  peek?_le q a h := by
    obtain ⟨⟨b, rest⟩, he, rfl⟩ := Option.map_eq_some_iff.mp h
    exact (extract_spec he).2
  removeIf_fst _ _ := rfl
  elems_removeIf _ _ := List.Perm.refl _

end ListQueue

end TitanX
