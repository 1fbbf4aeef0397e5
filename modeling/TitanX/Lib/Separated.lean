import Mathlib.Data.List.Basic

/-!
# Pieces between separators

A list cut at every occurrence of a separator, with the empty pieces dropped. All that is
proved here follows from one equation, `pieces_append_cons`: a separator anywhere in the
list cuts its pieces in two.

`[sep].intercalate` is the way back. It is inverse to `pieces` on the lists that `pieces`
can return, and on no others (`pieces_intercalate_eq_self_iff`).
-/

namespace TitanX

section Separated

variable {α : Type} [DecidableEq α] {sep : α}

/-- The non-empty pieces of a list between the occurrences of `sep`. -/
def pieces (sep : α) (l : List α) : List (List α) := (l.splitOn sep).filter (· ≠ [])

@[simp] theorem pieces_nil : pieces sep [] = [] := by simp [pieces]

theorem pieces_append_cons (l r : List α) :
    pieces sep (l ++ sep :: r) = pieces sep l ++ pieces sep r := by
  unfold pieces
  rw [List.splitOn_append_cons_self, List.filter_append]

theorem pieces_of_notMem {l : List α} (hne : l ≠ []) (h : sep ∉ l) : pieces sep l = [l] := by
  unfold pieces
  rw [List.splitOn_eq_singleton h]
  simp [hne]

/-- A piece is not empty and has no separator in it. -/
theorem of_mem_pieces {l p : List α} (h : p ∈ pieces sep l) : p ≠ [] ∧ sep ∉ p := by
  -- on the length: what is before the first separator and what is after it are both shorter
  induction hn : l.length using Nat.strongRecOn generalizing l with
  | _ n ih =>
      by_cases hs : sep ∈ l
      · obtain ⟨pre, post, rfl, -⟩ := List.eq_append_cons_of_mem hs
        rw [List.length_append, List.length_cons] at hn
        rw [pieces_append_cons] at h
        rcases List.mem_append.mp h with h | h
        · exact ih pre.length (by omega) h rfl
        · exact ih post.length (by omega) h rfl
      · by_cases hl : l = []
        · subst hl
          exact absurd h (by simp)
        · rw [pieces_of_notMem hl hs, List.mem_singleton] at h
          subst h
          exact ⟨hl, hs⟩

omit [DecidableEq α] in
theorem intercalate_singleton_cons (l : List α) (ls : List (List α)) :
    [sep].intercalate (l :: ls) = l ++ ls.flatMap (fun l' => sep :: l') := by
  induction ls generalizing l with
  | nil => simp
  | cons l' ls ih =>
      rw [List.intercalate_cons_cons, ih, List.flatMap_cons]
      simp

theorem pieces_intercalate (ls : List (List α)) :
    pieces sep ([sep].intercalate ls) = ls.flatMap (pieces sep) := by
  induction ls with
  | nil => simp
  | cons l ls ih =>
      cases ls with
      | nil => simp
      | cons l' ls =>
          rw [List.intercalate_cons_cons, List.append_assoc, List.singleton_append,
            pieces_append_cons, ih]
          exact List.flatMap_cons.symm

theorem flatMap_pieces_eq_self {ls : List (List α)} (h : ∀ l ∈ ls, l ≠ [] ∧ sep ∉ l) :
    ls.flatMap (pieces sep) = ls := by
  induction ls with
  | nil => rfl
  | cons l ls ih =>
      obtain ⟨hne, hs⟩ := h l (List.mem_cons_self ..)
      rw [List.flatMap_cons, pieces_of_notMem hne hs,
        ih (fun l' hl' => h l' (List.mem_cons_of_mem _ hl'))]
      rfl

/-- **What can be read back.** Joined lists come apart again exactly when each of them is
a piece. -/
theorem pieces_intercalate_eq_self_iff {ls : List (List α)} :
    pieces sep ([sep].intercalate ls) = ls ↔ ∀ l ∈ ls, l ≠ [] ∧ sep ∉ l := by
  constructor
  · intro h l hl
    rw [← h] at hl
    exact of_mem_pieces hl
  · intro h
    rw [pieces_intercalate, flatMap_pieces_eq_self h]

end Separated

end TitanX
