import Mathlib.Algebra.BigOperators.Group.List.Basic
import Mathlib.Algebra.Order.BigOperators.Group.List
import Mathlib.Data.List.Forall2
import Mathlib.Algebra.Order.Group.Int
import Mathlib.Algebra.Ring.Int.Defs

/-!
# Greedy allocation

A quantity is handed out to a list of items in order, to each as much as it can take, until
nothing is left of the quantity or of the list. `shares` is the whole algorithm. What is
allocated are the shares that are not zero; what is left over are the items that were not
used up, the last one that got something cut down to the rest of it.

The capacity of an item and the way to cut it down are parameters (`Divisible` has their
laws). Handing out two quantities one after the other is the same as handing out their sum
(`leftover_leftover`, `weight_add`, `last_add`), wherever the first one happens to end. And
to know what a group of items gets, its total is enough (`weight_flatMap`).
-/

namespace TitanX.Greedy

variable {α : Type}

/-- Every item with its share of `q`. -/
def shares (cap : α → Int) (q : Int) : List α → List (α × Int)
  | [] => []
  | x :: xs => (x, min q (cap x)) :: shares cap (q - min q (cap x)) xs

/-- The items that get something. -/
def allocation (cap : α → Int) (q : Int) (xs : List α) : List (α × Int) :=
  (shares cap q xs).filter (fun s => 0 < s.2)

/-- What an item comes to when its share is taken out; nothing if that is all of it. -/
def cutDown (cap : α → Int) (cut : α → Int → α) (s : α × Int) : Option α :=
  if s.2 < cap s.1 then some (cut s.1 (cap s.1 - s.2)) else none

/-- The items that are not used up, with the shares taken out. -/
def leftover (cap : α → Int) (cut : α → Int → α) (q : Int) (xs : List α) : List α :=
  (shares cap q xs).filterMap (cutDown cap cut)

/-- What `g` says of the last item that gets something. -/
def last {β : Type} (cap : α → Int) (g : α → β) (q : Int) (xs : List α) : Option β :=
  (allocation cap q xs).getLast?.map (fun s => g s.1)

/-- The sum of the shares, each times the weight of its item. -/
def weight (cap : α → Int) (g : α → Int) (q : Int) (xs : List α) : Int :=
  ((shares cap q xs).map (fun s => g s.1 * s.2)).sum

/-- `cut x n` is the item `x` with capacity `n`. -/
structure Divisible (cap : α → Int) (cut : α → Int → α) : Prop where
  cap_cut : ∀ x n, cap (cut x n) = n
  cut_cut : ∀ x m n, cut (cut x m) n = cut x n
  cut_cap : ∀ x, cut x (cap x) = x

section Shares

variable {cap : α → Int} {cut : α → Int → α} {x : α} {xs : List α} {q : Int}

theorem weight_cons {g : α → Int} :
    weight cap g q (x :: xs) = g x * min q (cap x) + weight cap g (q - min q (cap x)) xs := rfl

/-! ## One item -/

theorem allocation_cons_pos (hq : 0 < q) (hx : 0 < cap x) :
    allocation cap q (x :: xs) = (x, min q (cap x)) :: allocation cap (q - min q (cap x)) xs := by
  have hpos : decide (0 < min q (cap x)) = true := decide_eq_true (lt_min hq hx)
  unfold allocation
  rw [shares]
  exact List.filter_cons_of_pos hpos

theorem last_cons {β : Type} {g : α → β} (hq : 0 < q) (hx : 0 < cap x) :
    last cap g q (x :: xs) = (last cap g (q - min q (cap x)) xs).or (some (g x)) := by
  unfold last
  rw [allocation_cons_pos hq hx, List.getLast?_cons]
  cases (allocation cap (q - min q (cap x)) xs).getLast? <;> rfl

/-- An item that is used up. -/
theorem leftover_cons_of_le (h : cap x ≤ q) :
    leftover cap cut q (x :: xs) = leftover cap cut (q - cap x) xs := by
  unfold leftover
  rw [shares, min_eq_right h, List.filterMap_cons_none]
  exact if_neg (lt_irrefl _)

/-- An item that is not. -/
theorem leftover_cons_of_lt (h : q < cap x) :
    leftover cap cut q (x :: xs) = cut x (cap x - q) :: leftover cap cut 0 xs := by
  unfold leftover
  rw [shares, min_eq_left (le_of_lt h), sub_self]
  exact List.filterMap_cons_some (if_pos h)

/-! ## Nothing to hand out -/

section Zero

variable (hpos : ∀ x ∈ xs, 0 < cap x)

include hpos

theorem allocation_zero : allocation cap 0 xs = [] := by
  induction xs with
  | nil => rfl
  | cons x xs ih =>
      have hx := hpos x (List.mem_cons_self ..)
      have hrest := ih (fun y hy => hpos y (List.mem_cons_of_mem x hy))
      unfold allocation at hrest ⊢
      rw [shares, min_eq_left (le_of_lt hx), sub_self, List.filter_cons_of_neg (by simp), hrest]

theorem last_zero {β : Type} {g : α → β} : last cap g 0 xs = none := by
  unfold last
  rw [allocation_zero hpos]
  rfl

theorem leftover_zero (hd : Divisible cap cut) : leftover cap cut 0 xs = xs := by
  induction xs with
  | nil => rfl
  | cons x xs ih =>
      rw [leftover_cons_of_lt (hpos x (List.mem_cons_self ..)), sub_zero, hd.cut_cap,
        ih (fun y hy => hpos y (List.mem_cons_of_mem x hy))]

theorem weight_zero {g : α → Int} : weight cap g 0 xs = 0 := by
  induction xs with
  | nil => rfl
  | cons x xs ih =>
      rw [weight_cons, min_eq_left (le_of_lt (hpos x (List.mem_cons_self ..))), mul_zero, sub_zero,
        ih (fun y hy => hpos y (List.mem_cons_of_mem x hy)), zero_add]

end Zero

/-- Items that get nothing do not count. -/
theorem weight_eq_sum {g : α → Int} (hpos : ∀ x ∈ xs, 0 < cap x) (hq : 0 ≤ q) :
    weight cap g q xs = ((allocation cap q xs).map (fun s => g s.1 * s.2)).sum := by
  induction xs generalizing q with
  | nil => rfl
  | cons x xs ih =>
      have hx := hpos x (List.mem_cons_self ..)
      by_cases hzero : q = 0
      · rw [hzero, weight_zero hpos, allocation_zero hpos]
        rfl
      · rw [weight_cons, allocation_cons_pos (by omega) hx, List.map_cons, List.sum_cons,
          ih (fun y hy => hpos y (List.mem_cons_of_mem x hy)) (by omega)]

end Shares

/-! ## Two quantities in turn -/

section Add

variable {cap : α → Int} {cut : α → Int → α} (hd : Divisible cap cut) {xs : List α}
  (hpos : ∀ x ∈ xs, 0 < cap x) {q₁ q₂ : Int} (h₁ : 0 ≤ q₁) (h₂ : 0 ≤ q₂)

include hd hpos h₁ h₂

/-- **What is left over does not depend on the split.** -/
theorem leftover_leftover :
    leftover cap cut q₂ (leftover cap cut q₁ xs) = leftover cap cut (q₁ + q₂) xs := by
  induction xs generalizing q₁ with
  | nil => rfl
  | cons x xs ih =>
      have hrest : ∀ y ∈ xs, 0 < cap y := fun y hy => hpos y (List.mem_cons_of_mem x hy)
      by_cases hx : cap x ≤ q₁
      · rw [leftover_cons_of_le hx, leftover_cons_of_le (by omega), ih hrest (by omega)]
        congr 1
        omega
      · -- the first quantity ends inside `x`
        rw [leftover_cons_of_lt (by omega), leftover_zero hrest hd]
        have hcap := hd.cap_cut x (cap x - q₁)
        by_cases hx' : cap x ≤ q₁ + q₂
        · rw [leftover_cons_of_le (by omega), leftover_cons_of_le hx', hcap]
          congr 1
          omega
        · rw [leftover_cons_of_lt (by omega), leftover_cons_of_lt (by omega), hcap, hd.cut_cut]
          congr 2
          omega

/-- Nor does any weighted sum of the shares, if cutting an item does not change its weight. -/
theorem weight_add {g : α → Int} (hg : ∀ x n, g (cut x n) = g x) :
    weight cap g (q₁ + q₂) xs
      = weight cap g q₁ xs + weight cap g q₂ (leftover cap cut q₁ xs) := by
  induction xs generalizing q₁ with
  | nil => rfl
  | cons x xs ih =>
      have hrest : ∀ y ∈ xs, 0 < cap y := fun y hy => hpos y (List.mem_cons_of_mem x hy)
      rw [weight_cons, weight_cons]
      by_cases hx : cap x ≤ q₁
      · have hsum : q₁ + q₂ - cap x = (q₁ - cap x) + q₂ := by omega
        rw [min_eq_right hx, min_eq_right (by omega), leftover_cons_of_le hx, hsum,
          ih hrest (by omega)]
        omega
      · have hcap := hd.cap_cut x (cap x - q₁)
        have hle : min q₁ (cap x) = q₁ := min_eq_left (by omega)
        have hmin : min (q₁ + q₂) (cap x) = q₁ + min q₂ (cap x - q₁) := by omega
        rw [leftover_cons_of_lt (by omega), leftover_zero hrest hd, weight_cons, hg, hcap, hle, hmin,
          sub_self, weight_zero hrest, Int.mul_add]
        have hq : q₁ + q₂ - (q₁ + min q₂ (cap x - q₁)) = q₂ - min q₂ (cap x - q₁) := by omega
        rw [hq]
        omega

/-- Nor which item was the last to get something. -/
theorem last_add {β : Type} {g : α → β} (hg : ∀ x n, g (cut x n) = g x) :
    last cap g (q₁ + q₂) xs = (last cap g q₂ (leftover cap cut q₁ xs)).or (last cap g q₁ xs) := by
  induction xs generalizing q₁ with
  | nil => rfl
  | cons x xs ih =>
      have hx := hpos x (List.mem_cons_self ..)
      have hrest : ∀ y ∈ xs, 0 < cap y := fun y hy => hpos y (List.mem_cons_of_mem x hy)
      by_cases hle : cap x ≤ q₁
      · have hsum : q₁ + q₂ - cap x = (q₁ - cap x) + q₂ := by omega
        rw [leftover_cons_of_le hle, last_cons (by omega) hx, last_cons (by omega) hx,
          min_eq_right hle, min_eq_right (by omega), hsum, ih hrest (by omega), Option.or_assoc]
      · have hcap := hd.cap_cut x (cap x - q₁)
        have hcut : ∀ y ∈ cut x (cap x - q₁) :: xs, 0 < cap y := by
          intro y hy
          rcases List.mem_cons.mp hy with rfl | hy
          · omega
          · exact hrest y hy
        rw [leftover_cons_of_lt (by omega), leftover_zero hrest hd]
        by_cases hq : q₂ = 0
        · rw [hq, last_zero hcut, Int.add_zero]
          rfl
        · have hq' : q₁ + q₂ - min (q₁ + q₂) (cap x) = q₂ - min q₂ (cap x - q₁) := by omega
          rw [last_cons (by omega) hx, last_cons (by omega) (by omega), hg, hcap, hq',
            Option.or_assoc]
          rfl

end Add

/-! ## Items that are alike -/

section Alike

variable {cap : α → Int} {cut : α → Int → α} {R : α → α → Prop}
  (hcap : ∀ x y, R x y → cap y = cap x) {xs ys : List α} (h : List.Forall₂ R xs ys) (q : Int)

include hcap h

/-- Related items, with the same capacities, leave related items over, -/
theorem leftover_rel (hcut : ∀ x y n, R x y → R (cut x n) (cut y n)) :
    List.Forall₂ R (leftover cap cut q xs) (leftover cap cut q ys) := by
  induction h generalizing q with
  | nil => exact .nil
  | @cons x y xs ys hxy hrest ih =>
      have hc := hcap x y hxy
      by_cases hle : cap x ≤ q
      · rw [leftover_cons_of_le hle, leftover_cons_of_le (by omega), hc]
        exact ih (q - cap x)
      · rw [leftover_cons_of_lt (by omega), leftover_cons_of_lt (by omega), hc]
        exact .cons (hcut x y _ hxy) (ih 0)

/-- and get the same shares, for all that `g` says of them. -/
theorem shares_rel {β : Type} {g : α → β} (hg : ∀ x y, R x y → g y = g x) :
    (shares cap q ys).map (Prod.map g id) = (shares cap q xs).map (Prod.map g id) := by
  induction h generalizing q with
  | nil => rfl
  | @cons x y xs ys hxy _ ih =>
      rw [shares, shares, hcap x y hxy, List.map_cons, List.map_cons, ih]
      simp only [Prod.map_apply, hg x y hxy]

theorem weight_rel {g : α → Int} (hg : ∀ x y, R x y → g y = g x) :
    weight cap g q ys = weight cap g q xs := by
  have hsum : ∀ zs, weight cap g q zs
      = (((shares cap q zs).map (Prod.map g id)).map (fun s => s.1 * s.2)).sum := by
    intro zs
    rw [List.map_map]
    rfl
  rw [hsum, hsum, shares_rel hcap h q hg]

theorem last_rel {β : Type} {g : α → β} (hg : ∀ x y, R x y → g y = g x) :
    last cap g q ys = last cap g q xs := by
  have hlast : ∀ zs, last cap g q zs
      = (((shares cap q zs).map (Prod.map g id)).filter (fun s => 0 < s.2)).getLast?.map Prod.fst := by
    intro zs
    rw [List.filter_map, List.getLast?_map, Option.map_map]
    rfl
  rw [hlast, hlast, shares_rel hcap h q hg]

end Alike

/-! ## Items in groups -/

section Groups

variable {β : Type} {cap g : α → Int} {xs ys : List α} {q : Int}

theorem weight_map (f : β → α) (zs : List β) :
    weight cap g q (zs.map f) = weight (fun z => cap (f z)) (fun z => g (f z)) q zs := by
  induction zs generalizing q with
  | nil => rfl
  | cons z zs ih => rw [List.map_cons, weight_cons, weight_cons, ih]

theorem weight_congr {cap' : α → Int} (h : ∀ x ∈ xs, cap' x = cap x) :
    weight cap' g q xs = weight cap g q xs := by
  induction xs generalizing q with
  | nil => rfl
  | cons x xs ih =>
      rw [weight_cons, weight_cons, h x (List.mem_cons_self ..),
        ih (fun y hy => h y (List.mem_cons_of_mem x hy))]

theorem sum_cap_nonneg (hpos : ∀ x ∈ xs, 0 < cap x) : 0 ≤ (xs.map cap).sum := by
  refine List.sum_nonneg (fun n hn => ?_)
  obtain ⟨x, hx, rfl⟩ := List.mem_map.mp hn
  exact (hpos x hx).le

/-- The first items take what they can, and the others get the rest. -/
theorem weight_append (hpos : ∀ x ∈ xs, 0 < cap x) (hq : 0 ≤ q) :
    weight cap g q (xs ++ ys)
      = weight cap g q xs + weight cap g (q - min q (xs.map cap).sum) ys := by
  induction xs generalizing q with
  | nil =>
      have hnil : weight cap g q [] = 0 := rfl
      rw [List.nil_append, List.map_nil, List.sum_nil, min_eq_right hq, sub_zero, hnil, zero_add]
  | cons x xs ih =>
      have hx := hpos x (List.mem_cons_self ..)
      have hrest : ∀ y ∈ xs, 0 < cap y := fun y hy => hpos y (List.mem_cons_of_mem x hy)
      have hsum := sum_cap_nonneg hrest
      rw [List.cons_append, weight_cons, weight_cons, ih hrest (by omega), add_assoc,
        List.map_cons, List.sum_cons]
      have hleft : q - min q (cap x) - min (q - min q (cap x)) (xs.map cap).sum
          = q - min q (cap x + (xs.map cap).sum) := by omega
      rw [hleft]

/-- Likewise for what is left over. -/
theorem leftover_append {cut : α → Int → α} (hpos : ∀ x ∈ xs, 0 < cap x) (hq : 0 ≤ q) :
    leftover cap cut q (xs ++ ys)
      = leftover cap cut q xs ++ leftover cap cut (q - min q (xs.map cap).sum) ys := by
  induction xs generalizing q with
  | nil =>
      have hnil : leftover cap cut q [] = [] := rfl
      rw [List.nil_append, hnil, List.nil_append, List.map_nil, List.sum_nil, min_eq_right hq,
        sub_zero]
  | cons x xs ih =>
      have hx := hpos x (List.mem_cons_self ..)
      have hrest : ∀ y ∈ xs, 0 < cap y := fun y hy => hpos y (List.mem_cons_of_mem x hy)
      have hsum := sum_cap_nonneg hrest
      rw [List.cons_append, List.map_cons, List.sum_cons]
      by_cases hle : cap x ≤ q
      · have hleft : q - cap x - min (q - cap x) (xs.map cap).sum
            = q - min q (cap x + (xs.map cap).sum) := by omega
        rw [leftover_cons_of_le hle, leftover_cons_of_le hle, ih hrest (by omega), hleft]
      · have hnone : q - min q (cap x + (xs.map cap).sum) = 0 := by omega
        have hzero : 0 - min 0 (xs.map cap).sum = 0 := by omega
        rw [leftover_cons_of_lt (by omega), leftover_cons_of_lt (by omega), ih hrest (le_refl 0),
          hnone, hzero, List.cons_append]

/-- What is left over has the keys of some of the items, in their order. -/
theorem leftover_keys {κ : Type} {cut : α → Int → α} {key : α → κ}
    (hkey : ∀ x n, key (cut x n) = key x) (q : Int) (xs : List α) :
    ((leftover cap cut q xs).map key).Sublist (xs.map key) := by
  induction xs generalizing q with
  | nil => exact List.Sublist.refl _
  | cons x xs ih =>
      by_cases hle : cap x ≤ q
      · rw [leftover_cons_of_le hle, List.map_cons]
        exact (ih _).cons _
      · rw [leftover_cons_of_lt (by omega), List.map_cons, List.map_cons, hkey]
        exact (ih _).cons_cons _

/-- **Which items are left over.** An item is used up exactly if the quantity covers it and all
the items before it. -/
theorem key_mem_leftover_iff {κ : Type} {cut : α → Int → α} {key : α → κ}
    (hkey : ∀ x n, key (cut x n) = key x) {x : α} (hnd : ((xs ++ x :: ys).map key).Nodup)
    (hpos : ∀ y ∈ xs, 0 < cap y) (hx : 0 < cap x) (hq : 0 ≤ q) :
    key x ∈ (leftover cap cut q (xs ++ x :: ys)).map key ↔ q < (xs.map cap).sum + cap x := by
  rw [List.map_append, List.map_cons] at hnd
  obtain ⟨-, htail, hcross⟩ := List.nodup_append.mp hnd
  have hbefore : key x ∉ (leftover cap cut q xs).map key := fun hmem =>
    hcross _ ((leftover_keys hkey q xs).subset hmem) _ (List.mem_cons_self ..) rfl
  have hafter : ∀ n, key x ∉ (leftover cap cut n ys).map key := fun n hmem =>
    (List.nodup_cons.mp htail).1 ((leftover_keys hkey n ys).subset hmem)
  have hsum := sum_cap_nonneg hpos
  rw [leftover_append hpos hq, List.map_append, List.mem_append, or_iff_right hbefore]
  by_cases hle : cap x ≤ q - min q (xs.map cap).sum
  · rw [leftover_cons_of_le hle]
    exact ⟨fun hmem => absurd hmem (hafter _), fun hlt => by omega⟩
  · rw [leftover_cons_of_lt (by omega), List.map_cons, hkey]
    exact ⟨fun _ => by omega, fun _ => List.mem_cons_self ..⟩

/-- What is left of an item that is not used up. -/
theorem cut_mem_leftover {cut : α → Int → α} {x : α} (hpos : ∀ y ∈ xs, 0 < cap y) (hx : 0 < cap x)
    (hq : 0 ≤ q) (hlt : q < (xs.map cap).sum + cap x) :
    cut x (cap x - (q - min q (xs.map cap).sum)) ∈ leftover cap cut q (xs ++ x :: ys) := by
  have hsum := sum_cap_nonneg hpos
  rw [leftover_append hpos hq, leftover_cons_of_lt (by omega)]
  exact List.mem_append_right _ (List.mem_cons_self ..)

/-- Items of one weight count as one item. -/
theorem weight_const {k : Int} (hpos : ∀ x ∈ xs, 0 < cap x) (hq : 0 ≤ q)
    (hg : ∀ x ∈ xs, g x = k) : weight cap g q xs = k * min q (xs.map cap).sum := by
  induction xs generalizing q with
  | nil =>
      have hnil : weight cap g q [] = 0 := rfl
      rw [hnil, List.map_nil, List.sum_nil, min_eq_right hq, mul_zero]
  | cons x xs ih =>
      have hx := hpos x (List.mem_cons_self ..)
      have hrest : ∀ y ∈ xs, 0 < cap y := fun y hy => hpos y (List.mem_cons_of_mem x hy)
      have hsum := sum_cap_nonneg hrest
      rw [weight_cons, hg x (List.mem_cons_self ..),
        ih hrest (by omega) (fun y hy => hg y (List.mem_cons_of_mem x hy)), ← Int.mul_add,
        List.map_cons, List.sum_cons]
      congr 1
      omega

/-- **Handing out to groups.** For weights that are the same within each group it is enough to
know what each group can take as a whole. -/
theorem weight_flatMap (members : β → List α) {w : β → Int} {groups : List β}
    (hpos : ∀ z ∈ groups, ∀ x ∈ members z, 0 < cap x)
    (hg : ∀ z ∈ groups, ∀ x ∈ members z, g x = w z) (hq : 0 ≤ q) :
    weight cap g q (groups.flatMap members)
      = weight (fun z => ((members z).map cap).sum) w q groups := by
  induction groups generalizing q with
  | nil => rfl
  | cons z groups ih =>
      have hz := hpos z (List.mem_cons_self ..)
      rw [List.flatMap_cons, weight_append hz hq, weight_cons,
        weight_const hz hq (hg z (List.mem_cons_self ..)),
        ih (fun y hy => hpos y (List.mem_cons_of_mem z hy))
          (fun y hy => hg y (List.mem_cons_of_mem z hy)) (by omega)]

end Groups

/-! ## Items seen through a map -/

section Map

variable {β : Type} {cap : α → Int} {cap' : β → Int} {cut : α → Int → α} {cut' : β → Int → β}
  {f : α → β} (hcap : ∀ x, cap' (f x) = cap x)

include hcap

theorem shares_map (q : Int) (xs : List α) :
    shares cap' q (xs.map f) = (shares cap q xs).map (Prod.map f id) := by
  induction xs generalizing q with
  | nil => rfl
  | cons x xs ih =>
      rw [List.map_cons, shares, shares, List.map_cons, hcap, ih]
      rfl

theorem allocation_map (q : Int) (xs : List α) :
    allocation cap' q (xs.map f) = (allocation cap q xs).map (Prod.map f id) := by
  unfold allocation
  rw [shares_map hcap, List.filter_map]
  rfl

theorem leftover_map (hcut : ∀ x n, cut' (f x) n = f (cut x n)) (q : Int) (xs : List α) :
    leftover cap' cut' q (xs.map f) = (leftover cap cut q xs).map f := by
  unfold leftover
  rw [shares_map hcap, List.filterMap_map, List.map_filterMap]
  refine List.filterMap_congr (fun s _ => ?_)
  simp only [Function.comp_apply, cutDown, Prod.map_fst, Prod.map_snd, id_eq, hcap, hcut]
  split <;> rfl

end Map

/-- Something is handed out if there is something to hand out and somebody to take it. -/
theorem allocation_eq_nil_iff {cap : α → Int} {xs : List α} (hpos : ∀ x ∈ xs, 0 < cap x) (q : Int) :
    allocation cap q xs = [] ↔ q ≤ 0 ∨ xs = [] := by
  cases xs with
  | nil => exact iff_of_true rfl (Or.inr rfl)
  | cons x xs =>
      have hx := hpos x (List.mem_cons_self ..)
      by_cases hq : 0 < q
      · rw [allocation_cons_pos hq hx]
        exact iff_of_false (List.cons_ne_nil _ _) (fun h => h.elim (by omega) (List.cons_ne_nil _ _))
      · refine iff_of_true ?_ (Or.inl (by omega))
        have hmin : min q (cap x) = q := by omega
        have hrest := allocation_zero (fun y hy => hpos y (List.mem_cons_of_mem x hy))
        unfold allocation at hrest ⊢
        rw [shares, hmin, Int.sub_self, List.filter_cons_of_neg (by simpa using hq), hrest]

end TitanX.Greedy
