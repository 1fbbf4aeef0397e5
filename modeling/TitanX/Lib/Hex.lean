import Mathlib.Data.Nat.Digits.Defs
import Mathlib.Data.List.Basic

/-!
# Hexadecimal digits

A number in a fixed number of lower-case hexadecimal digits, most significant first, as
`%0<width>x` prints a number that fits. Printing keeps the number modulo `16 ^ width`, and
nothing else.
-/

namespace TitanX.Hex

/-- The low `width` digits of `n`. -/
def print : Nat → Nat → List Char
  | 0, _ => []
  | width + 1, n => print width (n / 16) ++ [Nat.digitChar (n % 16)]

def IsDigit (c : Char) : Prop := ∃ d < 16, c = Nat.digitChar d

theorem length_print (width n : Nat) : (print width n).length = width := by
  induction width generalizing n with
  | zero => rfl
  | succ width ih => rw [print, List.length_append, ih]; rfl

theorem isDigit_of_mem_print {width n : Nat} {c : Char} (h : c ∈ print width n) : IsDigit c := by
  induction width generalizing n with
  | zero => cases h
  | succ width ih =>
      rcases List.mem_append.mp h with h | h
      · exact ih h
      · exact ⟨n % 16, Nat.mod_lt _ (by decide), List.mem_singleton.mp h⟩

theorem digitChar_inj {d e : Nat} (hd : d < 16) (he : e < 16)
    (h : Nat.digitChar d = Nat.digitChar e) : d = e := by
  have hall : ∀ d e : Fin 16, Nat.digitChar d = Nat.digitChar e → d = e := by decide
  exact congrArg Fin.val (hall ⟨d, hd⟩ ⟨e, he⟩ h)

/-- Two numbers print alike if they agree in the digits printed. -/
theorem print_eq_print_iff {width n m : Nat} :
    print width n = print width m ↔ n % 16 ^ width = m % 16 ^ width := by
  induction width generalizing n m with
  | zero => simp [print, Nat.mod_one]
  | succ width ih =>
      have hsplit : ∀ k : Nat, k % 16 ^ (width + 1) = 16 * (k / 16 % 16 ^ width) + k % 16 := by
        intro k
        rw [pow_succ, Nat.mul_comm (16 ^ width) 16, Nat.mod_mul]
        omega
      rw [print, print, hsplit n, hsplit m]
      constructor
      · intro h
        obtain ⟨hinit, hlast⟩ := List.append_inj' h rfl
        have hhigh := ih.mp hinit
        have hlow := digitChar_inj (Nat.mod_lt n (by decide)) (Nat.mod_lt m (by decide))
          (List.singleton_inj.mp hlast)
        rw [hhigh, hlow]
      · intro h
        have hlow : n % 16 = m % 16 := by omega
        have hhigh : n / 16 % 16 ^ width = m / 16 % 16 ^ width := by omega
        rw [ih.mpr hhigh, hlow]

end TitanX.Hex
