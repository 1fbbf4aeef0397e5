import TitanX.Model.Uuid

/-!
# Ids

Every generated id has the form of a version 4 UUID, and two of them are the same exactly if
the draws agree in 122 of their 128 bits (`uuid_text`): the four of the version and the two of
the variant are overwritten. The distinct ids that the books rely on come down to that.
-/

namespace TitanX.Proof

open TitanX

/-! ## The fields of an id -/

/-- The fields as numbers. -/
theorem uuidFields_toNat (a b : UInt64) :
    (uuidFields a b).1.toNat = a.toNat / 4294967296
      ∧ (uuidFields a b).2.1.toNat = a.toNat / 65536 % 65536
      ∧ (uuidFields a b).2.2.1.toNat = 16384 + a.toNat % 4096
      ∧ (uuidFields a b).2.2.2.1.toNat = 32768 + b.toNat / 281474976710656 % 16384
      ∧ (uuidFields a b).2.2.2.2.toNat = b.toNat % 281474976710656 := by
  have ha := a.toNat_lt
  have hb := b.toNat_lt
  have hor : ∀ i m : Nat, m < 2 ^ i → 2 ^ i ||| m = 2 ^ i + m := fun i m h => by
    simpa using (Nat.two_pow_add_eq_or_of_lt h 1).symm
  have h16 : ∀ n : Nat, n &&& 65535 = n % 65536 := fun n => Nat.and_two_pow_sub_one_eq_mod n 16
  have h12 : ∀ n : Nat, n &&& 4095 = n % 4096 := fun n => Nat.and_two_pow_sub_one_eq_mod n 12
  have h14 : ∀ n : Nat, n &&& 16383 = n % 16384 := fun n => Nat.and_two_pow_sub_one_eq_mod n 14
  have h48 : ∀ n : Nat, n &&& 281474976710655 = n % 281474976710656 :=
    fun n => Nat.and_two_pow_sub_one_eq_mod n 48
  have hversion : 16384 ||| a.toNat % 4096 = 16384 + a.toNat % 4096 := hor 14 _ (by omega)
  have hvariant : 32768 ||| b.toNat / 281474976710656 % 16384
      = 32768 + b.toNat / 281474976710656 % 16384 := hor 15 _ (by omega)
  simp only [uuidFields, UInt64.toNat_toUInt32, UInt64.toNat_toUInt16, UInt64.toNat_and,
    UInt64.toNat_or, UInt64.toNat_shiftRight, UInt64.toNat_ofNat, Nat.shiftRight_eq_div_pow,
    Nat.reducePow, Nat.reduceMod, h16, h12, h14, h48, hversion, hvariant]
  refine ⟨?_, ?_, ?_, ?_, trivial⟩ <;> omega

/-- Five groups with hyphens between them. -/
def grouped (g₁ g₂ g₃ g₄ g₅ : List Char) : List Char :=
  g₁ ++ '-' :: (g₂ ++ '-' :: (g₃ ++ '-' :: (g₄ ++ '-' :: g₅)))

theorem toList_generateUuid (a b : UInt64) :
    (generateUuid a b).toList
      = grouped (Hex.print 8 (a.toNat / 4294967296)) (Hex.print 4 (a.toNat / 65536 % 65536))
          (Hex.print 4 (16384 + a.toNat % 4096))
          (Hex.print 4 (32768 + b.toNat / 281474976710656 % 16384))
          (Hex.print 12 (b.toNat % 281474976710656)) := by
  obtain ⟨h₁, h₂, h₃, h₄, h₅⟩ := uuidFields_toNat a b
  rw [← h₁, ← h₂, ← h₃, ← h₄, ← h₅, generateUuid, String.toList_ofList]
  rfl

theorem grouped_inj {g₁ g₂ g₃ g₄ g₅ k₁ k₂ k₃ k₄ k₅ : List Char}
    (h₁ : g₁.length = k₁.length) (h₂ : g₂.length = k₂.length) (h₃ : g₃.length = k₃.length)
    (h₄ : g₄.length = k₄.length) :
    grouped g₁ g₂ g₃ g₄ g₅ = grouped k₁ k₂ k₃ k₄ k₅
      ↔ g₁ = k₁ ∧ g₂ = k₂ ∧ g₃ = k₃ ∧ g₄ = k₄ ∧ g₅ = k₅ := by
  constructor
  · intro h
    obtain ⟨hg₁, t₁⟩ := List.append_inj h h₁
    obtain ⟨hg₂, t₂⟩ := List.append_inj (List.tail_eq_of_cons_eq t₁) h₂
    obtain ⟨hg₃, t₃⟩ := List.append_inj (List.tail_eq_of_cons_eq t₂) h₃
    obtain ⟨hg₄, t₄⟩ := List.append_inj (List.tail_eq_of_cons_eq t₃) h₄
    exact ⟨hg₁, hg₂, hg₃, hg₄, List.tail_eq_of_cons_eq t₄⟩
  · rintro ⟨rfl, rfl, rfl, rfl, rfl⟩
    rfl

/-! ## The text -/

/-- The text of a UUID of version 4: five groups of lower-case digits. -/
structure VersionFour (text : String) : Prop where
  groups : ∃ g₁ g₂ g₃ g₄ g₅ : List Char, text.toList = grouped g₁ g₂ g₃ g₄ g₅
    ∧ [g₁, g₂, g₃, g₄, g₅].map List.length = [8, 4, 4, 4, 12]
    ∧ (∀ c ∈ g₁ ++ g₂ ++ g₃ ++ g₄ ++ g₅, Hex.IsDigit c)
    ∧ g₃.head? = some '4' ∧ ∃ c ∈ ['8', '9', 'a', 'b'], g₄.head? = some c

/-- The first of four digits. -/
theorem head_print_four (n : Nat) :
    (Hex.print 4 n).head? = some (Nat.digitChar (n / 4096 % 16)) := by
  have h : n / 16 / 16 / 16 = n / 4096 := by omega
  rw [← h]
  rfl

theorem versionFour_generateUuid (a b : UInt64) : VersionFour (generateUuid a b) where
  groups := by
    refine ⟨_, _, _, _, _, toList_generateUuid a b, by simp [Hex.length_print], ?_, ?_, ?_⟩
    · intro c hc
      simp only [List.mem_append] at hc
      rcases hc with (((hc | hc) | hc) | hc) | hc <;> exact Hex.isDigit_of_mem_print hc
    · have h4 : (16384 + a.toNat % 4096) / 4096 % 16 = 4 := by omega
      rw [head_print_four, h4]
      rfl
    · have hall : ∀ d : Fin 4, Nat.digitChar (8 + d) ∈ ['8', '9', 'a', 'b'] := by decide
      have h8 : (32768 + b.toNat / 281474976710656 % 16384) / 4096 % 16
          = 8 + b.toNat / 1152921504606846976 % 4 := by omega
      rw [head_print_four, h8]
      exact ⟨_, hall ⟨b.toNat / 1152921504606846976 % 4, by omega⟩, rfl⟩

/-- The bits of the draws that are printed. -/
def SameDraws (a b a' b' : UInt64) : Prop :=
  a.toNat / 65536 = a'.toNat / 65536 ∧ a.toNat % 4096 = a'.toNat % 4096
    ∧ b.toNat % 4611686018427387904 = b'.toNat % 4611686018427387904

theorem generateUuid_eq_iff (a b a' b' : UInt64) :
    generateUuid a b = generateUuid a' b' ↔ SameDraws a b a' b' := by
  have ha := a.toNat_lt
  have ha' := a'.toNat_lt
  rw [← String.toList_inj, toList_generateUuid, toList_generateUuid,
    grouped_inj (by simp only [Hex.length_print]) (by simp only [Hex.length_print])
      (by simp only [Hex.length_print]) (by simp only [Hex.length_print]),
    Hex.print_eq_print_iff, Hex.print_eq_print_iff, Hex.print_eq_print_iff,
    Hex.print_eq_print_iff, Hex.print_eq_print_iff, SameDraws]
  -- every field fits its digits
  simp (disch := omega) only [Nat.reducePow, Nat.mod_eq_of_lt]
  constructor
  · rintro ⟨h₁, h₂, h₃, h₄, h₅⟩
    exact ⟨by omega, by omega, by omega⟩
  · rintro ⟨hhigh, hlow, hb⟩
    exact ⟨by omega, by omega, by omega, by omega, by omega⟩

/-- **The text of an id.** It is a version 4 UUID, and it gives away the draws but for bits 12 to
15 of the first and the two top bits of the second: ids collide exactly if the rest is the same. -/
theorem uuid_text :
    (∀ a b, VersionFour (generateUuid a b))
      ∧ ∀ a b a' b', generateUuid a b = generateUuid a' b' ↔ SameDraws a b a' b' :=
  ⟨versionFour_generateUuid, generateUuid_eq_iff⟩

end TitanX.Proof
