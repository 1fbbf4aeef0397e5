import Mathlib.Data.List.Basic
import TitanX.Lib.Hex

/-!
# JSON values and a text for them

Objects, texts, integers and `null`. A library that keeps the members of an object in a sorted
map has only the values whose keys ascend (`ordered`).

`compact` is a text without any white space: the keys in the order in which they are listed,
control characters, quotes and backslashes escaped, everything else as it is. It can be read in one way only. Each part of it is a code whose words say themselves
where they end, or, in the case of a number, end where no digit follows; so it cancels from
the front of a longer text (`chars_append_inj`).
-/

namespace TitanX

inductive Json where
  | null
  | number (n : Int)
  | text (s : String)
  | object (members : List (String × Json))

namespace Json

mutual

/-- The keys of every object ascend. -/
def ordered : Json → Bool
  | .object members => orderedMembers members
  | _ => true

def orderedMembers : List (String × Json) → Bool
  | [] => true
  | (key, value) :: members =>
      ordered value && (members.all (fun m => key < m.1) && orderedMembers members)

end

theorem orderedMembers_iff (members : List (String × Json)) :
    orderedMembers members = true
      ↔ (members.map Prod.fst).Pairwise (· < ·) ∧ ∀ value ∈ members.map Prod.snd, value.ordered = true := by
  induction members with
  | nil => simp [orderedMembers]
  | cons member members ih =>
      simp only [orderedMembers, Bool.and_eq_true, ih, List.all_eq_true, decide_eq_true_eq,
        List.map_cons, List.pairwise_cons, List.forall_mem_cons, List.forall_mem_map]
      tauto

/-! ## Printing -/

def quote : Char := Char.ofNat 34

def backslash : Char := Char.ofNat 92

def openBrace : Char := Char.ofNat 123

def closeBrace : Char := Char.ofNat 125

/-- What follows the backslash for the characters that have a short escape. -/
def shortEscape : Nat → Option Char
  | 8 => some 'b'
  | 9 => some 't'
  | 10 => some 'n'
  | 12 => some 'f'
  | 13 => some 'r'
  | 34 => some quote
  | 92 => some backslash
  | _ => none

def escape (c : Char) : List Char :=
  match shortEscape c.toNat with
  | some x => [backslash, x]
  | none => if c.toNat ≤ 31 then backslash :: 'u' :: Hex.print 4 c.toNat else [c]

def quoted (s : String) : List Char := quote :: (s.toList.flatMap escape ++ [quote])

def decimal (n : Int) : List Char :=
  if n < 0 then '-' :: Nat.toDigits 10 n.natAbs else Nat.toDigits 10 n.natAbs

mutual

def chars : Json → List Char
  | .null => ['n', 'u', 'l', 'l']
  | .number n => decimal n
  | .text s => quoted s
  | .object [] => [openBrace, closeBrace]
  | .object ((key, value) :: members) =>
      openBrace :: (quoted key ++ ':' :: (chars value ++ moreChars members))

/-- The members after the first, and the end of the object. -/
def moreChars : List (String × Json) → List Char
  | [] => [closeBrace]
  | (key, value) :: members => ',' :: (quoted key ++ ':' :: (chars value ++ moreChars members))

end

/-- The whole text. -/
def compact (j : Json) : String := String.ofList j.chars

/-! ## Texts -/

theorem shortEscape_inj {n m : Nat} {x : Char} (hn : shortEscape n = some x)
    (hm : shortEscape m = some x) : n = m := by
  unfold shortEscape at hn hm
  split at hn <;> cases hn <;> split at hm <;> first | rfl | cases hm

theorem shortEscape_ne_u (n : Nat) : shortEscape n ≠ some 'u' := by
  unfold shortEscape
  split <;> decide

/-- The three kinds of words. -/
theorem escape_cases (c : Char) :
    (∃ x, shortEscape c.toNat = some x ∧ escape c = [backslash, x])
      ∨ (c.toNat ≤ 31 ∧ escape c = backslash :: 'u' :: Hex.print 4 c.toNat)
      ∨ (escape c = [c] ∧ c ≠ quote ∧ c ≠ backslash) := by
  unfold escape
  cases hs : shortEscape c.toNat with
  | some x => exact .inl ⟨x, rfl, rfl⟩
  | none =>
      dsimp only
      split
      · exact .inr (.inl ⟨by assumption, rfl⟩)
      · refine .inr (.inr ⟨rfl, ?_, ?_⟩) <;> rintro rfl <;> cases hs

theorem escape_ne_quote (c : Char) : ∃ x word, escape c = x :: word ∧ x ≠ quote := by
  rcases escape_cases c with ⟨x, -, h⟩ | ⟨-, h⟩ | ⟨h, hq, -⟩
  · exact ⟨backslash, _, h, by decide⟩
  · exact ⟨backslash, _, h, by decide⟩
  · exact ⟨c, _, h, hq⟩

theorem escape_append_inj {c d : Char} {u v : List Char} (h : escape c ++ u = escape d ++ v) :
    c = d ∧ u = v := by
  rcases escape_cases c with ⟨x, hx, hc⟩ | ⟨hle, hc⟩ | ⟨hc, -, hcb⟩ <;>
    rcases escape_cases d with ⟨y, hy, hd⟩ | ⟨hle', hd⟩ | ⟨hd, -, hdb⟩ <;>
    rw [hc, hd] at h <;> simp only [List.cons_append, List.nil_append, List.cons.injEq] at h
  · obtain ⟨-, rfl, huv⟩ := h
    exact ⟨Char.toNat_inj.mp (shortEscape_inj hx hy), huv⟩
  · obtain ⟨-, rfl, -⟩ := h
    exact absurd hx (shortEscape_ne_u _)
  · exact absurd h.1.symm hdb
  · obtain ⟨-, rfl, -⟩ := h
    exact absurd hy (shortEscape_ne_u _)
  · obtain ⟨-, -, h⟩ := h
    obtain ⟨hdigits, huv⟩ := List.append_inj h (by rw [Hex.length_print, Hex.length_print])
    have hmod := Hex.print_eq_print_iff.mp hdigits
    refine ⟨Char.toNat_inj.mp ?_, huv⟩
    omega
  · exact absurd h.1.symm hdb
  · exact absurd h.1 hcb
  · exact absurd h.1 hcb
  · exact h

/-- A text ends at the first quote that is not escaped. -/
theorem escaped_append_inj {s t u v : List Char}
    (h : s.flatMap escape ++ quote :: u = t.flatMap escape ++ quote :: v) : s = t ∧ u = v := by
  induction s generalizing t with
  | nil =>
      cases t with
      | nil => exact ⟨rfl, (List.cons.inj h).2⟩
      | cons d t =>
          obtain ⟨x, word, hd, hx⟩ := escape_ne_quote d
          rw [List.flatMap_cons, hd] at h
          exact absurd (List.cons.inj h).1.symm hx
  | cons c s ih =>
      cases t with
      | nil =>
          obtain ⟨x, word, hc, hx⟩ := escape_ne_quote c
          rw [List.flatMap_cons, hc] at h
          exact absurd (List.cons.inj h).1 hx
      | cons d t =>
          rw [List.flatMap_cons, List.flatMap_cons, List.append_assoc, List.append_assoc] at h
          obtain ⟨rfl, htail⟩ := escape_append_inj h
          obtain ⟨rfl, huv⟩ := ih htail
          exact ⟨rfl, huv⟩

theorem quoted_append_inj {s t : String} {u v : List Char} (h : quoted s ++ u = quoted t ++ v) :
    s = t ∧ u = v := by
  simp only [quoted, List.cons_append, List.append_assoc, List.nil_append, List.cons.injEq,
    true_and] at h
  obtain ⟨hst, huv⟩ := escaped_append_inj h
  exact ⟨String.toList_inj.mp hst, huv⟩

/-! ## Numbers -/

/-- No digit follows. -/
def Stops (u : List Char) : Prop := ∀ c ∈ u.head?, c.isDigit = false

theorem isDigit_of_mem_toDigits {n : Nat} {c : Char} (h : c ∈ Nat.toDigits 10 n) :
    c.isDigit = true :=
  Nat.isDigit_of_mem_toDigits (by decide) (Nat.le_refl 10) h

theorem takeWhile_toDigits (n : Nat) {u : List Char} (hu : Stops u) :
    (Nat.toDigits 10 n ++ u).takeWhile Char.isDigit = Nat.toDigits 10 n := by
  rw [List.takeWhile_append_of_pos (fun c hc => isDigit_of_mem_toDigits hc)]
  cases u with
  | nil => rw [List.takeWhile_nil, List.append_nil]
  | cons c u =>
      rw [List.takeWhile_cons_of_neg (by rw [hu c rfl]; decide), List.append_nil]

theorem toDigits_append_inj {n m : Nat} {u v : List Char} (hu : Stops u) (hv : Stops v)
    (h : Nat.toDigits 10 n ++ u = Nat.toDigits 10 m ++ v) : n = m ∧ u = v := by
  have hdigits : Nat.toDigits 10 n = Nat.toDigits 10 m := by
    rw [← takeWhile_toDigits n hu, h, takeWhile_toDigits m hv]
  refine ⟨?_, ?_⟩
  · have hvalue := congrArg (Nat.ofDigitChars 10 · 0) hdigits
    simpa only [Nat.ofDigitChars_ten_toDigits] using hvalue
  · rw [hdigits] at h
    exact List.append_cancel_left h

theorem toDigits_ne_minus {n : Nat} {u v : List Char} : Nat.toDigits 10 n ++ u ≠ '-' :: v := by
  intro h
  cases hn : Nat.toDigits 10 n with
  | nil => exact Nat.toDigits_ne_nil hn
  | cons c word =>
      have hc : c.isDigit = true := isDigit_of_mem_toDigits (by rw [hn]; exact List.mem_cons_self ..)
      rw [hn] at h
      rw [(List.cons.inj h).1] at hc
      exact absurd hc (by decide)

theorem decimal_append_inj {n m : Int} {u v : List Char} (hu : Stops u) (hv : Stops v)
    (h : decimal n ++ u = decimal m ++ v) : n = m ∧ u = v := by
  unfold decimal at h
  split at h <;> split at h
  · obtain ⟨habs, huv⟩ := toDigits_append_inj hu hv (List.cons.inj h).2
    exact ⟨by omega, huv⟩
  · exact absurd h.symm toDigits_ne_minus
  · exact absurd h toDigits_ne_minus
  · obtain ⟨habs, huv⟩ := toDigits_append_inj hu hv h
    exact ⟨by omega, huv⟩

/-! ## Values -/

/-- What the first character of a value says. -/
inductive Kind where
  | null
  | number
  | text
  | object
  deriving DecidableEq

def kindOf (c : Char) : Kind :=
  if c = quote then .text else if c = openBrace then .object
  else if c = 'n' then .null else .number

def kind : Json → Kind
  | .null => .null
  | .number _ => .number
  | .text _ => .text
  | .object _ => .object

theorem kindOf_isDigit {c : Char} (h : c.isDigit = true) : kindOf c = .number := by
  unfold kindOf
  rw [if_neg, if_neg, if_neg] <;> rintro rfl <;> exact absurd h (by decide)

theorem kindOf_head (j : Json) : ∃ c word, j.chars = c :: word ∧ kindOf c = j.kind := by
  cases j with
  | null => exact ⟨_, _, by rw [chars], rfl⟩
  | text s => exact ⟨_, _, by rw [chars, quoted], rfl⟩
  | object members =>
      cases members with
      | nil => exact ⟨_, _, by rw [chars], rfl⟩
      | cons m ms => exact ⟨_, _, by rw [chars], rfl⟩
  | number n =>
      rw [chars, decimal]
      split
      · exact ⟨_, _, rfl, rfl⟩
      · cases hn : Nat.toDigits 10 n.natAbs with
        | nil => exact absurd hn Nat.toDigits_ne_nil
        | cons c word =>
            exact ⟨c, word, rfl, kindOf_isDigit
              (isDigit_of_mem_toDigits (by rw [hn]; exact List.mem_cons_self ..))⟩

theorem kind_eq_of_append {j k : Json} {u v : List Char} (h : j.chars ++ u = k.chars ++ v) :
    j.kind = k.kind := by
  obtain ⟨c, word, hj, hc⟩ := kindOf_head j
  obtain ⟨d, word', hk, hd⟩ := kindOf_head k
  rw [hj, hk] at h
  rw [← hc, ← hd, (List.cons.inj h).1]

theorem stops_moreChars (members : List (String × Json)) (u : List Char) :
    Stops (moreChars members ++ u) := by
  intro c hc
  cases members with
  | nil =>
      rw [moreChars] at hc
      cases hc
      decide
  | cons m ms =>
      rw [moreChars] at hc
      cases hc
      decide

theorem moreChars_of_object {ms ns : List (String × Json)} {u v : List Char}
    (h : (object ms).chars ++ u = (object ns).chars ++ v) :
    moreChars ms ++ u = moreChars ns ++ v := by
  cases ms with
  | nil =>
      cases ns with
      | nil => rw [List.append_cancel_left h]
      | cons n ns =>
          rw [chars, chars] at h
          exact absurd (List.cons.inj (List.cons.inj h).2).1 (by decide)
  | cons m ms =>
      cases ns with
      | nil =>
          rw [chars, chars] at h
          exact absurd (List.cons.inj (List.cons.inj h).2).1 (by decide)
      | cons n ns =>
          -- the members after the first are printed the same way, after a comma
          rw [chars, chars] at h
          rw [moreChars, moreChars]
          exact congrArg (',' :: ·) (List.cons.inj h).2

mutual

/-- **Unique readability.** A value cancels from the front of a text. -/
theorem chars_append_inj {u v : List Char} (hu : Stops u) (hv : Stops v) :
    ∀ {j k : Json}, j.chars ++ u = k.chars ++ v → j = k ∧ u = v
  | .null, k, h => by
      have hkind := kind_eq_of_append h
      cases k with
      | null => exact ⟨rfl, List.append_cancel_left h⟩
      | number | text | object => cases hkind
  | .number n, k, h => by
      have hkind := kind_eq_of_append h
      cases k with
      | number m =>
          rw [chars, chars] at h
          obtain ⟨rfl, huv⟩ := decimal_append_inj hu hv h
          exact ⟨rfl, huv⟩
      | null | text | object => cases hkind
  | .text s, k, h => by
      have hkind := kind_eq_of_append h
      cases k with
      | text t =>
          rw [chars, chars] at h
          obtain ⟨rfl, huv⟩ := quoted_append_inj h
          exact ⟨rfl, huv⟩
      | null | number | object => cases hkind
  | .object ms, k, h => by
      have hkind := kind_eq_of_append h
      cases k with
      | object ns =>
          obtain ⟨rfl, huv⟩ := moreChars_append_inj (moreChars_of_object h)
          exact ⟨rfl, huv⟩
      | null | number | text => cases hkind

theorem moreChars_append_inj {u v : List Char} :
    ∀ {ms ns : List (String × Json)}, moreChars ms ++ u = moreChars ns ++ v → ms = ns ∧ u = v
  | [], [], h => ⟨rfl, List.append_cancel_left h⟩
  | [], n :: ns, h => by
      rw [moreChars, moreChars] at h
      exact absurd (List.cons.inj h).1 (by decide)
  | m :: ms, [], h => by
      rw [moreChars, moreChars] at h
      exact absurd (List.cons.inj h).1 (by decide)
  | (key, value) :: ms, (key', value') :: ns, h => by
      simp only [moreChars, List.cons_append, List.append_assoc, List.cons.injEq, true_and] at h
      obtain ⟨rfl, hvalue⟩ := quoted_append_inj h
      obtain ⟨rfl, hmore⟩ := chars_append_inj (stops_moreChars ms u) (stops_moreChars ns v)
        (List.cons.inj hvalue).2
      obtain ⟨rfl, huv⟩ := moreChars_append_inj hmore
      exact ⟨rfl, huv⟩

end

/-- Values that are printed alike are the same. -/
theorem compact_inj {j k : Json} : j.compact = k.compact ↔ j = k := by
  refine ⟨fun h => ?_, fun h => by rw [h]⟩
  have hstops : Stops [] := fun c hc => by cases hc
  have hchars : j.chars ++ [] = k.chars ++ [] := by
    rw [String.ofList_inj.mp h]
  exact (chars_append_inj hstops hstops hchars).1

end Json

end TitanX
