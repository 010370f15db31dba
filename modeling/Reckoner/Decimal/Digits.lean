import Reckoner.Number.Dyadic

/-!
# Decimal digits of large numbers

The digits of a number are found by dividing it in the middle: the halves have half as many digits
each, down to single ones. For a number of many digits that takes far fewer steps than taking one
digit after the other from its end. The result is the same (`digits_eq_toDigits`).
-/

set_option autoImplicit false

namespace Reckoner

namespace Decimal

/-- The number of digits on a level. -/
def levelWidth (level : Nat) : Nat :=
  Nat.pow 2 level

/-- The least number that has more digits than a level. -/
def levelBound (level : Nat) : Nat :=
  Nat.pow 10 (levelWidth level)

/-- All the digits of a number on a level, with zeros in front, and then the given ones. -/
def lowDigits : Nat → Nat → List Char → List Char
  | 0, n, tail => Nat.digitChar n :: tail
  | level + 1, n, tail =>
    let half := levelBound level
    lowDigits level (n / half) (lowDigits level (n % half) tail)

/-- The digits of a number below the bound of a level, without zeros in front, and then the given
ones. -/
def highDigits : Nat → Nat → List Char → List Char
  | 0, n, tail => Nat.digitChar n :: tail
  | level + 1, n, tail =>
    let half := levelBound level
    if n < half then highDigits level n tail
    else highDigits level (n / half) (lowDigits level (n % half) tail)

/-- The decimal digits of a number, zero having one. -/
def digits (n : Nat) : List Char :=
  highDigits (bitLength n).log2 n []

/-! ### The same digits -/

/-- The bound of a level is the square of the one below. -/
theorem levelBound_succ (level : Nat) :
    levelBound (level + 1) = levelBound level * levelBound level := by
  simp only [levelBound, levelWidth, Nat.pow_eq]
  rw [Nat.pow_succ, Nat.mul_two, Nat.pow_add]

/-- The bound of a level is positive. -/
theorem levelBound_pos (level : Nat) : 0 < levelBound level :=
  Nat.pow_pos (by decide)

/-- Further digits stand behind. -/
theorem lowDigits_append (level n : Nat) (tail : List Char) :
    lowDigits level n tail = lowDigits level n [] ++ tail := by
  induction level generalizing n tail with
  | zero => rfl
  | succ level ih =>
    simp only [lowDigits]
    rw [ih _ (lowDigits level (n % levelBound level) tail), ih _ tail,
      ih _ (lowDigits level (n % levelBound level) []), List.append_assoc]

/-- The digits of a number in front of those of a level are its own. -/
theorem toDigits_append_lowDigits (level high low : Nat) (hhigh : 0 < high)
    (hlow : low < levelBound level) :
    Nat.toDigits 10 high ++ lowDigits level low [] =
      Nat.toDigits 10 (high * levelBound level + low) := by
  induction level generalizing high low with
  | zero =>
    have hten : levelBound 0 = 10 := rfl
    rw [hten] at hlow ⊢
    rw [lowDigits, ← Nat.toDigits_of_lt_base hlow,
      Nat.toDigits_append_toDigits (by decide) hhigh hlow, Nat.mul_comm]
  | succ level ih =>
    have hpos := levelBound_pos level
    rw [levelBound_succ] at hlow ⊢
    have hquotient : low / levelBound level < levelBound level := Nat.div_lt_of_lt_mul hlow
    have hjoined : high * levelBound level + low / levelBound level > 0 :=
      Nat.add_pos_left (Nat.mul_pos hhigh hpos) _
    simp only [lowDigits]
    rw [lowDigits_append, ← List.append_assoc, ih high _ hhigh hquotient,
      ih _ _ hjoined (Nat.mod_lt low hpos)]
    congr 1
    rw [Nat.add_mul, Nat.mul_assoc, Nat.add_assoc, Nat.mul_comm (low / _), Nat.div_add_mod]

/-- Dividing in the middle gives the digits of a number below the bound of a level. -/
theorem highDigits_eq (level n : Nat) (tail : List Char) (hn : n < levelBound level) :
    highDigits level n tail = Nat.toDigits 10 n ++ tail := by
  induction level generalizing n tail with
  | zero =>
    have hten : n < 10 := hn
    rw [highDigits, Nat.toDigits_of_lt_base hten, List.singleton_append]
  | succ level ih =>
    have hpos := levelBound_pos level
    simp only [highDigits]
    split
    · rename_i hsmall
      exact ih n tail hsmall
    · rename_i hlarge
      have hquotient : n / levelBound level < levelBound level :=
        Nat.div_lt_of_lt_mul (by rwa [levelBound_succ] at hn)
      have hhigh : 0 < n / levelBound level := Nat.div_pos (by omega) hpos
      rw [ih _ _ hquotient, lowDigits_append, ← List.append_assoc,
        toDigits_append_lowDigits level _ _ hhigh (Nat.mod_lt n hpos),
        Nat.mul_comm, Nat.div_add_mod]

/-- A number lies below the bound of the level that its length asks for. -/
theorem lt_levelBound (n : Nat) : n < levelBound (bitLength n).log2 := by
  have hlength : bitLength n ≤ 2 * levelWidth (bitLength n).log2 := by
    have := Nat.lt_log2_self (n := bitLength n)
    simp only [levelWidth, Nat.pow_eq]
    rw [Nat.pow_succ] at this
    omega
  calc n < Nat.pow 2 (bitLength n) := lt_two_pow_bitLength n
    _ ≤ 2 ^ (2 * levelWidth (bitLength n).log2) := Nat.pow_le_pow_right (by decide) hlength
    _ = 4 ^ levelWidth (bitLength n).log2 := by rw [Nat.pow_mul]
    _ ≤ levelBound (bitLength n).log2 := Nat.pow_le_pow_left (by decide) _

/-- The digits are the ordinary ones. -/
theorem digits_eq_toDigits (n : Nat) : digits n = Nat.toDigits 10 n := by
  rw [digits, highDigits_eq _ _ _ (lt_levelBound n), List.append_nil]

end Decimal

end Reckoner
