/-!
# Rounding a ratio to a binary fraction

A positive ratio is rounded to the nearest number of 53 significant bits, and a tie
goes to the even significand. The number is kept as a significand over a power of
two, so that comparing it with a whole number is exact.
-/

namespace CanonicalListing
namespace Numeral

/-- The quotient rounded to a whole number; a remainder of exactly one half goes to the even one. -/
def roundHalfEven (n d : Nat) : Nat :=
  let quotient := n / d
  let twice := 2 * (n % d)
  if d < twice ∨ (d = twice ∧ quotient % 2 = 1) then quotient + 1 else quotient

/-- The number `significand / 2 ^ scale`. -/
structure BinaryFraction where
  significand : Nat
  scale : Nat
  deriving DecidableEq, Repr

namespace BinaryFraction

def precision : Nat := 53

def bitLength (n : Nat) : Nat := if n = 0 then 0 else n.log2 + 1

/-- The ratio at the given precision, for ratios from one half up to `2 ^ precision`. A larger one
is rounded to a whole number, and a smaller one keeps `precision` places after the point. -/
def ofRatio (n d : Nat) : BinaryFraction :=
  let scale := precision - bitLength (n / d)
  ⟨roundHalfEven (n <<< scale) d, scale⟩

def whole (x : BinaryFraction) : Nat := x.significand >>> x.scale

/-- At least `low` and at most `high`; the part after the point counts. -/
def between (low high : Nat) (x : BinaryFraction) : Bool :=
  low <<< x.scale ≤ x.significand && x.significand ≤ high <<< x.scale

end BinaryFraction

theorem roundHalfEven_mul_right (k : Nat) {d : Nat} (hd : 0 < d) : roundHalfEven (k * d) d = k := by
  have hq : k * d / d = k := Nat.mul_div_cancel k hd
  have hr : k * d % d = 0 := Nat.mul_mod_left k d
  simp only [roundHalfEven, hq, hr]
  rw [if_neg]
  omega

/-- A whole number is its own rounding. -/
theorem BinaryFraction.ofRatio_mul_right (k : Nat) {d : Nat} (hd : 0 < d) :
    ofRatio (k * d) d = ⟨k <<< (precision - bitLength k), precision - bitLength k⟩ := by
  simp only [ofRatio, Nat.mul_div_cancel k hd, Nat.shiftLeft_eq]
  rw [Nat.mul_right_comm, roundHalfEven_mul_right _ hd]

end Numeral
end CanonicalListing
