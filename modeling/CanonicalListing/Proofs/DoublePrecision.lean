import CanonicalListing.Numeral.Rounding
import Mathlib.Algebra.Order.Floor.Semifield
import Mathlib.Data.Rat.Floor
import Mathlib.Tactic.FieldSimp
import Mathlib.Tactic.Linarith
import Mathlib.Tactic.Positivity
import Mathlib.Tactic.Ring

/-!
# Double precision

A number of double precision has 53 significant bits. The one that is nearest to a given
number is unique, since of two that are equally near only one is an even multiple of the
gap between them. Between two powers of two these numbers are the multiples of one unit,
so there the nearest one is found by rounding a ratio to a whole number of units, and all
that lie below are farther away than the lower of the two powers.
-/

namespace CanonicalListing
namespace Numeral

def IsDouble (r : ℚ) : Prop :=
  ∃ m k : ℤ, |m| < 2 ^ 53 ∧ -1074 ≤ k ∧ k ≤ 971 ∧ r = m * 2 ^ k

/-- The double nearest to a number; of two that are equally near, the even multiple of the gap
between them. -/
structure Nearest (x r : ℚ) : Prop where
  isDouble : IsDouble r
  least : ∀ c, IsDouble c → |x - r| ≤ |x - c|
  even : ∀ c, IsDouble c → c ≠ r → |x - c| = |x - r| → ∃ m : ℤ, r = 2 * m * |r - c|

variable {x r c : ℚ}

theorem Nearest.unique {r' : ℚ} (h : Nearest x r) (h' : Nearest x r') : r = r' := by
  by_contra hne
  have hequal : |x - r'| = |x - r| :=
    le_antisymm (h'.least r h.isDouble) (h.least r' h'.isDouble)
  obtain ⟨m, hm⟩ := h.even r' h'.isDouble (Ne.symm hne) hequal
  obtain ⟨m', hm'⟩ := h'.even r h.isDouble hne hequal.symm
  rw [abs_sub_comm] at hm'
  have hgap : 0 < |r - r'| := abs_pos.mpr (sub_ne_zero.mpr hne)
  -- The gap between the two would be an even multiple of itself.
  have hdifference : r - r' = (2 * (m - m') : ℤ) * |r - r'| := by
    push_cast
    linarith
  have hself : |r - r'| = |(2 * (m - m') : ℤ)| * |r - r'| := by
    conv_lhs => rw [hdifference, abs_mul, abs_abs]
    norm_cast
  have hone : 1 = ((|2 * (m - m')| : ℤ) : ℚ) :=
    mul_right_cancel₀ hgap.ne' ((one_mul _).trans hself)
  have hone : 1 = |2 * (m - m')| := by exact_mod_cast hone
  rw [Int.abs_eq_natAbs] at hone
  omega

/-- No double is passed over. -/
theorem Nearest.le_of_le (h : Nearest x r) (hc : IsDouble c) (hcx : c ≤ x) : c ≤ r := by
  by_contra hlt
  have hleast := h.least c hc
  rw [abs_of_nonneg (by linarith), abs_of_nonneg (by linarith)] at hleast
  linarith

theorem Nearest.ge_of_ge (h : Nearest x r) (hc : IsDouble c) (hxc : x ≤ c) : r ≤ c := by
  by_contra hlt
  have hleast := h.least c hc
  rw [abs_of_nonpos (by linarith), abs_of_nonpos (by linarith)] at hleast
  linarith

theorem isDouble_natCast {n : ℕ} (h : n ≤ 2 ^ 53) : IsDouble n := by
  obtain rfl | hlt := h.eq_or_lt
  · exact ⟨2 ^ 52, 1, by norm_num, by norm_num, by norm_num, by norm_num⟩
  · refine ⟨n, 0, ?_, by norm_num, by norm_num, by simp⟩
    rw [abs_of_nonneg (by positivity)]
    exact_mod_cast hlt

theorem isDouble_half : IsDouble (1 / 2) :=
  ⟨1, -1, by norm_num, by norm_num, by norm_num, by norm_num⟩

/-! ### Whole numbers -/

theorem gap_bounds {q t : ℤ} (h : t ≠ q) :
    |(q : ℚ) - t| ≤ |x - q| + |x - t| ∧ 1 ≤ |(q : ℚ) - t| := by
  constructor
  · rw [abs_sub_comm x]
    exact abs_sub_le _ _ _
  · have hgap : 1 ≤ |q - t| := Int.one_le_abs (sub_ne_zero.mpr h.symm)
    exact_mod_cast hgap

/-- What is within one half is nearest. -/
theorem abs_sub_le_of_half {q : ℤ} (h : |x - q| ≤ 1 / 2) (t : ℤ) : |x - q| ≤ |x - t| := by
  obtain rfl | hne := eq_or_ne t q
  · exact le_rfl
  · obtain ⟨htriangle, hgap⟩ := gap_bounds (x := x) hne
    linarith

/-- Two whole numbers that are equally near are next to each other, one half away. -/
theorem tie_of_half {q t : ℤ} (h : |x - q| ≤ 1 / 2) (hne : t ≠ q) (heq : |x - t| = |x - q|) :
    |(q : ℚ) - t| = 1 ∧ |x - q| = 1 / 2 := by
  obtain ⟨htriangle, hgap⟩ := gap_bounds (x := x) hne
  exact ⟨by linarith, by linarith⟩

theorem roundHalfEven_bounds (n : ℕ) {d : ℕ} (hd : 0 < d) :
    2 * n ≤ (2 * roundHalfEven n d + 1) * d ∧ 2 * roundHalfEven n d * d ≤ 2 * n + d ∧
      (2 * n = (2 * roundHalfEven n d + 1) * d ∨ 2 * roundHalfEven n d * d = 2 * n + d →
        roundHalfEven n d % 2 = 0) := by
  have hn : n = n / d * d + n % d := (Nat.div_add_mod' n d).symm
  have hm : n % d < d := Nat.mod_lt n hd
  rw [roundHalfEven]
  generalize n / d = k at *
  generalize n % d = m at *
  subst hn
  split_ifs with hup
  · have htwice : 2 * (k + 1) * d = 2 * (k * d) + 2 * d := by ring
    have hodd : (2 * (k + 1) + 1) * d = 2 * (k * d) + 3 * d := by ring
    rw [htwice, hodd]
    omega
  · have htwice : 2 * k * d = 2 * (k * d) := by ring
    have hodd : (2 * k + 1) * d = 2 * (k * d) + d := by ring
    rw [htwice, hodd]
    omega

/-- A ratio is rounded to a nearest whole number, and to an even one if there are two. -/
theorem roundHalfEven_half (n : ℕ) {d : ℕ} (hd : 0 < d) :
    |(n / d : ℚ) - roundHalfEven n d| ≤ 1 / 2 ∧
      (|(n / d : ℚ) - roundHalfEven n d| = 1 / 2 → roundHalfEven n d % 2 = 0) := by
  obtain ⟨hlo, hhi, heven⟩ := roundHalfEven_bounds n hd
  generalize roundHalfEven n d = q at *
  have hd' : (0 : ℚ) < d := by exact_mod_cast hd
  have hdifference : (n / d : ℚ) - q = (2 * n - 2 * q * d) / (2 * d) := by
    field_simp
  rw [hdifference, abs_div, abs_of_pos (by positivity : (0 : ℚ) < 2 * d),
    div_le_div_iff₀ (by positivity) two_pos, div_eq_div_iff (by positivity) two_ne_zero]
  have hlo' : (2 * n : ℚ) ≤ (2 * q + 1) * d := by exact_mod_cast hlo
  have hhi' : (2 * q * d : ℚ) ≤ 2 * n + d := by exact_mod_cast hhi
  constructor
  · have habs : |(2 * n - 2 * q * d : ℚ)| ≤ d := abs_le.mpr ⟨by linarith, by linarith⟩
    linarith
  · intro htie
    apply heven
    have habs : |(2 * n - 2 * q * d : ℚ)| = d := by linarith
    rcases (abs_eq hd'.le).mp habs with h | h
    · have hlow : (2 * n : ℚ) = (2 * q + 1) * d := by linarith
      exact .inl (by exact_mod_cast hlow)
    · have hhigh : (2 * q * d : ℚ) = 2 * n + d := by linarith
      exact .inr (by exact_mod_cast hhigh)

/-! ### Units -/

/-- From a power of two on, a double is a multiple of the unit. -/
theorem IsDouble.exists_units (h : IsDouble c) {k : ℤ} (hlo : 2 ^ (k + 52) ≤ c) :
    ∃ t : ℤ, c = t * 2 ^ k := by
  obtain ⟨m, e, hm, -, -, rfl⟩ := h
  have hke : k ≤ e := by
    by_contra hlt
    have hm' : (m : ℚ) < 2 ^ 53 := by exact_mod_cast (le_abs_self m).trans_lt hm
    have hpower : (2 : ℚ) ^ (e + 53) ≤ 2 ^ (k + 52) :=
      zpow_le_zpow_right₀ one_le_two (by omega)
    have hlt : (m : ℚ) * 2 ^ e < 2 ^ (e + 53) := by
      rw [zpow_add₀ two_ne_zero, mul_comm]
      exact mul_lt_mul_of_pos_left (by exact_mod_cast hm') (zpow_pos two_pos e)
    linarith
  obtain ⟨j, rfl⟩ := Int.le.dest hke
  refine ⟨m * 2 ^ j, ?_⟩
  rw [zpow_add₀ two_ne_zero, zpow_natCast]
  push_cast
  ring

section
variable {q k : ℤ}

theorem abs_sub_units (x : ℚ) (t k : ℤ) : |x - t * 2 ^ k| = |x / 2 ^ k - t| * 2 ^ k := by
  have hunit : (0 : ℚ) < 2 ^ k := zpow_pos two_pos k
  have hscaled : x - t * 2 ^ k = (x / 2 ^ k - t) * 2 ^ k := by field_simp
  rw [hscaled, abs_mul, abs_of_pos hunit]

theorem abs_sub_units_le (hq : |x / 2 ^ k - q| ≤ 1 / 2) (t : ℤ) :
    |x - q * 2 ^ k| ≤ |x - t * 2 ^ k| := by
  rw [abs_sub_units, abs_sub_units]
  exact mul_le_mul_of_nonneg_right (abs_sub_le_of_half hq t) (zpow_pos two_pos k).le

/-- What lies below the lower power of two is farther away than that power. -/
theorem abs_sub_units_lt (hq : |x / 2 ^ k - q| ≤ 1 / 2) (hlo : 2 ^ (k + 52) ≤ x)
    (hc : c < 2 ^ (k + 52)) : |x - q * 2 ^ k| < |x - c| := by
  have hpower : (2 : ℚ) ^ (k + 52) = (2 ^ 52 : ℤ) * 2 ^ k := by
    rw [zpow_add₀ two_ne_zero, mul_comm]
    norm_cast
  calc |x - q * 2 ^ k|
    _ ≤ |x - 2 ^ (k + 52)| := hpower ▸ abs_sub_units_le hq (2 ^ 52)
    _ = x - 2 ^ (k + 52) := abs_of_nonneg (sub_nonneg.mpr hlo)
    _ < x - c := sub_lt_sub_left hc x
    _ = |x - c| := (abs_of_nonneg (by linarith)).symm

theorem isDouble_units (hq : |x / 2 ^ k - q| ≤ 1 / 2) (hlo : 2 ^ (k + 52) ≤ x)
    (hhi : x < 2 ^ (k + 53)) (hk : -1074 ≤ k ∧ k ≤ 970) : IsDouble (q * 2 ^ k) := by
  have hunit : (0 : ℚ) < 2 ^ k := zpow_pos two_pos k
  obtain ⟨hq₁, hq₂⟩ := abs_le.mp hq
  have hlo' : (2 : ℚ) ^ 52 ≤ x / 2 ^ k := by
    rw [le_div_iff₀ hunit]
    rwa [zpow_add₀ two_ne_zero, mul_comm] at hlo
  have hhi' : x / 2 ^ k < (2 : ℚ) ^ 53 := by
    rw [div_lt_iff₀ hunit]
    rwa [zpow_add₀ two_ne_zero, mul_comm] at hhi
  have hpos : (0 : ℚ) < q := by linarith
  have htop : (q : ℚ) < 2 ^ 53 + 1 := by linarith
  have hpos : 0 < q := by exact_mod_cast hpos
  have htop : q < 2 ^ 53 + 1 := by exact_mod_cast htop
  -- Rounding up may reach the next power of two, which has a larger unit.
  by_cases hq : q = 2 ^ 53
  · refine ⟨2 ^ 52, k + 1, by norm_num, by omega, by omega, ?_⟩
    rw [hq, zpow_add_one₀ two_ne_zero]
    push_cast
    ring
  · refine ⟨q, k, ?_, by omega, by omega, rfl⟩
    rw [abs_of_pos hpos]
    omega

/-- Between two powers of two, rounding to whole units finds the nearest double. -/
theorem nearest_of_units (hq : |x / 2 ^ k - q| ≤ 1 / 2)
    (heven : |x / 2 ^ k - q| = 1 / 2 → Even q) (hlo : 2 ^ (k + 52) ≤ x) (hhi : x < 2 ^ (k + 53))
    (hk : -1074 ≤ k ∧ k ≤ 970) : Nearest x (q * 2 ^ k) := by
  refine ⟨isDouble_units hq hlo hhi hk, fun c hc => ?_, fun c hc hne heq => ?_⟩
  · by_cases hlow : c < 2 ^ (k + 52)
    · exact (abs_sub_units_lt hq hlo hlow).le
    · obtain ⟨t, rfl⟩ := hc.exists_units (not_lt.mp hlow)
      exact abs_sub_units_le hq t
  · have hhigh : ¬ c < 2 ^ (k + 52) := fun hlow => (abs_sub_units_lt hq hlo hlow).ne' heq
    obtain ⟨t, rfl⟩ := hc.exists_units (not_lt.mp hhigh)
    have hunit : (0 : ℚ) < 2 ^ k := zpow_pos two_pos k
    rw [abs_sub_units, abs_sub_units] at heq
    have hne' : t ≠ q := fun h => hne (by rw [h])
    obtain ⟨hgap, hhalf⟩ := tie_of_half hq hne' (mul_right_cancel₀ hunit.ne' heq)
    obtain ⟨m, hm⟩ := heven hhalf
    refine ⟨m, ?_⟩
    rw [← sub_mul, abs_mul, hgap, one_mul, abs_of_pos hunit, hm]
    push_cast
    ring

end

/-! ### Ratios -/

namespace BinaryFraction

def toRat (y : BinaryFraction) : ℚ := y.significand / 2 ^ y.scale

theorem between_iff {y : BinaryFraction} {low high : ℕ} :
    y.between low high = true ↔ (low : ℚ) ≤ y.toRat ∧ y.toRat ≤ high := by
  have hscale : (0 : ℚ) < 2 ^ y.scale := by positivity
  rw [between, Bool.and_eq_true, decide_eq_true_iff, decide_eq_true_iff, Nat.shiftLeft_eq,
    Nat.shiftLeft_eq, toRat, le_div_iff₀ hscale, div_le_iff₀ hscale]
  norm_cast

theorem whole_eq (y : BinaryFraction) : y.whole = ⌊y.toRat⌋₊ := by
  rw [whole, toRat, Nat.shiftRight_eq_div_pow]
  have hfloor := Nat.floor_div_eq_div (K := ℚ) y.significand (2 ^ y.scale)
  push_cast at hfloor
  exact hfloor.symm

variable {n d high : ℕ}

theorem lt_two_pow_bitLength (k : ℕ) : k < 2 ^ bitLength k := by
  unfold bitLength
  split_ifs with h
  · simp [h]
  · exact Nat.lt_log2_self

theorem two_pow_bitLength_le {k : ℕ} (h : k ≠ 0) : 2 ^ bitLength k ≤ 2 * k := by
  rw [bitLength, if_neg h, Nat.pow_succ', Nat.mul_le_mul_left_iff two_pos]
  exact Nat.log2_self_le h

/-- The ratio, in units of the last place that is kept. -/
theorem ofRatio_units (n : ℕ) (hd : 0 < d) :
    |(n / d : ℚ) * 2 ^ (ofRatio n d).scale - (ofRatio n d).significand| ≤ 1 / 2 ∧
      (|(n / d : ℚ) * 2 ^ (ofRatio n d).scale - (ofRatio n d).significand| = 1 / 2 →
        (ofRatio n d).significand % 2 = 0) := by
  have hsignificand : (ofRatio n d).significand =
      roundHalfEven (n * 2 ^ (ofRatio n d).scale) d := by
    rw [← Nat.shiftLeft_eq]
    rfl
  have hhalf := roundHalfEven_half (n * 2 ^ (ofRatio n d).scale) hd
  push_cast at hhalf
  rwa [← div_mul_eq_mul_div, ← hsignificand] at hhalf

/-- Rounding moves a ratio by no more than one half. -/
theorem ofRatio_half (n : ℕ) (hd : 0 < d) : |(n / d : ℚ) - (ofRatio n d).toRat| ≤ 1 / 2 := by
  obtain ⟨hunits, -⟩ := ofRatio_units n hd
  have hscale : (1 : ℚ) ≤ 2 ^ (ofRatio n d).scale := one_le_pow₀ one_le_two
  have hdifference : (n / d : ℚ) * 2 ^ (ofRatio n d).scale - (ofRatio n d).significand =
      (n / d - (ofRatio n d).toRat) * 2 ^ (ofRatio n d).scale := by
    rw [toRat]
    field_simp
  rw [hdifference, abs_mul, abs_of_pos (zero_lt_one.trans_le hscale)] at hunits
  exact (le_mul_of_one_le_right (abs_nonneg _) hscale).trans hunits

/-- A ratio lies between two powers of two, which its whole part tells. -/
theorem bitLength_bounds (n d : ℕ) (hlo : (1 / 2 : ℚ) ≤ n / d) :
    (n / d : ℚ) < 2 ^ bitLength (n / d) ∧ (2 : ℚ) ^ bitLength (n / d) ≤ 2 * (n / d) := by
  have hfloor : ⌊(n / d : ℚ)⌋₊ = n / d := Nat.floor_div_eq_div n d
  constructor
  · calc (n / d : ℚ)
      _ < (n / d : ℕ) + 1 := hfloor ▸ Nat.lt_floor_add_one _
      _ ≤ 2 ^ bitLength (n / d) := by exact_mod_cast lt_two_pow_bitLength (n / d)
  · obtain hzero | hne := eq_or_ne (n / d) 0
    · rw [hzero]
      norm_num [bitLength]
      linarith
    · calc (2 : ℚ) ^ bitLength (n / d)
        _ ≤ 2 * (n / d : ℕ) := by exact_mod_cast two_pow_bitLength_le hne
        _ ≤ 2 * (n / d) :=
          mul_le_mul_of_nonneg_left (hfloor ▸ Nat.floor_le (by positivity)) zero_le_two

/-- Places after the point and bits in front of it that make up the precision together. -/
theorem nearest_of_scale {q s l : ℕ} (hprecision : s + l = 53)
    (hhalf : |x * 2 ^ s - q| ≤ 1 / 2) (heven : |x * 2 ^ s - q| = 1 / 2 → q % 2 = 0)
    (hlo : 2 ^ l ≤ 2 * x) (hhi : x < 2 ^ l) : Nearest x (q / 2 ^ s) := by
  have hunit : x / 2 ^ (-(s : ℤ)) = x * 2 ^ s := by
    rw [zpow_neg, zpow_natCast, div_inv_eq_mul]
  have hupper : (2 : ℚ) ^ (-(s : ℤ) + 53) = 2 ^ l := by
    rw [← zpow_natCast]
    congr 1
    omega
  have hlower : (2 : ℚ) ^ (-(s : ℤ) + 52) * 2 = 2 ^ l := by
    rw [← hupper, ← zpow_add_one₀ two_ne_zero, add_assoc]
    norm_num
  have hnearest : Nearest x ((q : ℤ) * 2 ^ (-(s : ℤ))) := by
    refine nearest_of_units ?_ ?_ ?_ ?_ ⟨by omega, by omega⟩
    · rw [hunit]
      exact_mod_cast hhalf
    · rw [hunit, Int.even_coe_nat, Nat.even_iff]
      exact_mod_cast heven
    · linarith
    · rwa [hupper]
  rwa [Int.cast_natCast, zpow_neg, zpow_natCast, ← div_eq_mul_inv] at hnearest

theorem ofRatio_nearest (hd : 0 < d) (hlo : (1 / 2 : ℚ) ≤ n / d) (hhi : (n / d : ℚ) < 2 ^ 53) :
    Nearest (n / d) (ofRatio n d).toRat := by
  obtain ⟨hunits, htie⟩ := ofRatio_units n hd
  obtain ⟨hupper, hlower⟩ := bitLength_bounds n d hlo
  have hshort : (2 : ℚ) ^ bitLength (n / d) < 2 ^ 54 := by linarith
  have hlength : bitLength (n / d) < 54 := (pow_lt_pow_iff_right₀ one_lt_two).mp hshort
  have hscale : (ofRatio n d).scale = 53 - bitLength (n / d) := rfl
  exact nearest_of_scale (by omega) hunits htie hlower hupper

end BinaryFraction

/-- The whole part of a number in the range. -/
def pick (high : ℕ) (r : ℚ) : Option ℕ := if 1 ≤ r ∧ r ≤ high then some ⌊r⌋₊ else none

theorem pick_of_lt {high : ℕ} (h : r < 1) : pick high r = none :=
  if_neg fun hr => absurd hr.1 (not_le.mpr h)

theorem pick_of_gt {high : ℕ} (h : high < r) : pick high r = none :=
  if_neg fun hr => absurd hr.2 (not_le.mpr h)

/-- Rounding a ratio picks what the nearest double picks; out of the range both pick nothing. -/
theorem BinaryFraction.pick_ofRatio {n d high : ℕ} (hd : 0 < d) (hhigh : high < 2 ^ 53)
    (h : Nearest (n / d) r) : pick high (ofRatio n d).toRat = pick high r := by
  have hhalf := abs_le.mp (ofRatio_half n hd)
  have hhigh' : (high : ℚ) + 1 ≤ 2 ^ 53 := by exact_mod_cast hhigh
  obtain hsmall | hlo := lt_or_ge (n / d : ℚ) (1 / 2)
  · have hr := h.ge_of_ge isDouble_half hsmall.le
    rw [pick_of_lt (by linarith), pick_of_lt (by linarith)]
  obtain hhi | hlarge := lt_or_ge (n / d : ℚ) (2 ^ 53)
  · rw [(ofRatio_nearest hd hlo hhi).unique h]
  · have hr := h.le_of_le (isDouble_natCast le_rfl) (by exact_mod_cast hlarge)
    push_cast at hr
    rw [pick_of_gt (by linarith), pick_of_gt (by linarith)]

theorem BinaryFraction.pick_toRat (y : BinaryFraction) (high : ℕ) :
    (if y.between 1 high then some y.whole else none) = pick high y.toRat := by
  simp only [between_iff, whole_eq, pick, Nat.cast_one]

end Numeral
end CanonicalListing
