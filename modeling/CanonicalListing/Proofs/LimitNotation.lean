import CanonicalListing.Proofs.DoublePrecision
import CanonicalListing.Proofs.NumeralGrammar
import CanonicalListing.Settings

/-!
# The notation of a limit

A count is the whole part of the double that is nearest to a numeral, if this lies in the
range. The shortcuts for extreme exponents only answer for numbers that are far above the
range or far below one. A whole number in the range has a double of its own, and one
above it is not rounded into it, so the limit depends on the value of the literal
alone and on none of the ways to write it.
-/

namespace CanonicalListing
namespace Numeral

open BinaryFraction

/-! ### Counts -/

/-- The powers of ten with the positive exponents above, and with the negative ones below. -/
theorem mul_zpow_eq_ratio (n : ℕ) (e : ℤ) :
    (n * 10 ^ e : ℚ) = ((n * 10 ^ e.toNat : ℕ) : ℚ) / ((10 ^ (-e).toNat : ℕ) : ℚ) := by
  push_cast
  rw [mul_div_assoc, ← zpow_natCast, ← zpow_natCast, ← zpow_sub₀ (by norm_num)]
  congr 2
  omega

/-- A number far above the range is rounded to one above it. -/
theorem pick_ofRatio_of_gt {n d high : ℕ} (hd : 0 < d) (h : (high : ℚ) + 1 ≤ n / d) :
    pick high (ofRatio n d).toRat = none := by
  have hhalf := abs_le.mp (ofRatio_half n hd)
  exact pick_of_gt (by linarith)

theorem pick_ofRatio_of_lt {n d high : ℕ} (hd : 0 < d) (h : (n / d : ℚ) < 1 / 2) :
    pick high (ofRatio n d).toRat = none := by
  have hhalf := abs_le.mp (ofRatio_half n hd)
  exact pick_of_lt (by linarith)

theorem lt_ten_pow {n k : ℕ} (h : n.log2 < k) : n < 10 ^ k :=
  calc n
    _ < 2 ^ (n.log2 + 1) := Nat.lt_log2_self
    _ ≤ 2 ^ k := Nat.pow_le_pow_right two_pos h
    _ ≤ 10 ^ k := Nat.pow_le_pow_left (by omega) k

/-- The shortcuts agree with rounding. -/
theorem count?_scientific (high n : ℕ) (e : ℤ) : count? high (scientific false n e) =
    pick high (ofRatio (n * 10 ^ e.toNat) (10 ^ (-e).toNat)).toRat := by
  have hd : 0 < 10 ^ (-e).toNat := by positivity
  simp only [count?, Nat.pow_eq, BinaryFraction.pick_toRat]
  refine ite_eq_right_iff.mpr ?_
  rintro (hlarge | hsmall)
  · obtain rfl | hn := Nat.eq_zero_or_pos n
    · exact (pick_ofRatio_of_lt hd (by simp)).symm
    · refine (pick_ofRatio_of_gt hd ?_).symm
      have hlt : high < 10 ^ e.toNat := lt_ten_pow (by omega)
      have hle : high + 1 ≤ n * 10 ^ e.toNat := hlt.trans_le (Nat.le_mul_of_pos_left _ hn)
      have hone : (-e).toNat = 0 := by omega
      rw [hone, pow_zero, Nat.cast_one, div_one]
      exact_mod_cast hle
  · refine (pick_ofRatio_of_lt hd ?_).symm
    have hlt : 2 * n < 10 ^ (-e).toNat := by
      obtain ⟨k, hk⟩ : ∃ k, (-e).toNat = k + 1 := ⟨(-e).toNat - 1, by omega⟩
      have hn : n < 10 ^ k := lt_ten_pow (by omega)
      rw [hk, Nat.pow_succ]
      omega
    have hone : e.toNat = 0 := by omega
    rw [hone, pow_zero, mul_one, div_lt_div_iff₀ (by exact_mod_cast hd) two_pos]
    norm_cast
    omega

theorem count?_of_infinite {numeral : Numeral} (high : ℕ) (h : numeral.value? = none) :
    numeral.count? high = none := by
  cases numeral with
  | infinity negative => rfl
  | scientific negative n e => cases h

/-- A finite numeral counts nothing below zero, and otherwise as much as a ratio of its value. -/
theorem count?_cases {numeral : Numeral} {x : ℚ} (high : ℕ) (h : numeral.value? = some x) :
    (x ≤ 0 ∧ numeral.count? high = none) ∨
      ∃ n d : ℕ, 0 < d ∧ x = n / d ∧ numeral.count? high = pick high (ofRatio n d).toRat := by
  cases numeral with
  | infinity negative => cases h
  | scientific negative n e =>
    obtain rfl := Option.some.inj h
    cases negative with
    | false => exact .inr ⟨_, _, by positivity, mul_zpow_eq_ratio n e, count?_scientific high n e⟩
    | true =>
      have hnonneg : (0 : ℚ) ≤ n * 10 ^ e :=
        mul_nonneg (Nat.cast_nonneg n) (zpow_nonneg (by norm_num) e)
      exact .inl ⟨neg_nonpos.mpr hnonneg, rfl⟩

/-- A finite numeral counts as much as the double nearest to its value. -/
theorem count?_of_nearest {high : ℕ} (hhigh : high < 2 ^ 53) {numeral : Numeral} {x r : ℚ}
    (hvalue : numeral.value? = some x) (hr : Nearest x r) :
    numeral.count? high = pick high r := by
  obtain ⟨hx, hcount⟩ | ⟨n, d, hd, rfl, hcount⟩ := count?_cases high hvalue
  · have hzero : IsDouble (0 : ℕ) := isDouble_natCast (Nat.zero_le _)
    have hle : r ≤ (0 : ℕ) := hr.ge_of_ge hzero (by exact_mod_cast hx)
    rw [hcount, pick_of_lt (hle.trans_lt (by norm_num))]
  · rw [hcount, pick_ofRatio hd hhigh hr]

theorem toRat_ofRatio_mul_right (k : ℕ) {d : ℕ} (hd : 0 < d) : (ofRatio (k * d) d).toRat = k := by
  rw [ofRatio_mul_right k hd, toRat, Nat.shiftLeft_eq]
  push_cast
  field_simp

/-- A whole number counts as itself, whatever the way to write it. -/
theorem count?_of_integer {numeral : Numeral} {v : ℤ} (high : ℕ)
    (hvalue : numeral.value? = some (v : ℚ)) :
    numeral.count? high = if 1 ≤ v ∧ v ≤ high then some v.toNat else none := by
  obtain ⟨hv, hcount⟩ | ⟨n, d, hd, hv, hcount⟩ := count?_cases high hvalue
  · have hle : v ≤ 0 := by exact_mod_cast hv
    rw [hcount, if_neg (by omega)]
  · have hnonneg : 0 ≤ v := by
      have : (0 : ℚ) ≤ v := by rw [hv]; positivity
      exact_mod_cast this
    lift v to ℕ using hnonneg with k
    rw [eq_div_iff (by positivity)] at hv
    obtain rfl : k * d = n := by exact_mod_cast hv
    rw [hcount, toRat_ofRatio_mul_right k hd, pick, Nat.floor_natCast]
    norm_cast

theorem pick_bounds {high n : ℕ} {r : ℚ} (h : pick high r = some n) : 1 ≤ n ∧ n ≤ high := by
  rw [pick, Option.ite_none_right_eq_some, Option.some.injEq] at h
  obtain ⟨⟨hlo, hhi⟩, rfl⟩ := h
  exact ⟨Nat.le_floor (by exact_mod_cast hlo), Nat.floor_le_of_le hhi⟩

theorem count?_bounds {high n : ℕ} {numeral : Numeral} (h : numeral.count? high = some n) :
    1 ≤ n ∧ n ≤ high := by
  cases hvalue : numeral.value? with
  | none =>
    rw [count?_of_infinite high hvalue] at h
    cases h
  | some x =>
    obtain ⟨-, hcount⟩ | ⟨_, _, -, -, hcount⟩ := count?_cases high hvalue
    · rw [hcount] at h
      cases h
    · exact pick_bounds (hcount ▸ h)

end Numeral

namespace Settings

open Numeral Text

variable {text : String}

theorem limitOf_bounds (value? : Option String) :
    1 ≤ limitOf value? ∧ limitOf value? ≤ maximalLimit := by
  rw [limitOf]
  cases h : (value?.bind read?).bind (count? maximalLimit) with
  | none => decide
  | some n =>
    obtain ⟨numeral, -, hcount⟩ := Option.bind_eq_some_iff.mp h
    exact count?_bounds hcount

theorem limitOf_of_literal {x : ℚ} (h : Literal (trimChars text.toList) x) :
    ∃ numeral : Numeral, numeral.value? = some x ∧
      limitOf (some text) = (numeral.count? maximalLimit).getD defaultLimit := by
  have hread : (read? text).bind value? = some x := (ofTrimmed?_bind_value?_iff h.ne_nil).mpr h
  obtain ⟨numeral, hnumeral, hvalue⟩ := Option.bind_eq_some_iff.mp hread
  exact ⟨numeral, hvalue, by rw [limitOf, Option.bind_some, hnumeral, Option.bind_some]⟩

theorem limitOf_of_integer {v : ℤ} (h : Literal (trimChars text.toList) v) :
    (limitOf (some text) : ℤ) = if 1 ≤ v ∧ v ≤ 1000000 then v else 200 := by
  obtain ⟨numeral, hvalue, hlimit⟩ := limitOf_of_literal h
  rw [hlimit, count?_of_integer maximalLimit hvalue]
  have hmaximal : (maximalLimit : ℤ) = 1000000 := rfl
  rw [hmaximal]
  split_ifs with hrange
  · exact Int.toNat_of_nonneg (by omega)
  · rfl

theorem limitOf_of_nearest {x r : ℚ} (h : Literal (trimChars text.toList) x) (hr : Nearest x r) :
    (limitOf (some text) : ℤ) = if 1 ≤ r ∧ r ≤ 1000000 then ⌊r⌋ else 200 := by
  obtain ⟨numeral, hvalue, hlimit⟩ := limitOf_of_literal h
  rw [hlimit, count?_of_nearest (by decide) hvalue hr, pick]
  have hmaximal : (maximalLimit : ℚ) = 1000000 := by norm_num [maximalLimit]
  rw [hmaximal]
  split_ifs with hrange
  · exact Int.natCast_floor_eq_floor (by linarith)
  · rfl

/-- What is no literal is no numeral, or an infinite one, or blank and worth zero. -/
theorem limitOf_of_not_literal (h : ∀ x, ¬ Literal (trimChars text.toList) x) :
    limitOf (some text) = defaultLimit := by
  have hnone : (read? text).bind (count? maximalLimit) = none := by
    rw [read?]
    by_cases hblank : trimChars text.toList = []
    · have hzero : value? (scientific false 0 0) = some ((0 : ℤ) : ℚ) := by simp [value?, signed]
      rw [hblank]
      exact (count?_of_integer maximalLimit hzero).trans (if_neg (by omega))
    · rw [Option.bind_eq_none_iff]
      intro numeral hnumeral
      refine count?_of_infinite maximalLimit (Option.eq_none_iff_forall_ne_some.mpr fun x hx => ?_)
      have hread : (ofTrimmed? (trimChars text.toList)).bind value? = some x := by
        rw [hnumeral, Option.bind_some, hx]
      exact h x ((ofTrimmed?_bind_value?_iff hblank).mp hread)
  rw [limitOf, Option.bind_some, hnone, Option.getD_none]

/-- The limit is always in the range. It is the value of the literal if this is a whole number in
the range, and in any case what the nearest double makes of the value; any other text, and none at
all, gives the default. -/
theorem limit_of_notation (env : Environment) : ∃ limit : ℤ,
    (ofEnvironment env).journal.limit = limit ∧ 1 ≤ limit ∧ limit ≤ 1000000 ∧
      (env "DISASM_LOG_LIMIT" = none → limit = 200) ∧
      ∀ text, env "DISASM_LOG_LIMIT" = some text →
        (∀ v : ℤ, Literal (trimChars text.toList) v →
          limit = if 1 ≤ v ∧ v ≤ 1000000 then v else 200) ∧
        (∀ x r, Literal (trimChars text.toList) x → Nearest x r →
          limit = if 1 ≤ r ∧ r ≤ 1000000 then ⌊r⌋ else 200) ∧
        ((trimChars text.toList = [] ∨ ∀ x, ¬ Literal (trimChars text.toList) x) →
          limit = 200) := by
  obtain ⟨hlo, hhi⟩ := limitOf_bounds (env "DISASM_LOG_LIMIT")
  refine ⟨limitOf (env "DISASM_LOG_LIMIT"), rfl, by exact_mod_cast hlo, by exact_mod_cast hhi, ?_,
    ?_⟩
  · intro hunset
    rw [hunset]
    rfl
  · intro text hset
    rw [hset]
    refine ⟨fun v => limitOf_of_integer, fun x r => limitOf_of_nearest, ?_⟩
    intro hother
    have hnone : ∀ x, ¬ Literal (trimChars text.toList) x :=
      hother.elim (fun hblank x hliteral => hliteral.ne_nil hblank) id
    rw [limitOf_of_not_literal hnone]
    rfl

example : limitOf (some " 2500e-2\n") = 25 := by decide +kernel

end Settings
end CanonicalListing
