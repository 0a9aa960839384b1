import CanonicalListing.Text.Units

/-!
# The order of names

The units of a character tell where its units end, so a text can be read back from its
units: a unit outside the surrogate range is a character of its own, and a high surrogate
is followed by the low one. Two names that compare as equal are therefore the same name, and
of two different names the one whose units come first in the lexicographic order is first.
-/

namespace CanonicalListing
namespace Text

theorem toNat_toUInt16 {n : Nat} (h : n < 0x10000) : n.toUInt16.toNat = n := by
  simp [Nat.mod_eq_of_lt h]

/-- Characters are no surrogates. -/
theorem toNat_char_bounds (c : Char) :
    c.toNat < 0xD800 ∨ 0xDFFF < c.toNat ∧ c.toNat < 0x110000 := by
  rcases c.valid with h | ⟨h, h'⟩
  · exact Or.inl h
  · exact Or.inr ⟨h, h'⟩

theorem charUnits_of_lt {c : Char} (h : c.toNat < 0x10000) : charUnits c = [c.toNat.toUInt16] :=
  if_pos h

theorem charUnits_of_not_lt {c : Char} (h : ¬ c.toNat < 0x10000) :
    charUnits c = [(0xD800 + (c.toNat - 0x10000) / 0x400).toUInt16,
      (0xDC00 + (c.toNat - 0x10000) % 0x400).toUInt16] :=
  if_neg h

/-- A single unit is never the first half of a pair. -/
theorem charUnits_head_ne {a b : Char} {xs ys : List UInt16} (ha : a.toNat < 0x10000)
    (hb : ¬ b.toNat < 0x10000) : charUnits a ++ xs ≠ charUnits b ++ ys := by
  intro h
  rw [charUnits_of_lt ha, charUnits_of_not_lt hb] at h
  have hb' := toNat_char_bounds b
  have hunit : a.toNat = 0xD800 + (b.toNat - 0x10000) / 0x400 := by
    have hhead := congrArg UInt16.toNat (List.cons.inj h).1
    rwa [toNat_toUInt16 ha, toNat_toUInt16 (by omega)] at hhead
  have ha' := toNat_char_bounds a
  omega

theorem charUnits_append_inj {a b : Char} {xs ys : List UInt16}
    (h : charUnits a ++ xs = charUnits b ++ ys) : a = b ∧ xs = ys := by
  by_cases ha : a.toNat < 0x10000
  · by_cases hb : b.toNat < 0x10000
    · rw [charUnits_of_lt ha, charUnits_of_lt hb] at h
      obtain ⟨hunit, hrest⟩ := List.cons.inj h
      have hnat := congrArg UInt16.toNat hunit
      rw [toNat_toUInt16 ha, toNat_toUInt16 hb] at hnat
      exact ⟨Char.toNat_inj.mp hnat, hrest⟩
    · exact absurd h (charUnits_head_ne ha hb)
  · by_cases hb : b.toNat < 0x10000
    · exact absurd h.symm (charUnits_head_ne hb ha)
    · rw [charUnits_of_not_lt ha, charUnits_of_not_lt hb] at h
      obtain ⟨hhigh, htail⟩ := List.cons.inj h
      obtain ⟨hlow, hrest⟩ := List.cons.inj htail
      have ha' := toNat_char_bounds a
      have hb' := toNat_char_bounds b
      have hhigh' := congrArg UInt16.toNat hhigh
      have hlow' := congrArg UInt16.toNat hlow
      rw [toNat_toUInt16 (by omega), toNat_toUInt16 (by omega)] at hhigh' hlow'
      exact ⟨Char.toNat_inj.mp (by omega), hrest⟩

theorem charUnits_ne_nil (c : Char) : charUnits c ≠ [] := by
  unfold charUnits
  split <;> simp

theorem flatMap_charUnits_inj {cs ds : List Char}
    (h : cs.flatMap charUnits = ds.flatMap charUnits) : cs = ds := by
  induction cs generalizing ds with
  | nil =>
    cases ds with
    | nil => rfl
    | cons d ds => simp [charUnits_ne_nil] at h
  | cons c cs ih =>
    cases ds with
    | nil => simp [charUnits_ne_nil] at h
    | cons d ds =>
      rw [List.flatMap_cons, List.flatMap_cons] at h
      obtain ⟨rfl, hrest⟩ := charUnits_append_inj h
      rw [ih hrest]

/-- A text is determined by its units. -/
theorem units_inj {a b : String} (h : units a = units b) : a = b :=
  String.toList_inj.mp (flatMap_charUnits_inj h)

theorem compareNames_eq_eq {a b : String} : compareNames a b = .eq ↔ a = b := by
  constructor
  · intro h
    exact units_inj (Std.LawfulEqOrd.eq_of_compare h)
  · rintro rfl
    exact compareNames_self a

theorem nameLE_self (a : String) : nameLE a a = true := by
  simp [nameLE, compareNames_self]

theorem nameLE_antisymm {a b : String} (hab : nameLE a b = true) (hba : nameLE b a = true) :
    a = b := by
  unfold nameLE at hab hba
  rw [compareNames_swap b a] at hba
  cases h : compareNames a b with
  | lt => simp [h] at hba
  | eq => exact compareNames_eq_eq.mp h
  | gt => simp [h] at hab

/-- Names have one order, as names that are equal in it are the same. -/
theorem eq_sortNames_iff {names sorted : List String} :
    sorted = sortNames names ↔
      sorted.Perm names ∧ sorted.Pairwise fun a b => nameLE a b = true := by
  constructor
  · rintro rfl
    exact ⟨perm_sortNames names, sortNames_pairwise names⟩
  · rintro ⟨hperm, hsorted⟩
    have hantisymm : ∀ a b, a ∈ sorted → b ∈ sortNames names → nameLE a b = true →
        nameLE b a = true → a = b := fun _ _ _ _ => nameLE_antisymm
    exact List.Perm.eq_of_pairwise hantisymm hsorted (sortNames_pairwise names)
      (hperm.trans (perm_sortNames names).symm)

theorem compare_cons {α : Type} [Ord α] (x y : α) (xs ys : List α) :
    compare (x :: xs) (y :: ys) = (compare x y).then (compare xs ys) :=
  List.compareLex_cons_cons

/-- The first unit in which they differ decides, or else the length. -/
theorem compare_units_eq_lt_iff {xs ys : List UInt16} :
    compare xs ys = .lt ↔ List.Lex (· < ·) xs ys := by
  induction xs generalizing ys with
  | nil =>
    cases ys with
    | nil => simp
    | cons y ys =>
      have hnil : compare [] (y :: ys) = .lt := List.compareLex_nil_cons
      simp [hnil]
  | cons x xs ih =>
    cases ys with
    | nil =>
      have hnil : compare (x :: xs) [] = .gt := List.compareLex_cons_nil
      simp [hnil]
    | cons y ys =>
      rw [compare_cons, Ordering.then_eq_lt, ih, Std.compare_eq_lt, Std.compare_eq_iff_eq,
        List.cons_lex_cons_iff]

theorem nameLE_iff_lex {a b : String} :
    nameLE a b = true ↔ a = b ∨ List.Lex (· < ·) (units a) (units b) := by
  rw [nameLE, Ordering.isLE_iff_eq_lt_or_eq_eq, compareNames_eq_eq, compareNames,
    compare_units_eq_lt_iff, or_comm]

end Text
end CanonicalListing
