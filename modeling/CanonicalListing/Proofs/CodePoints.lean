import CanonicalListing.Proofs.StableOrder

/-!
# Names and code points

A pair of surrogates lies below U+E000, although the character that it stands for has a
greater code point than any single unit. The order of names is therefore the order of
their code points after the characters from U+E000 to U+FFFF are moved behind all others.
It differs from the plain order of code points for just those names that meet such a
character and a pair where they first differ, and these two names stand the other way
around; so a sort follows the code points exactly if no two of its names are like that.
-/

namespace CanonicalListing
namespace Text

/-- Lexicographic order of the code points. -/
def comparePoints (a b : String) : Ordering :=
  compare (a.toList.map Char.toNat) (b.toList.map Char.toNat)

def pointLE (a b : String) : Bool := (comparePoints a b).isLE

/-- A single unit above the surrogates, and a character that is a pair: the pair has the greater
code point and the smaller units. -/
def Outranks (c d : Char) : Prop := 0xE000 ≤ c.toNat ∧ c.toNat < 0x10000 ∧ 0x10000 ≤ d.toNat

/-- One character outranks the other where the two texts first differ. -/
inductive Crossed : List Char → List Char → Prop
  | here {c d xs ys} : Outranks c d ∨ Outranks d c → Crossed (c :: xs) (d :: ys)
  | later {c xs ys} : Crossed xs ys → Crossed (c :: xs) (c :: ys)

/-- The place of a character in the order of units. -/
def unitRank (c : Char) : Nat :=
  if 0xE000 ≤ c.toNat ∧ c.toNat < 0x10000 then c.toNat + 0x110000 else c.toNat

theorem unitRank_inj {c d : Char} (h : unitRank c = unitRank d) : c = d := by
  have hc := toNat_char_bounds c
  have hd := toNat_char_bounds d
  unfold unitRank at h
  apply Char.toNat_inj.mp
  split at h <;> split at h <;> omega

/-- The smaller first unit decides. -/
theorem compare_cons_of_lt {m n : Nat} (hn : n < 0x10000) (hlt : m < n) (xs ys : List UInt16) :
    compare (m.toUInt16 :: xs) (n.toUInt16 :: ys) = .lt := by
  have hunit : compare m.toUInt16 n.toUInt16 = .lt := by
    rw [Std.compare_eq_lt, UInt16.lt_iff_toNat_lt, toNat_toUInt16 (hlt.trans hn),
      toNat_toUInt16 hn]
    exact hlt
  rw [compare_cons, hunit]
  rfl

theorem charUnits_append_of_lt {c : Char} (h : c.toNat < 0x10000) (xs : List UInt16) :
    charUnits c ++ xs = c.toNat.toUInt16 :: xs := by
  rw [charUnits_of_lt h, List.singleton_append]

theorem charUnits_append_of_not_lt {c : Char} (h : ¬ c.toNat < 0x10000) (xs : List UInt16) :
    charUnits c ++ xs = (0xD800 + (c.toNat - 0x10000) / 0x400).toUInt16 ::
      (0xDC00 + (c.toNat - 0x10000) % 0x400).toUInt16 :: xs := by
  rw [charUnits_of_not_lt h, List.cons_append, List.singleton_append]

/-- The units of two characters compare by rank, whatever comes behind. -/
theorem compare_charUnits_of_lt {c d : Char} (h : unitRank c < unitRank d)
    (xs ys : List UInt16) : compare (charUnits c ++ xs) (charUnits d ++ ys) = .lt := by
  have hc := toNat_char_bounds c
  have hd := toNat_char_bounds d
  unfold unitRank at h
  by_cases hc' : c.toNat < 0x10000
  · rw [charUnits_append_of_lt hc']
    by_cases hd' : d.toNat < 0x10000
    · rw [charUnits_append_of_lt hd']
      exact compare_cons_of_lt hd' (by split_ifs at h <;> omega) _ _
    · rw [charUnits_append_of_not_lt hd']
      exact compare_cons_of_lt (by omega) (by split_ifs at h <;> omega) _ _
  · rw [charUnits_append_of_not_lt hc']
    by_cases hd' : d.toNat < 0x10000
    · rw [charUnits_append_of_lt hd']
      exact compare_cons_of_lt hd' (by split_ifs at h <;> omega) _ _
    · have hlt : c.toNat < d.toNat := by split_ifs at h <;> omega
      rw [charUnits_append_of_not_lt hd']
      -- Two pairs compare by the second unit if the first is the same.
      by_cases hhigh : (c.toNat - 0x10000) / 0x400 = (d.toNat - 0x10000) / 0x400
      · rw [hhigh, compare_cons, Std.compare_self, Ordering.eq_then]
        exact compare_cons_of_lt (by omega) (by omega) _ _
      · exact compare_cons_of_lt (by omega) (by omega) _ _

theorem compare_append_left {α : Type} [Ord α] [Std.ReflOrd α] (front xs ys : List α) :
    compare (front ++ xs) (front ++ ys) = compare xs ys := by
  induction front with
  | nil => rfl
  | cons x front ih =>
    rw [List.cons_append, List.cons_append, compare_cons, Std.compare_self, ih, Ordering.eq_then]

theorem compare_charUnits (c d : Char) (xs ys : List UInt16) :
    compare (charUnits c ++ xs) (charUnits d ++ ys) =
      (compare (unitRank c) (unitRank d)).then (compare xs ys) := by
  rcases Nat.lt_trichotomy (unitRank c) (unitRank d) with h | h | h
  · rw [compare_charUnits_of_lt h, Std.compare_eq_lt.mpr h]
    rfl
  · rw [unitRank_inj h, compare_append_left, Std.compare_self, Ordering.eq_then]
  · rw [Std.OrientedOrd.eq_swap, compare_charUnits_of_lt h, Std.compare_eq_gt.mpr h]
    rfl

theorem compare_flatMap_charUnits (cs ds : List Char) :
    compare (cs.flatMap charUnits) (ds.flatMap charUnits) =
      compare (cs.map unitRank) (ds.map unitRank) := by
  induction cs generalizing ds with
  | nil =>
    cases ds with
    | nil => rfl
    | cons d ds =>
      obtain ⟨u, us, hu⟩ := List.exists_cons_of_ne_nil (charUnits_ne_nil d)
      rw [List.flatMap_cons, hu]
      rfl
  | cons c cs ih =>
    cases ds with
    | nil =>
      obtain ⟨u, us, hu⟩ := List.exists_cons_of_ne_nil (charUnits_ne_nil c)
      rw [List.flatMap_cons, hu]
      rfl
    | cons d ds =>
      rw [List.flatMap_cons, List.flatMap_cons, List.map_cons, List.map_cons, compare_cons,
        compare_charUnits, ih]

/-- Names are in the order of their code points, with U+E000 to U+FFFF behind all others. -/
theorem compareNames_eq_compare_unitRank (a b : String) :
    compareNames a b = compare (a.toList.map unitRank) (b.toList.map unitRank) :=
  compare_flatMap_charUnits a.toList b.toList

/-! ### Where the two orders differ -/

theorem compare_unitRank_of_outranks {c d : Char} (h : Outranks c d ∨ Outranks d c) :
    compare (unitRank c) (unitRank d) = (compare c.toNat d.toNat).swap ∧
      compare c.toNat d.toNat ≠ .eq := by
  rcases h with ⟨hlow, hsingle, hpair⟩ | ⟨hlow, hsingle, hpair⟩
  · have hd := toNat_char_bounds d
    have hrank : unitRank d < unitRank c := by unfold unitRank; split_ifs <;> omega
    rw [Std.compare_eq_gt.mpr hrank, Std.compare_eq_lt.mpr (hsingle.trans_le hpair)]
    exact ⟨rfl, nofun⟩
  · have hc := toNat_char_bounds c
    have hrank : unitRank c < unitRank d := by unfold unitRank; split_ifs <;> omega
    rw [Std.compare_eq_lt.mpr hrank, Std.compare_eq_gt.mpr (hsingle.trans_le hpair)]
    exact ⟨rfl, nofun⟩

theorem compare_unitRank_of_not_outranks {c d : Char} (h : ¬ (Outranks c d ∨ Outranks d c)) :
    compare (unitRank c) (unitRank d) = compare c.toNat d.toNat := by
  have hc := toNat_char_bounds c
  have hd := toNat_char_bounds d
  unfold Outranks at h
  rcases Nat.lt_trichotomy c.toNat d.toNat with hlt | heq | hlt
  · have hrank : unitRank c < unitRank d := by unfold unitRank; split_ifs <;> omega
    rw [Std.compare_eq_lt.mpr hrank, Std.compare_eq_lt.mpr hlt]
  · rw [Char.toNat_inj.mp heq, Std.compare_self, Std.compare_self]
  · have hrank : unitRank d < unitRank c := by unfold unitRank; split_ifs <;> omega
    rw [Std.compare_eq_gt.mpr hrank, Std.compare_eq_gt.mpr hlt]

theorem Crossed.compare_unitRank {cs ds : List Char} (h : Crossed cs ds) :
    compare (cs.map unitRank) (ds.map unitRank) =
        (compare (cs.map Char.toNat) (ds.map Char.toNat)).swap ∧
      compare (cs.map Char.toNat) (ds.map Char.toNat) ≠ .eq := by
  induction h with
  | @here c d cs ds houtranks =>
    obtain ⟨hrank, hne⟩ := compare_unitRank_of_outranks houtranks
    simp only [List.map_cons, compare_cons, hrank]
    cases hpoint : compare c.toNat d.toNat with
    | lt => exact ⟨rfl, nofun⟩
    | eq => exact absurd hpoint hne
    | gt => exact ⟨rfl, nofun⟩
  | later _ ih => simpa only [List.map_cons, compare_cons, Std.compare_self, Ordering.eq_then]

theorem compare_unitRank_of_not_crossed {cs ds : List Char} (h : ¬ Crossed cs ds) :
    compare (cs.map unitRank) (ds.map unitRank) =
      compare (cs.map Char.toNat) (ds.map Char.toNat) := by
  induction cs generalizing ds with
  | nil => cases ds <;> rfl
  | cons c cs ih =>
    cases ds with
    | nil => rfl
    | cons d ds =>
      simp only [List.map_cons, compare_cons]
      by_cases hcd : c = d
      · subst hcd
        rw [Std.compare_self, Std.compare_self, ih fun hcrossed => h (.later hcrossed)]
      · rw [compare_unitRank_of_not_outranks fun houtranks => h (.here houtranks)]
        cases hpoint : compare c.toNat d.toNat with
        | lt => rfl
        | eq => exact absurd (Char.toNat_inj.mp (Std.compare_eq_iff_eq.mp hpoint)) hcd
        | gt => rfl

theorem eq_of_swap_eq {o : Ordering} (h : o.swap = o) : o = .eq := by
  cases o with
  | eq => rfl
  | lt => cases h
  | gt => cases h

theorem eq_of_isLE_swap {o : Ordering} (h : o.isLE = true) (hswap : o.swap.isLE = true) :
    o = .eq := by
  cases o with
  | eq => rfl
  | lt => cases hswap
  | gt => cases h

/-- Crossed names stand the other way around. -/
theorem compareNames_of_crossed {a b : String} (h : Crossed a.toList b.toList) :
    compareNames a b = (comparePoints a b).swap ∧ comparePoints a b ≠ .eq := by
  rw [compareNames_eq_compare_unitRank]
  exact h.compare_unitRank

theorem compareNames_of_not_crossed {a b : String} (h : ¬ Crossed a.toList b.toList) :
    compareNames a b = comparePoints a b := by
  rw [compareNames_eq_compare_unitRank]
  exact compare_unitRank_of_not_crossed h

theorem compareNames_eq_comparePoints_iff {a b : String} :
    compareNames a b = comparePoints a b ↔ ¬ Crossed a.toList b.toList := by
  refine ⟨fun heq hcrossed => ?_, compareNames_of_not_crossed⟩
  obtain ⟨hswap, hne⟩ := compareNames_of_crossed hcrossed
  exact hne (eq_of_swap_eq (hswap.symm.trans heq))

/-! ### What a sort makes of it -/

variable {α : Type} {name : α → String} {xs ys : List α}

theorem Crossed.symm {cs ds : List Char} (h : Crossed cs ds) : Crossed ds cs := by
  induction h with
  | here houtranks => exact .here houtranks.symm
  | later _ ih => exact .later ih

theorem Crossed.irrefl {cs : List Char} : ¬ Crossed cs cs :=
  fun h => h.compare_unitRank.2 Std.compare_self

theorem not_crossed_of_le {a b : String} (hname : nameLE a b = true) (hpoint : pointLE a b = true) :
    ¬ Crossed a.toList b.toList := by
  intro hcrossed
  obtain ⟨hswap, hne⟩ := compareNames_of_crossed hcrossed
  rw [nameLE, hswap] at hname
  exact hne (eq_of_isLE_swap hpoint hname)

/-- No two of the names are crossed. -/
def Uncrossed (name : α → String) (xs : List α) : Prop :=
  ∀ x ∈ xs, ∀ y ∈ xs, ¬ Crossed (name x).toList (name y).toList

def InPointOrder (name : α → String) (xs : List α) : Prop :=
  xs.Pairwise fun x y => pointLE (name x) (name y) = true

theorem inPointOrder_iff_uncrossed (h : StablySorts name xs ys) :
    InPointOrder name ys ↔ Uncrossed name xs := by
  simp only [Uncrossed, ← h.perm.mem_iff]
  constructor
  · intro hpoints
    have huncrossed : ys.Pairwise fun x y => ¬ Crossed (name x).toList (name y).toList :=
      (h.sorted.and hpoints).imp fun hle => not_crossed_of_le hle.1 hle.2
    intro x hx y hy
    exact huncrossed.forall_of_forall_of_flip (fun z _ => Crossed.irrefl)
      (huncrossed.imp fun hnot hcrossed => hnot hcrossed.symm) hx hy
  · intro huncrossed
    refine h.sorted.imp_of_mem ?_
    intro x y hx hy hle
    rwa [pointLE, ← compareNames_of_not_crossed (huncrossed x hx y hy)]

end Text

open Text

/-- The sections, and the symbols of every section, are in the order of their code points. -/
structure Listing.InPointOrder (l : Listing) : Prop where
  sections : Text.InPointOrder Section.name l.sections
  symbols : ∀ s ∈ l.sections, Text.InPointOrder Symbol.name s.symbols

theorem Section.inPointOrder_sortSymbols_iff (s : Section) :
    Text.InPointOrder Symbol.name s.sortSymbols.symbols ↔ Uncrossed Symbol.name s.symbols :=
  inPointOrder_iff_uncrossed (stablySorts_mergeSort Symbol.name s.symbols)

theorem Listing.inPointOrder_sort_iff (l : Listing) :
    l.sort.InPointOrder ↔
      Uncrossed Section.name l.sections ∧ ∀ s ∈ l.sections, Uncrossed Symbol.name s.symbols := by
  have hsections : Text.InPointOrder Section.name l.sort.sections ↔
      Uncrossed Section.name (l.sections.map Section.sortSymbols) :=
    inPointOrder_iff_uncrossed (stablySorts_mergeSort Section.name _)
  have hnames : Uncrossed Section.name (l.sections.map Section.sortSymbols) ↔
      Uncrossed Section.name l.sections := by
    simp [Uncrossed, Section.sortSymbols]
  have hsymbols : (∀ s ∈ l.sort.sections, Text.InPointOrder Symbol.name s.symbols) ↔
      ∀ s ∈ l.sections, Uncrossed Symbol.name s.symbols := by
    simp only [l.perm_sort.mem_iff, List.forall_mem_map, Section.inPointOrder_sortSymbols_iff]
  rw [← hnames, ← hsections, ← hsymbols]
  exact ⟨fun h => ⟨h.sections, h.symbols⟩, fun h => ⟨h.1, h.2⟩⟩

/-- Names are compared by code point, and sorted that way, exactly as far as they are not
crossed; crossed names are compared the other way around. -/
theorem Text.follows_points_iff (a b : String) (s : Section) (l : Listing) :
    (compareNames a b = comparePoints a b ↔ ¬ Crossed a.toList b.toList) ∧
      (Crossed a.toList b.toList → compareNames a b = (comparePoints a b).swap) ∧
      (Text.InPointOrder Symbol.name s.sortSymbols.symbols ↔
        Uncrossed Symbol.name s.symbols) ∧
      (l.sort.InPointOrder ↔
        Uncrossed Section.name l.sections ∧
          ∀ s ∈ l.sections, Uncrossed Symbol.name s.symbols) := by
  refine ⟨compareNames_eq_comparePoints_iff, fun hcrossed => ?_,
    s.inPointOrder_sortSymbols_iff, l.inPointOrder_sort_iff⟩
  exact (compareNames_of_crossed hcrossed).1

/-- U+FF21 is below U+1F600, but its unit is above the surrogates. -/
theorem Text.not_always_code_point_order :
    ¬ ∀ a b : String, compareNames a b = comparePoints a b := by
  intro h
  have hpoint : comparePoints "Ａ" "😀" = .lt := by decide +kernel
  have hname : compareNames "Ａ" "😀" = .gt := by decide +kernel
  rw [h, hpoint] at hname
  exact Ordering.noConfusion hname

end CanonicalListing
