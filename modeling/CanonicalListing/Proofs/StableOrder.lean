import CanonicalListing.Listing.Order
import CanonicalListing.Proofs.Lists
import CanonicalListing.Proofs.NameOrder
import Mathlib.Data.Set.List

/-!
# The stable arrangement by name

A stable sort is described without an algorithm: the entries are the same, they are in the
order of their names, and those of one name are in the order they had. There is exactly
one such arrangement, and `List.mergeSort` finds it. A listing is arranged from the
inside out, first the symbols of every section and then the sections.
-/

namespace CanonicalListing

variable {α β : Type}

/-- The same entries, and those of one name in the same order. -/
structure Reorders (name : α → String) (xs ys : List α) : Prop where
  perm : ys.Perm xs
  stable : ∀ n, (ys.filter fun y => name y = n) = xs.filter fun x => name x = n

/-- The stable sort by name, as a relation. -/
structure StablySorts (name : α → String) (xs ys : List α) : Prop extends
    Reorders name xs ys where
  sorted : ys.Pairwise fun a b => Text.nameLE (name a) (name b) = true

namespace Reorders

variable {name : α → String} {xs ys zs : List α}

theorem refl (name : α → String) (xs : List α) : Reorders name xs xs :=
  ⟨List.Perm.refl xs, fun _ => rfl⟩

theorem trans (hxy : Reorders name xs ys) (hyz : Reorders name ys zs) : Reorders name xs zs :=
  ⟨hyz.perm.trans hxy.perm, fun n => (hyz.stable n).trans (hxy.stable n)⟩

/-- Neighbours of different names may change places. -/
theorem swap {x y : α} (h : name x ≠ name y) (zs : List α) :
    Reorders name (x :: y :: zs) (y :: x :: zs) := by
  refine ⟨List.Perm.swap x y zs, ?_⟩
  intro n
  by_cases hx : name x = n
  · have hy : name y ≠ n := fun hy => h (hx.trans hy.symm)
    simp [hx, hy]
  · simp [List.filter_cons, hx]

/-- A map that keeps the names keeps the relation. -/
theorem map {name' : β → String} (f : α → β) (hf : ∀ x, name' (f x) = name x)
    (h : Reorders name xs ys) : Reorders name' (xs.map f) (ys.map f) := by
  refine ⟨h.perm.map f, ?_⟩
  intro n
  simp only [List.filter_map, Function.comp_def, hf]
  rw [h.stable n]

end Reorders

namespace StablySorts

variable {name : α → String} {xs ys zs : List α}

theorem of_reorders (h : Reorders name xs ys) (hs : StablySorts name ys zs) :
    StablySorts name xs zs :=
  { toReorders := h.trans hs.toReorders, sorted := hs.sorted }

theorem map {name' : β → String} (f : α → β) (hf : ∀ x, name' (f x) = name x)
    (h : StablySorts name xs ys) : StablySorts name' (xs.map f) (ys.map f) := by
  refine { toReorders := h.toReorders.map f hf, sorted := ?_ }
  rw [List.pairwise_map]
  simpa only [hf] using h.sorted

/-- The first names of two sorted lists with the same entries are the same. -/
theorem head_name_eq {y z : α} {ys zs : List α} (hp : (y :: ys).Perm (z :: zs))
    (hy : (y :: ys).Pairwise fun a b => Text.nameLE (name a) (name b) = true)
    (hz : (z :: zs).Pairwise fun a b => Text.nameLE (name a) (name b) = true) :
    name y = name z := by
  have hyz : Text.nameLE (name y) (name z) = true := by
    rcases List.mem_cons.mp (hp.symm.subset List.mem_cons_self) with h | h
    · rw [h]
      exact Text.nameLE_self _
    · exact List.rel_of_pairwise_cons hy h
  have hzy : Text.nameLE (name z) (name y) = true := by
    rcases List.mem_cons.mp (hp.subset List.mem_cons_self) with h | h
    · rw [h]
      exact Text.nameLE_self _
    · exact List.rel_of_pairwise_cons hz h
  exact Text.nameLE_antisymm hyz hzy

theorem eq_of_sorted {ys zs : List α} (hp : ys.Perm zs)
    (hy : ys.Pairwise fun a b => Text.nameLE (name a) (name b) = true)
    (hz : zs.Pairwise fun a b => Text.nameLE (name a) (name b) = true)
    (hf : ∀ n, (ys.filter fun a => name a = n) = zs.filter fun a => name a = n) : ys = zs := by
  induction ys generalizing zs with
  | nil => exact hp.symm.eq_nil.symm
  | cons y ys ih =>
    cases zs with
    | nil => exact hp.eq_nil
    | cons z zs =>
      have hname := head_name_eq hp hy hz
      have hhead := hf (name y)
      rw [List.filter_cons_of_pos (by simp), List.filter_cons_of_pos (by simp [hname])] at hhead
      obtain ⟨rfl, -⟩ := List.cons.inj hhead
      have htail : ∀ n, (ys.filter fun a => name a = n) = zs.filter fun a => name a = n := by
        intro n
        have hn := hf n
        by_cases h : name y = n
        · rw [List.filter_cons_of_pos (by simp [h]), List.filter_cons_of_pos (by simp [h])] at hn
          exact (List.cons.inj hn).2
        · rwa [List.filter_cons_of_neg (by simp [h]), List.filter_cons_of_neg (by simp [h])] at hn
      rw [ih hp.cons_inv hy.of_cons hz.of_cons htail]

/-- There is only one stable sort. -/
theorem unique (hy : StablySorts name xs ys) (hz : StablySorts name xs zs) : ys = zs := by
  apply eq_of_sorted (hy.perm.trans hz.perm.symm) hy.sorted hz.sorted
  intro n
  rw [hy.stable n, hz.stable n]

end StablySorts

/-- Merge sort is stable: the entries of one name are a sorted sublist, which it keeps. -/
theorem stablySorts_mergeSort (name : α → String) (xs : List α) :
    StablySorts name xs (xs.mergeSort fun a b => Text.nameLE (name a) (name b)) := by
  have trans : ∀ a b c : α, Text.nameLE (name a) (name b) = true →
      Text.nameLE (name b) (name c) = true → Text.nameLE (name a) (name c) = true :=
    fun _ _ _ => Text.nameLE_trans
  have total : ∀ a b : α, (Text.nameLE (name a) (name b) || Text.nameLE (name b) (name a)) = true :=
    fun a b => Text.nameLE_total (name a) (name b)
  have perm := List.mergeSort_perm xs fun a b => Text.nameLE (name a) (name b)
  refine { perm := perm, stable := ?_, sorted := List.pairwise_mergeSort trans total xs }
  intro n
  have hsorted : (xs.filter fun x => name x = n).Pairwise
      fun a b => Text.nameLE (name a) (name b) = true := by
    apply List.pairwise_of_forall_mem_list
    intro a ha b hb
    rw [of_decide_eq_true (List.mem_filter.mp ha).2, of_decide_eq_true (List.mem_filter.mp hb).2]
    exact Text.nameLE_self n
  have hsub := (List.sublist_mergeSort trans total hsorted List.filter_sublist).filter
    fun x => decide (name x = n)
  simp only [List.filter_filter, Bool.and_self] at hsub
  exact (hsub.eq_of_length (perm.filter _).length_eq.symm).symm

/-! ### Sorting a list with a hole -/

/-- A list in which one entry is left open. -/
def holed (front back : List α) : List (Option α) := front.map some ++ none :: back.map some

/-- The open entry already has its name. -/
def nameOrOpen (name : α → String) (n : String) (entry : Option α) : String := entry.elim n name

theorem map_getD_holed (front back : List α) (x : α) :
    (holed front back).map (Option.getD · x) = front ++ x :: back := by
  simp [holed, Function.comp_def]

theorem exists_holed_of_perm {front back : List α} {entries : List (Option α)}
    (h : entries.Perm (holed front back)) : ∃ before behind, entries = holed before behind := by
  obtain ⟨before, behind, rfl⟩ := List.append_of_mem (h.mem_iff.mpr (by simp [holed] : none ∈ _))
  have hothers : (before ++ behind).Perm (front.map some ++ back.map some) :=
    List.Perm.cons_inv (List.perm_middle.symm.trans (h.trans List.perm_middle))
  have hfilled : ∀ entry ∈ before ++ behind, entry ∈ Set.range some := by
    intro entry hentry
    have hmem := hothers.mem_iff.mp hentry
    rw [← List.map_append] at hmem
    obtain ⟨a, -, ha⟩ := List.mem_map.mp hmem
    exact ⟨a, ha⟩
  rw [List.forall_mem_append] at hfilled
  obtain ⟨before, rfl⟩ := (Set.range_list_map some).ge hfilled.1
  obtain ⟨behind, rfl⟩ := (Set.range_list_map some).ge hfilled.2
  exact ⟨before, behind, rfl⟩

/-- The place of an entry in the sorted list is settled by its name. -/
theorem exists_mergeSort_eq (name : α → String) (n : String) (front back : List α) :
    ∃ before behind, ∀ x, name x = n →
      ((front ++ x :: back).mergeSort fun a b => Text.nameLE (name a) (name b)) =
        before ++ x :: behind := by
  -- The list with a hole is sorted once; filling the hole keeps all names and so the order.
  have hsorts := stablySorts_mergeSort (nameOrOpen name n) (holed front back)
  obtain ⟨before, behind, hsorted⟩ := exists_holed_of_perm hsorts.perm
  refine ⟨before, behind, fun x hx => ?_⟩
  rw [hsorted] at hsorts
  have hfilled : StablySorts name ((holed front back).map (Option.getD · x))
      ((holed before behind).map (Option.getD · x)) := hsorts.map _ fun entry => by
    cases entry with
    | none => exact hx
    | some a => rfl
  rw [map_getD_holed, map_getD_holed] at hfilled
  exact (stablySorts_mergeSort name _).unique hfilled

/-! ### Listings in order -/

/-- The section with its symbols in order. -/
structure Section.Arranges (s s' : Section) : Prop where
  name : s'.name = s.name
  symbols : StablySorts Symbol.name s.symbols s'.symbols

/-- The listing with the symbols of every section in order, and then the sections. -/
structure Listing.Arranges (l l' : Listing) : Prop where
  fileName : l'.fileName = l.fileName
  fileFormat : l'.fileFormat = l.fileFormat
  sections : ∃ inner, List.Forall₂ Section.Arranges l.sections inner ∧
    StablySorts Section.name inner l'.sections

theorem Section.arranges_iff {s s' : Section} : s.Arranges s' ↔ s' = s.sortSymbols := by
  constructor
  · intro h
    have hsymbols := h.symbols.unique (stablySorts_mergeSort Symbol.name s.symbols)
    cases s'
    simp only [sortSymbols, Section.mk.injEq]
    exact ⟨h.name, hsymbols⟩
  · rintro rfl
    exact ⟨rfl, stablySorts_mergeSort Symbol.name s.symbols⟩

theorem forall₂_arranges_iff {ss inner : List Section} :
    List.Forall₂ Section.Arranges ss inner ↔ inner = ss.map Section.sortSymbols := by
  constructor
  · intro h
    induction h with
    | nil => rfl
    | cons hs _ ih => rw [Section.arranges_iff.mp hs, ih, List.map_cons]
  · rintro rfl
    rw [List.forall₂_map_right_iff, List.forall₂_same]
    intro s _
    exact Section.arranges_iff.mpr rfl

/-- Sorting computes the one arrangement there is. -/
theorem Listing.arranges_iff {l l' : Listing} : l.Arranges l' ↔ l' = l.sort := by
  constructor
  · intro h
    obtain ⟨inner, hinner, hsections⟩ := h.sections
    rw [forall₂_arranges_iff] at hinner
    subst hinner
    have hsorted := hsections.unique (stablySorts_mergeSort Section.name _)
    cases l'
    simp only [sort, Listing.mk.injEq]
    exact ⟨h.fileName, h.fileFormat, hsorted⟩
  · rintro rfl
    exact ⟨rfl, rfl, _, forall₂_arranges_iff.mpr rfl, stablySorts_mergeSort Section.name _⟩

/-- What is in order stays as it is. -/
theorem Listing.Arranges.self {l l' : Listing} (h : l.Arranges l') : l'.Arranges l' := by
  obtain rfl := Listing.arranges_iff.mp h
  refine ⟨rfl, rfl, l.sort.sections, List.forall₂_same.mpr ?_,
    { toReorders := Reorders.refl _ _, sorted := l.sort_pairwise }⟩
  intro s hs
  obtain ⟨s, -, rfl⟩ := List.mem_map.mp (l.perm_sort.mem_iff.mp hs)
  exact ⟨rfl, { toReorders := Reorders.refl _ _, sorted := s.sortSymbols_pairwise }⟩

/-! ### Rearranged listings -/

/-- The same section with its symbols in some order. -/
structure Section.Rearranges (s s' : Section) : Prop where
  name : s'.name = s.name
  symbols : s'.symbols.Perm s.symbols

/-- The same listing with its sections, and the symbols of every section, in some order. -/
structure Listing.Rearranges (l l' : Listing) : Prop where
  fileName : l'.fileName = l.fileName
  fileFormat : l'.fileFormat = l.fileFormat
  sections : ∃ inner, List.Forall₂ Section.Rearranges l.sections inner ∧ l'.sections.Perm inner

theorem Section.Rearranges.refl (s : Section) : s.Rearranges s := ⟨rfl, List.Perm.refl _⟩

theorem Section.rearranges_sortSymbols (s : Section) : s.Rearranges s.sortSymbols :=
  ⟨rfl, s.perm_sortSymbols⟩

theorem Listing.rearranges_sort (l : Listing) : l.Rearranges l.sort := by
  refine ⟨rfl, rfl, _, ?_, l.perm_sort⟩
  rw [List.forall₂_map_right_iff, List.forall₂_same]
  intro s _
  exact s.rearranges_sortSymbols

/-- Symbols are moved, and none is gained or lost. -/
theorem Listing.Rearranges.perm_symbols {l l' : Listing} (h : l.Rearranges l') :
    l'.symbols.Perm l.symbols := by
  have hsections {ss inner : List Section} (h : List.Forall₂ Section.Rearranges ss inner) :
      (inner.flatMap Section.symbols).Perm (ss.flatMap Section.symbols) := by
    induction h with
    | nil => exact List.Perm.refl []
    | cons hs _ ih => exact hs.symbols.append ih
  obtain ⟨inner, hinner, hperm⟩ := h.sections
  exact (hperm.flatMap_right _).trans (hsections hinner)

theorem Listing.Rearranges.tally_eq {l l' : Listing} (h : l.Rearranges l') :
    l'.tally = l.tally := by
  have hsections : l'.sections.length = l.sections.length := by
    obtain ⟨inner, hinner, hperm⟩ := h.sections
    rw [hperm.length_eq, hinner.length_eq]
  have hinstructions : l'.instructions.length = l.instructions.length :=
    (h.perm_symbols.flatMap_right Symbol.instructions).length_eq
  simp only [tally, hsections, h.perm_symbols.length_eq, hinstructions]

@[simp] theorem Listing.tally_sort (l : Listing) : l.sort.tally = l.tally :=
  l.rearranges_sort.tally_eq

end CanonicalListing
