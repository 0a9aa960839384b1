import CanonicalListing.Proofs.Edits
import CanonicalListing.Proofs.Numbering

/-!
# Sorting settles a listing

A listing has one arrangement: its sections, and the symbols of every section, in the order
of their names, with entries of one name in the order they had. Sorting finds it. What has
been sorted before makes no difference: an arrangement is its own, sorting parts of a
listing first changes nothing about the arrangement of the whole, and what is read from
lines is arranged already.
-/

namespace CanonicalListing

theorem Section.sortSymbols_sortSymbols (s : Section) :
    s.sortSymbols.sortSymbols = s.sortSymbols := by
  have hsymbols := List.mergeSort_of_pairwise s.sortSymbols_pairwise
  cases s
  simp only [sortSymbols, Section.mk.injEq, true_and] at hsymbols ⊢
  exact hsymbols

namespace Listing

variable {l : Listing}

theorem sort_sort (l : Listing) : l.sort.sort = l.sort :=
  (arranges_iff.mp (arranges_iff.mpr rfl : l.Arranges l.sort).self).symm

/-- Sorting the symbols of a section once more, or once less, is the same to the whole. -/
theorem sort_modifySection (l : Listing) (i : Nat) :
    (l.modifySection i Section.sortSymbols).sort = l.sort := by
  have hmap : (l.sections.modify i Section.sortSymbols).map Section.sortSymbols =
      l.sections.map Section.sortSymbols := by
    apply List.ext_getElem?
    intro k
    rw [List.getElem?_map, List.getElem?_map, List.getElem?_modify]
    by_cases hk : i = k
    · simp [hk, Section.sortSymbols_sortSymbols, Function.comp_def]
    · simp [hk]
  simp only [sort, modifySection, hmap]

theorem sort_apply_of_sorts {step : Step} (h : step.sorts = true) :
    (l.apply step).1.sort = l.sort := by
  cases step with
  | sortSymbols i => exact l.sort_modifySection i
  | sort => exact l.sort_sort
  | _ => cases h

theorem sort_after_of_sorts {steps : List Step} (h : ∀ step ∈ steps, step.sorts = true) :
    (l.after steps).sort = l.sort := by
  induction steps generalizing l with
  | nil => rfl
  | cons step rest ih =>
    rw [List.forall_mem_cons] at h
    calc (l.after (step :: rest)).sort
      _ = (l.apply step).1.sort := ih h.2
      _ = l.sort := sort_apply_of_sorts h.1

theorem sort_of_readLines {lines : List String} (h : (readLines lines).outcome = .ok l) :
    l.sort = l := by
  obtain ⟨first, body, header, ss, -, -, -, rfl⟩ := readLines_eq_ok_iff.mp h
  exact sort_sort _

/-- How the listing and its sorted form belong together. -/
structure SortsTo (l l' : Listing) : Prop where
  arranges_iff : ∀ m, l.Arranges m ↔ m = l'
  order : ∀ a b, Text.nameLE a b = true ↔
    a = b ∨ List.Lex (· < ·) (Text.units a) (Text.units b)
  again : l'.sort = l'
  after_sorts : ∀ steps, (∀ step ∈ steps, step.sorts = true) → (l.after steps).sort = l'
  of_readLines : ∀ lines, (readLines lines).outcome = .ok l → l' = l
  of_read : ∀ text, (read text).outcome = .ok l → l' = l

theorem sortsTo_sort (l : Listing) : l.SortsTo l.sort where
  arranges_iff := fun _ => Listing.arranges_iff
  order := fun _ _ => Text.nameLE_iff_lex
  again := l.sort_sort
  after_sorts := fun _ h => sort_after_of_sorts h
  of_readLines := fun _ h => sort_of_readLines h
  of_read := fun _ h => sort_of_readLines h

end Listing
end CanonicalListing
