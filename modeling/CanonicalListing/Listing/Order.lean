import CanonicalListing.Text.Units
import CanonicalListing.Listing.Basic

/-!
# The canonical order

Symbols are ordered by name inside their section, and sections by name. Both sorts are
stable: entries with equal names keep the order in which they were added, and the
instructions of a symbol are never reordered.
-/

namespace CanonicalListing

def Symbol.nameLE (a b : Symbol) : Bool := Text.nameLE a.name b.name

def Section.nameLE (a b : Section) : Bool := Text.nameLE a.name b.name

theorem Symbol.nameLE_trans (a b c : Symbol) (hab : a.nameLE b = true) (hbc : b.nameLE c = true) :
    a.nameLE c = true :=
  @Text.nameLE_trans a.name b.name c.name hab hbc

theorem Symbol.nameLE_total (a b : Symbol) : (a.nameLE b || b.nameLE a) = true :=
  Text.nameLE_total a.name b.name

theorem Section.nameLE_trans (a b c : Section) (hab : a.nameLE b = true) (hbc : b.nameLE c = true) :
    a.nameLE c = true :=
  @Text.nameLE_trans a.name b.name c.name hab hbc

theorem Section.nameLE_total (a b : Section) : (a.nameLE b || b.nameLE a) = true :=
  Text.nameLE_total a.name b.name

def Section.sortSymbols (s : Section) : Section :=
  { s with symbols := s.symbols.mergeSort Symbol.nameLE }

def Listing.sort (l : Listing) : Listing :=
  { l with sections := (l.sections.map Section.sortSymbols).mergeSort Section.nameLE }

theorem Section.perm_sortSymbols (s : Section) : s.sortSymbols.symbols.Perm s.symbols :=
  List.mergeSort_perm _ _

theorem Section.sortSymbols_pairwise (s : Section) :
    s.sortSymbols.symbols.Pairwise fun a b => Symbol.nameLE a b = true :=
  List.pairwise_mergeSort Symbol.nameLE_trans Symbol.nameLE_total _

theorem Listing.perm_sort (l : Listing) :
    l.sort.sections.Perm (l.sections.map Section.sortSymbols) :=
  List.mergeSort_perm _ _

theorem Listing.sort_pairwise (l : Listing) :
    l.sort.sections.Pairwise fun a b => Section.nameLE a b = true :=
  List.pairwise_mergeSort Section.nameLE_trans Section.nameLE_total _

/-- The names of sorted entries are the sorted names of the entries. -/
theorem Section.map_name_sortSymbols (s : Section) :
    s.sortSymbols.symbols.map Symbol.name = Text.sortNames (s.symbols.map Symbol.name) :=
  List.map_mergeSort fun _ _ _ _ => rfl

theorem Listing.map_name_sort (l : Listing) :
    l.sort.sections.map Section.name = Text.sortNames (l.sections.map Section.name) := by
  have hnames : (l.sections.map Section.sortSymbols).map Section.name =
      l.sections.map Section.name := by
    rw [List.map_map]
    rfl
  rw [← hnames]
  exact List.map_mergeSort fun _ _ _ _ => rfl

end CanonicalListing
