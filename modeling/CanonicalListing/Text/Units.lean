/-!
# Names in 16-bit units

Names are ordered and texts are measured in 16-bit code units: a character up to
U+FFFF is one unit, any other is a surrogate pair. The order differs from the
order of code points, because the surrogates lie below U+E000.
-/

namespace CanonicalListing
namespace Text

def charUnits (c : Char) : List UInt16 :=
  if c.toNat < 0x10000 then [c.toNat.toUInt16]
  else
    let offset := c.toNat - 0x10000
    [(0xD800 + offset / 0x400).toUInt16, (0xDC00 + offset % 0x400).toUInt16]

def units (s : String) : List UInt16 := s.toList.flatMap charUnits

def unitLength (s : String) : Nat := (units s).length

/-- Lexicographic order of the units. -/
def compareNames (a b : String) : Ordering := compare (units a) (units b)

def nameLE (a b : String) : Bool := (compareNames a b).isLE

/-- Equal names keep their order. -/
def sortNames (names : List String) : List String := names.mergeSort nameLE

theorem compareNames_self (a : String) : compareNames a a = .eq := by
  simp [compareNames]

theorem compareNames_swap (a b : String) : compareNames a b = (compareNames b a).swap :=
  Std.OrientedOrd.eq_swap

theorem nameLE_trans {a b c : String} (hab : nameLE a b = true) (hbc : nameLE b c = true) :
    nameLE a c = true :=
  Std.TransOrd.isLE_trans hab hbc

theorem nameLE_total (a b : String) : (nameLE a b || nameLE b a) = true := by
  unfold nameLE
  rw [compareNames_swap b a]
  cases compareNames a b <;> rfl

theorem perm_sortNames (names : List String) : (sortNames names).Perm names :=
  List.mergeSort_perm _ _

theorem sortNames_pairwise (names : List String) :
    (sortNames names).Pairwise fun a b => nameLE a b = true :=
  List.pairwise_mergeSort (fun a b c => @nameLE_trans a b c) nameLE_total _

end Text
end CanonicalListing
