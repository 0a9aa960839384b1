import CanonicalListing.Text.Utf8

/-!
# Fingerprints

The 32-bit FNV-1a hash: each byte is combined by exclusive or into the low bits and
the word is multiplied by the prime, modulo 2^32. The fingerprint of a text is the
hash of its UTF-8 bytes, written with eight hexadecimal digits.
-/

namespace CanonicalListing
namespace Fingerprint

def offsetBasis : UInt32 := 0x811C9DC5

def prime : UInt32 := 0x01000193

def absorb (h : UInt32) (b : UInt8) : UInt32 := (h ^^^ b.toUInt32) * prime

def absorbBytes (h : UInt32) (bytes : List UInt8) : UInt32 := bytes.foldl absorb h

def hash (bytes : List UInt8) : UInt32 := absorbBytes offsetBasis bytes

/-- Each integer counts by its lowest eight bits, in two's complement. -/
def hashIntegers (numbers : List Int) : UInt32 := hash (numbers.map UInt8.ofInt)

/-- Eight hexadecimal digits, the highest first. -/
def digits (h : UInt32) : List Char :=
  (List.range 8).map fun i => Nat.digitChar (h.toNat >>> (4 * (7 - i)) % 16)

def ofText (text : String) : String :=
  String.ofList (digits (hash (Text.encodeUtf8 text).data.toList))

theorem absorbBytes_append (h : UInt32) (xs ys : List UInt8) :
    absorbBytes h (xs ++ ys) = absorbBytes (absorbBytes h xs) ys := by
  simp [absorbBytes]

theorem hash_append (xs ys : List UInt8) : hash (xs ++ ys) = absorbBytes (hash xs) ys :=
  absorbBytes_append _ xs ys

@[simp] theorem length_digits (h : UInt32) : (digits h).length = 8 := by
  simp [digits]

end Fingerprint
end CanonicalListing
