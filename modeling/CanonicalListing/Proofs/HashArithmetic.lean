import CanonicalListing.Proofs.LocalChanges
import Mathlib.Data.Nat.Digits.Lemmas

/-!
# The hash in natural numbers

Words wrap around, and numbers of any sign and size are cut down to bytes. Neither shows in
the result: every step is the remainder of a product of natural numbers, and it does not
matter whether a word is read with a sign in between. A fingerprint writes the word down with
all its digits, leading zeros included, so it is the one text of eight digits with this value.
-/

namespace CanonicalListing
namespace Fingerprint

/-! ### Steps in natural numbers -/

/-- One step without words: whatever the sign of the number, its remainder counts. -/
def mix (h : Nat) (number : Int) : Nat := (h ^^^ (number % 256).toNat) * 16777619 % 2 ^ 32

theorem toNat_ofInt (number : Int) : (UInt8.ofInt number).toNat = (number % 256).toNat := by
  have hbyte : (number % 256).toNat < 256 := by omega
  exact UInt8.toNat_ofNat_of_lt hbyte

theorem toNat_absorb_ofInt (h : UInt32) (number : Int) :
    (absorb h (UInt8.ofInt number)).toNat = mix h.toNat number := by
  have hprime : prime.toNat = 16777619 := rfl
  rw [absorb, UInt32.toNat_mul, UInt32.toNat_xor, UInt8.toNat_toUInt32, toNat_ofInt, hprime, mix]

theorem toNat_absorbBytes_ofInt (h : UInt32) (numbers : List Int) :
    (absorbBytes h (numbers.map UInt8.ofInt)).toNat = numbers.foldl mix h.toNat := by
  induction numbers generalizing h with
  | nil => rfl
  | cons number rest ih =>
    calc (absorbBytes h ((number :: rest).map UInt8.ofInt)).toNat
      _ = (absorbBytes (absorb h (UInt8.ofInt number)) (rest.map UInt8.ofInt)).toNat := rfl
      _ = rest.foldl mix (mix h.toNat number) := by rw [ih, toNat_absorb_ofInt]

theorem hashIntegers_append (xs ys : List Int) :
    hashIntegers (xs ++ ys) = absorbBytes (hashIntegers xs) (ys.map UInt8.ofInt) := by
  rw [hashIntegers, List.map_append, hash_append, hashIntegers]

/-! ### Steps on words with a sign -/

/-- The byte is cut out of a signed word, and the combined word is read as a number without sign
before it is multiplied as a signed one. -/
def absorbSigned (h : UInt32) (number : Int) : UInt32 :=
  let combined := (h.toInt32 ^^^ (Int32.ofInt number &&& 0xFF)).toUInt32
  (combined.toInt32 * prime.toInt32).toUInt32

theorem toUInt32_lowByte (number : Int) :
    (Int32.ofInt number &&& 0xFF).toUInt32 = (UInt8.ofInt number).toUInt32 := by
  apply UInt32.toNat_inj.mp
  have hword : (Int32.ofInt number).toUInt32.toNat = (number % 2 ^ 32).toNat :=
    BitVec.toNat_ofInt number
  have hmask : (Int32.toUInt32 0xFF).toNat = 2 ^ 8 - 1 := rfl
  rw [Int32.toUInt32_and, UInt32.toNat_and, hword, hmask, Nat.and_two_pow_sub_one_eq_mod,
    UInt8.toNat_toUInt32, toNat_ofInt]
  omega

theorem absorbSigned_eq (h : UInt32) (number : Int) :
    absorbSigned h number = absorb h (UInt8.ofInt number) := by
  rw [absorbSigned, Int32.toUInt32_mul, UInt32.toUInt32_toInt32, UInt32.toUInt32_toInt32,
    Int32.toUInt32_xor, UInt32.toUInt32_toInt32, toUInt32_lowByte, absorb]

theorem foldl_absorbSigned (h : UInt32) (numbers : List Int) :
    numbers.foldl absorbSigned h = absorbBytes h (numbers.map UInt8.ofInt) := by
  have hstep : absorbSigned = fun h number => absorb h (UInt8.ofInt number) :=
    funext fun h => funext fun number => absorbSigned_eq h number
  rw [absorbBytes, List.foldl_map, hstep]

/-! ### Eight digits -/

def hexadecimalDigits : List Char := "0123456789abcdef".toList

/-- The text writes the number with eight digits. -/
structure Hexadecimal (value : Nat) (text : String) : Prop where
  length_eq : text.length = 8
  digits_mem : ∀ c ∈ text.toList, c ∈ hexadecimalDigits
  value_eq : digitsValue text.toList = value

theorem mem_hexadecimalDigits_iff {c : Char} :
    c ∈ hexadecimalDigits ↔ ∃ d < 16, Nat.digitChar d = c := by
  have hlist : hexadecimalDigits = (List.range 16).map Nat.digitChar := by decide
  rw [hlist, List.mem_map]
  simp only [List.mem_range]

theorem digitValue_lt {c : Char} (h : c ∈ hexadecimalDigits) : digitValue c < 16 := by
  obtain ⟨d, hd, rfl⟩ := mem_hexadecimalDigits_iff.mp h
  rwa [digitValue_digitChar d hd]

theorem digitChar_digitValue {c : Char} (h : c ∈ hexadecimalDigits) :
    Nat.digitChar (digitValue c) = c := by
  obtain ⟨d, hd, rfl⟩ := mem_hexadecimalDigits_iff.mp h
  rw [digitValue_digitChar d hd]

theorem map_digitChar_digitValue {cs : List Char} (h : ∀ c ∈ cs, c ∈ hexadecimalDigits) :
    (cs.map digitValue).map Nat.digitChar = cs := by
  calc (cs.map digitValue).map Nat.digitChar
    _ = cs.map fun c => Nat.digitChar (digitValue c) := List.map_map
    _ = cs.map fun c => c := List.map_congr_left fun c hc => digitChar_digitValue (h c hc)
    _ = cs := List.map_id' cs

theorem digitsValue_eq_ofDigits (cs : List Char) :
    digitsValue cs = Nat.ofDigits 16 (cs.map digitValue).reverse := by
  rw [Nat.ofDigits_eq_foldr, List.foldr_reverse, List.foldl_map, digitsValue]
  simp only [Nat.add_comm, Nat.cast_id]

/-- As many digits with the same value are the same digits. -/
theorem eq_of_digitsValue_eq {xs ys : List Char} (hlength : xs.length = ys.length)
    (hxs : ∀ c ∈ xs, c ∈ hexadecimalDigits) (hys : ∀ c ∈ ys, c ∈ hexadecimalDigits)
    (h : digitsValue xs = digitsValue ys) : xs = ys := by
  have hbound : ∀ {cs : List Char}, (∀ c ∈ cs, c ∈ hexadecimalDigits) →
      ∀ d ∈ (cs.map digitValue).reverse, d < 16 := by
    intro cs hcs d hd
    obtain ⟨c, hc, rfl⟩ := List.mem_map.mp (List.mem_reverse.mp hd)
    exact digitValue_lt (hcs c hc)
  rw [digitsValue_eq_ofDigits, digitsValue_eq_ofDigits] at h
  have hvalues := Nat.ofDigits_inj_of_len_eq (by decide) (by simpa using hlength) (hbound hxs)
    (hbound hys) h
  rw [← map_digitChar_digitValue hxs, List.reverse_injective hvalues, map_digitChar_digitValue hys]

theorem Hexadecimal.unique {value : Nat} {text text' : String} (h : Hexadecimal value text)
    (h' : Hexadecimal value text') : text = text' := by
  apply String.toList_injective
  apply eq_of_digitsValue_eq _ h.digits_mem h'.digits_mem (h.value_eq.trans h'.value_eq.symm)
  rw [String.length_toList, String.length_toList, h.length_eq, h'.length_eq]

theorem hexadecimal_digits (h : UInt32) : Hexadecimal h.toNat (String.ofList (digits h)) := by
  refine ⟨?_, ?_, ?_⟩
  · rw [String.length_ofList, length_digits]
  · rw [String.toList_ofList]
    intro c hc
    obtain ⟨i, -, rfl⟩ := List.mem_map.mp hc
    exact mem_hexadecimalDigits_iff.mpr ⟨_, Nat.mod_lt _ (by decide), rfl⟩
  · rw [String.toList_ofList, digitsValue_digits]

/-! ### Texts -/

/-- The bytes of a text as numbers. -/
def byteNumbers (text : String) : List Int :=
  (Text.encodeUtf8 text).data.toList.map fun byte => (byte.toNat : Int)

theorem ofInt_toNat (byte : UInt8) : UInt8.ofInt byte.toNat = byte := by
  apply UInt8.toNat_inj.mp
  have hbyte := byte.toNat_lt
  rw [toNat_ofInt]
  omega

theorem hashIntegers_byteNumbers (text : String) :
    hashIntegers (byteNumbers text) = hash (Text.encodeUtf8 text).data.toList := by
  rw [hashIntegers, byteNumbers, List.map_map]
  exact congrArg hash (List.map_id'' ofInt_toNat _)

/-- The hash of numbers is the remainder taken step by step, and can be continued; a fingerprint is
the one text of eight digits whose value is the hash of the bytes. -/
theorem hashIntegers_eq_foldl_mix :
    (∀ numbers, (hashIntegers numbers).toNat = numbers.foldl mix 2166136261 ∧
      (hashIntegers numbers).toNat < 2 ^ 32) ∧
    (∀ xs ys, (hashIntegers (xs ++ ys)).toNat = ys.foldl mix (hashIntegers xs).toNat) ∧
    (∀ numbers, numbers.foldl absorbSigned offsetBasis = hashIntegers numbers) ∧
    (∀ text digits, ofText text = digits ↔
      Hexadecimal (hashIntegers (byteNumbers text)).toNat digits) ∧
    ∀ text text', ofText text = ofText text' ↔
      hashIntegers (byteNumbers text) = hashIntegers (byteNumbers text') := by
  have htext : ∀ text, Hexadecimal (hashIntegers (byteNumbers text)).toNat (ofText text) := by
    intro text
    rw [hashIntegers_byteNumbers]
    exact hexadecimal_digits _
  refine ⟨?_, ?_, fun numbers => foldl_absorbSigned offsetBasis numbers, ?_, ?_⟩
  · intro numbers
    exact ⟨toNat_absorbBytes_ofInt offsetBasis numbers, (hashIntegers numbers).toNat_lt⟩
  · intro xs ys
    rw [hashIntegers_append, toNat_absorbBytes_ofInt]
  · intro text digits
    constructor
    · rintro rfl
      exact htext text
    · exact (htext text).unique
  · intro text text'
    constructor
    · intro heq
      apply UInt32.toNat_inj.mp
      rw [← (htext text).value_eq, heq, (htext text').value_eq]
    · intro heq
      have htext' := htext text'
      rw [← heq] at htext'
      exact (htext text).unique htext'

/-- The leading zero is written. -/
example : ofText "and" = "0f29c2a6" := by decide +kernel

end Fingerprint
end CanonicalListing
