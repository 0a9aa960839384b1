import CanonicalListing.Fingerprint

/-!
# Local changes and the hash

Absorbing a byte can be undone: exclusive or by a byte can, and so can multiplication by the
prime, which is odd. So what differs before a common byte differs behind it. Of two bytes that
are exchanged, the first changes the word in its lowest eight bits only, and the multiplication
carries this change beyond them: the products are at least 256 apart, around the end of the
words as well. The second byte reaches only the lowest eight bits and cannot take it back.
-/

namespace CanonicalListing
namespace Fingerprint

/-! ### Absorbing can be undone -/

def primeInverse : UInt32 := 0x359C449B

theorem prime_mul_primeInverse : prime * primeInverse = 1 := by decide

theorem mul_prime_inj {x y : UInt32} (h : x * prime = y * prime) : x = y := by
  have hundone := congrArg (· * primeInverse) h
  simpa only [UInt32.mul_assoc, prime_mul_primeInverse, UInt32.mul_one] using hundone

theorem absorb_inj_word {x y : UInt32} {b : UInt8} (h : absorb x b = absorb y b) : x = y :=
  (UInt32.xor_left_inj _).mp (mul_prime_inj h)

theorem absorb_inj_byte {x : UInt32} {b b' : UInt8} (h : absorb x b = absorb x b') : b = b' :=
  UInt8.toUInt32_inj.mp ((UInt32.xor_right_inj x).mp (mul_prime_inj h))

/-- Words that differ are kept apart by the bytes that follow. -/
theorem absorbBytes_inj_word {x y : UInt32} {bytes : List UInt8}
    (h : absorbBytes x bytes = absorbBytes y bytes) : x = y := by
  induction bytes generalizing x y with
  | nil => exact h
  | cons b bytes ih => exact absorb_inj_word (ih h)

/-! ### What a byte cannot reach -/

/-- A word without its lowest eight bits. -/
def upper (x : UInt32) : Nat := x.toNat / 256

theorem upper_xor (x : UInt32) (b : UInt8) : upper (x ^^^ b.toUInt32) = upper x := by
  have hbyte : b.toNat / 2 ^ 8 = 0 := Nat.div_eq_of_lt b.toNat_lt
  rw [upper, upper, UInt32.toNat_xor, UInt8.toNat_toUInt32, Nat.xor_div_two_pow (n := 8), hbyte,
    Nat.xor_zero]

/-- Also where the sum runs over the end of the words. -/
theorem div_ne_of_far {r t : Nat} (hr : r < UInt32.size) (ht : 256 ≤ t)
    (ht' : t ≤ UInt32.size - 256) : (r + t) % UInt32.size / 256 ≠ r / 256 := by
  rcases Nat.lt_or_ge (r + t) UInt32.size with hin | hover
  · rw [Nat.mod_eq_of_lt hin]
    omega
  · rw [Nat.mod_eq_sub_mod hover, Nat.mod_eq_of_lt (by omega)]
    omega

theorem upper_mul_prime_ne_of_lt {x y : UInt32} (hupper : upper x = upper y)
    (hlt : x.toNat < y.toNat) : upper (y * prime) ≠ upper (x * prime) := by
  obtain ⟨k, hy⟩ := Nat.exists_eq_add_of_le (Nat.le_of_lt hlt)
  have hk : 1 ≤ k ∧ k ≤ 255 := by
    simp only [upper] at hupper
    omega
  have hprime : prime.toNat = 16777619 := rfl
  have hproduct : y.toNat * 16777619 % 2 ^ 32 =
      (x.toNat * 16777619 % 2 ^ 32 + k * 16777619) % 2 ^ 32 := by
    rw [hy, Nat.add_mul, Nat.mod_add_mod]
  simp only [upper, UInt32.toNat_mul, hprime]
  rw [hproduct]
  have hfar : k * 16777619 ≤ UInt32.size - 256 := by
    rw [UInt32.size]
    omega
  exact div_ne_of_far (Nat.mod_lt _ (by decide)) (by omega) hfar

/-- A change of the lowest eight bits is carried beyond them. -/
theorem upper_mul_prime_ne {x y : UInt32} (hupper : upper x = upper y) (hne : x ≠ y) :
    upper (x * prime) ≠ upper (y * prime) := by
  rcases Nat.lt_or_gt_of_ne fun heq => hne (UInt32.toNat_inj.mp heq) with hlt | hgt
  · exact (upper_mul_prime_ne_of_lt hupper hlt).symm
  · exact upper_mul_prime_ne_of_lt hupper.symm hgt

theorem upper_absorb_ne {x : UInt32} {b b' : UInt8} (hne : b ≠ b') :
    upper (absorb x b) ≠ upper (absorb x b') := by
  apply upper_mul_prime_ne
  · rw [upper_xor, upper_xor]
  · exact fun heq => hne (UInt8.toUInt32_inj.mp ((UInt32.xor_right_inj x).mp heq))

theorem absorb_ne_of_upper_ne {x y : UInt32} (hupper : upper x ≠ upper y) (b b' : UInt8) :
    absorb x b ≠ absorb y b' := by
  intro heq
  have hxor := congrArg upper (mul_prime_inj heq)
  rw [upper_xor, upper_xor] at hxor
  exact hupper hxor

theorem absorb_absorb_inj {x : UInt32} {a b a' b' : UInt8}
    (h : absorb (absorb x a) b = absorb (absorb x a') b') : a = a' ∧ b = b' := by
  by_cases hfirst : a = a'
  · subst hfirst
    exact ⟨rfl, absorb_inj_byte h⟩
  · exact absurd h (absorb_ne_of_upper_ne (upper_absorb_ne hfirst) b b')

/-! ### Changes at two neighbouring places -/

/-- The bytes differ, and only at the place `i` and the one after it. -/
structure DifferLocally (xs ys : List UInt8) : Prop where
  length : xs.length = ys.length
  ne : xs ≠ ys
  place : ∃ i, ∀ j, j ≠ i → j ≠ i + 1 → xs[j]? = ys[j]?

/-- At most two bytes are exchanged between a common front and a common back. -/
theorem DifferLocally.exists_window {xs ys : List UInt8} (h : DifferLocally xs ys) :
    ∃ front mid mid' back, xs = front ++ (mid ++ back) ∧ ys = front ++ (mid' ++ back) ∧
      mid.length = mid'.length ∧ mid.length ≤ 2 := by
  obtain ⟨i, hplace⟩ := h.place
  have hcut : ∀ zs : List UInt8, zs = zs.take i ++ ((zs.drop i).take 2 ++ zs.drop (i + 2)) := by
    intro zs
    rw [← List.drop_drop, List.take_append_drop, List.take_append_drop]
  have hfront : xs.take i = ys.take i := by
    apply List.ext_getElem?
    intro j
    by_cases hj : j < i
    · rw [List.getElem?_take_of_lt hj, List.getElem?_take_of_lt hj]
      exact hplace j (by omega) (by omega)
    · rw [List.getElem?_take_eq_none (by omega), List.getElem?_take_eq_none (by omega)]
  have hback : xs.drop (i + 2) = ys.drop (i + 2) := by
    apply List.ext_getElem?
    intro j
    rw [List.getElem?_drop, List.getElem?_drop]
    exact hplace _ (by omega) (by omega)
  refine ⟨xs.take i, (xs.drop i).take 2, (ys.drop i).take 2, xs.drop (i + 2), hcut xs, ?_, ?_, ?_⟩
  · rw [hfront, hback]
    exact hcut ys
  · rw [List.length_take, List.length_take, List.length_drop, List.length_drop, h.length]
  · exact List.length_take_le 2 _

theorem absorbBytes_window_inj {x : UInt32} {mid mid' : List UInt8}
    (hlength : mid.length = mid'.length) (hshort : mid.length ≤ 2)
    (h : absorbBytes x mid = absorbBytes x mid') : mid = mid' := by
  match mid, mid', hlength with
  | [], [], _ => rfl
  | [b], [b'], _ => rw [absorb_inj_byte h]
  | [a, b], [a', b'], _ =>
    obtain ⟨rfl, rfl⟩ := absorb_absorb_inj h
    rfl
  | _ :: _ :: _ :: _, _, _ => exact absurd hshort (by simp)

/-! ### The digits of a word -/

def digitValue (c : Char) : Nat := if c.isDigit then c.toNat - 48 else c.toNat - 87

/-- The number that hexadecimal digits stand for, the highest digit first. -/
def digitsValue (cs : List Char) : Nat := cs.foldl (fun value c => 16 * value + digitValue c) 0

theorem digitValue_digitChar : ∀ d < 16, digitValue (Nat.digitChar d) = d := by decide

/-- The digit below the ones that have been read. -/
theorem append_digit (n k : Nat) :
    16 * (n >>> (4 * (k + 1))) + n >>> (4 * k) % 16 = n >>> (4 * k) := by
  have hupper : n >>> (4 * (k + 1)) = n >>> (4 * k) / 16 := by
    rw [Nat.mul_succ, Nat.shiftRight_add]
    exact Nat.shiftRight_eq_div_pow _ 4
  rw [hupper]
  exact Nat.div_add_mod _ 16

/-- The lowest `k` digits, read behind the ones above them, complete the number. -/
theorem foldl_append_digit (n k : Nat) :
    (List.range k).reverse.foldl (fun value j => 16 * value + n >>> (4 * j) % 16) (n >>> (4 * k)) =
      n := by
  induction k with
  | zero => rfl
  | succ k ih => rw [List.range_succ, List.reverse_concat, List.foldl_cons, append_digit, ih]

theorem digitsValue_digits (h : UInt32) : digitsValue (digits h) = h.toNat := by
  have hnone : h.toNat >>> (4 * 8) = 0 := by
    rw [Nat.shiftRight_eq_div_pow]
    exact Nat.div_eq_of_lt h.toNat_lt
  have hdigit : ∀ j, digitValue (Nat.digitChar (h.toNat >>> (4 * j) % 16)) =
      h.toNat >>> (4 * j) % 16 :=
    fun j => digitValue_digitChar _ (Nat.mod_lt _ (by decide))
  have hlist : digits h = (List.range 8).reverse.map fun j =>
      Nat.digitChar (h.toNat >>> (4 * j) % 16) := rfl
  have hread := foldl_append_digit h.toNat 8
  rw [hnone] at hread
  rw [hlist, digitsValue, List.foldl_map]
  simp only [hdigit]
  exact hread

theorem digits_inj {h h' : UInt32} (heq : digits h = digits h') : h = h' := by
  apply UInt32.toNat_inj.mp
  rw [← digitsValue_digits h, heq, digitsValue_digits]

theorem ofText_ne_of_hash_ne {text text' : String}
    (h : hash (Text.encodeUtf8 text).data.toList ≠ hash (Text.encodeUtf8 text').data.toList) :
    ofText text ≠ ofText text' :=
  fun heq => h (digits_inj (String.ofList_injective heq))

/-- Bytes that differ at two neighbouring places have different hashes, and texts whose encodings
differ so have different fingerprints. -/
theorem hash_ne_of_differLocally :
    (∀ xs ys, DifferLocally xs ys → hash xs ≠ hash ys) ∧
      ∀ text text', DifferLocally (Text.encodeUtf8 text).data.toList
          (Text.encodeUtf8 text').data.toList → ofText text ≠ ofText text' := by
  have hbytes : ∀ xs ys, DifferLocally xs ys → hash xs ≠ hash ys := by
    intro xs ys hlocal heq
    obtain ⟨front, mid, mid', back, rfl, rfl, hlength, hshort⟩ := hlocal.exists_window
    rw [hash_append, hash_append, absorbBytes_append, absorbBytes_append] at heq
    have hmid := absorbBytes_window_inj hlength hshort (absorbBytes_inj_word heq)
    exact hlocal.ne (by rw [hmid])
  exact ⟨hbytes, fun text text' hlocal => ofText_ne_of_hash_ne (hbytes _ _ hlocal)⟩

/-- Both letters behind the `r` of two mnemonics are exchanged, and the encodings differ in the same
two places as the texts. -/
theorem hash_ne_of_exchanged_letters :
    DifferLocally "ret 8".toUTF8.data.toList "rol 8".toUTF8.data.toList ∧
      hash "ret 8".toUTF8.data.toList ≠ hash "rol 8".toUTF8.data.toList ∧
      ofText "ret 8" ≠ ofText "rol 8" := by
  have hlocal : DifferLocally "ret 8".toUTF8.data.toList "rol 8".toUTF8.data.toList := by
    refine ⟨by decide, by decide, 1, ?_⟩
    rintro (_ | _ | _ | j) hfirst hsecond
    · rfl
    · exact absurd rfl hfirst
    · exact absurd rfl hsecond
    · rfl
  exact ⟨hlocal, hash_ne_of_differLocally.1 _ _ hlocal, hash_ne_of_differLocally.2 _ _ hlocal⟩

end Fingerprint
end CanonicalListing
