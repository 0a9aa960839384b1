import CanonicalListing.Text.Utf8
import CanonicalListing.Proofs.NameOrder
import Mathlib.Algebra.Group.Nat.Defs
import Mathlib.Data.List.Basic

/-!
# Byte sequences

A character below U+0080 is one byte. Any other is a lead byte, which says how many tail
bytes follow it, and these tails; together they spell its number, six bits to a tail, in
the shortest sequence that has room for it. Bytes that are no encoding of a text have a
flaw behind a part that is one: a byte that starts nothing, a sequence that is cut short, or
one that spells a number in more bytes than it needs, a surrogate, or a number above all
code points. A sequence begins in one way only, so the flaw and the text exclude each other.
-/

namespace CanonicalListing
namespace Text

def IsTail (b : UInt8) : Prop := 0x80 ≤ b.toNat ∧ b.toNat < 0xC0

/-- The byte asks for this many tails, and brings the highest bits of the number. -/
inductive Lead (b : UInt8) : Nat → Nat → Prop
  | one {high} : high < 0x20 → b.toNat = 0xC0 + high → Lead b 1 high
  | two {high} : high < 0x10 → b.toNat = 0xE0 + high → Lead b 2 high
  | three {high} : high < 0x08 → b.toNat = 0xF0 + high → Lead b 3 high

/-- A tail adds six bits. -/
def appendTail (v : Nat) (t : UInt8) : Nat := 64 * v + (t.toNat - 0x80)

/-- A lead byte with the tails that it asks for, and the number that they spell. -/
inductive Sequence (b : UInt8) (tails : List UInt8) : Nat → Prop
  | intro {high} : Lead b tails.length high → (∀ t ∈ tails, IsTail t) →
      Sequence b tails (tails.foldl appendTail high)

/-- The least number that takes this many tails. -/
def leastWith : Nat → Nat
  | 0 => 0
  | 1 => 0x80
  | 2 => 0x800
  | _ => 0x10000

/-- The bytes of one character. -/
inductive Encodes : List UInt8 → Char → Prop
  | single {b c} : b.toNat < 0x80 → c.toNat = b.toNat → Encodes [b] c
  | sequence {b tails} {c : Char} : Sequence b tails c.toNat → leastWith tails.length ≤ c.toNat →
      Encodes (b :: tails) c

inductive Spells : List UInt8 → List Char → Prop
  | nil : Spells [] []
  | cons {bs c rest cs} : Encodes bs c → Spells rest cs → Spells (bs ++ rest) (c :: cs)

/-- Numbers that a sequence with this many tails must not spell. -/
inductive Misfit (tails v : Nat) : Prop
  | overlong : v < leastWith tails → Misfit tails v
  | surrogate : 0xD800 ≤ v → v < 0xE000 → Misfit tails v
  | beyond : 0x10FFFF < v → Misfit tails v

/-- The bytes do not begin with a character. -/
inductive Flaw : List UInt8 → Prop
  | stray {b rest} : IsTail b ∨ 0xF8 ≤ b.toNat → Flaw (b :: rest)
  | truncated {b n high tails rest} : Lead b n high → (∀ t ∈ tails, IsTail t) →
      tails.length < n → (∀ t ∈ rest.head?, ¬ IsTail t) → Flaw (b :: (tails ++ rest))
  | misfit {b tails v rest} : Sequence b tails v → Misfit tails.length v →
      Flaw (b :: (tails ++ rest))

/-- Behind some characters there are bytes that begin with none. -/
def Flawed (bytes : List UInt8) : Prop :=
  ∃ front cs rest, bytes = front ++ rest ∧ Spells front cs ∧ Flaw rest

/-! ### The bytes of a character -/

theorem Lead.bounds {b : UInt8} {n high : Nat} (h : Lead b n high) :
    0xC0 ≤ b.toNat ∧ b.toNat < 0xF8 := by
  cases h <;> omega

theorem Lead.unique {b : UInt8} {n n' high high' : Nat} (h : Lead b n high)
    (h' : Lead b n' high') : n = n' ∧ high = high' := by
  cases h <;> cases h' <;> omega

theorem Sequence.exists_lead {b : UInt8} {tails : List UInt8} {v : Nat} (h : Sequence b tails v) :
    ∃ high, Lead b tails.length high ∧ (∀ t ∈ tails, IsTail t) ∧
      v = tails.foldl appendTail high := by
  obtain ⟨hlead, htails⟩ := h
  exact ⟨_, hlead, htails, rfl⟩

/-- The three lengths of a sequence. -/
theorem Sequence.cases_length {b : UInt8} {tails : List UInt8} {v : Nat}
    (h : Sequence b tails v) :
    (∃ t, tails = [t] ∧ IsTail t ∧
      ∃ high < 0x20, b.toNat = 0xC0 + high ∧ v = 64 * high + (t.toNat - 0x80)) ∨
    (∃ t u, tails = [t, u] ∧ (IsTail t ∧ IsTail u) ∧ ∃ high < 0x10, b.toNat = 0xE0 + high ∧
      v = 64 * (64 * high + (t.toNat - 0x80)) + (u.toNat - 0x80)) ∨
    ∃ t u w, tails = [t, u, w] ∧ (IsTail t ∧ IsTail u ∧ IsTail w) ∧
      ∃ high < 0x08, b.toNat = 0xF0 + high ∧
        v = 64 * (64 * (64 * high + (t.toNat - 0x80)) + (u.toNat - 0x80)) +
          (w.toNat - 0x80) := by
  obtain ⟨high, hlead, htails, rfl⟩ := h.exists_lead
  generalize hn : tails.length = n at hlead
  cases hlead with
  | one hhigh hb =>
    obtain ⟨t, rfl⟩ := List.length_eq_one_iff.mp hn
    exact .inl ⟨t, rfl, by simpa using htails, high, hhigh, hb, rfl⟩
  | two hhigh hb =>
    obtain ⟨t, u, rfl⟩ := List.length_eq_two.mp hn
    exact .inr (.inl ⟨t, u, rfl, by simpa using htails, high, hhigh, hb, rfl⟩)
  | three hhigh hb =>
    obtain ⟨t, u, w, rfl⟩ := List.length_eq_three.mp hn
    exact .inr (.inr ⟨t, u, w, rfl, by simpa using htails, high, hhigh, hb, rfl⟩)

theorem eq_ofNat {b : UInt8} {n : Nat} (h : n = b.toNat) : UInt8.ofNat n = b := by
  rw [h, UInt8.ofNat_toNat]

theorem Encodes.eq_utf8EncodeChar {bs : List UInt8} {c : Char} (h : Encodes bs c) :
    bs = String.utf8EncodeChar c := by
  cases h with
  | @single b c hb hc =>
    have hv : c.val.toNat = b.toNat := hc
    rw [String.utf8EncodeChar, hv, if_pos (by omega), UInt8.ofNat_toNat]
  | @sequence b tails c hseq hleast =>
    have hv : c.val.toNat = c.toNat := rfl
    rw [String.utf8EncodeChar, hv]
    obtain ⟨t, rfl, ht, high, hhigh, hb, hc⟩ | ⟨t, u, rfl, ⟨ht, hu⟩, high, hhigh, hb, hc⟩ |
      ⟨t, u, w, rfl, ⟨ht, hu, hw⟩, high, hhigh, hb, hc⟩ := hseq.cases_length
    · simp only [leastWith, List.length_singleton, IsTail] at hleast ht
      rw [if_neg (by omega), if_pos (by omega)]
      rw [eq_ofNat (b := b) (by omega), eq_ofNat (b := t) (by omega)]
    · simp only [leastWith, List.length_cons, List.length_nil, IsTail] at hleast ht hu
      rw [if_neg (by omega), if_neg (by omega), if_pos (by omega)]
      rw [eq_ofNat (b := b) (by omega), eq_ofNat (b := t) (by omega),
        eq_ofNat (b := u) (by omega)]
    · simp only [leastWith, List.length_cons, List.length_nil, IsTail] at hleast ht hu hw
      have hbound := toNat_char_bounds c
      rw [if_neg (by omega), if_neg (by omega), if_neg (by omega)]
      rw [eq_ofNat (b := b) (by omega), eq_ofNat (b := t) (by omega),
        eq_ofNat (b := u) (by omega), eq_ofNat (b := w) (by omega)]

theorem toNat_ofNat {n : Nat} (h : n < 256) : (UInt8.ofNat n).toNat = n := by
  rw [UInt8.toNat_ofNat', Nat.mod_eq_of_lt h]

/-- The lowest six bits of a number in each tail, the highest first. -/
def tailsOf : Nat → Nat → List UInt8
  | 0, _ => []
  | k + 1, v => tailsOf k (v / 64) ++ [.ofNat (0x80 + v % 64)]

theorem length_tailsOf (k v : Nat) : (tailsOf k v).length = k := by
  induction k generalizing v with
  | zero => rfl
  | succ k ih => simp [tailsOf, ih]

theorem isTail_of_mem_tailsOf {k v : Nat} {t : UInt8} (h : t ∈ tailsOf k v) : IsTail t := by
  induction k generalizing v with
  | zero => cases h
  | succ k ih =>
    rw [tailsOf, List.mem_append, List.mem_singleton] at h
    obtain hearlier | rfl := h
    · exact ih hearlier
    · rw [IsTail, toNat_ofNat (by omega)]
      omega

theorem foldl_tailsOf (k v : Nat) : (tailsOf k v).foldl appendTail (v / 64 ^ k) = v := by
  induction k generalizing v with
  | zero => rw [tailsOf, List.foldl_nil, Nat.pow_zero, Nat.div_one]
  | succ k ih =>
    have hhigh : v / 64 ^ (k + 1) = v / 64 / 64 ^ k :=
      calc v / 64 ^ (k + 1)
        _ = v / (64 * 64 ^ k) := congrArg (v / ·) Nat.pow_succ'
        _ = v / 64 / 64 ^ k := (Nat.div_div_eq_div_mul v 64 (64 ^ k)).symm
    have hlow : (UInt8.ofNat (0x80 + v % 64)).toNat = 0x80 + v % 64 := toNat_ofNat (by omega)
    calc (tailsOf (k + 1) v).foldl appendTail (v / 64 ^ (k + 1))
      _ = appendTail ((tailsOf k (v / 64)).foldl appendTail (v / 64 / 64 ^ k))
          (.ofNat (0x80 + v % 64)) := by rw [tailsOf, hhigh, List.foldl_append]; rfl
      _ = 64 * (v / 64) + ((UInt8.ofNat (0x80 + v % 64)).toNat - 0x80) :=
          congrArg (appendTail · _) (ih (v / 64))
      _ = 64 * (v / 64) + v % 64 := by omega
      _ = v := Nat.div_add_mod v 64

theorem Lead.sequence {b : UInt8} {k v : Nat} (h : Lead b k (v / 64 ^ k)) :
    Sequence b (tailsOf k v) v := by
  have hlead : Lead b (tailsOf k v).length (v / 64 ^ k) := by rwa [length_tailsOf]
  have hseq := Sequence.intro hlead fun t => isTail_of_mem_tailsOf
  rwa [foldl_tailsOf] at hseq

theorem Lead.encodes {b : UInt8} {k : Nat} {c : Char} (h : Lead b k (c.toNat / 64 ^ k))
    (hleast : leastWith k ≤ c.toNat) : Encodes (b :: tailsOf k c.toNat) c :=
  .sequence h.sequence (by rwa [length_tailsOf])

theorem exists_encodes (c : Char) : ∃ bs, Encodes bs c := by
  have hbound := toNat_char_bounds c
  by_cases hone : c.toNat < 0x80
  · have hb : (UInt8.ofNat c.toNat).toNat = c.toNat := toNat_ofNat (by omega)
    exact ⟨_, .single (by omega) hb.symm⟩
  by_cases htwo : c.toNat < 0x800
  · have hlead : Lead (.ofNat (0xC0 + c.toNat / 64 ^ 1)) 1 (c.toNat / 64 ^ 1) :=
      .one (by omega) (toNat_ofNat (by omega))
    exact ⟨_, hlead.encodes (by simp only [leastWith]; omega)⟩
  by_cases hthree : c.toNat < 0x10000
  · have hlead : Lead (.ofNat (0xE0 + c.toNat / 64 ^ 2)) 2 (c.toNat / 64 ^ 2) :=
      .two (by omega) (toNat_ofNat (by omega))
    exact ⟨_, hlead.encodes (by simp only [leastWith]; omega)⟩
  · have hlead : Lead (.ofNat (0xF0 + c.toNat / 64 ^ 3)) 3 (c.toNat / 64 ^ 3) :=
      .three (by omega) (toNat_ofNat (by omega))
    exact ⟨_, hlead.encodes (by simp only [leastWith]; omega)⟩

theorem encodes_iff {bs : List UInt8} {c : Char} :
    Encodes bs c ↔ bs = String.utf8EncodeChar c := by
  constructor
  · exact Encodes.eq_utf8EncodeChar
  · rintro rfl
    obtain ⟨bs, h⟩ := exists_encodes c
    exact h.eq_utf8EncodeChar ▸ h

theorem spells_iff {bs : List UInt8} {cs : List Char} :
    Spells bs cs ↔ bs = cs.flatMap String.utf8EncodeChar := by
  constructor
  · intro h
    induction h with
    | nil => rfl
    | cons hc _ ih => rw [List.flatMap_cons, ← ih, hc.eq_utf8EncodeChar]
  · rintro rfl
    induction cs with
    | nil => exact .nil
    | cons c cs ih => exact .cons (encodes_iff.mpr rfl) ih

/-! ### A character or a flaw -/

/-- The tails at the front, but no more than asked for. -/
theorem exists_tails (n : Nat) (bytes : List UInt8) :
    ∃ tails rest, bytes = tails ++ rest ∧ (∀ t ∈ tails, IsTail t) ∧
      (tails.length = n ∨ tails.length < n ∧ ∀ t ∈ rest.head?, ¬ IsTail t) := by
  induction n generalizing bytes with
  | zero => exact ⟨[], bytes, rfl, by simp, .inl rfl⟩
  | succ n ih =>
    cases bytes with
    | nil => exact ⟨[], [], rfl, by simp, .inr ⟨n.succ_pos, by simp⟩⟩
    | cons b bytes =>
      by_cases hb : IsTail b
      · obtain ⟨tails, rest, rfl, htails, hlength⟩ := ih bytes
        refine ⟨b :: tails, rest, rfl, List.forall_mem_cons.mpr ⟨hb, htails⟩, ?_⟩
        simpa using hlength
      · exact ⟨[], b :: bytes, rfl, by simp, .inr ⟨n.succ_pos, by simpa using hb⟩⟩

theorem exists_lead {b : UInt8} (hlo : 0xC0 ≤ b.toNat) (hhi : b.toNat < 0xF8) :
    ∃ n high, Lead b n high := by
  by_cases hone : b.toNat < 0xE0
  · exact ⟨1, b.toNat - 0xC0, .one (by omega) (by omega)⟩
  by_cases htwo : b.toNat < 0xF0
  · exact ⟨2, b.toNat - 0xE0, .two (by omega) (by omega)⟩
  · exact ⟨3, b.toNat - 0xF0, .three (by omega) (by omega)⟩

theorem exists_char {v : Nat} (h : v.isValidChar) : ∃ c : Char, c.toNat = v :=
  ⟨Char.ofNat v, by rw [Char.ofNat, dif_pos h]; rfl⟩

theorem exists_encodes_or_flaw (b : UInt8) (rest : List UInt8) :
    (∃ bs c more, b :: rest = bs ++ more ∧ Encodes bs c) ∨ Flaw (b :: rest) := by
  by_cases hsingle : b.toNat < 0x80
  · obtain ⟨c, hc⟩ := exists_char (v := b.toNat) (.inl (by omega))
    exact .inl ⟨[b], c, rest, rfl, .single hsingle hc⟩
  by_cases hstray : IsTail b ∨ 0xF8 ≤ b.toNat
  · exact .inr (.stray hstray)
  simp only [IsTail, not_or] at hstray
  obtain ⟨n, high, hlead⟩ := exists_lead (b := b) (by omega) (by omega)
  obtain ⟨tails, more, rfl, htails, hlength | ⟨hlength, hmore⟩⟩ := exists_tails n rest
  · subst hlength
    have hseq := Sequence.intro hlead htails
    generalize tails.foldl appendTail high = v at hseq
    by_cases hmisfit : Misfit tails.length v
    · exact .inr (.misfit hseq hmisfit)
    · have hfit : leastWith tails.length ≤ v :=
        Nat.le_of_not_lt fun h => hmisfit (.overlong h)
      have hvalid : v.isValidChar := by
        by_cases hlow : v < 0xD800
        · exact .inl hlow
        · have hhigh : ¬ v < 0xE000 := fun h => hmisfit (.surrogate (by omega) h)
          have htop : ¬ 0x10FFFF < v := fun h => hmisfit (.beyond h)
          exact .inr ⟨by omega, by omega⟩
      obtain ⟨c, rfl⟩ := exists_char hvalid
      exact .inl ⟨b :: tails, c, more, rfl, .sequence hseq hfit⟩
  · exact .inr (.truncated hlead htails hlength hmore)

/-- How a character begins says how many bytes it has. -/
theorem Encodes.length_eq {b : UInt8} {bs bs' : List UInt8} {c c' : Char}
    (h : Encodes (b :: bs) c) (h' : Encodes (b :: bs') c') : bs.length = bs'.length := by
  cases h with
  | single hb _ =>
    cases h' with
    | single _ _ => rfl
    | sequence hseq _ =>
      obtain ⟨high, hlead, -⟩ := hseq.exists_lead
      exact absurd hlead.bounds.1 (by omega)
  | sequence hseq _ =>
    obtain ⟨high, hlead, -⟩ := hseq.exists_lead
    cases h' with
    | single hb _ => exact absurd hlead.bounds.1 (by omega)
    | sequence hseq' _ =>
      obtain ⟨high', hlead', -⟩ := hseq'.exists_lead
      exact (hlead.unique hlead').1

theorem Encodes.exists_cons {bs : List UInt8} {c : Char} (h : Encodes bs c) :
    ∃ b tails, bs = b :: tails := by
  cases h with
  | single _ _ => exact ⟨_, _, rfl⟩
  | sequence _ _ => exact ⟨_, _, rfl⟩

theorem Encodes.append_inj {bs bs' xs ys : List UInt8} {c c' : Char} (h : Encodes bs c)
    (h' : Encodes bs' c') (heq : bs ++ xs = bs' ++ ys) : bs = bs' ∧ xs = ys := by
  obtain ⟨b, tails, rfl⟩ := h.exists_cons
  obtain ⟨b', tails', rfl⟩ := h'.exists_cons
  obtain rfl := (List.cons.inj heq).1
  exact List.append_inj heq (congrArg (· + 1) (h.length_eq h'))

/-- Tails that are asked for and come do not break off before the others. -/
theorem length_le_of_tails {tails tails' xs ys : List UInt8} (htails : ∀ t ∈ tails, IsTail t)
    (hrest : ∀ t ∈ ys.head?, ¬ IsTail t) (heq : tails ++ xs = tails' ++ ys) :
    tails.length ≤ tails'.length := by
  obtain ⟨more, rfl, rfl⟩ | ⟨more, rfl, rfl⟩ := List.append_eq_append_iff.mp heq
  · simp
  · cases more with
    | nil => simp
    | cons t more => exact absurd (htails t (by simp)) (hrest t rfl)

theorem Flaw.le_first {b : UInt8} {rest : List UInt8} (h : Flaw (b :: rest)) :
    0x80 ≤ b.toNat := by
  cases h with
  | stray hstray =>
    simp only [IsTail] at hstray
    omega
  | truncated hlead _ _ _ =>
    have hbounds := hlead.bounds
    omega
  | misfit hseq _ =>
    obtain ⟨high, hlead, -⟩ := hseq.exists_lead
    have hbounds := hlead.bounds
    omega

theorem Encodes.not_flaw {bs : List UInt8} {c : Char} (h : Encodes bs c) (more : List UInt8) :
    ¬ Flaw (bs ++ more) := by
  intro hflaw
  cases h with
  | single hb _ => exact absurd hflaw.le_first (Nat.not_le.mpr hb)
  | @sequence b tails c hseq hleast =>
    obtain ⟨high, hlead, htails, hvalue⟩ := hseq.exists_lead
    have hbounds := hlead.bounds
    rw [List.cons_append] at hflaw
    generalize hrest : tails ++ more = rest at hflaw
    cases hflaw with
    | stray hstray =>
      simp only [IsTail] at hstray
      omega
    | truncated hlead' _ hlength hstop =>
      have hle := length_le_of_tails htails hstop hrest
      have hn := (hlead.unique hlead').1
      omega
    | misfit hseq' hmisfit =>
      obtain ⟨high', hlead', -, hvalue'⟩ := hseq'.exists_lead
      obtain ⟨hn, rfl⟩ := hlead.unique hlead'
      obtain ⟨rfl, -⟩ := List.append_inj hrest hn
      rw [← hvalue] at hvalue'
      subst hvalue'
      have hchar := toNat_char_bounds c
      cases hmisfit with
      | overlong hshort => omega
      | surrogate hlo hhi => omega
      | beyond htop => omega

theorem spells_or_flawed (bytes : List UInt8) : (∃ cs, Spells bytes cs) ∨ Flawed bytes := by
  -- On the length: behind a character there are fewer bytes.
  induction hn : bytes.length using Nat.strongRecOn generalizing bytes with
  | _ n ih =>
    cases bytes with
    | nil => exact .inl ⟨[], .nil⟩
    | cons b rest =>
      obtain ⟨bs, c, more, hcut, hc⟩ | hflaw := exists_encodes_or_flaw b rest
      · obtain ⟨b', tails, rfl⟩ := hc.exists_cons
        rw [hcut]
        have hshorter : more.length < n := by
          rw [← hn, hcut]
          simp only [List.length_append, List.length_cons]
          omega
        obtain ⟨cs, hcs⟩ | ⟨front, cs, tail, rfl, hfront, hflaw⟩ := ih _ hshorter more rfl
        · exact .inl ⟨c :: cs, .cons hc hcs⟩
        · exact .inr ⟨_, c :: cs, tail, (List.append_assoc _ _ _).symm, .cons hc hfront, hflaw⟩
      · exact .inr ⟨[], [], b :: rest, rfl, .nil, hflaw⟩

theorem Flawed.not_spells {bytes : List UInt8} (h : Flawed bytes) (cs : List Char) :
    ¬ Spells bytes cs := by
  obtain ⟨front, cs', rest, rfl, hfront, hflaw⟩ := h
  -- Over the characters in front: the same are spelled first, and then nothing can be.
  induction hfront generalizing cs with
  | nil =>
    intro hspells
    rw [List.nil_append] at hspells
    cases hspells with
    | nil => cases hflaw
    | cons hc _ => exact hc.not_flaw _ hflaw
  | @cons bs c front cs' hc _ ih =>
    intro hspells
    generalize hbytes : bs ++ front ++ rest = bytes at hspells
    cases hspells with
    | nil =>
      obtain ⟨b, tails, rfl⟩ := hc.exists_cons
      cases hbytes
    | @cons bs' c' more cs hc' hmore =>
      rw [List.append_assoc] at hbytes
      obtain ⟨-, rfl⟩ := hc.append_inj hc' hbytes
      exact ih cs hmore

end Text
end CanonicalListing
