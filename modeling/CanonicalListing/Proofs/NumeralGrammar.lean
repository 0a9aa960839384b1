import CanonicalListing.Numeral
import CanonicalListing.Proofs.Trimming
import Mathlib.Data.List.Induction
import Mathlib.Data.Rat.Defs
import Mathlib.Algebra.Field.Rat
import Mathlib.Tactic.FieldSimp
import Mathlib.Tactic.Ring

/-!
# The grammar of numerals

A literal has an exact rational value: its digits make up a whole number, those behind
the point are worth a tenth of their value for each of them, the exponent is a power of
ten and the sign comes last. The reader takes a text for a finite numeral exactly if it is
a literal, and the numeral then has the value of the literal, however it is spelled.
-/

namespace CanonicalListing

/-- The opposite, if there is a minus. -/
def signed {α : Type} [Neg α] (negative : Bool) (x : α) : α := if negative then -x else x

namespace Numeral

/-- The exact value of a finite numeral. -/
def value? : Numeral → Option ℚ
  | infinity _ => none
  | scientific negative n e => some (signed negative (n * 10 ^ e))

/-! ### Literals -/

/-- Up to base 16; letters in either case. -/
def IsDigit (base : Nat) (c : Char) (d : Nat) : Prop :=
  d < base ∧ (c = Nat.digitChar d ∨ c = (Nat.digitChar d).toUpper)

/-- A run of digits and the number that it writes in the base. -/
inductive Digits (base : Nat) : List Char → Nat → Prop
  | nil : Digits base [] 0
  | snoc {cs n c d} : Digits base cs n → IsDigit base c d → Digits base (cs ++ [c]) (base * n + d)

inductive Sign : Bool → List Char → Prop
  | bare : Sign false []
  | plus : Sign false ['+']
  | minus : Sign true ['-']

/-- Digits with at most one point among them, at either end too. -/
inductive Mantissa : List Char → ℚ → Prop
  | whole {cs n} : cs ≠ [] → Digits 10 cs n → Mantissa cs n
  | point {front back n m} : front ≠ [] ∨ back ≠ [] → Digits 10 front n → Digits 10 back m →
      Mantissa (front ++ '.' :: back) (n + m / 10 ^ back.length)

/-- Nothing, or a letter with a whole number behind it. -/
inductive Exponent : List Char → ℤ → Prop
  | none : Exponent [] 0
  | power {letter sign negative cs n} : letter = 'e' ∨ letter = 'E' → Sign negative sign →
      cs ≠ [] → Digits 10 cs n → Exponent (letter :: (sign ++ cs)) (signed negative (n : ℤ))

inductive Unsigned : List Char → ℚ → Prop
  | intro {body x tail e} : Mantissa body x → Exponent tail e →
      Unsigned (body ++ tail) (x * 10 ^ e)

/-- The letter behind the zero that announces a base. -/
inductive BaseLetter : Char → Nat → Prop
  | hexadecimal {c} : c = 'x' ∨ c = 'X' → BaseLetter c 16
  | octal {c} : c = 'o' ∨ c = 'O' → BaseLetter c 8
  | binary {c} : c = 'b' ∨ c = 'B' → BaseLetter c 2

/-- The spellings of a finite number. -/
inductive Literal : List Char → ℚ → Prop
  | decimal {sign negative cs x} : Sign negative sign → Unsigned cs x →
      Literal (sign ++ cs) (signed negative x)
  | based {c base cs n} : BaseLetter c base → cs ≠ [] → Digits base cs n →
      Literal ('0' :: c :: cs) n

/-! ### Digits -/

theorem toNat_digitChar : ∀ d < 16,
    (Nat.digitChar d).toNat = (if d < 10 then 48 + d else 87 + d) ∧
      (Nat.digitChar d).toUpper.toNat = if d < 10 then 48 + d else 55 + d := by decide

theorem isDigit_iff {base d : Nat} {c : Char} (hbase : base ≤ 16) : IsDigit base c d ↔
    d < base ∧ (d < 10 ∧ c.toNat = 48 + d ∨ 10 ≤ d ∧ (c.toNat = 87 + d ∨ c.toNat = 55 + d)) := by
  refine and_congr_right fun hd => ?_
  obtain ⟨hlower, hupper⟩ := toNat_digitChar d (by omega)
  rw [← Char.toNat_inj, ← Char.toNat_inj, hlower, hupper]
  split <;> omega

theorem digit?_eq_some_iff {base d : Nat} {c : Char} (hbase : base ≤ 16) :
    digit? base c = some d ↔ IsDigit base c d := by
  have hle (a b : Char) : a ≤ b ↔ a.toNat ≤ b.toNat := UInt32.le_iff_toNat_le
  rw [isDigit_iff hbase, digit?, Option.filter_eq_some_iff, decide_eq_true_iff, and_comm]
  refine and_congr_right fun hd => ?_
  simp only [hle, Char.reduceToNat]
  split_ifs <;> simp only [Option.some.injEq, false_iff] <;> omega

theorem digits?_append_singleton (base : Nat) (cs : List Char) (c : Char) :
    digits? base (cs ++ [c]) =
      (digits? base cs).bind fun n => (digit? base c).map (base * n + ·) := by
  simp [digits?, List.foldlM_append]

theorem digits?_eq_some_iff {base n : Nat} {cs : List Char} (hbase : base ≤ 16) :
    digits? base cs = some n ↔ Digits base cs n := by
  constructor
  · intro h
    induction cs using List.reverseRecOn generalizing n with
    | nil =>
      obtain rfl := Option.some.inj h
      exact .nil
    | append_singleton cs c ih =>
      rw [digits?_append_singleton, Option.bind_eq_some_iff] at h
      obtain ⟨m, hm, hlast⟩ := h
      obtain ⟨d, hd, rfl⟩ := Option.map_eq_some_iff.mp hlast
      exact .snoc (ih hm) ((digit?_eq_some_iff hbase).mp hd)
  · intro h
    induction h with
    | nil => rfl
    | snoc _ hd ih =>
      rw [digits?_append_singleton, ih, Option.bind_some, (digit?_eq_some_iff hbase).mpr hd,
        Option.map_some]

theorem natural?_eq_some_iff {base n : Nat} {cs : List Char} (hbase : base ≤ 16) :
    natural? base cs = some n ↔ cs ≠ [] ∧ Digits base cs n := by
  rw [natural?, Option.ite_none_left_eq_some, List.isEmpty_iff, digits?_eq_some_iff hbase]

theorem Digits.unique {base n m : Nat} {cs : List Char} (hbase : base ≤ 16)
    (h : Digits base cs n) (h' : Digits base cs m) : n = m := by
  rw [← digits?_eq_some_iff hbase] at h h'
  exact Option.some.inj (h.symm.trans h')

/-- Digits that follow push those in front to the left. -/
theorem Digits.append {base n m : Nat} {front back : List Char} (hfront : Digits base front n)
    (hback : Digits base back m) :
    Digits base (front ++ back) (n * base ^ back.length + m) := by
  induction hback with
  | nil => simpa using hfront
  | @snoc cs k c d _ hd ih =>
    have hvalue : n * base ^ (cs ++ [c]).length + (base * k + d) =
        base * (n * base ^ cs.length + k) + d := by
      rw [List.length_append, List.length_singleton, Nat.pow_succ]
      ring
    rw [hvalue, ← List.append_assoc]
    exact ih.snoc hd

theorem Digits.exists_of_append {base n : Nat} {front back : List Char}
    (h : Digits base (front ++ back) n) : ∃ k m, Digits base front k ∧ Digits base back m := by
  induction back using List.reverseRecOn generalizing n with
  | nil => exact ⟨n, 0, by rwa [List.append_nil] at h, .nil⟩
  | append_singleton back c ih =>
    rw [← List.append_assoc] at h
    generalize hcs : front ++ back ++ [c] = cs at h
    cases h with
    | nil => simp at hcs
    | snoc hinit hd =>
      obtain ⟨rfl, hlast⟩ := List.append_inj' hcs rfl
      obtain rfl := List.singleton_inj.mp hlast
      obtain ⟨k, m, hk, hm⟩ := ih hinit
      exact ⟨k, _, hk, hm.snoc hd⟩

/-- Decimal digits are neither signs, points nor letters. -/
theorem Digits.mem_range {n : Nat} {cs : List Char} (h : Digits 10 cs n) :
    ∀ c ∈ cs, 48 ≤ c.toNat ∧ c.toNat ≤ 57 := by
  induction h with
  | nil => simp
  | snoc _ hd ih =>
    have hc := (isDigit_iff (by decide)).mp hd
    refine List.forall_mem_append.mpr ⟨ih, List.forall_mem_singleton.mpr ?_⟩
    omega

theorem Digits.notMem {n : Nat} {cs : List Char} (h : Digits 10 cs n) {c : Char}
    (hc : c.toNat < 48 ∨ 57 < c.toNat) : c ∉ cs := by
  intro hmem
  have hrange := h.mem_range c hmem
  omega

/-! ### The parts of a decimal -/

theorem coefficient?_of_notMem {cs : List Char} (h : '.' ∉ cs) :
    coefficient? cs = (natural? 10 cs).map (·, 0) := by
  rw [coefficient?, Text.span_ne_of_notMem h]
  cases cs with
  | nil => rfl
  | cons c cs => simp [natural?]

theorem coefficient?_of_point {front back : List Char} (h : '.' ∉ front) :
    coefficient? (front ++ '.' :: back) =
      if front = [] ∧ back = [] then none
      else (digits? 10 (front ++ back)).map (·, back.length) := by
  rw [coefficient?, Text.span_ne_append h]
  simp

theorem div_ten_pow_eq (n m places : ℕ) :
    ((n * 10 ^ places + m : ℕ) : ℚ) / 10 ^ places = n + m / 10 ^ places := by
  push_cast
  field_simp

/-- The coefficient is all the digits, of which the last ones are behind the point. -/
theorem mantissa_iff {cs : List Char} {x : ℚ} :
    Mantissa cs x ↔ ∃ n places, coefficient? cs = some (n, places) ∧ x = n / 10 ^ places := by
  constructor
  · rintro (@⟨_, n, hne, hcs⟩ | @⟨front, back, n, m, hne, hfront, hback⟩)
    · refine ⟨n, 0, ?_, by simp⟩
      have hnatural := (natural?_eq_some_iff (by decide)).mpr ⟨hne, hcs⟩
      rw [coefficient?_of_notMem (hcs.notMem (by decide)), hnatural, Option.map_some]
    · refine ⟨n * 10 ^ back.length + m, back.length, ?_, (div_ten_pow_eq n m back.length).symm⟩
      have hdigits := (digits?_eq_some_iff (by decide)).mpr (hfront.append hback)
      have hsome : ¬ (front = [] ∧ back = []) := by tauto
      rw [coefficient?_of_point (hfront.notMem (by decide)), if_neg hsome, hdigits,
        Option.map_some]
  · rintro ⟨n, places, hcoefficient, rfl⟩
    by_cases hpoint : '.' ∈ cs
    · obtain ⟨front, back, rfl, hfirst⟩ := List.eq_append_cons_of_mem hpoint
      rw [coefficient?_of_point hfirst, Option.ite_none_left_eq_some] at hcoefficient
      obtain ⟨hsome, hcoefficient⟩ := hcoefficient
      obtain ⟨k, hdigits, hk⟩ := Option.map_eq_some_iff.mp hcoefficient
      obtain ⟨rfl, rfl⟩ := Prod.mk.inj hk
      rw [digits?_eq_some_iff (by decide)] at hdigits
      obtain ⟨n, m, hfront, hback⟩ := hdigits.exists_of_append
      obtain rfl := hdigits.unique (by decide) (hfront.append hback)
      rw [div_ten_pow_eq]
      exact .point (by tauto) hfront hback
    · rw [coefficient?_of_notMem hpoint] at hcoefficient
      obtain ⟨k, hnatural, hk⟩ := Option.map_eq_some_iff.mp hcoefficient
      obtain ⟨rfl, rfl⟩ := Prod.mk.inj hk
      obtain ⟨hne, hdigits⟩ := (natural?_eq_some_iff (by decide)).mp hnatural
      simpa using Mantissa.whole hne hdigits

theorem exists_sign (cs : List Char) :
    ∃ sign, Sign (takeSign cs).1 sign ∧ cs = sign ++ (takeSign cs).2 := by
  unfold takeSign
  split
  · exact ⟨_, .plus, rfl⟩
  · exact ⟨_, .minus, rfl⟩
  · exact ⟨_, .bare, rfl⟩

theorem takeSign_append {sign rest : List Char} {negative : Bool} (h : Sign negative sign)
    (hrest : ∀ c ∈ rest.head?, c ≠ '+' ∧ c ≠ '-') :
    takeSign (sign ++ rest) = (negative, rest) := by
  cases h with
  | plus => rfl
  | minus => rfl
  | bare =>
    rw [List.nil_append, takeSign]
    · rintro rest rfl
      exact (hrest '+' rfl).1 rfl
    · rintro rest rfl
      exact (hrest '-' rfl).2 rfl

theorem Digits.head_ne_sign {n : Nat} {cs : List Char} (h : Digits 10 cs n) :
    ∀ c ∈ cs.head?, c ≠ '+' ∧ c ≠ '-' := by
  intro c hc
  have hmem := List.mem_of_mem_head? hc
  exact ⟨ne_of_mem_of_not_mem hmem (h.notMem (by decide)),
    ne_of_mem_of_not_mem hmem (h.notMem (by decide))⟩

theorem exponent?_cons (letter : Char) (rest : List Char) :
    exponent? (letter :: rest) =
      (natural? 10 (takeSign rest).2).map fun n : ℕ => signed (takeSign rest).1 (n : ℤ) := by
  simp only [exponent?, signed]
  cases natural? 10 (takeSign rest).2 <;> rfl

theorem exponent_iff {cs : List Char} {e : ℤ} (h : ∀ c ∈ cs.head?, c = 'e' ∨ c = 'E') :
    Exponent cs e ↔ exponent? cs = some e := by
  cases cs with
  | nil =>
    constructor
    · rintro ⟨⟩
      rfl
    · rintro ⟨⟩
      exact .none
  | cons letter rest =>
    rw [exponent?_cons, Option.map_eq_some_iff]
    constructor
    · rintro (_ | ⟨-, hsign, hne, hdigits⟩)
      rw [takeSign_append hsign hdigits.head_ne_sign]
      exact ⟨_, (natural?_eq_some_iff (by decide)).mpr ⟨hne, hdigits⟩, rfl⟩
    · rintro ⟨n, hnatural, rfl⟩
      obtain ⟨sign, hsign, hrest⟩ := exists_sign rest
      obtain ⟨hne, hdigits⟩ := (natural?_eq_some_iff (by decide)).mp hnatural
      have hpower := Exponent.power (h letter rfl) hsign hne hdigits
      rwa [← hrest] at hpower

/-! ### Finite numerals -/

theorem Mantissa.ne_nil {cs : List Char} {x : ℚ} (h : Mantissa cs x) : cs ≠ [] := by
  cases h with
  | whole hne _ => exact hne
  | point => simp

theorem Mantissa.mem_range {cs : List Char} {x : ℚ} (h : Mantissa cs x) :
    ∀ c ∈ cs, c = '.' ∨ 48 ≤ c.toNat ∧ c.toNat ≤ 57 := by
  intro c hc
  cases h with
  | whole _ hcs => exact .inr (hcs.mem_range c hc)
  | point _ hfront hback =>
    rcases List.mem_append.mp hc with hc | hc
    · exact .inr (hfront.mem_range c hc)
    · rcases List.mem_cons.mp hc with rfl | hc
      · exact .inl rfl
      · exact .inr (hback.mem_range c hc)

theorem Mantissa.notMem {cs : List Char} {x : ℚ} (h : Mantissa cs x) {c : Char}
    (hc : c ≠ '.' ∧ (c.toNat < 48 ∨ 57 < c.toNat)) : c ∉ cs := by
  intro hmem
  have hrange := (h.mem_range c hmem).resolve_left hc.1
  omega

theorem Exponent.head_eq_or {cs : List Char} {e : ℤ} (h : Exponent cs e) :
    ∀ c ∈ cs.head?, c = 'e' ∨ c = 'E' := by
  cases h with
  | none => simp
  | power hletter => simpa using hletter

theorem isExponentLetter_iff {c : Char} : isExponentLetter c = true ↔ c = 'e' ∨ c = 'E' := by
  simp [isExponentLetter]

/-- The exponent begins with the first letter for one. -/
theorem exists_exponent (cs : List Char) : ∃ body tail, cs = body ++ tail ∧
    (∀ c ∈ body, isExponentLetter c = false) ∧ ∀ c ∈ tail.head?, c = 'e' ∨ c = 'E' := by
  refine ⟨cs.takeWhile fun c => !isExponentLetter c, cs.dropWhile fun c => !isExponentLetter c,
    List.takeWhile_append_dropWhile.symm, ?_, ?_⟩
  · intro c hc
    simpa using List.all_eq_true.mp List.all_takeWhile c hc
  · intro c hc
    have hstop := List.head?_dropWhile_not (fun c => !isExponentLetter c) cs
    rw [Option.mem_def.mp hc] at hstop
    simpa [isExponentLetter, or_iff_not_imp_left] using hstop

theorem decimal?_append {negative : Bool} {body tail : List Char}
    (hbody : ∀ c ∈ body, isExponentLetter c = false)
    (htail : ∀ c ∈ tail.head?, c = 'e' ∨ c = 'E') (hword : body ++ tail ≠ "Infinity".toList) :
    decimal? negative (body ++ tail) = (coefficient? body).bind fun (n, places) =>
      (exponent? tail).map fun e => scientific negative n (e - places) := by
  have hspan : (body ++ tail).span (fun c => !isExponentLetter c) = (body, tail) := by
    refine span_append (fun c hc => by simp [hbody c hc]) fun c hc => ?_
    simp [isExponentLetter_iff.mpr (htail c hc)]
  rw [decimal?, if_neg hword, hspan]
  dsimp only
  rcases coefficient? body with _ | ⟨n, places⟩ <;> cases exponent? tail <;> rfl

theorem div_ten_pow_mul_zpow (n places : ℕ) (e : ℤ) :
    (n / 10 ^ places : ℚ) * 10 ^ e = n * 10 ^ (e - places) := by
  rw [zpow_sub₀ (by norm_num), zpow_natCast]
  ring

theorem decimal?_bind_value?_iff {negative : Bool} {cs : List Char} {y : ℚ} :
    (decimal? negative cs).bind value? = some y ↔ ∃ x, Unsigned cs x ∧ y = signed negative x := by
  constructor
  · intro h
    obtain ⟨body, tail, rfl, hbody, htail⟩ := exists_exponent cs
    by_cases hword : body ++ tail = "Infinity".toList
    · rw [decimal?, if_pos hword] at h
      cases h
    · obtain ⟨numeral, hdecimal, hvalue⟩ := Option.bind_eq_some_iff.mp h
      rw [decimal?_append hbody htail hword, Option.bind_eq_some_iff] at hdecimal
      obtain ⟨⟨n, places⟩, hcoefficient, hdecimal⟩ := hdecimal
      obtain ⟨e, hexponent, rfl⟩ := Option.map_eq_some_iff.mp hdecimal
      obtain rfl := Option.some.inj hvalue
      have hmantissa := mantissa_iff.mpr ⟨n, places, hcoefficient, rfl⟩
      refine ⟨_, .intro hmantissa ((exponent_iff htail).mpr hexponent), ?_⟩
      rw [div_ten_pow_mul_zpow]
  · rintro ⟨_, @⟨body, x, tail, e, hbody, htail⟩, rfl⟩
    have hword : body ++ tail ≠ "Infinity".toList := by
      obtain ⟨c, body, rfl⟩ := List.exists_cons_of_ne_nil hbody.ne_nil
      intro hword
      obtain rfl : c = 'I' := (List.cons.inj hword).1
      exact hbody.notMem (by decide) List.mem_cons_self
    have hletters : ∀ c ∈ body, isExponentLetter c = false := by
      intro c hc
      rw [← Bool.not_eq_true, isExponentLetter_iff]
      rintro (rfl | rfl) <;> exact hbody.notMem (by decide) hc
    obtain ⟨n, places, hcoefficient, rfl⟩ := mantissa_iff.mp hbody
    have hexponent := (exponent_iff htail.head_eq_or).mp htail
    rw [decimal?_append hletters htail.head_eq_or hword, hcoefficient, hexponent,
      div_ten_pow_mul_zpow]
    rfl

theorem radix?_eq_some_iff {c : Char} {base : Nat} :
    radix? c = some base ↔ BaseLetter c base := by
  constructor
  · intro h
    unfold radix? at h
    split_ifs at h with hsixteen height htwo
    all_goals obtain rfl := Option.some.inj h
    · exact .hexadecimal hsixteen
    · exact .octal height
    · exact .binary htwo
  · rintro ((rfl | rfl) | (rfl | rfl) | rfl | rfl) <;> rfl

theorem BaseLetter.le {c : Char} {base : Nat} (h : BaseLetter c base) : base ≤ 16 := by
  cases h <;> decide

theorem ofTrimmed?_of_baseLetter {c : Char} {base : Nat} (h : BaseLetter c base)
    (cs : List Char) :
    ofTrimmed? ('0' :: c :: cs) = (natural? base cs).map fun n => scientific false n 0 := by
  rw [ofTrimmed?, radix?_eq_some_iff.mpr h]

theorem ofTrimmed?_of_not_baseLetter {cs : List Char} (hne : cs ≠ [])
    (h : ∀ c rest base, cs = '0' :: c :: rest → ¬ BaseLetter c base) :
    ofTrimmed? cs = decimal? (takeSign cs).1 (takeSign cs).2 := by
  unfold ofTrimmed?
  split
  · exact absurd rfl hne
  · next c rest =>
    have hradix : radix? c = none :=
      Option.eq_none_iff_forall_ne_some.mpr fun base hbase =>
        h c rest base rfl (radix?_eq_some_iff.mp hbase)
    rw [hradix]
    rfl
  · rfl

theorem Unsigned.head_ne_sign {cs : List Char} {x : ℚ} (h : Unsigned cs x) :
    ∀ c ∈ cs.head?, c ≠ '+' ∧ c ≠ '-' := by
  obtain ⟨hbody, -⟩ := h
  obtain ⟨c, body, rfl⟩ := List.exists_cons_of_ne_nil hbody.ne_nil
  have hc : c ≠ '+' ∧ c ≠ '-' :=
    ⟨ne_of_mem_of_not_mem List.mem_cons_self (hbody.notMem (by decide)),
      ne_of_mem_of_not_mem List.mem_cons_self (hbody.notMem (by decide))⟩
  simpa using hc

theorem Literal.ne_nil {cs : List Char} {x : ℚ} (h : Literal cs x) : cs ≠ [] := by
  rcases h with ⟨-, ⟨hbody, -⟩⟩ | _
  · simp [hbody.ne_nil]
  · simp

/-- A decimal has no letter for a base behind a zero in front. -/
theorem Unsigned.not_baseLetter {c : Char} {cs : List Char} {x : ℚ}
    (h : Unsigned ('0' :: c :: cs) x) (base : Nat) : ¬ BaseLetter c base := by
  intro hletter
  have hc : ¬ (c = '.' ∨ 48 ≤ c.toNat ∧ c.toNat ≤ 57) ∧ ¬ (c = 'e' ∨ c = 'E') := by
    cases hletter with
    | hexadecimal hc => rcases hc with rfl | rfl <;> decide
    | octal hc => rcases hc with rfl | rfl <;> decide
    | binary hc => rcases hc with rfl | rfl <;> decide
  generalize hcs : '0' :: c :: cs = text at h
  obtain @⟨body, x, tail, e, hbody, htail⟩ := h
  obtain ⟨first, body, rfl⟩ := List.exists_cons_of_ne_nil hbody.ne_nil
  rw [List.cons_append, List.cons.injEq] at hcs
  cases body with
  | nil => exact hc.2 (htail.head_eq_or c (by rw [← List.nil_append tail, ← hcs.2]; rfl))
  | cons second body =>
    obtain rfl := (List.cons.inj hcs.2).1
    exact hc.1 (hbody.mem_range c (by simp))

/-- The reader takes the literals for finite numerals, at their value, and nothing else. -/
theorem ofTrimmed?_bind_value?_iff {cs : List Char} (hne : cs ≠ []) {y : ℚ} :
    (ofTrimmed? cs).bind value? = some y ↔ Literal cs y := by
  by_cases hbased : ∃ c rest base, cs = '0' :: c :: rest ∧ BaseLetter c base
  · obtain ⟨c, rest, base, rfl, hletter⟩ := hbased
    rw [ofTrimmed?_of_baseLetter hletter, Option.bind_map, Option.bind_eq_some_iff]
    have hvalue (n : ℕ) : value? (scientific false n 0) = some (n : ℚ) := by simp [value?, signed]
    constructor
    · rintro ⟨n, hnatural, hy⟩
      obtain rfl := Option.some.inj ((hvalue n).symm.trans hy)
      obtain ⟨hdigits, hrest⟩ := (natural?_eq_some_iff hletter.le).mp hnatural
      exact .based hletter hdigits hrest
    · intro hliteral
      generalize hcs : '0' :: c :: rest = cs at hliteral
      rcases hliteral with ⟨_ | _ | _, hx⟩ | ⟨hletter', hdigits, hrest⟩
      · rw [List.nil_append] at hcs
        exact absurd hletter ((hcs ▸ hx).not_baseLetter base)
      · cases hcs
      · cases hcs
      · cases hcs
        obtain rfl : base = _ := Option.some.inj
          ((radix?_eq_some_iff.mpr hletter).symm.trans (radix?_eq_some_iff.mpr hletter'))
        exact ⟨_, (natural?_eq_some_iff hletter.le).mpr ⟨hdigits, hrest⟩, hvalue _⟩
  · have hplain : ∀ c rest base, cs = '0' :: c :: rest → ¬ BaseLetter c base :=
      fun c rest base hcs hletter => hbased ⟨c, rest, base, hcs, hletter⟩
    rw [ofTrimmed?_of_not_baseLetter hne hplain, decimal?_bind_value?_iff]
    constructor
    · rintro ⟨x, hx, rfl⟩
      obtain ⟨sign, hsign, hcs⟩ := exists_sign cs
      have hliteral := Literal.decimal hsign hx
      rwa [← hcs] at hliteral
    · rintro (⟨hsign, hx⟩ | ⟨hletter, -, -⟩)
      · rw [takeSign_append hsign hx.head_ne_sign]
        exact ⟨_, hx, rfl⟩
      · exact absurd hletter (hplain _ _ _ rfl)

end Numeral
end CanonicalListing
