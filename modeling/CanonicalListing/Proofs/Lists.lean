import Mathlib.Data.List.Forall2
import Mathlib.Data.List.Induction
import Mathlib.Data.List.TakeDrop

/-!
# Lists

What the proofs on texts, trees and runs need of lists in general: where a list is cut, one
entry that is changed in place, lists that are related entry by entry, and folds of steps
that can fail.
-/

namespace CanonicalListing

variable {α β γ : Type}

/-! ### Where a list is cut -/

/-- A run is cut off where it stops. -/
theorem span_append {p : α → Bool} {run rest : List α} (hrun : ∀ c ∈ run, p c = true)
    (hrest : ∀ c ∈ rest.head?, p c = false) : (run ++ rest).span p = (run, rest) := by
  rw [List.span_eq_takeWhile_dropWhile, List.takeWhile_append_of_pos hrun,
    List.dropWhile_append_of_pos hrun]
  cases rest with
  | nil => simp
  | cons c rest => simp [hrest c rfl]

/-- A lead that does not hold the mark ends before it. -/
theorem prefix_of_prefix_append_cons {lead xs ys : List α} {mark : α}
    (h : lead <+: xs ++ mark :: ys) (hmark : mark ∉ lead) : lead <+: xs := by
  obtain hlead | ⟨tail, htail⟩ := List.prefix_or_prefix_of_prefix h (List.prefix_append xs _)
  · exact hlead
  · cases tail with
    | nil => exact ⟨[], by rw [← htail]; simp⟩
    | cons b tail =>
      rw [← htail, List.prefix_append_right_inj, List.cons_prefix_cons] at h
      exact absurd (by rw [← htail, h.1]; simp) hmark

/-- A pair at the end of a text is at the end of its last part, unless it is cut in two. -/
theorem pair_suffix_append_iff {a b : α} {xs ys : List α} (hys : ys ≠ [])
    (hxs : xs.getLast? ≠ some a) : [a, b] <:+ xs ++ ys ↔ [a, b] <:+ ys := by
  constructor
  · rintro ⟨front, hfront⟩
    obtain ⟨init, last, rfl⟩ := (List.eq_nil_or_concat' ys).resolve_left hys
    have hcut : (front ++ [a]) ++ [b] = (xs ++ init) ++ [last] := by
      rw [List.append_assoc, List.append_assoc, ← hfront]
      rfl
    obtain ⟨hinit, hlast⟩ := List.append_inj' hcut rfl
    rw [hlast.symm]
    rcases List.eq_nil_or_concat' init with rfl | ⟨init, last', rfl⟩
    · rw [List.append_nil] at hinit
      exact absurd (hinit ▸ List.getLast?_concat) hxs
    · rw [← List.append_assoc] at hinit
      obtain ⟨-, hlast'⟩ := List.append_inj' hinit rfl
      exact ⟨init, by rw [← hlast', List.append_assoc]; rfl⟩
  · exact fun h => h.trans (List.suffix_append xs ys)

theorem intercalate_append {sep : List α} {xs ys : List (List α)} (hxs : xs ≠ [])
    (hys : ys ≠ []) :
    sep.intercalate (xs ++ ys) = sep.intercalate xs ++ sep ++ sep.intercalate ys := by
  induction xs with
  | nil => exact absurd rfl hxs
  | cons x xs ih =>
    by_cases hrest : xs = []
    · subst hrest
      rw [List.singleton_append, List.intercalate_cons_of_ne_nil hys, List.intercalate_singleton]
    · have hboth : xs ++ ys ≠ [] := List.append_ne_nil_of_left_ne_nil hrest _
      rw [List.cons_append, List.intercalate_cons_of_ne_nil hboth,
        List.intercalate_cons_of_ne_nil hrest, ih hrest]
      simp only [List.append_assoc]

/-! ### One entry changed in place -/

theorem modify_append_cons (f : α → α) (front : List α) (x : α) (back : List α) :
    (front ++ x :: back).modify front.length f = front ++ f x :: back := by
  induction front with
  | nil => rfl
  | cons y front ih => simp [ih]

theorem map_modify_of_comm {h : α → β} {f : α → α} {g : β → β}
    (hcomm : ∀ x, h (f x) = g (h x)) (xs : List α) (i : Nat) :
    (xs.modify i f).map h = (xs.map h).modify i g := by
  induction xs generalizing i with
  | nil => simp
  | cons x xs ih =>
    cases i with
    | zero => simp [hcomm]
    | succ i => simp [ih]

theorem lookup_filter_ne [BEq α] [LawfulBEq α] {x y : α} (h : x ≠ y) (entries : List (α × β)) :
    (entries.filter fun entry => entry.1 != y).lookup x = entries.lookup x := by
  induction entries with
  | nil => rfl
  | cons entry entries ih =>
    obtain ⟨key, value⟩ := entry
    by_cases hkey : key = y
    · have hne : (x == key) = false := beq_eq_false_iff_ne.mpr (hkey ▸ h)
      rw [List.filter_cons_of_neg (by simp [hkey]), ih, List.lookup_cons, hne]
    · rw [List.filter_cons_of_pos (by simp [hkey]), List.lookup_cons, List.lookup_cons, ih]

/-! ### Entry by entry -/

theorem map_eq_of_forall₂ {R : α → β → Prop} {f : α → γ} {g : β → γ} {xs : List α}
    {ys : List β} (h : List.Forall₂ R xs ys) (hR : ∀ a b, R a b → f a = g b) :
    xs.map f = ys.map g := by
  induction h with
  | nil => rfl
  | cons hab _ ih => rw [List.map_cons, List.map_cons, hR _ _ hab, ih]

theorem exists_of_mem_forall₂ {R : α → β → Prop} {xs : List α} {ys : List β}
    (h : List.Forall₂ R xs ys) :
    (∀ x ∈ xs, ∃ y ∈ ys, R x y) ∧ ∀ y ∈ ys, ∃ x ∈ xs, R x y := by
  induction h with
  | nil => simp
  | cons hxy _ ih =>
    simp only [List.forall_mem_cons, List.exists_mem_cons_iff]
    exact ⟨⟨.inl hxy, fun x hx => .inr (ih.1 x hx)⟩, .inl hxy, fun y hy => .inr (ih.2 y hy)⟩

theorem forall₂_imp_of_mem {R S : α → β → Prop} {xs : List α} {ys : List β}
    (h : List.Forall₂ R xs ys) (hRS : ∀ a ∈ xs, ∀ b ∈ ys, R a b → S a b) :
    List.Forall₂ S xs ys := by
  obtain ⟨hlength, hzip⟩ := List.forall₂_iff_zip.mp h
  refine List.forall₂_iff_zip.mpr ⟨hlength, ?_⟩
  intro a b hab
  obtain ⟨ha, hb⟩ := List.of_mem_zip hab
  exact hRS a ha b hb (hzip hab)

/-- If every entry is the value of a block, all of them are the values of a list of blocks. -/
theorem exists_map_eq (text : β → γ) (value : β → α) (print : α → γ) {xs : List α}
    (h : ∀ x ∈ xs, ∃ b, text b = print x ∧ value b = x) :
    ∃ bs : List β, bs.map text = xs.map print ∧ bs.map value = xs := by
  induction xs with
  | nil => exact ⟨[], rfl, rfl⟩
  | cons x xs ih =>
    obtain ⟨hx, hxs⟩ := List.forall_mem_cons.mp h
    obtain ⟨b, htext, hvalue⟩ := hx
    obtain ⟨bs, htexts, hvalues⟩ := ih hxs
    exact ⟨b :: bs, by simp [htext, htexts], by simp [hvalue, hvalues]⟩

/-! ### Blocks in a row -/

theorem length_flatMap_cons (head : α → β) (rest : α → List β) (xs : List α) :
    (xs.flatMap fun x => head x :: rest x).length = xs.length + (xs.flatMap rest).length := by
  induction xs with
  | nil => rfl
  | cons x xs ih =>
    simp only [List.flatMap_cons, List.length_append, List.length_cons, ih]
    omega

/-- Blocks that open with a marker and hold no other marker are told apart by their entries. -/
theorem forall₂_of_flatMap_marked {marker : β → γ} {inner : β → List γ} {p : γ → Bool}
    {bs bs' : List β} (hbs : ∀ b ∈ bs, p (marker b) = true ∧ ∀ x ∈ inner b, p x = false)
    (hbs' : ∀ b ∈ bs', p (marker b) = true ∧ ∀ x ∈ inner b, p x = false)
    (h : (bs.flatMap fun b => marker b :: inner b) = bs'.flatMap fun b => marker b :: inner b) :
    List.Forall₂ (fun b b' => marker b = marker b' ∧ inner b = inner b') bs bs' := by
  have hspan : ∀ (b : β) (bs : List β), (∀ x ∈ inner b, p x = false) →
      (∀ b ∈ bs, p (marker b) = true ∧ ∀ x ∈ inner b, p x = false) →
        (inner b ++ bs.flatMap fun b => marker b :: inner b).span (fun x => !p x) =
          (inner b, bs.flatMap fun b => marker b :: inner b) := by
    intro b bs hb hbs
    apply span_append
    · intro x hx
      simp [hb x hx]
    · intro x hx
      cases bs with
      | nil => simp at hx
      | cons b' bs =>
        obtain rfl : marker b' = x := by simpa using hx
        simp [(hbs b' List.mem_cons_self).1]
  induction bs generalizing bs' with
  | nil =>
    cases bs' with
    | nil => exact List.Forall₂.nil
    | cons b' bs' => simp at h
  | cons b bs ih =>
    cases bs' with
    | nil => simp at h
    | cons b' bs' =>
      obtain ⟨hb, hrest⟩ := List.forall_mem_cons.mp hbs
      obtain ⟨hb', hrest'⟩ := List.forall_mem_cons.mp hbs'
      rw [List.flatMap_cons, List.flatMap_cons, List.cons_append, List.cons_append] at h
      obtain ⟨hmarker, htail⟩ := List.cons.inj h
      have hcut := (hspan b bs hb.2 hrest).symm.trans
        ((congrArg _ htail).trans (hspan b' bs' hb'.2 hrest'))
      obtain ⟨hinner, hlater⟩ := Prod.mk.inj hcut
      exact List.Forall₂.cons ⟨hmarker, hinner⟩ (ih hrest hrest' hlater)

/-! ### Steps that can fail -/

/-- A run that succeeds succeeds up to its last step and in it. -/
theorem foldlM_concat_eq_ok_iff {ε : Type} {f : β → α → Except ε β} {xs : List α} {x : α}
    {init final : β} : (xs ++ [x]).foldlM f init = .ok final ↔
      ∃ before, xs.foldlM f init = .ok before ∧ f before x = .ok final := by
  rw [List.foldlM_append]
  cases hrun : xs.foldlM f init with
  | error e => simp [bind, Except.bind]
  | ok before =>
    have hstep : [x].foldlM f before = f before x := by
      rw [List.foldlM_cons]
      cases f before x <;> rfl
    simp [bind, Except.bind, hstep]

theorem foldlM_append_eq_error {ε : Type} {f : β → α → Except ε β} {xs : List α} {y : α}
    {init b : β} {e : ε} (hxs : xs.foldlM f init = .ok b) (hy : f b y = .error e) (ys : List α) :
    (xs ++ y :: ys).foldlM f init = .error e := by
  rw [List.foldlM_append, hxs]
  show (y :: ys).foldlM f b = .error e
  rw [List.foldlM_cons, hy]
  rfl

end CanonicalListing
