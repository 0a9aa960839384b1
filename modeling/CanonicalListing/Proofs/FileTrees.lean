import CanonicalListing.FileTree
import CanonicalListing.Proofs.WrittenText

/-!
# Writing into a tree

A write fills the place in the directory that the path leads to, which is no directory
itself. Walks to other places do not pass it, since a file has nothing below it. So after
the write every path that leads to the place names the new bytes, and every other path
names what it named before. A run in the world of a tree writes one file at most, where
its path leads, and a later run reads from there what the earlier one wrote.
-/

namespace CanonicalListing
namespace FileTree

variable {t : FileTree} {location folder : Location} {content : ByteArray} {path name : String}

/-! ### Walks -/

/-- A component that goes down, to an entry of that name. -/
structure IsName (name : String) : Prop where
  nonempty : name ≠ ""
  notDot : name ≠ "."
  notDots : name ≠ ".."

theorem walk_cons_name (h : IsName name) (rest : List String) :
    t.walk location (name :: rest) =
      match t.files.lookup (location ++ [name]) with
      | some content => if rest.isEmpty then some (.file (location ++ [name]) content) else none
      | none =>
        if t.isDirectory (location ++ [name]) then t.walk (location ++ [name]) rest else none := by
  have hgoes : ¬ (name = "" ∨ name = ".") := not_or.mpr ⟨h.nonempty, h.notDot⟩
  rw [walk, if_neg hgoes]
  exact if_neg h.notDots

theorem walk_cons_stay {component : String} (h : component = "" ∨ component = ".")
    (rest : List String) : t.walk location (component :: rest) = t.walk location rest := by
  rw [walk, if_pos h]

theorem walk_cons_up (rest : List String) :
    t.walk location (".." :: rest) =
      if location.isEmpty then none else t.walk location.dropLast rest := by
  rw [walk, if_neg (by decide), if_pos rfl]

theorem component_cases (component : String) :
    (component = "" ∨ component = ".") ∨ component = ".." ∨ IsName component := by
  by_cases hstay : component = "" ∨ component = "."
  · exact .inl hstay
  · obtain ⟨hempty, hdot⟩ := not_or.mp hstay
    by_cases hup : component = ".."
    · exact .inr (.inl hup)
    · exact .inr (.inr ⟨hempty, hdot, hup⟩)

/-- A walk goes on from the directory that its first part leads to. -/
theorem walk_append (xs : List String) {ys : List String} (hys : ys ≠ []) :
    t.walk location (xs ++ ys) =
      match t.walk location xs with
      | some (.directory below) => t.walk below ys
      | _ => none := by
  induction xs generalizing location with
  | nil => rfl
  | cons component xs ih =>
    rw [List.cons_append]
    rcases component_cases component with hstay | rfl | hname
    · rw [walk_cons_stay hstay, walk_cons_stay hstay, ih]
    · rw [walk_cons_up, walk_cons_up]
      split
      · rfl
      · exact ih
    · rw [walk_cons_name hname, walk_cons_name hname]
      cases t.files.lookup (location ++ [component]) with
      | some content =>
        have hmore : (xs ++ ys).isEmpty = false := by simp [hys]
        simp only [hmore]
        cases xs <;> rfl
      | none =>
        simp only
        split
        · exact ih
        · rfl

/-- The walk ends with a name in a directory, at this place; what is there is left open. -/
def LeadsTo (t : FileTree) (start : Location) (xs : List String) (location : Location) : Prop :=
  ∃ front name folder, xs = front ++ [name] ∧ IsName name ∧
    t.walk start front = some (.directory folder) ∧ folder ++ [name] = location

theorem LeadsTo.cons {start next : Location} {component : String} {xs : List String}
    (h : t.LeadsTo next xs location)
    (hstep : ∀ rest, t.walk start (component :: rest) = t.walk next rest) :
    t.LeadsTo start (component :: xs) location := by
  obtain ⟨front, name, folder, rfl, hname, hwalk, hfolder⟩ := h
  exact ⟨component :: front, name, folder, rfl, hname, (hstep front).trans hwalk, hfolder⟩

/-! ### One file more -/

theorem lookup_put (t : FileTree) (location : Location) (content : ByteArray) (place : Location) :
    (t.put location content).files.lookup place =
      if place = location then some content else t.files.lookup place := by
  by_cases h : place = location
  · simp [put, h]
  · have hne : (place == location) = false := beq_eq_false_iff_ne.mpr h
    rw [put, List.lookup_cons, hne, if_neg h]
    exact lookup_filter_ne h t.files

theorem isDirectory_put (t : FileTree) (location : Location) (content : ByteArray)
    (place : Location) : (t.put location content).isDirectory place = t.isDirectory place := rfl

/-- A walk gives what it gave before, unless it leads to the new file. -/
theorem walk_put_or (hplace : t.isDirectory location = false) (start : Location)
    (xs : List String) :
    (t.put location content).walk start xs = t.walk start xs ∨ t.LeadsTo start xs location := by
  -- Along the walk: both trees take the same steps until one of them looks at the new file.
  induction xs generalizing start with
  | nil => exact .inl rfl
  | cons component xs ih =>
    have hgoes (next : Location)
        (hstep : ∀ rest, t.walk start (component :: rest) = t.walk next rest)
        (hstep' : ∀ rest, (t.put location content).walk start (component :: rest) =
          (t.put location content).walk next rest) :
        (t.put location content).walk start (component :: xs) = t.walk start (component :: xs) ∨
          t.LeadsTo start (component :: xs) location := by
      obtain hsame | hleads := ih next
      · exact .inl (by rw [hstep, hstep', hsame])
      · exact .inr (hleads.cons hstep)
    rcases component_cases component with hstay | rfl | hname
    · exact hgoes start (walk_cons_stay hstay) (walk_cons_stay hstay)
    · by_cases hroot : start.isEmpty = true
      · exact .inl (by rw [walk_cons_up, walk_cons_up, if_pos hroot, if_pos hroot])
      · exact hgoes start.dropLast (fun rest => by rw [walk_cons_up, if_neg hroot])
          (fun rest => by rw [walk_cons_up, if_neg hroot])
    · by_cases hbelow : start ++ [component] = location
      · cases xs with
        | nil => exact .inr ⟨[], component, start, rfl, hname, rfl, hbelow⟩
        | cons next xs =>
          rw [walk_cons_name hname, walk_cons_name hname, hbelow, lookup_put, if_pos rfl, hplace]
          exact .inl (by cases t.files.lookup location <;> rfl)
      · have hlookup : (t.put location content).files.lookup (start ++ [component]) =
            t.files.lookup (start ++ [component]) := by
          rw [lookup_put, if_neg hbelow]
        by_cases hgo : t.files.lookup (start ++ [component]) = none ∧
            t.isDirectory (start ++ [component]) = true
        · exact hgoes (start ++ [component])
            (fun rest => by rw [walk_cons_name hname, hgo.1, hgo.2]; rfl)
            (fun rest => by rw [walk_cons_name hname, hlookup, isDirectory_put, hgo.1, hgo.2]; rfl)
        · rw [walk_cons_name hname, walk_cons_name hname, hlookup, isDirectory_put]
          refine .inl ?_
          cases hfile : t.files.lookup (start ++ [component]) with
          | some content => rfl
          | none =>
            have hno : t.isDirectory (start ++ [component]) = false :=
              Bool.eq_false_iff.mpr fun hdirectory => hgo ⟨hfile, hdirectory⟩
            rw [hno]
            rfl

/-- Directories stay where they are. -/
theorem walk_put_of_directory (hplace : t.isDirectory location = false) {start : Location}
    {xs : List String} (h : t.walk start xs = some (.directory folder)) :
    (t.put location content).walk start xs = some (.directory folder) := by
  obtain hsame | ⟨front, name, below, rfl, hname, hwalk, rfl⟩ :=
    @walk_put_or t location content hplace start xs
  · rw [hsame, h]
  · rw [walk_append front (List.cons_ne_nil _ _), hwalk] at h
    simp only [walk_cons_name hname, hplace] at h
    cases hfile : t.files.lookup (below ++ [name]) <;> simp [hfile] at h

theorem LeadsTo.walk_put {start : Location} {xs : List String} (h : t.LeadsTo start xs location)
    (hplace : t.isDirectory location = false) :
    (t.put location content).walk start xs = some (.file location content) := by
  obtain ⟨front, name, folder, rfl, hname, hwalk, rfl⟩ := h
  rw [walk_append front (List.cons_ne_nil _ _), walk_put_of_directory hplace hwalk]
  simp only [walk_cons_name hname, lookup_put, if_true]
  rfl

/-! ### Where a path leads -/

theorem target_of_components {front : List String} (hrelative : isRelative path = true)
    (hparts : components path = front ++ [name])
    (hwalk : t.walk [] front = some (.directory folder)) :
    t.target path = .ok location ↔
      IsName name ∧ t.isDirectory (folder ++ [name]) = false ∧ folder ++ [name] = location := by
  simp only [target, hparts, List.dropLast_concat, List.getLast?_concat, Option.getD_some,
    hrelative, hwalk, Bool.not_true, Bool.false_eq_true, if_false]
  by_cases hfree : name = "" ∨ name = "." ∨ name = ".." ∨ t.isDirectory (folder ++ [name]) = true
  · rw [if_pos hfree]
    constructor
    · intro h
      cases h
    · rintro ⟨hname, hplace, -⟩
      simp [hname.nonempty, hname.notDot, hname.notDots, hplace] at hfree
  · rw [if_neg hfree]
    simp only [not_or, Bool.not_eq_true] at hfree
    obtain ⟨hempty, hdot, hdots, hplace⟩ := hfree
    exact ⟨fun h => ⟨⟨hempty, hdot, hdots⟩, hplace, Except.ok.inj h⟩,
      fun h => congrArg Except.ok h.2.2⟩

/-- A write goes to a place that the path leads to and where no directory is. -/
theorem target_eq_ok_iff :
    t.target path = .ok location ↔ isRelative path = true ∧
      t.LeadsTo [] (components path) location ∧ t.isDirectory location = false := by
  constructor
  · intro h
    have hrelative : isRelative path = true := by
      rw [← Bool.not_eq_false]
      intro hno
      simp [target, hno] at h
    have hsome : components path ≠ [] := by simp [components]
    obtain ⟨front, name, hparts⟩ := (List.eq_nil_or_concat' _).resolve_left hsome
    obtain ⟨folder, hwalk⟩ : ∃ folder, t.walk [] front = some (.directory folder) := by
      cases hwalk : t.walk [] front with
      | none => simp [target, hrelative, hparts, hwalk] at h
      | some place =>
        cases place with
        | file _ _ => simp [target, hrelative, hparts, hwalk] at h
        | directory folder => exact ⟨folder, rfl⟩
    obtain ⟨hname, hplace, rfl⟩ := (target_of_components hrelative hparts hwalk).mp h
    exact ⟨hrelative, ⟨front, name, folder, hparts, hname, hwalk, rfl⟩, hplace⟩
  · rintro ⟨hrelative, ⟨front, name, folder, hparts, hname, hwalk, rfl⟩, hplace⟩
    exact (target_of_components hrelative hparts hwalk).mpr ⟨hname, hplace, rfl⟩

/-- Other components than names leave the place as it is. -/
example : (⟨[["d"]], []⟩ : FileTree).target "d/..//d/./out" = .ok ["d", "out"] := by
  decide +kernel

theorem place?_of_relative (h : isRelative path = true) (t : FileTree) :
    t.place? path = t.walk [] (components path) := by
  rw [place?, if_pos h]

/-- A write lands where the path leads, and nothing else changes. -/
theorem node_write (h : t.target path = .ok location) (content : ByteArray) (other : String) :
    (t.target other = .ok location → (t.write path content).node other = some (.file content)) ∧
    (t.target other ≠ .ok location → (t.write path content).node other = t.node other) := by
  obtain ⟨-, -, hplace⟩ := target_eq_ok_iff.mp h
  rw [write_of_target h]
  constructor
  · intro hother
    obtain ⟨hrelative, hleads, -⟩ := target_eq_ok_iff.mp hother
    rw [node, place?_of_relative hrelative, hleads.walk_put hplace]
    rfl
  · intro hother
    by_cases hrelative : isRelative other = true
    · obtain hsame | hleads := @walk_put_or t location content hplace [] (components other)
      · rw [node, node, place?_of_relative hrelative, place?_of_relative hrelative, hsame]
      · exact absurd (target_eq_ok_iff.mpr ⟨hrelative, hleads, hplace⟩) hother
    · rw [node, node, place?, place?, if_neg hrelative, if_neg hrelative]

/-! ### A run in the world of a tree -/

open Command in
theorem run_writes_cases (arguments : List String) (w : World) :
    (run arguments w).writes = [] ∨
      ∃ path text, (run arguments w).writes = [(path, text)] ∧ w.writeRefusal path = none := by
  obtain ⟨report, h⟩ | h | ⟨failure, h⟩ | ⟨-, ⟨-, -, hwrites⟩ | h⟩ := run_cases arguments w
  · exact .inl h.withholds.writes
  · exact .inl h.withholds.writes
  · exact .inl h.withholds.writes
  · exact .inl hwrites
  · obtain ⟨_, _, _, -, -, -, ⟨-, -, hwrites⟩ | ⟨path, -, hrefusal, -, hwrites⟩⟩ := h
    · exact .inl hwrites
    · exact .inr ⟨path, _, hwrites, hrefusal⟩

/-- A run leaves the tree alone or writes one text where its path leads; all that is told apart
from this place stays, and a later run that is given the path gets the text. -/
theorem run_writes_land (arguments : List String) (t : FileTree) (environment : Environment)
    (launch : Launch) (writes : List (String × String))
    (hwrites : (Command.run arguments (t.world environment launch)).writes = writes) :
    writes = [] ∧ t.writeAll writes = t ∨
      ∃ path text location, writes = [(path, text)] ∧ t.target path = .ok location ∧
        (∀ other, t.target other = .ok location →
          (t.writeAll writes).node other = some (.file (Text.encodeUtf8 text))) ∧
        (∀ other, t.target other ≠ .ok location →
          (t.writeAll writes).node other = t.node other) ∧
        ∀ environment' launch',
          Command.readSaved ((t.writeAll writes).world environment' launch') path = .ok text := by
  obtain hnone | ⟨path, text, hone, hrefusal⟩ :=
    run_writes_cases arguments (t.world environment launch)
  · obtain rfl := hwrites.symm.trans hnone
    exact .inl ⟨rfl, rfl⟩
  · obtain rfl := hwrites.symm.trans hone
    obtain ⟨location, htarget⟩ := writeRefusal_eq_none_iff.mp hrefusal
    have hnode := node_write htarget (Text.encodeUtf8 text)
    have hbare := Command.startsBare_of_mem_run arguments (t.world environment launch) text
      (by simp [hone])
    refine .inr ⟨path, text, location, rfl, htarget, fun other => (hnode other).1,
      fun other => (hnode other).2, fun environment' launch' => ?_⟩
    have hpath : (t.writeAll [(path, text)]).node path =
        some (.file (Text.encodeUtf8 text)) := (hnode path).1 htarget
    simp only [Command.readSaved, world, hpath, Text.decodeUtf8?_of_startsBare hbare]

end FileTree
end CanonicalListing
