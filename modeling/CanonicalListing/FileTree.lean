import CanonicalListing.Command.Run

/-!
# A directory tree in memory

A run needs no disk: a tree of files answers what a path names and takes what is written.
Paths are relative and are walked component by component. Every component before the
last has to be a directory, an empty component or a dot stays where it is, and two dots
go up, but not out of the tree.
-/

namespace CanonicalListing

/-- The components of a path from the root of the tree. -/
abbrev Location := List String

structure FileTree where
  directories : List Location := []
  files : List (Location × ByteArray) := []

namespace FileTree

inductive Place where
  | directory (location : Location)
  | file (location : Location) (content : ByteArray)

def isDirectory (t : FileTree) (location : Location) : Bool :=
  location.isEmpty || t.directories.contains location

/-- Walks on from a directory. -/
def walk (t : FileTree) (location : Location) : List String → Option Place
  | [] => some (.directory location)
  | component :: rest =>
    if component = "" ∨ component = "." then t.walk location rest
    else if component = ".." then
      if location.isEmpty then none else t.walk location.dropLast rest
    else
      let below := location ++ [component]
      match t.files.lookup below with
      | some content => if rest.isEmpty then some (.file below content) else none
      | none => if t.isDirectory below then t.walk below rest else none

def components (path : String) : List String :=
  (path.toList.splitOn '/').map String.ofList

def isRelative (path : String) : Bool := path != "" && path.toList.head? != some '/'

def place? (t : FileTree) (path : String) : Option Place :=
  if isRelative path then t.walk [] (components path) else none

def node (t : FileTree) (path : String) : Option Command.Node :=
  (t.place? path).map fun
    | .directory _ => .directory
    | .file _ content => .file content

def put (t : FileTree) (location : Location) (content : ByteArray) : FileTree :=
  { t with files := (location, content) :: t.files.filter fun file => file.1 != location }

/-- The location that a write to the path fills, or why there is none. -/
def target (t : FileTree) (path : String) : Except String Location :=
  let refusal (reason : String) := .error (reason ++ ", open '" ++ path ++ "'")
  let parts := components path
  let name := parts.getLast?.getD ""
  if !isRelative path then refusal "ENOENT: no such file or directory"
  else
    match t.walk [] parts.dropLast with
    | none => refusal "ENOENT: no such file or directory"
    | some (.file _ _) => refusal "ENOTDIR: not a directory"
    | some (.directory location) =>
      if name = "" ∨ name = "." ∨ name = ".." ∨ t.isDirectory (location ++ [name]) then
        refusal "EISDIR: illegal operation on a directory"
      else .ok (location ++ [name])

def writeRefusal (t : FileTree) (path : String) : Option String :=
  match t.target path with
  | .ok _ => none
  | .error message => some message

def write (t : FileTree) (path : String) (content : ByteArray) : FileTree :=
  match t.target path with
  | .ok location => t.put location content
  | .error _ => t

/-- All directories above a location, and the location itself. -/
def addDirectory (t : FileTree) (location : Location) : FileTree :=
  { t with directories := t.directories ++ (List.range location.length).map fun n =>
      location.take (n + 1) }

/-- Adds a file and the directories above it. -/
def addFile (t : FileTree) (location : Location) (content : ByteArray) : FileTree :=
  (t.addDirectory location.dropLast).put location content

/-- Every file with its path, in the order of the paths. -/
def listing (t : FileTree) : List (String × ByteArray) :=
  (t.files.map fun file => ("/".intercalate file.1, file.2)).mergeSort fun a b =>
    Text.nameLE a.1 b.1

/-- The world of a run whose files are those of the tree. -/
def world (t : FileTree) (environment : Environment) (launch : Launch) : Command.World where
  node := t.node
  environment
  launch
  writeRefusal := t.writeRefusal

/-- The tree when the writes of a run have been carried out. -/
def writeAll (t : FileTree) (writes : List (String × String)) : FileTree :=
  writes.foldl (fun t write => t.write write.1 (Text.encodeUtf8 write.2)) t

/-- The empty path names nothing. -/
theorem node_empty (t : FileTree) : t.node "" = none := rfl

theorem mem_listing_iff {t : FileTree} {path : String} {content : ByteArray} :
    (path, content) ∈ t.listing ↔
      ∃ location, (location, content) ∈ t.files ∧ "/".intercalate location = path := by
  rw [listing, List.mem_mergeSort, List.mem_map]
  constructor
  · rintro ⟨⟨location, _⟩, hmem, hpath⟩
    obtain ⟨rfl, rfl⟩ := Prod.mk.inj hpath
    exact ⟨location, hmem, rfl⟩
  · rintro ⟨location, hmem, rfl⟩
    exact ⟨(location, content), hmem, rfl⟩

theorem listing_pairwise (t : FileTree) :
    t.listing.Pairwise fun a b => Text.nameLE a.1 b.1 = true := by
  have trans : ∀ a b c : String × ByteArray, Text.nameLE a.1 b.1 = true →
      Text.nameLE b.1 c.1 = true → Text.nameLE a.1 c.1 = true :=
    fun _ _ _ => Text.nameLE_trans
  exact List.pairwise_mergeSort trans (fun a b => Text.nameLE_total a.1 b.1) _

theorem writeRefusal_eq_none_iff {t : FileTree} {path : String} :
    t.writeRefusal path = none ↔ ∃ location, t.target path = .ok location := by
  unfold writeRefusal
  cases t.target path <;> simp

theorem write_of_target {t : FileTree} {path : String} {location : Location}
    (h : t.target path = .ok location) (content : ByteArray) :
    t.write path content = t.put location content := by
  rw [write, h]

end FileTree
end CanonicalListing
