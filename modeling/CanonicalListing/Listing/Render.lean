import CanonicalListing.Text.Lines
import CanonicalListing.Listing.Basic

/-!
# Rendering a listing

Every symbol and every section is a heading with its content indented by one level
below it. Blocks are rendered inside out, so an instruction ends up two levels deep.
-/

namespace CanonicalListing

/-- A heading and, indented below it, the rendered entries. -/
def renderBlock (name : String) (entries : List String) : String :=
  name ++ ":\n" ++ Text.indent (String.join entries)

def Symbol.render (s : Symbol) (options : RenderOptions := {}) : String :=
  renderBlock s.name (s.instructions.map fun i => i.render options)

def Section.render (s : Section) (options : RenderOptions := {}) : String :=
  renderBlock s.name (s.symbols.map fun symbol => symbol.render options)

def Listing.render (l : Listing) (options : RenderOptions := {}) : String :=
  String.join (l.sections.map fun s => s.render options)

instance : ToString Symbol where
  toString s := s.render

instance : ToString Section where
  toString s := s.render

instance : ToString Listing where
  toString l := l.render

/-- Only the sections are rendered. -/
theorem Listing.render_congr {a b : Listing} (h : a.sections = b.sections)
    (options : RenderOptions) : a.render options = b.render options := by
  simp [render, h]

end CanonicalListing
