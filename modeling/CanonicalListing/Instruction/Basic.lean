/-!
# Instructions

An instruction is a mnemonic, an operand text and a comment; the last two may be
empty. Rendering always keeps the mnemonic and puts the rest behind it only on request,
so two builds that differ in registers and addresses have the same default text.
-/

namespace CanonicalListing

structure Instruction where
  opcode : String
  operands : String := ""
  comment : String := ""
  deriving DecidableEq, Repr

/-- What a rendering keeps besides the mnemonics. -/
structure RenderOptions where
  operands : Bool := false
  comments : Bool := false
  deriving DecidableEq, Repr

namespace Instruction

/-- A part is written behind its lead if it is wanted and not empty. -/
def keptPart (keep : Bool) (lead part : String) : String :=
  if keep && !part.isEmpty then lead ++ part else ""

def render (i : Instruction) (options : RenderOptions := {}) : String :=
  i.opcode ++ keptPart options.operands " " i.operands ++
    keptPart options.comments " # " i.comment ++ "\n"

instance : ToString Instruction where
  toString i := i.render

@[simp] theorem keptPart_false (lead part : String) : keptPart false lead part = "" := rfl

@[simp] theorem keptPart_empty (keep : Bool) (lead : String) : keptPart keep lead "" = "" := by
  cases keep <;> rfl

theorem render_default (i : Instruction) : i.render = i.opcode ++ "\n" := by
  simp [render]

end Instruction
end CanonicalListing
