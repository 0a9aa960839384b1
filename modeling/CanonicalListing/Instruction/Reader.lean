import CanonicalListing.Text.Blank
import CanonicalListing.Instruction.Basic

/-!
# Reading an instruction line

An instruction line starts with a blank. Everything from the first `#` on is the
comment; the trimmed text before it is the body. A body made of mnemonic words alone
is the whole mnemonic (`rep stos`, but also a register operand that looks like a word).
Otherwise the last run of non-blank characters is the operand text, and what stands
before it has to be mnemonic words on one line.
-/

namespace CanonicalListing
namespace Instruction

open Text

def isMnemonicChar (c : Char) : Bool := ('a' ≤ c && c ≤ 'z') || ('0' ≤ c && c ≤ '9')

/-- One or more words of mnemonic characters with blanks between them: nothing else occurs, and
both ends belong to a word. -/
def isMnemonic (cs : List Char) : Bool :=
  cs.all (fun c => isMnemonicChar c || isBlankChar c) &&
    cs.head?.any isMnemonicChar && cs.getLast?.any isMnemonicChar

/-- The text before the first `#`, and the trimmed text after it. -/
def splitComment (cs : List Char) : List Char × List Char :=
  let (code, rest) := cs.span (· ≠ '#')
  (code, trimChars (rest.drop 1))

/-- The last run of non-blank characters, behind the text before it without its final blanks. -/
def splitLast (body : List Char) : List Char × List Char :=
  let (last, rest) := body.reverse.span fun c => !isBlankChar c
  (trimEnd rest.reverse, last.reverse)

def ofBody? (body comment : List Char) : Option Instruction :=
  if isMnemonic body then some ⟨String.ofList body, "", String.ofList comment⟩
  else
    let (opcode, operands) := splitLast body
    if isMnemonic opcode && !opcode.any isLineTerminator then
      some ⟨String.ofList opcode, String.ofList operands, String.ofList comment⟩
    else none

/-- The instruction of a line, if the line is one. -/
def read? (line : String) : Option Instruction :=
  if line.toList.head?.any isBlankChar then
    let (code, comment) := splitComment line.toList
    ofBody? (trimChars code) comment
  else none

end Instruction
end CanonicalListing
