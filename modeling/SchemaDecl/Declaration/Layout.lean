import SchemaDecl.Declaration.Basic

/-!
# Text of a declaration

A declaration is written as its documentation, its keyword and name, and a block in braces. The
options come first in the block, then the constants or the nested declarations, all one level
deeper. Each of the two parts, if it is not empty, begins with a line end. The first such line
end is that of the opening line, so that a blank line stands between the parts exactly if there
are both. A block with neither is closed on the opening line.
-/

namespace SchemaDecl

open Textual

variable {τ : Type} [Append τ] [Textual τ]

/-- A part of a block: a line end and the items, or nothing if there are no items. -/
def blockPart (items : List τ) : τ :=
  if items.isEmpty then nothing else ofString "\n" ++ concat items

/-- The text of a declaration with the given keyword and header around the given items. -/
def Header.block (level : Nat) (keyword : String) (header : Header) (items : List τ) : τ :=
  Text.commentBlock level header.documentation ++ indentation level ++ ofString keyword
    ++ ofString " " ++ ofString header.name ++ ofString " \x7b"
    ++ blockPart (header.options.map (SchemaOption.statement (level + 1))) ++ blockPart items
    ++ (if header.options.isEmpty && items.isEmpty then nothing else indentation level)
    ++ ofString "\x7d\n"

/-- The text of an enum at the given level. -/
def EnumDecl.layout (level : Nat) (decl : EnumDecl) : τ :=
  decl.toHeader.block level "enum" (decl.constants.map (Constant.layout (level + 1)))

namespace Declaration

mutual

/-- The text of a declaration at the given level. -/
def layout (level : Nat) : Declaration → τ
  | .enum decl => decl.layout level
  | .message header nested => header.block level "message" (layouts (level + 1) nested)

/-- The texts of declarations at the given level. -/
def layouts (level : Nat) : List Declaration → List τ
  | [] => []
  | d :: ds => layout level d :: layouts level ds

end

/-- The text of a declaration as a string. -/
def render (level : Nat) (d : Declaration) : String := String.ofList (d.layout level)

/-- The texts of declarations, one after the other, as a string. -/
def renderAll (level : Nat) (ds : List Declaration) : String :=
  String.ofList (concat (layouts level ds))

end Declaration

end SchemaDecl
