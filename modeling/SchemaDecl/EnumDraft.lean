import SchemaDecl.Declaration.Create

/-!
# Enums put together part by part

A draft collects the parts of an enum in any order. A later name, qualified name or documentation
replaces an earlier one, options and constants add up. The enum is made from the draft once its
name and its qualified name are known; documentation that was never given is empty.

A `Desk` is a place to work on a draft: a copy of the draft can be kept aside and taken up again.
-/

namespace SchemaDecl

/-- The parts of an enum as far as they are known. -/
structure EnumDraft where
  name : Option String
  qualifiedName : Option String
  /-- The documentation, if given. Empty documentation differs from none. -/
  documentation : Option String
  options : List SchemaOption
  constants : List Constant
deriving DecidableEq

namespace EnumDraft

/-- The draft of which nothing is known. -/
def blank : EnumDraft := ⟨none, none, none, [], []⟩

/-- A part of an enum. -/
inductive Part where
  | name (s : String)
  | qualifiedName (s : String)
  | documentation (s : String)
  | option (o : SchemaOption)
  | constant (c : Constant)

/-- The draft with a further part. -/
def add (draft : EnumDraft) : Part → EnumDraft
  | .name s => { draft with name := some s }
  | .qualifiedName s => { draft with qualifiedName := some s }
  | .documentation s => { draft with documentation := some s }
  | .option o => { draft with options := draft.options ++ [o] }
  | .constant c => { draft with constants := draft.constants ++ [c] }

/-- A part that has to be known. -/
def require (part : String) : Option String → Checked String
  | some s => return s
  | none => Checked.fail (.missingPart part)

/-- Makes the enum of the draft. A missing name is found before a missing qualified name, and
both before any repeated tag. -/
def build (draft : EnumDraft) : Checked EnumDecl := do
  let name ← require "name" draft.name
  let qualifiedName ← require "qualified_name" draft.qualifiedName
  EnumDecl.create ⟨name, qualifiedName, draft.documentation.getD "", draft.options⟩
    draft.constants

end EnumDraft

/-- A draft in work and a draft kept aside. -/
structure Desk where
  current : EnumDraft
  saved : EnumDraft

namespace Desk

/-- A desk with blank drafts. -/
def clear : Desk := ⟨.blank, .blank⟩

/-- What can be done at a desk. -/
inductive Step where
  | part (p : EnumDraft.Part)
  | save
  | load

/-- The desk after a step. -/
def step (desk : Desk) : Step → Desk
  | .part p => { desk with current := desk.current.add p }
  | .save => { desk with saved := desk.current }
  | .load => { desk with current := desk.saved }

end Desk

end SchemaDecl
