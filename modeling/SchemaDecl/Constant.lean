import SchemaDecl.Value.Basic

/-!
# Options and enum constants

An option sets a name to a value. The name of a custom option, one that the schema language does
not know by itself, is written in parentheses; the name itself is kept without them. An option has
two written forms. An assignment stands in place, as in the list behind an enum constant. A
statement stands on lines of its own, as in the body of a declaration.

A constant has a name, a tag of 32 bits with a sign, documentation and options. It is written as
its documentation, `name = tag`, the options in brackets if there are any, and a semicolon. Each
option stands on lines of its own, one level deeper than the constant.
-/

namespace SchemaDecl

open Textual

variable {τ : Type} [Append τ] [Textual τ]

/-- A name that is set to a value. -/
structure SchemaOption where
  /-- The name, without parentheses. -/
  name : String
  value : Value
  isCustom : Bool
deriving DecidableEq

namespace SchemaOption

/-- The first option of a name. Custom options count as well. -/
def find? (name : String) (options : List SchemaOption) : Option SchemaOption :=
  options.find? fun o => o.name == name

/-- Where the first option of a name stands. -/
def findIdx? (name : String) (options : List SchemaOption) : Option Nat :=
  options.findIdx? fun o => o.name == name

/-- The name as written. -/
def label (o : SchemaOption) : τ :=
  if o.isCustom then ofString "(" ++ ofString o.name ++ ofString ")" else ofString o.name

/-- The form that stands in place, with the value at the given level. -/
def assignment (level : Nat) (o : SchemaOption) : τ :=
  o.label ++ ofString " = " ++ o.value.layout level

/-- The form that stands on lines of its own. -/
def statement (level : Nat) (o : SchemaOption) : τ :=
  indentation level ++ ofString "option " ++ o.assignment level ++ ofString ";\n"

/-- The text of the assignment. -/
def renderAssignment (level : Nat) (o : SchemaOption) : String :=
  String.ofList (o.assignment level)

/-- The text of the statement. -/
def renderStatement (level : Nat) (o : SchemaOption) : String :=
  String.ofList (o.statement level)

end SchemaOption

/-- A named and tagged member of an enum. -/
structure Constant where
  /-- The name, which shares a scope with the constants of sibling enums. -/
  name : String
  tag : Int32
  documentation : String
  options : List SchemaOption
deriving DecidableEq

namespace Constant

/-- Options between brackets whose closing bracket stands at the given level; no brackets
without options. -/
def bracketed (level : Nat) (options : List SchemaOption) : τ :=
  if options.isEmpty then nothing
  else
    ofString " [\n" ++ commaLines (level + 1) (options.map (SchemaOption.assignment (level + 1)))
      ++ indentation level ++ ofString "]"

/-- The text of a constant at the given level. -/
def layout (level : Nat) (c : Constant) : τ :=
  Text.commentBlock level c.documentation ++ indentation level ++ ofString c.name
    ++ ofString " = " ++ ofChars (Text.decimal c.tag.toInt) ++ bracketed level c.options
    ++ ofString ";\n"

/-- The text of a constant as a string. -/
def render (level : Nat) (c : Constant) : String := String.ofList (c.layout level)

end Constant

end SchemaDecl
