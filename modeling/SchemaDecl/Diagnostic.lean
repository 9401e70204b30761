import SchemaDecl.Text.Basic

/-!
# Diagnostics

A diagnostic tells a user about something found in a schema. Diagnostics are ordered by message,
then by severity, then by help: messages and helps by the code points of their characters, the
gravest severity first, and a missing help before any other.
-/

namespace SchemaDecl

/-- How grave a finding is. -/
inductive Severity where
  | error
  | warning
  | info
deriving DecidableEq, Repr

namespace Severity

/-- The name of a severity. -/
def name : Severity → String
  | .error => "error"
  | .warning => "warning"
  | .info => "info"

/-- The place of a severity among all, the gravest first. -/
def rank : Severity → Nat
  | .error => 0
  | .warning => 1
  | .info => 2

instance : Ord Severity where
  compare s t := compare s.rank t.rank

end Severity

/-- A finding as told to the user. -/
structure Diagnostic where
  message : String
  severity : Severity
  help : Option String
deriving DecidableEq, Repr

namespace Diagnostic

open Textual

variable {τ : Type} [Append τ] [Textual τ]

/-- The order of helps, a missing one first. -/
def compareHelp : Option String → Option String → Ordering
  | none, none => .eq
  | none, some _ => .lt
  | some _, none => .gt
  | some g, some h => compare g h

instance : Ord Diagnostic where
  compare d e :=
    (compare d.message e.message).then
      ((compare d.severity e.severity).then (compareHelp d.help e.help))

/-- The severity and the message, and the help on a line of its own. -/
def layout (d : Diagnostic) : τ :=
  ofString d.severity.name ++ ofString ": " ++ ofString d.message ++
    match d.help with
    | none => nothing
    | some help => ofString "\n  = help: " ++ ofString help

/-- The text of a diagnostic as a string. -/
def render (d : Diagnostic) : String := String.ofList d.layout

end Diagnostic

end SchemaDecl
