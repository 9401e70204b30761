import SchemaDecl.Diagnostic
import SchemaDecl.Text.Basic

/-!
# Faults

A fault is the reason why a declaration cannot be made. Faults are ordered by their cause, then
by what the cause holds, in the order in which it holds it: tags as numbers, names by the code
points of their characters.
-/

namespace SchemaDecl

/-- Why a declaration cannot be made. -/
inductive Fault where
  | missingPart (part : String)
  | duplicateTag (tag : Int32) (enumName : String)
  | duplicateConstant (constant : String) (scope : String)
deriving DecidableEq

namespace Fault

open Textual

variable {τ : Type} [Append τ] [Textual τ]

/-- The place of a fault's cause among all causes. -/
def rank : Fault → Nat
  | .missingPart _ => 0
  | .duplicateTag .. => 1
  | .duplicateConstant .. => 2

instance : Ord Fault where
  compare
    | .missingPart p, .missingPart q => compare p q
    | .duplicateTag s m, .duplicateTag t n => (compare s t).then (compare m n)
    | .duplicateConstant c m, .duplicateConstant d n => (compare c d).then (compare m n)
    | f, g => compare f.rank g.rank

/-- The fault in one sentence. -/
def layout : Fault → τ
  | .missingPart part => ofString "`" ++ ofString part ++ ofString "` is required"
  | .duplicateTag tag enumName =>
      ofString "Duplicate tag " ++ ofChars (Text.decimal tag.toInt) ++ ofString " in "
        ++ ofString enumName
  | .duplicateConstant constant scope =>
      ofString "Duplicate enum constant " ++ ofString constant ++ ofString " in scope "
        ++ ofString scope

/-- The sentence as a string. -/
def message (f : Fault) : String := String.ofList f.layout

/-- What the user can do about a fault. A missing part is no fault of the user's schema, so that
there is no advice for it. -/
def help? : Fault → Option String
  | .missingPart _ => none
  | .duplicateTag .. =>
      some "add `option allow_alias = true;` to the enum if the constants are meant to be aliases"
  | .duplicateConstant constant scope =>
      some ("enum constants are scoped to `" ++ scope
        ++ "`, not to their enum; rename one of the `" ++ constant ++ "` constants")

/-- What a diagnostic of the fault says. -/
def finding : Fault → String
  | .missingPart part => (missingPart part).message ++ " to build an enum declaration"
  | f => f.message

/-- The fault as told to the user. -/
def diagnostic (f : Fault) : Diagnostic where
  message := f.finding
  severity := .error
  help := f.help?

end Fault

end SchemaDecl
