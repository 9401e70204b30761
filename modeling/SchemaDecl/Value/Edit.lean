import SchemaDecl.Value.Basic

/-!
# Contents of a value and changes to it

What a value holds can be taken out by whoever expects its kind. A value can get a new content of
its own kind, an aggregate can get a further entry, and any value can be wrapped into an aggregate.
A change that is meant for another kind does not apply.
-/

namespace SchemaDecl.Value

/-- The kinds of values. -/
inductive Kind where
  | boolean
  | number
  | string
  | identifier
  | aggregate
deriving DecidableEq, Repr

/-- The kind of a value. -/
def kind : Value → Kind
  | .boolean _ => .boolean
  | .number _ => .number
  | .string _ => .string
  | .identifier _ => .identifier
  | .aggregate _ => .aggregate

/-- What a value holds apart from its kind. -/
inductive Content where
  | truth (b : Bool)
  /-- The content of a number, a string or an identifier. -/
  | text (s : String)
  | entries (entries : List (String × Value))

/-- The content of a value. -/
def content : Value → Content
  | .boolean b => .truth b
  | .number s | .string s | .identifier s => .text s
  | .aggregate entries => .entries entries

/-- The content of a value of the expected kind; a value of another kind is given back. -/
def extract (expected : Kind) (v : Value) : Except Value Content :=
  if v.kind = expected then .ok v.content else .error v

/-- A change to a value. -/
inductive Edit where
  | setBoolean (b : Bool)
  | setNumber (literal : String)
  | setString (content : String)
  | setIdentifier (name : String)
  | push (key : String) (value : Value)
  /-- Makes the value the only entry of an aggregate. -/
  | wrap (key : String)

/-- The value after the change, or `none` if the change is meant for another kind. -/
def edit? : Edit → Value → Option Value
  | .setBoolean b, .boolean _ => some (.boolean b)
  | .setNumber literal, .number _ => some (.number literal)
  | .setString content, .string _ => some (.string content)
  | .setIdentifier name, .identifier _ => some (.identifier name)
  | .push key value, .aggregate entries => some (.aggregate (entries ++ [(key, value)]))
  | .wrap key, v => some (.aggregate [(key, v)])
  | _, _ => none

end SchemaDecl.Value
