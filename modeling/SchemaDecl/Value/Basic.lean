import SchemaDecl.Text.Basic

/-!
# Values of options

An option of a schema is set to a truth value, a numeric literal, a string, a bare identifier or
an aggregate of further values under keys. Numeric literals keep the spelling of their source.
The entries of an aggregate keep their order, and keys may repeat.

A value is written in place: its first line is not indented. An aggregate with entries opens a
brace, writes one entry per line one level deeper and closes the brace at its own level; an empty
aggregate is a pair of braces.

## Implementation notes

A `Value` occurs inside a list of pairs inside itself, so equality is decided by a Boolean
function that follows the tree, together with the proof that it means equality.
-/

namespace SchemaDecl

/-- What an option is set to. -/
inductive Value where
  | boolean (b : Bool)
  /-- A numeric literal as spelled. -/
  | number (literal : String)
  /-- A string, unescaped. -/
  | string (content : String)
  | identifier (name : String)
  | aggregate (entries : List (String × Value))

namespace Value

instance : Inhabited Value := ⟨.boolean false⟩

mutual

/-- Whether two values are the same, by recursion on both trees. -/
def same : Value → Value → Bool
  | .boolean a, .boolean b => a == b
  | .number a, .number b => a == b
  | .string a, .string b => a == b
  | .identifier a, .identifier b => a == b
  | .aggregate a, .aggregate b => sameEntries a b
  | _, _ => false

/-- Whether two lists of entries are the same. -/
def sameEntries : List (String × Value) → List (String × Value) → Bool
  | [], [] => true
  | (j, v) :: a, (k, w) :: b => j == k && same v w && sameEntries a b
  | _, _ => false

end

mutual

theorem eq_of_same : ∀ {v w : Value}, same v w = true → v = w
  | .boolean _, w, h | .number _, w, h | .string _, w, h | .identifier _, w, h => by
      cases w <;> simp_all [same]
  | .aggregate a, w, h => by
      cases w with
      | aggregate b =>
          simp only [same] at h
          rw [eq_of_sameEntries h]
      | _ => simp [same] at h

theorem eq_of_sameEntries :
    ∀ {a b : List (String × Value)}, sameEntries a b = true → a = b
  | [], [], _ => rfl
  | [], _ :: _, h => by simp [sameEntries] at h
  | _ :: _, [], h => by simp [sameEntries] at h
  | (j, v) :: a, (k, w) :: b, h => by
      simp only [sameEntries, Bool.and_eq_true, beq_iff_eq] at h
      rw [h.1.1, eq_of_same h.1.2, eq_of_sameEntries h.2]

end

mutual

theorem same_self : ∀ v : Value, same v v = true
  | .boolean _ | .number _ | .string _ | .identifier _ => by simp [same]
  | .aggregate entries => by rw [same, sameEntries_self entries]

theorem sameEntries_self : ∀ entries : List (String × Value), sameEntries entries entries = true
  | [] => by rw [sameEntries]
  | (_, v) :: rest => by simp [sameEntries, same_self v, sameEntries_self rest]

end

theorem same_iff {v w : Value} : same v w = true ↔ v = w :=
  ⟨eq_of_same, fun h => h ▸ same_self v⟩

instance : DecidableEq Value := fun _ _ => decidable_of_iff _ same_iff

/-- The truth value, if the value is one. -/
def truth? : Value → Option Bool
  | .boolean b => some b
  | _ => none

section Layout

open Textual

variable {τ : Type} [Append τ] [Textual τ]

mutual

/-- The text of a value whose line stands at the given level. -/
def layout (level : Nat) : Value → τ
  | .boolean b => ofString (if b then "true" else "false")
  | .number literal => ofString literal
  | .string content => ofChars (Text.Quoted.encode content.toList)
  | .identifier name => ofString name
  | .aggregate entries =>
      if entries.isEmpty then ofString "\x7b\x7d"
      else
        ofString "\x7b\n" ++ commaLines (level + 1) (entryLayouts (level + 1) entries)
          ++ indentation level ++ ofString "\x7d"

/-- The texts of entries, each a key, a colon and the value. -/
def entryLayouts (level : Nat) : List (String × Value) → List τ
  | [] => []
  | (key, value) :: rest =>
      (ofString key ++ ofString ": " ++ layout level value) :: entryLayouts level rest

end

/-- The text of a value as a string. -/
def render (level : Nat) (v : Value) : String := String.ofList (v.layout level)

end Layout

end Value

end SchemaDecl
