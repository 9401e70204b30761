/-!
# Text put together from pieces

The canonical text of a schema is described once, for any type `τ` whose values hold characters
and can be joined. Two types are used: `List Char`, where the text is simply there, and
`Printer` in `SchemaDecl.Text.Sink`, which hands the characters to a sink while it has room.

The smallest pieces are made of characters alone. An integer is written in base ten without
leading zeros. A string is written between double quotes, where a backslash, a double quote, a
newline, a carriage return and a tab are each a backslash and a letter, and every other character
stands for itself. Documentation is written as one comment line per line of the documentation.

A line ends at a newline; one carriage return directly before that newline belongs to the line
end. Text after the last newline is a line too, unless it is empty. A carriage return anywhere
else, also at the very end of the text, is an ordinary character.

## Implementation notes

Joining is the plain `++` of `τ`, taken as a parameter of the class. At `List Char` it is the
append of lists itself, so that the lemmas about lists apply to texts as they stand.
-/

namespace SchemaDecl

/-- Types of text: given characters can be made into a text, and texts are joined by `++`. -/
class Textual (τ : Type) [Append τ] where
  /-- The text that consists of exactly these characters. -/
  ofChars : List Char → τ

instance : Textual (List Char) where
  ofChars cs := cs

namespace Textual

variable {τ : Type} [Append τ] [Textual τ]

/-- The text of a string. -/
def ofString (s : String) : τ := ofChars s.toList

/-- The text without characters. -/
def nothing : τ := ofChars []

/-- The texts of a list, one after the other. -/
def concat : List τ → τ
  | [] => nothing
  | t :: ts => t ++ concat ts

/-- Two spaces for every level of nesting. -/
def indentation (level : Nat) : τ := ofChars (List.replicate (2 * level) ' ')

/-- Items on lines of their own at the given level, with a comma after each but the last. -/
def commaLines (level : Nat) : List τ → τ
  | [] => nothing
  | [item] => indentation level ++ item ++ ofString "\n"
  | item :: rest => indentation level ++ item ++ ofString ",\n" ++ commaLines level rest

@[simp] theorem ofChars_eq (cs : List Char) : (ofChars cs : List Char) = cs := rfl

@[simp] theorem ofString_eq (s : String) : (ofString s : List Char) = s.toList := rfl

@[simp] theorem nothing_eq : (nothing : List Char) = [] := rfl

@[simp] theorem concat_eq_flatten (ts : List (List Char)) : concat ts = ts.flatten := by
  induction ts with
  | nil => rfl
  | cons t ts ih => simp [concat, ih]

@[simp] theorem indentation_eq (level : Nat) :
    (indentation level : List Char) = List.replicate (2 * level) ' ' := rfl

end Textual

namespace Text

/-- The decimal form of an integer. -/
def decimal : Int → List Char
  | .ofNat n => Nat.toDigits 10 n
  | .negSucc n => '-' :: Nat.toDigits 10 (n + 1)

namespace Quoted

/-- The character that stands for `c` behind a backslash, if `c` cannot stand for itself. -/
def letter? : Char → Option Char
  | '\\' => some '\\'
  | '"' => some '"'
  | '\n' => some 'n'
  | '\r' => some 'r'
  | '\t' => some 't'
  | _ => none

/-- The characters between the quotes. -/
def escape : List Char → List Char
  | [] => []
  | c :: rest =>
      match letter? c with
      | some letter => '\\' :: letter :: escape rest
      | none => c :: escape rest

/-- The quoted form of a text. -/
def encode (content : List Char) : List Char := '"' :: (escape content ++ ['"'])

end Quoted

/-- The lines of a text without their line ends. -/
def lines : List Char → List (List Char)
  | [] => []
  | '\n' :: rest => [] :: lines rest
  | '\r' :: '\n' :: rest => [] :: lines rest
  | c :: rest =>
      match lines rest with
      | [] => [[c]]
      | line :: others => (c :: line) :: others

/-- The comment that holds one line of documentation. An empty line gives the two slashes alone. -/
def comment : List Char → List Char
  | [] => ['/', '/']
  | line => '/' :: '/' :: ' ' :: line

section Comments

open Textual

variable {τ : Type} [Append τ] [Textual τ]

/-- The comment lines of a documentation text, each at the given level. -/
def commentBlock (level : Nat) (documentation : String) : τ :=
  concat ((lines documentation.toList).map fun line =>
    indentation level ++ ofChars (comment line) ++ ofString "\n")

end Comments

end Text

end SchemaDecl
