import SchemaDecl.Proofs.Trees

/-!
# Texts as lists of characters

For lists of characters, the parts of a text that depend on what is empty are brought into one
form each: the lines with commas between them, the value over several lines, the options in
brackets, and what follows the opening of a block. The line of a comment has a name of its own.
-/

namespace SchemaDecl

open Textual

/-- The text begins with a character that has the property. -/
def StartsWith (p : Char → Prop) (text : List Char) : Prop := ∃ c rest, text = c :: rest ∧ p c

section StartsWith

variable {p q : Char → Prop} {text : List Char}

theorem StartsWith.append (h : StartsWith p text) (rest : List Char) :
    StartsWith p (text ++ rest) := by
  obtain ⟨c, cs, rfl, hc⟩ := h
  exact ⟨c, cs ++ rest, rfl, hc⟩

theorem StartsWith.imp (h : StartsWith p text) (hpq : ∀ c, p c → q c) : StartsWith q text := by
  obtain ⟨c, cs, rfl, hc⟩ := h
  exact ⟨c, cs, rfl, hpq c hc⟩

theorem Text.startsWith_comment (line : List Char) : StartsWith (· = '/') (comment line) := by
  cases line with
  | nil => exact ⟨'/', _, rfl, rfl⟩
  | cons c rest => exact ⟨'/', _, rfl, rfl⟩

end StartsWith

/-- One item with its comma, if there are further ones, and the lines of these. -/
theorem commaLines_cons (level : Nat) (item : List Char) (rest : List (List Char)) :
    commaLines level (item :: rest) =
      indentation level ++ (item ++ if rest.isEmpty then [] else [',']) ++
        '\n' :: commaLines level rest := by
  cases rest with
  | nil => simp [commaLines]
  | cons next rest => simp [commaLines]

/-- The line of a comment at the given level. -/
def Text.commentLine (level : Nat) (line : List Char) : List Char :=
  indentation level ++ comment line ++ ['\n']

theorem Text.commentBlock_eq (level : Nat) (documentation : String) :
    (commentBlock level documentation : List Char) =
      ((lines documentation.toList).map (commentLine level)).flatten := by
  rw [commentBlock, concat_eq_flatten]
  rfl

/-- The characters of an entry at the given level. -/
def Value.entryChars (level : Nat) (e : String × Value) : List Char :=
  e.1.toList ++ (": ".toList ++ e.2.layout level)

theorem Value.layout_aggregate_nil (level : Nat) :
    ((aggregate []).layout level : List Char) = "\x7b\x7d".toList := rfl

theorem Value.layout_aggregate {level : Nat} {entries : List (String × Value)}
    (h : entries ≠ []) :
    ((aggregate entries).layout level : List Char) =
      '\x7b' :: '\n' :: commaLines (level + 1) (entries.map (entryChars (level + 1))) ++
        (indentation level ++ ['\x7d']) := by
  have hmap : (entryLayouts (level + 1) entries : List (List Char)) =
      entries.map (entryChars (level + 1)) := by
    rw [entryLayouts_eq_map]
    exact List.map_congr_left fun e _ => List.append_assoc _ _ _
  have hempty : ¬ entries.isEmpty = true := by simpa using h
  rw [layout, if_neg hempty, hmap]
  simp

theorem Constant.bracketed_nil (level : Nat) : (bracketed level [] : List Char) = [] := rfl

theorem Constant.bracketed_eq {level : Nat} {options : List SchemaOption} (h : options ≠ []) :
    (bracketed level options : List Char) =
      " [".toList ++ ('\n' :: commaLines (level + 1)
        (options.map (SchemaOption.assignment (level + 1))) ++ (indentation level ++ [']'])) := by
  have hempty : ¬ options.isEmpty = true := by simpa using h
  rw [bracketed, if_neg hempty]
  simp

/-- The opening of a block: keyword, name and brace. -/
def Header.opening (keyword : String) (header : Header) : List Char :=
  keyword.toList ++ (' ' :: (header.name.toList ++ " \x7b".toList))

/-- What follows the opening of a block: all items between the braces on lines of their own, with
an empty line between the two sorts if there are both. -/
def blockRest (level : Nat) (statements items : List (List Char)) : List Char :=
  if statements.isEmpty && items.isEmpty then "\x7d\n".toList
  else
    '\n' :: (statements.flatten ++ (if statements.isEmpty || items.isEmpty then [] else ['\n'])
      ++ items.flatten ++ (indentation level ++ ['\x7d'] ++ ['\n']))

theorem Header.block_eq (level : Nat) (keyword : String) (header : Header)
    (items : List (List Char)) :
    header.block level keyword items =
      Text.commentBlock level header.documentation ++ (indentation level ++
        header.opening keyword) ++
          blockRest level (header.options.map (SchemaOption.statement (level + 1))) items := by
  cases hoptions : header.options <;> cases items <;>
    simp [block, blockPart, opening, blockRest, hoptions]

end SchemaDecl
