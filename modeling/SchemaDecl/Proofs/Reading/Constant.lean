import SchemaDecl.Proofs.Outline
import SchemaDecl.Proofs.Reading.Notation
import SchemaDecl.Proofs.Reading.Value

/-!
# Reading comments, options and constants

A comment ends with its line, and comments end where no slash begins the next line. The name of a
custom option ends at its parenthesis, any other name ends at a space. The options of a constant
are announced by a space, since the semicolon follows the tag directly without them.
-/

namespace SchemaDecl

open Reading Textual

namespace Text

/-- Reads a comment up to the end of its line. -/
def readComment : Reader (List Char) := fun text => do
  let text ← "//".toList.isPrefixOf? (skipSpaces text)
  let (line, text) := text.span (· != '\n')
  return (line.drop 1, text.drop 1)

/-- The first visible character is a slash. -/
def beginsComment (text : List Char) : Bool := (skipSpaces text).head? == some '/'

/-- Reads comments on successive lines. -/
def readComments : Reader (List (List Char)) := many beginsComment readComment

theorem reads_comment (level : Nat) {line : List Char} (h : '\n' ∉ line) :
    Reads readComment (fun _ => True) line (commentLine level line) := by
  intro rest _
  obtain ⟨written, hcomment, hnewline, hdrop⟩ : ∃ written,
      comment line = "//".toList ++ written ∧ '\n' ∉ written ∧ written.drop 1 = line := by
    cases line with
    | nil => exact ⟨[], rfl, List.not_mem_nil, rfl⟩
    | cons c cs => exact ⟨' ' :: c :: cs, rfl, by simpa using h, rfl⟩
  have hspan : (written ++ '\n' :: rest).span (· != '\n') = (written, '\n' :: rest) :=
    span_append (fun c hc => by simpa using ne_of_mem_of_not_mem hc hnewline)
      (.inr ⟨'\n', rest, rfl, by decide⟩)
  have hskip : skipSpaces (commentLine level line ++ rest) =
      "//".toList ++ (written ++ '\n' :: rest) := by
    simp [commentLine, hcomment, skipSpaces_cons]
  simp only [readComment, hskip, hspan, hdrop, Option.bind_eq_bind, Option.bind_some,
    isPrefixOf?_append, List.drop_succ_cons, List.drop_zero, Option.pure_def]

theorem beginsComment_commentLine (level : Nat) (line rest : List Char) :
    beginsComment (commentLine level line ++ rest) = true := by
  cases line <;> simp [beginsComment, commentLine, comment, skipSpaces_cons]

theorem reads_commentBlock (level : Nat) (documentation : String) :
    Reads readComments (beginsComment · = false) (lines documentation.toList)
      (commentBlock level documentation) := by
  have hread := reads_many (g := id) (fun line _ => by simp [commentLine])
    (fun line _ => beginsComment_commentLine level line)
    fun line (hline : line ∈ lines documentation.toList) =>
      reads_comment level (newline_notMem_of_mem_lines hline)
  rwa [List.map_id, ← commentBlock_eq] at hread

theorem skipSpaces_indentation_append {name : List Char} (h : IsName name) (level : Nat)
    (rest : List Char) : skipSpaces (indentation level ++ (name ++ rest)) = name ++ rest := by
  rw [indentation_eq, skipSpaces_replicate_append]
  exact skipSpaces_eq_self ((h.startsWith_ne (by decide)).append rest)

/-- Comments are read up to a name. -/
theorem readComments_commentBlock {name : List Char} (h : IsName name) (level : Nat)
    (documentation : String) (rest : List Char) :
    readComments (commentBlock level documentation ++ (indentation level ++ (name ++ rest))) =
      some (lines documentation.toList, indentation level ++ (name ++ rest)) := by
  apply reads_commentBlock level documentation
  obtain ⟨c, cs, rfl, hslash⟩ := h.startsWith_ne (d := '/') (by decide)
  rw [beginsComment, skipSpaces_indentation_append h]
  simpa using hslash

end Text

namespace SchemaOption

/-- Reads the name of an option, and whether it stands in parentheses. -/
def readLabel : Reader (String × Bool)
  | '(' :: text =>
      let (name, text) := text.span (· != ')')
      some ((String.ofList name, true), text.drop 1)
  | text =>
      let (name, text) := text.span (· != ' ')
      some ((String.ofList name, false), text)

/-- Reads an option in place. -/
def readAssignment : Reader SchemaOption := fun text => do
  let ((name, isCustom), text) ← readLabel text
  let text ← " = ".toList.isPrefixOf? text
  let (value, text) ← Value.read text
  return (⟨name, value, isCustom⟩, text)

/-- Reads an option on lines of its own. -/
def readStatement : Reader SchemaOption := fun text => do
  let text ← "option ".toList.isPrefixOf? (skipSpaces text)
  let (o, text) ← readAssignment text
  let text ← ";\n".toList.isPrefixOf? text
  return (o, text)

variable {o : SchemaOption}

theorem reads_label (h : IsName o.name.toList) :
    Reads readLabel (StartsWith (· = ' ')) (o.name, o.isCustom) o.label := by
  rintro rest ⟨c, rest, rfl, rfl⟩
  cases hcustom : o.isCustom with
  | true =>
      have hspan := h.span_append (d := ')') (by decide) (' ' :: rest)
      simp only [label, hcustom, if_true, ofString_eq, List.append_assoc]
      change readLabel ('(' :: (o.name.toList ++ ')' :: ' ' :: rest)) = _
      simp only [readLabel, hspan, String.ofList_toList, List.drop_one, List.tail_cons]
  | false =>
      have hspan := h.span_append (d := ' ') (by decide) rest
      obtain ⟨c, cs, hname, hparenthesis⟩ := h.startsWith_ne (d := '(') (by decide)
      have htext : o.name.toList ++ ' ' :: rest = c :: (cs ++ ' ' :: rest) := by
        rw [hname, List.cons_append]
      simp only [label, hcustom, Bool.false_eq_true, if_false, ofString_eq]
      rw [htext, readLabel, ← htext]
      · simp only [hspan, String.ofList_toList]
      · exact fun others hothers => hparenthesis (List.cons.inj hothers).1

theorem reads_assignment (h : ∀ t ∈ o.tokens, t.isLexical = true) (level : Nat) :
    Reads readAssignment Delimited o (o.assignment level) := by
  intro rest hrest
  obtain ⟨hname, hvalue⟩ := forall_tokens_iff.mp h
  have hlabel := reads_label (isName_of_isDottedName hname)
    (" = ".toList ++ (o.value.layout level ++ rest)) ⟨' ', _, rfl, rfl⟩
  have hread := Value.reads_read hvalue level rest hrest
  have htext : o.assignment level ++ rest =
      o.label ++ (" = ".toList ++ (o.value.layout level ++ rest)) := by
    simp [assignment]
  simp only [readAssignment, htext, hlabel, Option.bind_eq_bind, Option.bind_some,
    isPrefixOf?_append, hread, Option.pure_def]

theorem reads_statement (h : ∀ t ∈ o.tokens, t.isLexical = true) (level : Nat) :
    Reads readStatement (fun _ => True) o (o.statement level) := by
  intro rest _
  have hread := reads_assignment h level (";\n".toList ++ rest) (.inr ⟨';', _, rfl, by decide⟩)
  have hskip : skipSpaces (o.statement level ++ rest) =
      "option ".toList ++ (o.assignment level ++ (";\n".toList ++ rest)) := by
    simp [statement, skipSpaces_cons]
  simp only [readStatement, hskip, Option.bind_eq_bind, Option.bind_some, isPrefixOf?_append,
    hread, Option.pure_def]

theorem startsWith_assignment (h : ∀ t ∈ o.tokens, t.isLexical = true) (level : Nat) {d : Char}
    (hd : isNameChar d = false) (hparenthesis : '(' ≠ d) :
    StartsWith (· ≠ d) (o.assignment level) := by
  have hname : IsName o.name.toList := isName_of_isDottedName (forall_tokens_iff.mp h).1
  have hlabel : StartsWith (· ≠ d) (o.label : List Char) := by
    rw [label]
    split
    · exact ⟨'(', _, rfl, hparenthesis⟩
    · exact hname.startsWith_ne hd
  exact (hlabel.append _).append _

end SchemaOption

namespace Constant

/-- Reads options in brackets, if there are any. -/
def readBracketed : Reader (List SchemaOption)
  | ' ' :: '[' :: '\n' :: text => readEnclosed ']' SchemaOption.readAssignment text
  | text => some ([], text)

/-- Reads a constant. -/
def read : Reader ConstantOutline := fun text => do
  let (documentation, text) ← Text.readComments text
  let (name, text) := (skipSpaces text).span (· != ' ')
  let text ← " = ".toList.isPrefixOf? text
  let (tag, text) ← Text.readDecimal text
  let (options, text) ← readBracketed text
  let text ← ";\n".toList.isPrefixOf? text
  return (⟨String.ofList name, Int32.ofInt tag, documentation, options⟩, text)

theorem reads_bracketed {options : List SchemaOption}
    (h : ∀ o ∈ options, ∀ t ∈ o.tokens, t.isLexical = true) (level : Nat) :
    Reads readBracketed (StartsWith (· = ';')) options (bracketed level options) := by
  rintro rest ⟨c, rest, rfl, rfl⟩
  by_cases hne : options = []
  · subst hne
    rfl
  · have hoptions := reads_enclosed ']' (by decide) (level + 1) level hne
      (fun o ho =>
        SchemaOption.startsWith_assignment (h o ho) (level + 1) (by decide) (by decide))
      (fun o ho rest hrest => SchemaOption.reads_assignment (h o ho) (level + 1) rest
        (delimited_of_endsLine hrest)) (';' :: rest) trivial
    rw [bracketed_eq hne]
    exact hoptions

theorem startsWith_bracketed (level : Nat) (options : List SchemaOption) (rest : List Char) :
    StartsWith (·.isDigit = false) (bracketed level options ++ (";\n".toList ++ rest)) := by
  by_cases hne : options = []
  · rw [hne, bracketed_nil]
    exact ⟨';', _, rfl, by decide⟩
  · rw [bracketed_eq hne]
    exact ⟨' ', _, rfl, by decide⟩

theorem reads_layout {c : Constant} (h : ∀ t ∈ c.tokens, t.isLexical = true) (level : Nat) :
    Reads read (fun _ => True) c.outline (c.layout level) := by
  intro rest _
  obtain ⟨hname, hoptions⟩ := forall_tokens_iff.mp h
  have hname : IsName c.name.toList := isName_of_isIdentifier hname
  let afterTag : List Char := bracketed level c.options ++ (";\n".toList ++ rest)
  let afterName : List Char := " = ".toList ++ (Text.decimal c.tag.toInt ++ afterTag)
  have htext : c.layout level ++ rest = Text.commentBlock level c.documentation ++
      (indentation level ++ (c.name.toList ++ afterName)) := by
    simp [layout, afterName, afterTag]
  have hcomments := Text.readComments_commentBlock hname level c.documentation afterName
  have hskip := Text.skipSpaces_indentation_append hname level afterName
  have hspan : (c.name.toList ++ afterName).span (· != ' ') = (c.name.toList, afterName) :=
    hname.span_append (by decide) _
  have htag := Text.reads_decimal c.tag.toInt afterTag (startsWith_bracketed level c.options rest)
  have hbracketed := reads_bracketed hoptions level (";\n".toList ++ rest) ⟨';', _, rfl, rfl⟩
  rw [htext]
  simp only [read, hcomments, hskip, hspan, htag, hbracketed, afterName, afterTag,
    Option.bind_eq_bind, Option.bind_some, isPrefixOf?_append, Option.pure_def, Int32.ofInt_toInt,
    String.ofList_toList, outline]

end Constant

end SchemaDecl
