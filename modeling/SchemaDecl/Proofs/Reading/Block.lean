import SchemaDecl.Proofs.Reading.Constant

/-!
# Reading a block

A block holds options first and then items, which are constants or declarations. A line belongs
to the options if its first word is the keyword of options and no equals sign follows: a constant
may have the keyword as its name, but then the equals sign comes next. The items go on until the
brace closes the block.

## Implementation notes

Whether an item begins is asked with the spaces skipped, so the same question ends the items of a
block and the declarations of a whole text.
-/

namespace SchemaDecl

open Reading Textual

/-- An option on lines of its own begins. -/
def beginsStatement (text : List Char) : Bool :=
  let (word, rest) := (skipSpaces text).span (· != ' ')
  word == "option".toList && rest.tail.head? != some '='

/-- Something other than a line end or the end of a block comes next. -/
def beginsItem (text : List Char) : Bool :=
  (skipSpaces text).head?.any fun c => c != '\n' && c != '\x7d'

/-- Reads what follows the opening of a block whose items are read as given. -/
def readBlock {α : Type} (read : Reader α) : Reader (List SchemaOption × List α)
  | '\x7d' :: '\n' :: text => some (([], []), text)
  | '\n' :: text => do
      let (options, text) ← many beginsStatement SchemaOption.readStatement text
      let (items, text) ← many beginsItem read (text.dropWhile (· == '\n'))
      let text ← "\x7d\n".toList.isPrefixOf? (skipSpaces text)
      return ((options, items), text)
  | _ => none

/-- A text that begins an item, and no option. -/
def IsItem (text : List Char) : Prop :=
  ∀ rest, beginsItem (text ++ rest) = true ∧ beginsStatement (text ++ rest) = false

/-- A text that begins with neither an empty line nor an option. -/
def FollowsOptions (text : List Char) : Prop :=
  (skipSpaces text).head? ≠ some '\n' ∧ beginsStatement text = false

theorem IsItem.ne_nil {item : List Char} (h : IsItem item) : item ≠ [] := by
  rintro rfl
  have hitem := (h []).1
  cases hitem

theorem IsItem.followsOptions {item : List Char} (h : IsItem item) (rest : List Char) :
    FollowsOptions (item ++ rest) := by
  obtain ⟨hitem, hstatement⟩ := h rest
  refine ⟨?_, hstatement⟩
  intro hnewline
  rw [beginsItem, hnewline] at hitem
  exact absurd hitem (by decide)

theorem beginsStatement_eq_false {text : List Char} (h : ∀ rest, skipSpaces text ≠ 'o' :: rest) :
    beginsStatement text = false := by
  rw [beginsStatement, List.span_eq_takeWhile_dropWhile]
  cases htext : skipSpaces text with
  | nil => rfl
  | cons c rest =>
      have hc : c ≠ 'o' := by
        rintro rfl
        exact h rest htext
      by_cases hspace : c = ' '
      · subst hspace
        rfl
      · simp [hspace, hc]

theorem beginsStatement_statement {o : SchemaOption} (h : ∀ t ∈ o.tokens, t.isLexical = true)
    (level : Nat) (rest : List Char) : beginsStatement (o.statement level ++ rest) = true := by
  have hstart := (SchemaOption.startsWith_assignment h level (d := '=') (by decide) (by decide))
  obtain ⟨c, cs, hassignment, hc⟩ := hstart
  have hskip : skipSpaces (o.statement level ++ rest) =
      "option".toList ++ ' ' :: (c :: cs ++ (";\n".toList ++ rest)) := by
    simp [SchemaOption.statement, skipSpaces_cons, hassignment]
  have hkeyword : IsName "option".toList := isName_of_isIdentifier (by decide)
  rw [beginsStatement, hskip, hkeyword.span_append (by decide)]
  simpa using hc

theorem dropWhile_newline_eq_self {text : List Char}
    (h : (skipSpaces text).head? ≠ some '\n') : text.dropWhile (· == '\n') = text := by
  cases text with
  | nil => rfl
  | cons c rest =>
      apply List.dropWhile_cons_of_neg
      intro hc
      rw [beq_iff_eq.mp hc, skipSpaces_cons (by decide)] at h
      exact h rfl

section Block

variable {α β : Type} {read : Reader α} {f : β → List Char} {g : β → α}
  {options : List SchemaOption} {items : List β}

/-- The items of a block and the line that closes it. -/
def itemsAndEnd (level : Nat) (items : List (List Char)) : List Char :=
  items.flatten ++ (indentation level ++ ['\x7d', '\n'])

theorem followsOptions_itemsAndEnd (level : Nat) {items : List (List Char)}
    (h : ∀ item ∈ items, IsItem item) (rest : List Char) :
    FollowsOptions (itemsAndEnd level items ++ rest) := by
  cases items with
  | nil =>
      constructor
      · simp [itemsAndEnd, skipSpaces_cons]
      · apply beginsStatement_eq_false
        intro others
        simp [itemsAndEnd, skipSpaces_cons]
  | cons item others =>
      have htext : itemsAndEnd level (item :: others) ++ rest =
          item ++ (itemsAndEnd level others ++ rest) := by
        simp [itemsAndEnd]
      rw [htext]
      exact (h item List.mem_cons_self).followsOptions _

/-- The line between options and items, if it is there, belongs to neither. -/
theorem FollowsOptions.skip_separator {separator last : List Char} (hlast : FollowsOptions last)
    (h : separator = [] ∨ separator = ['\n']) :
    (separator ++ last).dropWhile (· == '\n') = last ∧
      beginsStatement (separator ++ last) = false := by
  have hskip : last.dropWhile (· == '\n') = last := dropWhile_newline_eq_self hlast.1
  obtain rfl | rfl := h
  · exact ⟨hskip, hlast.2⟩
  · refine ⟨hskip, beginsStatement_eq_false fun others => ?_⟩
    simp [skipSpaces_cons]

theorem reads_statements (level : Nat)
    (h : ∀ o ∈ options, ∀ t ∈ o.tokens, t.isLexical = true) :
    Reads (many beginsStatement SchemaOption.readStatement) (beginsStatement · = false) options
      (options.map (SchemaOption.statement level)).flatten := by
  have hread := reads_many (g := id) (fun o _ => by simp [SchemaOption.statement])
    (fun o ho => beginsStatement_statement (h o ho) level)
    (fun o ho => SchemaOption.reads_statement (h o ho) level)
  rwa [List.map_id] at hread

theorem many_itemsAndEnd (level : Nat) (hitems : ∀ b ∈ items, IsItem (f b))
    (hread : ∀ b ∈ items, Reads read (fun _ => True) (g b) (f b)) (rest : List Char) :
    many beginsItem read (itemsAndEnd level (items.map f) ++ rest) =
      some (items.map g, indentation level ++ '\x7d' :: '\n' :: rest) := by
  have hend : beginsItem (indentation level ++ '\x7d' :: '\n' :: rest) = false := by
    simp [beginsItem, skipSpaces_cons]
  have hread := reads_many (fun b hb => (hitems b hb).ne_nil)
    (fun b hb rest => (hitems b hb rest).1) hread _ hend
  simpa [itemsAndEnd] using hread

theorem reads_block (level : Nat) (hoptions : ∀ o ∈ options, ∀ t ∈ o.tokens, t.isLexical = true)
    (hitems : ∀ b ∈ items, IsItem (f b))
    (hread : ∀ b ∈ items, Reads read (fun _ => True) (g b) (f b)) :
    Reads (readBlock read) (fun _ => True) (options, items.map g)
      (blockRest level (options.map (SchemaOption.statement (level + 1))) (items.map f)) := by
  intro rest _
  by_cases hempty : options = [] ∧ items = []
  · obtain ⟨rfl, rfl⟩ := hempty
    rfl
  · let separator : List Char := if options.isEmpty || items.isEmpty then [] else ['\n']
    let last : List Char := itemsAndEnd level (items.map f) ++ rest
    have htext : blockRest level (options.map (SchemaOption.statement (level + 1)))
        (items.map f) ++ rest =
          '\n' :: ((options.map (SchemaOption.statement (level + 1))).flatten ++
            (separator ++ last)) := by
      have hcondition : ¬ (options.isEmpty && items.isEmpty) = true := by simpa using hempty
      simp only [blockRest, List.isEmpty_map, if_neg hcondition]
      simp [last, itemsAndEnd, separator]
    have hseparator : separator = [] ∨ separator = ['\n'] := by
      simp only [separator]
      split
      · exact .inl rfl
      · exact .inr rfl
    have hlast := followsOptions_itemsAndEnd level (List.forall_mem_map.mpr hitems) rest
    obtain ⟨hskip, hends⟩ := hlast.skip_separator hseparator
    have hstatements := reads_statements (level + 1) hoptions (separator ++ last) hends
    have hbody := many_itemsAndEnd level hitems hread rest
    rw [htext, readBlock, hstatements]
    simp only [Option.bind_eq_bind, Option.bind_some, last, hskip, hbody]
    simp [skipSpaces_cons, List.isPrefixOf?]

end Block

/-- Comments and spaces in front of an item belong to the item. -/
theorem IsItem.commented {item : List Char} (h : IsItem item) (level : Nat)
    (documentation : String) :
    IsItem (Text.commentBlock level documentation ++ (indentation level ++ item)) := by
  intro rest
  rw [Text.commentBlock_eq]
  cases Text.lines documentation.toList with
  | nil =>
      have hskip : skipSpaces (indentation level ++ (item ++ rest)) = skipSpaces (item ++ rest) :=
        skipSpaces_replicate_append _ _
      have hitem := h rest
      simpa only [beginsItem, beginsStatement, List.map_nil, List.flatten_nil, List.nil_append,
        List.append_assoc, hskip] using hitem
  | cons line others =>
      obtain ⟨c, written, hcomment, rfl⟩ := Text.startsWith_comment line
      constructor
      · simp [beginsItem, Text.commentLine, hcomment, skipSpaces_cons]
      · apply beginsStatement_eq_false
        intro following
        simp [Text.commentLine, hcomment, skipSpaces_cons]

theorem Constant.isItem_layout {c : Constant} (h : ∀ t ∈ c.tokens, t.isLexical = true)
    (level : Nat) : IsItem (c.layout level) := by
  have hname : IsName c.name.toList := isName_of_isIdentifier (forall_tokens_iff.mp h).1
  let afterEquals : List Char :=
    ' ' :: (Text.decimal c.tag.toInt ++ (bracketed level c.options ++ ";\n".toList))
  have hitem : IsItem (c.name.toList ++ ' ' :: '=' :: afterEquals) := by
    intro rest
    rw [List.append_assoc, List.cons_append, List.cons_append]
    have hskip := skipSpaces_eq_self ((hname.startsWith_ne (d := ' ') (by decide)).append
      (' ' :: '=' :: (afterEquals ++ rest)))
    have hspan := hname.span_append (d := ' ') (by decide) ('=' :: (afterEquals ++ rest))
    obtain ⟨d, ds, hd⟩ := List.exists_cons_of_ne_nil hname.1
    have hmem : d ∈ c.name.toList := hd ▸ List.mem_cons_self
    have hnewline : d ≠ '\n' := ne_of_isNameChar (hname.2 d hmem) (by decide)
    have hbrace : d ≠ '\x7d' := ne_of_isNameChar (hname.2 d hmem) (by decide)
    constructor
    · rw [beginsItem, hskip, hd]
      simp [hnewline, hbrace]
    · rw [beginsStatement, hskip, hspan]
      simp only [List.tail_cons, List.head?_cons, bne_self_eq_false, Bool.and_false]
  have htext : (c.layout level : List Char) =
      Text.commentBlock level c.documentation ++
        (indentation level ++ (c.name.toList ++ ' ' :: '=' :: afterEquals)) := by
    simp [layout, afterEquals]
  rw [htext]
  exact hitem.commented level c.documentation

end SchemaDecl
