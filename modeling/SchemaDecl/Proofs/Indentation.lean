import SchemaDecl.Proofs.IndentedText
import SchemaDecl.Proofs.Layouts
import SchemaDecl.Proofs.Newlines
import SchemaDecl.Proofs.Tokens

/-!
# Texts at different levels

As long as no token holds a newline, the text of every form at a higher level is its text at a lower
level with all lines indented. Only the first line of what stands in place is left as it is.

## Implementation notes

The level of the text that is indented is arbitrary, since what is nested stands at a deeper level
than the form it is nested in.
-/

namespace SchemaDecl

open Textual Text

variable {levels : Nat}

theorem inline_commaLines {α : Type} {f g : α → List Char} {items : List α} {t t' : List Char}
    (level last : Nat) (h : ∀ a ∈ items, Inline levels (f a) (g a) ∧ Opens (f a))
    (ht : Inline levels t t') (hopens : Opens t) :
    Inline levels ('\n' :: commaLines level (items.map f) ++ (indentation last ++ t))
      ('\n' :: commaLines (level + levels) (items.map g) ++
        (indentation (last + levels) ++ t')) := by
  induction items with
  | nil => exact ht.newline hopens last
  | cons a rest ih =>
      obtain ⟨⟨ha, haopens⟩, hrest⟩ := List.forall_mem_cons.mp h
      -- The newline in front of a line counts to the item, so that every line begins within it.
      have hcomma : Inline levels (if rest.isEmpty then [] else [','])
          (if rest.isEmpty then [] else [',']) := by
        apply inline_of_notMem
        cases rest <;> simp
      have hline := (ha.append hcomma).newline (haopens.append _) level
      simpa only [List.map_cons, commaLines_cons, List.isEmpty_map, List.cons_append,
        List.append_assoc] using hline.append (ih hrest)

theorem Value.inline_layout {v : Value} (h : ∀ t ∈ v.tokens, '\n' ∉ t.chars) (level : Nat) :
    Inline levels (v.layout level) (v.layout (level + levels)) := by
  induction v generalizing level with
  | boolean b => exact inline_of_notMem (by cases b <;> simp [layout])
  | number literal => exact inline_of_notMem (h (.number literal) List.mem_cons_self)
  | string content => exact inline_of_notMem (Quoted.newline_notMem_encode content.toList)
  | identifier name => exact inline_of_notMem (h (.identifier name) List.mem_cons_self)
  | aggregate entries ih =>
      rw [forall_tokens_aggregate_iff] at h
      by_cases hentries : entries = []
      · subst hentries
        exact inline_of_notMem (by simp [layout])
      · have hentry : ∀ e ∈ entries,
            Inline levels (entryChars (level + 1) e) (entryChars (level + 1 + levels) e) ∧
              Opens (entryChars (level + 1) e) := by
          intro e he
          obtain ⟨hkey, hvalue⟩ := h e he
          have hcolon : Inline levels ": ".toList ": ".toList := inline_of_notMem (by decide)
          exact ⟨(inline_of_notMem hkey).append (hcolon.append (ih e he hvalue (level + 1))),
            Opens.append_of_notMem hkey ⟨':', _, rfl, by decide⟩⟩
        have hopening : Inline levels ['\x7b'] ['\x7b'] := inline_of_notMem (by decide)
        have hclosing : Inline levels ['\x7d'] ['\x7d'] := inline_of_notMem (by decide)
        rw [layout_aggregate hentries, layout_aggregate hentries,
          Nat.add_right_comm level levels 1]
        exact hopening.append (inline_commaLines (level + 1) level hentry hclosing
          ⟨'\x7d', [], rfl, by decide⟩)

namespace SchemaOption

theorem newline_notMem_label {o : SchemaOption} (h : '\n' ∉ o.name.toList) :
    '\n' ∉ (o.label : List Char) := by
  rw [label]
  split <;> simpa using h

theorem inline_assignment {o : SchemaOption} (h : ∀ t ∈ o.tokens, '\n' ∉ t.chars)
    (level : Nat) : Inline levels (o.assignment level) (o.assignment (level + levels)) := by
  obtain ⟨hname, hvalue⟩ := forall_tokens_iff.mp h
  have hequals : Inline levels " = ".toList " = ".toList := inline_of_notMem (by decide)
  exact ((inline_of_notMem (newline_notMem_label hname)).append hequals).append
    (o.value.inline_layout hvalue level)

theorem opens_assignment {o : SchemaOption} (h : ∀ t ∈ o.tokens, '\n' ∉ t.chars)
    (level : Nat) : Opens (o.assignment level) := by
  rw [assignment, List.append_assoc]
  exact Opens.append_of_notMem (newline_notMem_label (forall_tokens_iff.mp h).1)
    ⟨' ', _, rfl, by decide⟩

end SchemaOption

theorem Constant.inline_bracketed {options : List SchemaOption}
    (h : ∀ o ∈ options, ∀ t ∈ o.tokens, '\n' ∉ t.chars) (level : Nat) :
    Inline levels (bracketed level options) (bracketed (level + levels) options) := by
  by_cases hoptions : options = []
  · subst hoptions
    exact inline_of_notMem List.not_mem_nil
  · have hoption : ∀ o ∈ options,
        Inline levels (o.assignment (level + 1)) (o.assignment (level + 1 + levels)) ∧
          Opens (o.assignment (level + 1)) := fun o ho =>
      ⟨o.inline_assignment (h o ho) (level + 1), o.opens_assignment (h o ho) (level + 1)⟩
    have hopening : Inline levels " [".toList " [".toList := inline_of_notMem (by decide)
    have hclosing : Inline levels [']'] [']'] := inline_of_notMem (by decide)
    rw [bracketed_eq hoptions, bracketed_eq hoptions, Nat.add_right_comm level levels 1]
    exact hopening.append (inline_commaLines (level + 1) level hoption hclosing
      ⟨']', [], rfl, by decide⟩)

theorem Text.wholeLines_commentBlock (level : Nat) (documentation : String) :
    WholeLines levels (commentBlock level documentation)
      (commentBlock (level + levels) documentation) := by
  rw [commentBlock_eq, commentBlock_eq]
  apply wholeLines_flatten_map
  intro line hline
  have hcomment := newline_notMem_comment (newline_notMem_of_mem_lines hline)
  have hopens : Opens (comment line) := (startsWith_comment line).imp (by
    rintro c rfl
    decide)
  exact (inline_of_notMem hcomment).line hopens level

theorem SchemaOption.wholeLines_statement {o : SchemaOption}
    (h : ∀ t ∈ o.tokens, '\n' ∉ t.chars) (level : Nat) :
    WholeLines levels (o.statement level) (o.statement (level + levels)) := by
  have hkeyword : Inline levels "option ".toList "option ".toList := inline_of_notMem (by decide)
  have hsemicolon : Inline levels [';'] [';'] := inline_of_notMem (by decide)
  have hline := (hkeyword.append ((o.inline_assignment h level).append hsemicolon)).line
    (StartsWith.append ⟨'o', _, rfl, by decide⟩ _) level
  simpa [statement] using hline

theorem Constant.wholeLines_layout {c : Constant} (h : ∀ t ∈ c.tokens, '\n' ∉ t.chars)
    (level : Nat) : WholeLines levels (c.layout level) (c.layout (level + levels)) := by
  obtain ⟨hname, hoptions⟩ := forall_tokens_iff.mp h
  have hname : '\n' ∉ c.name.toList := hname
  have hequals : Inline levels " = ".toList " = ".toList := inline_of_notMem (by decide)
  have htag : Inline levels (decimal c.tag.toInt) (decimal c.tag.toInt) :=
    inline_of_notMem (newline_notMem_decimal _)
  have hsemicolon : Inline levels [';'] [';'] := inline_of_notMem (by decide)
  have hline := ((inline_of_notMem hname).append (hequals.append (htag.append
    ((inline_bracketed hoptions level).append hsemicolon)))).line
      (Opens.append_of_notMem hname ⟨' ', _, rfl, by decide⟩) level
  simpa [layout] using (wholeLines_commentBlock level c.documentation).append hline

theorem Header.newline_notMem_opening {keyword : String} {header : Header}
    (hkeyword : '\n' ∉ keyword.toList) (hname : '\n' ∉ header.name.toList) :
    '\n' ∉ header.opening keyword := by
  simp [opening, hkeyword, hname]

theorem Header.wholeLines_block {α : Type} {f g : α → List Char} {items : List α}
    {keyword : String} {header : Header} (hkeyword : '\n' ∉ keyword.toList)
    (h : ∀ t ∈ header.tokens, '\n' ∉ t.chars) (level : Nat)
    (hitems : ∀ a ∈ items, WholeLines levels (f a) (g a)) :
    WholeLines levels (header.block level keyword (items.map f))
      (header.block (level + levels) keyword (items.map g)) := by
  obtain ⟨hname, hoptions⟩ := forall_tokens_iff.mp h
  have hopening : Inline levels (header.opening keyword) (header.opening keyword) :=
    inline_of_notMem (newline_notMem_opening hkeyword hname)
  have hopens : Opens (header.opening keyword) :=
    Opens.append_of_notMem hkeyword ⟨' ', _, rfl, by decide⟩
  have hclosing : Inline levels ['\x7d'] ['\x7d'] := inline_of_notMem (by decide)
  have hcomments : WholeLines levels (commentBlock level header.documentation)
      (commentBlock (level + levels) header.documentation) :=
    wholeLines_commentBlock level header.documentation
  rw [block_eq, block_eq, Nat.add_right_comm level levels 1]
  simp only [blockRest, List.isEmpty_map]
  split
  · have hline := (hopening.append hclosing).line (hopens.append _) level
    simpa using hcomments.append hline
  · have hstatements : WholeLines levels
        (header.options.map (SchemaOption.statement (level + 1))).flatten
        (header.options.map (SchemaOption.statement (level + 1 + levels))).flatten :=
      wholeLines_flatten_map fun o ho => o.wholeLines_statement (hoptions o ho) (level + 1)
    have hseparator : WholeLines levels
        (if header.options.isEmpty || items.isEmpty then [] else ['\n'])
        (if header.options.isEmpty || items.isEmpty then [] else ['\n']) := by
      split
      · exact wholeLines_nil
      · exact wholeLines_newline
    have hbrace := hclosing.line ⟨'\x7d', [], rfl, by decide⟩ level
    have hblock := (hopening.line hopens level).append (((hstatements.append hseparator).append
      (wholeLines_flatten_map hitems)).append hbrace)
    simpa using hcomments.append hblock

theorem EnumDecl.wholeLines_layout {decl : EnumDecl} (h : ∀ t ∈ decl.tokens, '\n' ∉ t.chars)
    (level : Nat) : WholeLines levels (decl.layout level) (decl.layout (level + levels)) := by
  obtain ⟨hheader, hconstants⟩ := forall_tokens_iff.mp h
  rw [layout, layout, Nat.add_right_comm level levels 1]
  exact Header.wholeLines_block (by decide) hheader level fun c hc =>
    c.wholeLines_layout (hconstants c hc) (level + 1)

theorem Declaration.wholeLines_layout {d : Declaration} (h : ∀ t ∈ d.tokens, '\n' ∉ t.chars)
    (level : Nat) : WholeLines levels (d.layout level) (d.layout (level + levels)) := by
  induction d generalizing level with
  | enum decl => exact decl.wholeLines_layout h level
  | message header nested ih =>
      obtain ⟨hheader, hnested⟩ := forall_tokens_message_iff.mp h
      simp only [layout, layouts_eq_map, Nat.add_right_comm level levels 1]
      exact Header.wholeLines_block (by decide) hheader level fun d hd =>
        ih d hd (hnested d hd) (level + 1)

/-- Values and assignments stand in place; all other forms stand on lines of their own. -/
def Form.isInline : Form → Bool
  | .value _ | .assignment _ => true
  | _ => false

namespace Form

variable {form : Form}

theorem inline_layout (h : ∀ t ∈ form.tokens, '\n' ∉ t.chars) (hform : form.isInline = true)
    (level : Nat) : Inline levels (form.layout level) (form.layout (level + levels)) := by
  cases form with
  | value v => exact v.inline_layout h level
  | assignment o => exact o.inline_assignment h level
  | statement | constant | enum | message | declaration => cases hform

theorem wholeLines_layout (h : ∀ t ∈ form.tokens, '\n' ∉ t.chars)
    (hform : form.isInline = false) (level : Nat) :
    WholeLines levels (form.layout level) (form.layout (level + levels)) := by
  cases form with
  | value | assignment => cases hform
  | statement o => exact o.wholeLines_statement h level
  | constant c => exact c.wholeLines_layout h level
  | enum decl => exact decl.wholeLines_layout h level
  | message header nested => exact (Declaration.message header nested).wholeLines_layout h level
  | declaration d => exact d.wholeLines_layout h level

/-- As long as no token holds a newline, the text at a level is the text at level zero indented:
what stands in place gets spaces behind every newline, and what stands on lines of its own gets
them in front of every line that is not empty. -/
theorem layout_eq_indent (form : Form) (level : Nat) (h : ∀ t ∈ form.tokens, '\n' ∉ t.chars) :
    (form.layout level : List Char) =
      if form.isInline then indentContinuations level (form.layout 0)
      else indentLines level (form.layout 0) := by
  rw [← Nat.zero_add level]
  by_cases hform : form.isInline = true
  · rw [if_pos hform, (inline_layout h hform 0).1, Nat.zero_add]
  · rw [if_neg hform, (wholeLines_layout h (Bool.not_eq_true _ ▸ hform) 0).eq_indentLines,
      Nat.zero_add]

/-- An option with a newline in a string. -/
def sampleOption : SchemaOption :=
  ⟨"rule", .aggregate [("note", .string "\n"), ("none", .aggregate [])], true⟩

/-- A message with the option, and with newlines in documentation texts. -/
def sampleMessage : Declaration :=
  .message ⟨"Outer", "a.Outer", "one\n\ntwo", [sampleOption]⟩
    [.enum ⟨⟨"Kind", "a.Outer.Kind", "\r\n", []⟩,
      [⟨"A", -1, "one\n", [⟨"deprecated", .boolean true, false⟩]⟩]⟩]

theorem layout_samples :
    (declaration sampleMessage).layout 2 = indentLines 2 ((declaration sampleMessage).layout 0) ∧
      (assignment sampleOption).layout 2 =
        indentContinuations 2 ((assignment sampleOption).layout 0) :=
  ⟨layout_eq_indent (declaration sampleMessage) 2 (by decide),
    layout_eq_indent (assignment sampleOption) 2 (by decide)⟩

end Form

end SchemaDecl
