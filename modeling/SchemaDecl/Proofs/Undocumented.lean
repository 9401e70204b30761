import SchemaDecl.Proofs.CommentLines
import SchemaDecl.Proofs.Indentation

/-!
# Declarations without documentation

Documentation is written in comment lines, and nothing else is. If the comment lines are taken out
of the text of a declaration, the text of the same declaration without documentation is left. So
declarations that differ only in documentation have the same text apart from comment lines,
whatever the documentation holds.

## Implementation notes

Apart from comments, a line begins with a keyword, a closing bracket, the parenthesis of a custom
option, or with a name or a key. Only what begins with a name or a key needs an assumption.
-/

namespace SchemaDecl

open Textual Text

/-- The constant without its documentation. -/
def Constant.undocumented (c : Constant) : Constant := { c with documentation := "" }

/-- The header without its documentation. -/
def Header.undocumented (header : Header) : Header := { header with documentation := "" }

namespace Declaration

mutual

/-- The declaration without any documentation in it. -/
def undocumented : Declaration → Declaration
  | .enum decl => .enum ⟨decl.toHeader.undocumented, decl.constants.map Constant.undocumented⟩
  | .message header nested => .message header.undocumented (allUndocumented nested)

/-- The declarations without any documentation in them. -/
def allUndocumented : List Declaration → List Declaration
  | [] => []
  | d :: ds => undocumented d :: allUndocumented ds

end

theorem allUndocumented_eq_map (ds : List Declaration) :
    allUndocumented ds = ds.map undocumented := by
  induction ds with
  | nil => rfl
  | cons d rest ih => rw [allUndocumented, ih, List.map_cons]

end Declaration

/-- A token that can stand at the beginning of a line, and begins with a space or a slash. -/
def Token.beginsBlankOrSlash : Token → Bool
  | .constant s | .option s | .key s => s.toList.head?.any fun c => c == ' ' || c == '/'
  | .declaration _ | .number _ | .identifier _ => false

/-- The token holds no newline, and does not make the beginning of a line look like a comment. -/
def Token.IsPlain (t : Token) : Prop := '\n' ∉ t.chars ∧ t.beginsBlankOrSlash = false

instance (t : Token) : Decidable t.IsPlain := inferInstanceAs (Decidable (_ ∧ _))

theorem opensCode_append_of_head? {name s : List Char}
    (h : name.head?.any (fun c => c == ' ' || c == '/') = false) (hs : OpensCode s) :
    OpensCode (name ++ s) := by
  cases name with
  | nil => exact hs
  | cons c rest =>
      simp only [List.head?_cons, Option.any_some, Bool.or_eq_false_iff, beq_eq_false_iff_ne] at h
      exact opensCode_cons h.1 h.2 (rest ++ s)

theorem continuesCode_commaLines {items : List (List Char)} {t : List Char} (level last : Nat)
    (h : ∀ item ∈ items, ContinuesCode item ∧ OpensCode item) (ht : ContinuesCode t)
    (hopens : OpensCode t) :
    ContinuesCode ('\n' :: commaLines level items ++ (indentation last ++ t)) := by
  induction items with
  | nil => exact ht.newline hopens last
  | cons item rest ih =>
      obtain ⟨⟨hitem, hitemOpens⟩, hrest⟩ := List.forall_mem_cons.mp h
      have hcomma : ContinuesCode (if rest.isEmpty then [] else [',']) := by
        apply continuesCode_of_notMem
        cases rest <;> simp
      have hline := (hitem.append hcomma).newline (hitemOpens.append _) level
      simpa only [commaLines_cons, List.cons_append, List.append_assoc] using
        hline.append (ih hrest)

theorem Value.continuesCode_layout {v : Value} (h : ∀ t ∈ v.tokens, t.IsPlain) (level : Nat) :
    ContinuesCode (v.layout level) := by
  induction v generalizing level with
  | boolean b => exact continuesCode_of_notMem (by cases b <;> simp [layout])
  | number literal => exact continuesCode_of_notMem (h (.number literal) List.mem_cons_self).1
  | string content =>
      exact continuesCode_of_notMem (Quoted.newline_notMem_encode content.toList)
  | identifier name => exact continuesCode_of_notMem (h (.identifier name) List.mem_cons_self).1
  | aggregate entries ih =>
      rw [forall_tokens_aggregate_iff] at h
      by_cases hentries : entries = []
      · subst hentries
        exact continuesCode_of_notMem (by simp [layout])
      · have hentry : ∀ e ∈ entries,
            ContinuesCode (entryChars (level + 1) e) ∧ OpensCode (entryChars (level + 1) e) := by
          intro e he
          obtain ⟨⟨hnewline, hbegins⟩, hvalue⟩ := h e he
          have hcolon : ContinuesCode ": ".toList := continuesCode_of_notMem (by decide)
          exact ⟨(continuesCode_of_notMem hnewline).append
              (hcolon.append (ih e he hvalue (level + 1))),
            opensCode_append_of_head? hbegins (opensCode_cons (by decide) (by decide) _)⟩
        have hopening : ContinuesCode ['\x7b'] := continuesCode_of_notMem (by decide)
        have hclosing : ContinuesCode ['\x7d'] := continuesCode_of_notMem (by decide)
        rw [layout_aggregate hentries]
        exact hopening.append (continuesCode_commaLines (level + 1) level
          (List.forall_mem_map.mpr hentry) hclosing (opensCode_cons (by decide) (by decide) []))

namespace SchemaOption

variable {o : SchemaOption}

theorem continuesCode_assignment (h : ∀ t ∈ o.tokens, t.IsPlain) (level : Nat) :
    ContinuesCode (o.assignment level) := by
  obtain ⟨⟨hname, -⟩, hvalue⟩ := forall_tokens_iff.mp h
  have hequals : ContinuesCode " = ".toList := continuesCode_of_notMem (by decide)
  exact ((continuesCode_of_notMem (newline_notMem_label hname)).append hequals).append
    (o.value.continuesCode_layout hvalue level)

theorem opensCode_assignment (h : ∀ t ∈ o.tokens, t.IsPlain) (level : Nat) :
    OpensCode (o.assignment level) := by
  obtain ⟨⟨-, hbegins⟩, -⟩ := forall_tokens_iff.mp h
  have hequals : OpensCode " = ".toList := ⟨'=', _, rfl, by decide⟩
  rw [assignment, label]
  split
  · exact ((opensCode_cons (by decide) (by decide) _).append _).append _
  · exact (opensCode_append_of_head? hbegins hequals).append _

theorem uncommented_statement (h : ∀ t ∈ o.tokens, t.IsPlain) (level : Nat) :
    Uncommented (o.statement level) (o.statement level) := by
  have hkeyword : ContinuesCode "option ".toList := continuesCode_of_notMem (by decide)
  have hsemicolon : ContinuesCode [';'] := continuesCode_of_notMem (by decide)
  have hopens : OpensCode "option ".toList := opensCode_cons (by decide) (by decide) _
  have hline := (hkeyword.append ((continuesCode_assignment h level).append hsemicolon)).line
    (hopens.append _) level
  simpa [statement] using hline

end SchemaOption

theorem Constant.continuesCode_bracketed {options : List SchemaOption}
    (h : ∀ o ∈ options, ∀ t ∈ o.tokens, t.IsPlain) (level : Nat) :
    ContinuesCode (bracketed level options) := by
  by_cases hoptions : options = []
  · subst hoptions
    exact continuesCode_of_notMem List.not_mem_nil
  · have hoption : ∀ o ∈ options, ContinuesCode (o.assignment (level + 1)) ∧
        OpensCode (o.assignment (level + 1)) := fun o ho =>
      ⟨o.continuesCode_assignment (h o ho) (level + 1),
        o.opensCode_assignment (h o ho) (level + 1)⟩
    have hopening : ContinuesCode " [".toList := continuesCode_of_notMem (by decide)
    have hclosing : ContinuesCode [']'] := continuesCode_of_notMem (by decide)
    rw [bracketed_eq hoptions]
    exact hopening.append (continuesCode_commaLines (level + 1) level
      (List.forall_mem_map.mpr hoption) hclosing (opensCode_cons (by decide) (by decide) []))

/-- Every line of documentation is behind slashes. -/
theorem Text.uncommented_commentBlock (level : Nat) (documentation : String) :
    Uncommented (commentBlock level documentation) [] := by
  have hcomments : Uncommented
      ((lines documentation.toList).map (commentLine level)).flatten
      ((lines documentation.toList).map fun _ => []).flatten :=
    uncommented_flatten_map fun line hline =>
      uncommented_commentLine level (newline_notMem_comment (newline_notMem_of_mem_lines hline))
  simpa [commentBlock_eq] using hcomments

theorem Constant.uncommented_layout {c : Constant} (h : ∀ t ∈ c.tokens, t.IsPlain)
    (level : Nat) : Uncommented (c.layout level) (c.undocumented.layout level) := by
  obtain ⟨⟨hnewline, hbegins⟩, hoptions⟩ := forall_tokens_iff.mp h
  have hname : ContinuesCode c.name.toList := continuesCode_of_notMem hnewline
  have hequals : ContinuesCode " = ".toList := continuesCode_of_notMem (by decide)
  have htag : ContinuesCode (decimal c.tag.toInt) :=
    continuesCode_of_notMem (newline_notMem_decimal c.tag.toInt)
  have hsemicolon : ContinuesCode [';'] := continuesCode_of_notMem (by decide)
  have hopens : OpensCode " = ".toList := ⟨'=', _, rfl, by decide⟩
  have hline := (hname.append (hequals.append (htag.append
    ((continuesCode_bracketed hoptions level).append hsemicolon)))).line
      (opensCode_append_of_head? hbegins (hopens.append _)) level
  simpa [layout, undocumented, commentBlock_eq, lines] using
    (uncommented_commentBlock level c.documentation).append hline

theorem Header.uncommented_block {α : Type} {f g : α → List Char} {items : List α}
    {keyword : String} {header : Header} (hkeyword : '\n' ∉ keyword.toList)
    (hopens : OpensCode keyword.toList) (h : ∀ t ∈ header.tokens, t.IsPlain) (level : Nat)
    (hitems : ∀ a ∈ items, Uncommented (f a) (g a)) :
    Uncommented (header.block level keyword (items.map f))
      (header.undocumented.block level keyword (items.map g)) := by
  obtain ⟨⟨hname, -⟩, hoptions⟩ := forall_tokens_iff.mp h
  have hopening : ContinuesCode (header.opening keyword) :=
    continuesCode_of_notMem (newline_notMem_opening hkeyword hname)
  have hopeningOpens : OpensCode (header.opening keyword) := hopens.append _
  have hclosing : ContinuesCode ['\x7d'] := continuesCode_of_notMem (by decide)
  have hcomments := uncommented_commentBlock level header.documentation
  have hundocumented : header.undocumented.block level keyword (items.map g) =
      indentation level ++ header.opening keyword ++
        blockRest level (header.options.map (SchemaOption.statement (level + 1)))
          (items.map g) := by
    simp [block_eq, undocumented, commentBlock_eq, lines, opening]
  rw [block_eq, hundocumented]
  simp only [blockRest, List.isEmpty_map]
  split
  · have hline := (hopening.append hclosing).line (hopeningOpens.append _) level
    simpa using hcomments.append hline
  · have hstatements : Uncommented
        (header.options.map (SchemaOption.statement (level + 1))).flatten
        (header.options.map (SchemaOption.statement (level + 1))).flatten :=
      uncommented_flatten_map fun o ho => o.uncommented_statement (hoptions o ho) (level + 1)
    have hseparator : Uncommented
        (if header.options.isEmpty || items.isEmpty then [] else ['\n'])
        (if header.options.isEmpty || items.isEmpty then [] else ['\n']) := by
      split
      · exact uncommented_nil
      · exact uncommented_newline
    have hbrace := hclosing.line (opensCode_cons (by decide) (by decide) []) level
    have hblock := (hopening.line hopeningOpens level).append (((hstatements.append
      hseparator).append (uncommented_flatten_map hitems)).append hbrace)
    simpa using hcomments.append hblock

namespace Declaration

theorem uncommented_layout {d : Declaration} (h : ∀ t ∈ d.tokens, t.IsPlain) (level : Nat) :
    Uncommented (d.layout level) (d.undocumented.layout level) := by
  induction d generalizing level with
  | enum decl =>
      obtain ⟨hheader, hconstants⟩ := EnumDecl.forall_tokens_iff.mp h
      have hopens : OpensCode "enum".toList := opensCode_cons (by decide) (by decide) _
      rw [undocumented, layout, layout, EnumDecl.layout, EnumDecl.layout, List.map_map]
      exact Header.uncommented_block (by decide) hopens hheader level fun c hc =>
        c.uncommented_layout (hconstants c hc) (level + 1)
  | message header nested ih =>
      obtain ⟨hheader, hnested⟩ := forall_tokens_message_iff.mp h
      have hopens : OpensCode "message".toList := opensCode_cons (by decide) (by decide) _
      rw [undocumented, layout, layout, layouts_eq_map, layouts_eq_map, allUndocumented_eq_map,
        List.map_map]
      exact Header.uncommented_block (by decide) hopens hheader level fun d hd =>
        ih d hd (hnested d hd) (level + 1)

/-- Documentation holds no tokens. -/
theorem tokens_undocumented (d : Declaration) : d.undocumented.tokens = d.tokens := by
  induction d with
  | enum decl =>
      simp only [undocumented, tokens, EnumDecl.tokens, List.flatMap_map]
      rfl
  | message header nested ih =>
      simp only [undocumented, tokens, allUndocumented_eq_map, allTokens_eq_flatMap,
        List.flatMap_map]
      rw [List.flatMap_congr ih]
      rfl

/-- Taking the comment lines out of the text of a declaration leaves the text of the declaration
without documentation, at the same level. Declarations that differ only in documentation have the
same text apart from comment lines. -/
theorem withoutComments_layout {d : Declaration} (h : ∀ t ∈ d.tokens, t.IsPlain) (level : Nat) :
    withoutComments (d.layout level) = d.undocumented.layout level ∧
      ∀ e : Declaration, e.undocumented = d.undocumented →
        withoutComments (e.layout level) = withoutComments (d.layout level) := by
  refine ⟨(uncommented_layout h level).withoutComments_eq, fun e he => ?_⟩
  have htokens : ∀ t ∈ e.tokens, t.IsPlain := by
    rwa [← tokens_undocumented, he, tokens_undocumented]
  rw [(uncommented_layout htokens level).withoutComments_eq, he,
    (uncommented_layout h level).withoutComments_eq]

/-- A message with the given documentation everywhere, and with slashes in a string. -/
def documentedSample (documentation : String) : Declaration :=
  .message ⟨"Outer", "a.Outer", documentation,
      [⟨"rule", .aggregate [("note", .string "\n// no comment"), ("none", .aggregate [])], true⟩]⟩
    [.enum ⟨⟨"Kind", "a.Outer.Kind", documentation, []⟩,
      [⟨"A", -1, documentation, [⟨"deprecated", .boolean true, false⟩]⟩]⟩]

/-- Documentation that looks like code, with line ends of both kinds and an empty line. -/
theorem withoutComments_documentedSample :
    withoutComments ((documentedSample "\x7d\r\n\n  B = 2;\r").layout 1) =
        (documentedSample "").layout 1 ∧
      withoutComments ((documentedSample "// one line").layout 1) =
        withoutComments ((documentedSample "\x7d\r\n\n  B = 2;\r").layout 1) :=
  ⟨(withoutComments_layout (by decide) 1).1, (withoutComments_layout (by decide) 1).2 _ rfl⟩

end Declaration

end SchemaDecl
