import SchemaDecl.Proofs.Reading.Block

/-!
# Reading a declaration

Comments come first, then the keyword that tells enums from messages, the name and a block. What is
read is the outline of the declaration. So the same text is never written for declarations with
different outlines.

## Implementation notes

Like the reader of values, the reader of declarations has a bound on the depth of nesting.
-/

namespace SchemaDecl

open Reading Textual

namespace Header

/-- Reads comments, a keyword, a name and the brace that opens a block. -/
def readOpening : Reader (List (List Char) × String × String) := fun text => do
  let (documentation, text) ← Text.readComments text
  let (keyword, text) := (skipSpaces text).span (· != ' ')
  let (name, text) := (text.drop 1).span (· != ' ')
  let text ← " \x7b".toList.isPrefixOf? text
  return ((documentation, String.ofList keyword, String.ofList name), text)

variable {header : Header} {keyword : String}

theorem reads_opening (hkeyword : IsName keyword.toList) (hname : IsName header.name.toList)
    (level : Nat) :
    Reads readOpening (fun _ => True)
      (Text.lines header.documentation.toList, keyword, header.name)
      (Text.commentBlock level header.documentation ++
        (indentation level ++ header.opening keyword)) := by
  intro rest _
  let afterName : List Char := " \x7b".toList ++ rest
  let afterKeyword : List Char := ' ' :: (header.name.toList ++ afterName)
  have htext : Text.commentBlock level header.documentation ++
      (indentation level ++ header.opening keyword) ++ rest =
        Text.commentBlock level header.documentation ++
          (indentation level ++ (keyword.toList ++ afterKeyword)) := by
    simp [opening, afterKeyword, afterName]
  have hcomments :=
    Text.readComments_commentBlock hkeyword level header.documentation afterKeyword
  have hskip := Text.skipSpaces_indentation_append hkeyword level afterKeyword
  have hkeywordSpan : (keyword.toList ++ afterKeyword).span (· != ' ') =
      (keyword.toList, afterKeyword) := hkeyword.span_append (by decide) _
  have hnameSpan : (header.name.toList ++ afterName).span (· != ' ') =
      (header.name.toList, afterName) := hname.span_append (by decide) _
  rw [htext]
  simp only [readOpening, hcomments, hskip, hkeywordSpan, hnameSpan, afterKeyword, afterName,
    List.drop_succ_cons, List.drop_zero, Option.bind_eq_bind, Option.bind_some,
    isPrefixOf?_append, Option.pure_def, String.ofList_toList]

theorem isItem_block {items : List (List Char)}
    (hkeyword : ∀ rest, IsItem (keyword.toList ++ rest)) (level : Nat) :
    IsItem (header.block level keyword items) := by
  have hopening := hkeyword (' ' :: (header.name.toList ++ " \x7b".toList) ++
    blockRest level (header.options.map (SchemaOption.statement (level + 1))) items)
  have hcommented := hopening.commented level header.documentation
  rw [block_eq]
  simpa only [opening, List.append_assoc] using hcommented

end Header

namespace Declaration

/-- Reads a declaration that is nested less deeply than given. -/
def readUpTo : (depth : Nat) → Reader Outline
  | 0, _ => none
  | depth + 1, text => do
      let ((documentation, keyword, name), text) ← Header.readOpening text
      if keyword = "enum" then
        let ((options, constants), text) ← readBlock Constant.read text
        return (.enum ⟨name, documentation, options⟩ constants, text)
      else
        let ((options, nested), text) ← readBlock (readUpTo depth) text
        return (.message ⟨name, documentation, options⟩ nested, text)

theorem isItem_layout (d : Declaration) (level : Nat) : IsItem (d.layout level) := by
  have hitem {keyword : String} {c : Char} {cs : List Char} (hkeyword : keyword.toList = c :: cs)
      (hc : c ≠ ' ' ∧ c ≠ '\n' ∧ c ≠ '\x7d' ∧ c ≠ 'o') (rest : List Char) :
      IsItem (keyword.toList ++ rest) := by
    obtain ⟨hspace, hnewline, hbrace, ho⟩ := hc
    intro following
    rw [hkeyword]
    constructor
    · simp [beginsItem, skipSpaces_cons hspace, hnewline, hbrace]
    · apply beginsStatement_eq_false
      intro others
      simp [skipSpaces_cons hspace, ho]
  cases d with
  | enum decl => exact Header.isItem_block (hitem rfl (by decide)) level
  | message header nested =>
      rw [layout]
      exact Header.isItem_block (hitem rfl (by decide)) level

theorem length_lt_length_block (header : Header) (keyword : String) {items : List (List Char)}
    {item : List Char} (h : item ∈ items) (level : Nat) :
    item.length < (header.block level keyword items : List Char).length := by
  have hle : item.length ≤ items.flatten.length := (List.sublist_flatten_of_mem h).length_le
  have hne : ¬ items.isEmpty = true := fun hnil => by
    rw [List.isEmpty_iff.mp hnil] at h
    cases h
  simp only [Header.block_eq, blockRest, hne, Bool.and_false, Bool.false_eq_true, if_false,
    List.length_append, List.length_cons]
  omega

/-- The outline of a declaration is read from its text at any level, whatever follows. -/
theorem reads_layout {d : Declaration} (h : ∀ t ∈ d.tokens, t.isLexical = true) (level : Nat)
    {depth : Nat} (hdepth : (d.layout level : List Char).length ≤ depth) :
    Reads (readUpTo (depth + 1)) (fun _ => True) d.outline (d.layout level) := by
  induction d generalizing level depth with
  | enum decl =>
      intro rest _
      obtain ⟨hheader, hconstants⟩ := EnumDecl.forall_tokens_iff.mp h
      obtain ⟨hname, hoptions⟩ := Header.forall_tokens_iff.mp hheader
      have hkeyword : IsName "enum".toList := isName_of_isIdentifier (by decide)
      have hopening := Header.reads_opening hkeyword (isName_of_isIdentifier hname) level
      have hblock := reads_block level hoptions
        (fun c hc => Constant.isItem_layout (hconstants c hc) (level + 1))
        (fun c hc => Constant.reads_layout (hconstants c hc) (level + 1)) rest trivial
      rw [layout, EnumDecl.layout, Header.block_eq, List.append_assoc, readUpTo,
        hopening _ trivial]
      simp only [Option.bind_eq_bind, Option.bind_some]
      rw [if_pos trivial, hblock]
      rfl
  | message header nested ih =>
      intro rest _
      obtain ⟨hheader, hnested⟩ := forall_tokens_message_iff.mp h
      obtain ⟨hname, hoptions⟩ := Header.forall_tokens_iff.mp hheader
      have hkeyword : IsName "message".toList := isName_of_isIdentifier (by decide)
      have hopening := Header.reads_opening hkeyword (isName_of_isIdentifier hname) level
      rw [layout, layouts_eq_map] at hdepth
      have hread : ∀ d ∈ nested, Reads (readUpTo depth) (fun _ => True) d.outline
          (d.layout (level + 1)) := by
        intro d hd
        -- A nested text is shorter than the whole, so one level less is still a bound for it.
        have hlt := length_lt_length_block header "message"
          (List.mem_map_of_mem (f := layout (level + 1)) hd) level
        obtain ⟨depth, rfl⟩ : ∃ n, depth = n + 1 := ⟨depth - 1, by omega⟩
        exact ih d hd (hnested d hd) (level + 1) (by omega)
      have hblock := reads_block level hoptions
        (fun d _ => d.isItem_layout (level + 1)) hread rest trivial
      rw [layout, layouts_eq_map, Header.block_eq, List.append_assoc, readUpTo,
        hopening _ trivial]
      have hne : ¬ "message" = "enum" := by decide
      simp only [Option.bind_eq_bind, Option.bind_some]
      rw [if_neg hne, hblock, outline, outlines_eq_map]
      rfl

/-- Reads declarations up to the end of the text. -/
def readAll : Reader (List Outline) := fun text => many beginsItem (readUpTo (text.length + 1)) text

/-- The outlines of declarations are read back from their texts. -/
theorem readAll_concat {ds : List Declaration} (h : ∀ d ∈ ds, ∀ t ∈ d.tokens, t.isLexical = true)
    (level : Nat) : readAll (concat (layouts level ds)) = some (ds.map outline, []) := by
  rw [concat_eq_flatten, layouts_eq_map]
  have hread : ∀ d ∈ ds, Reads (readUpTo ((ds.map (layout level)).flatten.length + 1))
      (fun _ => True) d.outline (d.layout level) := fun d hd =>
    reads_layout (h d hd) level
      (List.sublist_flatten_of_mem (List.mem_map_of_mem hd)).length_le
  have hall := reads_many (fun d _ => (d.isItem_layout level).ne_nil)
    (fun d _ rest => (d.isItem_layout level rest).1) hread [] rfl
  rwa [List.append_nil] at hall

/-- The texts of two lists of declarations at a level are the same if and only if the declarations
have the same outlines, as long as all tokens are what a tokenizer supplies. -/
theorem renderAll_eq_iff (level : Nat) {ds es : List Declaration}
    (hds : ∀ d ∈ ds, ∀ t ∈ d.tokens, t.isLexical = true)
    (hes : ∀ e ∈ es, ∀ t ∈ e.tokens, t.isLexical = true) :
    renderAll level ds = renderAll level es ↔ ds.map outline = es.map outline := by
  constructor
  · intro h
    have htexts : (concat (layouts level ds) : List Char) = concat (layouts level es) :=
      String.ofList_injective h
    have hread := readAll_concat hds level
    rw [htexts, readAll_concat hes level] at hread
    exact (Prod.mk.inj (Option.some.inj hread)).1.symm
  · intro h
    have hlayouts := map_eq_map_of_outlines
      (fun d _ _ hd => layout_eq_of_outline_eq hd level) h
    rw [renderAll, renderAll, layouts_eq_map, layouts_eq_map, hlayouts]

/-- A message with options of both sorts and an enum, one of whose constants is named like the
keyword of options. -/
def nestedSample (qualifiedName documentation : String) : Declaration :=
  .message ⟨"Outer", qualifiedName, documentation,
      [⟨"rule.limits", .aggregate [("max", .number "-1.5e+3"), ("none", .aggregate [])], true⟩,
        ⟨"note", .string "\n\";", false⟩]⟩
    [.enum ⟨⟨"Kind", qualifiedName, "", [⟨allowAliasName, .boolean true, false⟩]⟩,
      [⟨"option", -1, documentation, [⟨"deprecated", .identifier "YES", false⟩]⟩,
        ⟨"B", -1, "", []⟩]⟩]

/-- Neither qualified names nor the ends of documentation lines show in a text, but an empty line of
the documentation does. -/
theorem renderAll_nestedSample :
    renderAll 1 [nestedSample "a.Outer" "one\r\ntwo\n"] =
        renderAll 1 [nestedSample "b.Outer" "one\ntwo"] ∧
      renderAll 1 [nestedSample "a.Outer" "one\ntwo"] ≠
        renderAll 1 [nestedSample "a.Outer" "one\ntwo\n\n"] := by
  constructor
  · exact (renderAll_eq_iff 1 (by decide) (by decide)).mpr rfl
  · intro h
    have houtlines := (renderAll_eq_iff 1 (by decide) (by decide)).mp h
    obtain ⟨hheader, -⟩ := Outline.message.inj (List.cons.inj houtlines).1
    obtain ⟨-, hdocumentation, -⟩ := HeaderOutline.mk.inj hheader
    exact absurd hdocumentation (by decide)

end Declaration

end SchemaDecl
