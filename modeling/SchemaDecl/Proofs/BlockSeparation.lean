import SchemaDecl.Proofs.EmptyLines
import SchemaDecl.Proofs.Indentation

/-!
# Empty lines of a declaration

The only empty lines of the text of a declaration are those that separate the options of a block
from its constants or nested declarations. There is one for each declaration in the tree that has
both parts, and none anywhere else: documentation, options and constants are written without.

## Implementation notes

Every declaration in the tree has its place in the text: its level, the text before it and the text
behind it. The empty lines are compared with the places, both seen within further text.
-/

namespace SchemaDecl

open Textual Text

theorem Text.compact_commentBlock (level : Nat) (documentation : String) :
    Compact (commentBlock level documentation) := by
  rw [commentBlock_eq]
  apply compact_flatten_map
  intro line hline
  have hcomment := newline_notMem_comment (newline_notMem_of_mem_lines hline)
  have hopens : Opens (comment line) := (startsWith_comment line).imp (by
    rintro c rfl
    decide)
  exact (inline_of_notMem hcomment).compact_line Nat.one_pos hopens level

theorem SchemaOption.compact_statement {o : SchemaOption} (h : ∀ t ∈ o.tokens, '\n' ∉ t.chars)
    (level : Nat) : Compact (o.statement level) := by
  have hkeyword : Inline 1 "option ".toList "option ".toList := inline_of_notMem (by decide)
  have hsemicolon : Inline 1 [';'] [';'] := inline_of_notMem (by decide)
  have hline := (hkeyword.append ((o.inline_assignment h level).append hsemicolon)).compact_line
    Nat.one_pos (StartsWith.append ⟨'o', _, rfl, by decide⟩ _) level
  simpa [statement] using hline

theorem Constant.compact_layout {c : Constant} (h : ∀ t ∈ c.tokens, '\n' ∉ t.chars)
    (level : Nat) : Compact (c.layout level) := by
  obtain ⟨hname, hoptions⟩ := forall_tokens_iff.mp h
  have hname : '\n' ∉ c.name.toList := hname
  have hequals : Inline 1 " = ".toList " = ".toList := inline_of_notMem (by decide)
  have htag : Inline 1 (decimal c.tag.toInt) (decimal c.tag.toInt) :=
    inline_of_notMem (newline_notMem_decimal _)
  have hsemicolon : Inline 1 [';'] [';'] := inline_of_notMem (by decide)
  have hline := ((inline_of_notMem hname).append (hequals.append (htag.append
    ((inline_bracketed hoptions level).append hsemicolon)))).compact_line Nat.one_pos
      (Opens.append_of_notMem hname ⟨' ', _, rfl, by decide⟩) level
  simpa [layout] using (compact_commentBlock level c.documentation).append hline

/-- The text of a block up to the end of its options. -/
def Header.upToOptions (level : Nat) (keyword : String) (header : Header) : List Char :=
  commentBlock level header.documentation ++ (indentation level ++ header.opening keyword) ++
    blockPart (header.options.map (SchemaOption.statement (level + 1)))

/-- The closing line of a block that is not empty. -/
def closingLine (level : Nat) : List Char := indentation level ++ "\x7d\n".toList

namespace Header

variable {keyword : String} {header : Header} {items : List (List Char)}

theorem block_of_items (level : Nat) (h : items ≠ []) :
    header.block level keyword items =
      header.upToOptions level keyword ++ '\n' :: (items.flatten ++ closingLine level) := by
  simp [block, upToOptions, opening, blockPart, closingLine, h]

theorem block_of_no_items (level : Nat) :
    header.block level keyword ([] : List (List Char)) =
      header.upToOptions level keyword ++
        if header.options.isEmpty then "\x7d\n".toList else closingLine level := by
  cases h : header.options <;> simp [block, upToOptions, opening, blockPart, closingLine, h]

theorem exists_block_eq (level : Nat) (keyword : String) (header : Header)
    (items : List (List Char)) :
    ∃ rest, header.block level keyword items = header.upToOptions level keyword ++ rest := by
  cases items with
  | nil => exact ⟨_, block_of_no_items level⟩
  | cons item others => exact ⟨_, block_of_items level (List.cons_ne_nil item others)⟩

theorem upToOptions_of_options (level : Nat) (h : header.options ≠ []) :
    header.upToOptions level keyword =
      commentBlock level header.documentation ++
        (indentation level ++ header.opening keyword ++ ['\n']) ++
          (header.options.map (SchemaOption.statement (level + 1))).flatten := by
  simp [upToOptions, blockPart, h]

theorem upToOptions_of_no_options (level : Nat) (h : header.options = []) :
    header.upToOptions level keyword =
      commentBlock level header.documentation ++ (indentation level ++ header.opening keyword) := by
  simp [upToOptions, blockPart, h]

/-- The text up to the end of the options ends with the last option. -/
theorem exists_upToOptions_eq (level : Nat) (keyword : String) (h : header.options ≠ []) :
    ∃ front o, header.options.getLast? = some o ∧
      header.upToOptions level keyword = front ++ o.statement (level + 1) := by
  obtain ⟨others, o, hoptions⟩ : ∃ others o, header.options = others ++ [o] :=
    ⟨_, _, (List.dropLast_concat_getLast h).symm⟩
  refine ⟨commentBlock level header.documentation ++
    (indentation level ++ header.opening keyword ++ ['\n']) ++
      (others.map (SchemaOption.statement (level + 1))).flatten, o, ?_, ?_⟩
  · rw [hoptions, List.getLast?_concat]
  · rw [upToOptions_of_options level h, hoptions]
    simp

/-- Behind options a new line begins, otherwise the opening line goes on. -/
theorem getLast?_upToOptions (level : Nat) :
    (header.upToOptions level keyword).getLast? =
      some (if header.options.isEmpty then '\x7b' else '\n') := by
  by_cases h : header.options = []
  · have hbrace : header.upToOptions level keyword = commentBlock level header.documentation ++
        (indentation level ++ keyword.toList ++ ' ' :: header.name.toList ++ [' ']) ++
          ['\x7b'] := by
      simp [upToOptions_of_no_options level h, opening]
    rw [hbrace, List.getLast?_concat, if_pos (List.isEmpty_iff.mpr h)]
  · obtain ⟨front, o, -, hfront⟩ := exists_upToOptions_eq level keyword h
    have hnewline : o.statement (level + 1) =
        indentation (level + 1) ++ "option ".toList ++ o.assignment (level + 1) ++ [';'] ++
          ['\n'] := by
      simp [SchemaOption.statement]
    rw [hfront, hnewline, ← List.append_assoc, List.getLast?_concat,
      if_neg (mt List.isEmpty_iff.mp h)]

theorem upToOptions_ne_nil (level : Nat) : header.upToOptions level keyword ≠ [] := by
  rw [← List.getLast?_isSome, getLast?_upToOptions, Option.isSome_some]

theorem compact_upToOptions (hkeyword : '\n' ∉ keyword.toList) (hopens : Opens keyword.toList)
    (h : ∀ t ∈ header.tokens, '\n' ∉ t.chars) (level : Nat) :
    Compact (header.upToOptions level keyword) := by
  obtain ⟨hname, hoptions⟩ := forall_tokens_iff.mp h
  have hopening : '\n' ∉ header.opening keyword := newline_notMem_opening hkeyword hname
  have hcomments := compact_commentBlock level header.documentation
  by_cases hempty : header.options = []
  · rw [upToOptions_of_no_options level hempty]
    exact hcomments.append (compact_of_notMem (by simpa using hopening))
  · rw [upToOptions_of_options level hempty]
    have hline := (inline_of_notMem hopening).compact_line Nat.one_pos (hopens.append _) level
    exact (hcomments.append hline).append
      (compact_flatten_map fun o ho => o.compact_statement (hoptions o ho) (level + 1))

/-- The empty lines of a block are the one between its two parts, if there are both, and those of
its items. -/
theorem emptyLinesWithin_block {level : Nat} (h : Compact (header.upToOptions level keyword))
    (items : List (List Char)) (before after : List Char) :
    emptyLinesWithin before (header.block level keyword items) after =
      (if header.options.isEmpty || items.isEmpty then []
        else [⟨before ++ header.upToOptions level keyword,
          items.flatten ++ (closingLine level ++ after)⟩]) ++
      emptyLinesWithin (before ++ (header.upToOptions level keyword ++ ['\n'])) items.flatten
        (closingLine level ++ after) := by
  have hclosing : Compact (closingLine level) :=
    (compact_of_notMem (newline_notMem_indentation level)).append
      (compact_iff.mpr ⟨by decide, by decide⟩)
  by_cases hitems : items = []
  · subst hitems
    have hbrace :
        Compact (if header.options.isEmpty then "\x7d\n".toList else closingLine level) := by
      split
      · exact compact_iff.mpr ⟨by decide, by decide⟩
      · exact hclosing
    rw [block_of_no_items, h.append hbrace]
    simp [emptyLinesWithin]
  · have hlast : (before ++ header.upToOptions level keyword).getLast? = some '\n' ↔
        ¬ header.options.isEmpty = true := by
      rw [List.getLast?_append, getLast?_upToOptions, Option.some_or]
      split <;> simp_all
    rw [block_of_items level hitems, emptyLinesWithin_append, h, List.nil_append, emptyLinesWithin,
      emptyLinesWithin_append, hclosing, List.append_nil]
    simp only [hlast, true_and]
    cases header.options.isEmpty <;> simp [hitems]

end Header

/-- A declaration at its place in a text. -/
structure Place where
  before : List Char
  level : Nat
  decl : Declaration
  after : List Char

namespace Declaration

/-- The word that a declaration begins with. -/
def keyword : Declaration → String
  | .enum _ => "enum"
  | .message _ _ => "message"

/-- The texts of the constants of an enum, or of the declarations nested in a message. -/
def itemLayouts (level : Nat) : Declaration → List (List Char)
  | .enum decl => decl.constants.map (Constant.layout level)
  | .message _ nested => nested.map (layout level)

/-- The declaration has options, and has constants or nested declarations. -/
def hasBothParts (d : Declaration) : Bool :=
  !d.header.options.isEmpty && !(d.constants.isEmpty && d.nested.isEmpty)

mutual

/-- A declaration and all declarations in it, each before those nested in it. -/
def all : Declaration → List Declaration
  | .enum decl => [.enum decl]
  | .message header nested => .message header nested :: allOf nested

/-- Declarations and all declarations in them. -/
def allOf : List Declaration → List Declaration
  | [] => []
  | d :: ds => all d ++ allOf ds

end

mutual

/-- The places of a declaration and of all declarations in it, if its text stands between two
others. -/
def placesWithin (before : List Char) (level : Nat) (after : List Char) :
    Declaration → List Place
  | .enum decl => [⟨before, level, .enum decl, after⟩]
  | .message header nested =>
      ⟨before, level, .message header nested, after⟩ ::
        allPlacesWithin (before ++ (header.upToOptions level "message" ++ ['\n'])) (level + 1)
          (closingLine level ++ after) nested

/-- The places of declarations that follow each other and of all declarations in them, if their
texts stand between two others. -/
def allPlacesWithin (before : List Char) (level : Nat) (after : List Char) :
    List Declaration → List Place
  | [] => []
  | d :: ds =>
      placesWithin before level ((ds.map (layout level)).flatten ++ after) d ++
        allPlacesWithin (before ++ d.layout level) level after ds

end

/-- The places of a declaration and of all declarations in it. -/
def places (level : Nat) (d : Declaration) : List Place := placesWithin [] level [] d

theorem layout_eq_block (level : Nat) (d : Declaration) :
    (d.layout level : List Char) =
      d.header.block level d.keyword (d.itemLayouts (level + 1)) := by
  cases d with
  | enum decl => rfl
  | message header nested => rw [layout, layouts_eq_map]; rfl

theorem itemLayouts_isEmpty (level : Nat) (d : Declaration) :
    (d.itemLayouts level).isEmpty = (d.constants.isEmpty && d.nested.isEmpty) := by
  cases d <;> simp [itemLayouts, constants, nested]

theorem exists_layout_eq (level : Nat) (d : Declaration) :
    ∃ t, d.layout level = t ++ "\x7d\n".toList := by
  rw [layout_eq_block, Header.block]
  exact ⟨_, rfl⟩

theorem ne_nil_of_mem_itemLayouts {d : Declaration} {level : Nat} {item : List Char}
    (h : item ∈ d.itemLayouts level) : item ≠ [] := by
  cases d with
  | enum decl =>
      obtain ⟨c, -, rfl⟩ := List.mem_map.mp h
      simp [Constant.layout]
  | message header nested =>
      obtain ⟨d, -, rfl⟩ := List.mem_map.mp h
      obtain ⟨t, ht⟩ := d.exists_layout_eq level
      simp [ht]

theorem layout_message_of_nested (level : Nat) (header : Header) {nested : List Declaration}
    (h : nested ≠ []) :
    ((message header nested).layout level : List Char) =
      header.upToOptions level "message" ++ ['\n'] ++ (nested.map (layout (level + 1))).flatten ++
        closingLine level := by
  rw [layout, layouts_eq_map, Header.block_of_items level (by simpa using h)]
  simp

mutual

/-- Each declaration stands at its place, between the rest of the text. -/
theorem text_of_mem_placesWithin : ∀ {d : Declaration} {before : List Char} {level : Nat}
    {after : List Char} {p : Place}, p ∈ placesWithin before level after d →
      p.before ++ p.decl.layout p.level ++ p.after = before ++ d.layout level ++ after
  | .enum decl, before, level, after, p, h => by
      rw [placesWithin, List.mem_singleton] at h
      rw [h]
  | .message header nested, before, level, after, p, h => by
      rw [placesWithin, List.mem_cons] at h
      obtain rfl | h := h
      · rfl
      · have hnested : nested ≠ [] := by
          rintro rfl
          cases h
        rw [text_of_mem_allPlacesWithin h, layout_message_of_nested level header hnested]
        simp only [List.append_assoc]

theorem text_of_mem_allPlacesWithin : ∀ {ds : List Declaration} {before : List Char} {level : Nat}
    {after : List Char} {p : Place}, p ∈ allPlacesWithin before level after ds →
      p.before ++ p.decl.layout p.level ++ p.after =
        before ++ (ds.map (layout level)).flatten ++ after
  | [], _, _, _, _, h => by cases h
  | d :: ds, before, level, after, p, h => by
      rw [allPlacesWithin, List.mem_append] at h
      rw [List.map_cons, List.flatten_cons]
      obtain h | h := h
      · rw [text_of_mem_placesWithin h]
        simp only [List.append_assoc]
      · rw [text_of_mem_allPlacesWithin h]
        simp only [List.append_assoc]

end

mutual

theorem map_decl_placesWithin (before : List Char) (level : Nat) (after : List Char) :
    ∀ d : Declaration, (placesWithin before level after d).map Place.decl = d.all
  | .enum _ => by rw [placesWithin, all, List.map_singleton]
  | .message _ nested => by
      rw [placesWithin, all, List.map_cons, map_decl_allPlacesWithin _ _ _ nested]

theorem map_decl_allPlacesWithin (before : List Char) (level : Nat) (after : List Char) :
    ∀ ds : List Declaration, (allPlacesWithin before level after ds).map Place.decl = allOf ds
  | [] => by rw [allPlacesWithin, allOf, List.map_nil]
  | d :: ds => by
      rw [allPlacesWithin, allOf, List.map_append, map_decl_placesWithin _ _ _ d,
        map_decl_allPlacesWithin _ _ _ ds]

end

end Declaration

/-- The empty line between the options of a declaration and its constants or nested
declarations. -/
def Place.separator (p : Place) : EmptyLine :=
  ⟨p.before ++ p.decl.header.upToOptions p.level p.decl.keyword,
    (p.decl.itemLayouts (p.level + 1)).flatten ++ (closingLine p.level ++ p.after)⟩

/-- The separators of the declarations that have both parts. -/
def separators (places : List Place) : List EmptyLine :=
  (places.filter fun p => p.decl.hasBothParts).map Place.separator

theorem separators_append (ps qs : List Place) :
    separators (ps ++ qs) = separators ps ++ separators qs := by
  rw [separators, List.filter_append, List.map_append]
  rfl

theorem separators_cons (p : Place) (ps : List Place) :
    separators (p :: ps) = separators [p] ++ separators ps :=
  separators_append [p] ps

namespace Declaration

theorem forall_tokens_header {p : Token → Prop} {d : Declaration} (h : ∀ t ∈ d.tokens, p t) :
    ∀ t ∈ d.header.tokens, p t := by
  cases d with
  | enum decl => exact (EnumDecl.forall_tokens_iff.mp h).1
  | message header nested => exact (forall_tokens_message_iff.mp h).1

theorem compact_upToOptions {d : Declaration} (h : ∀ t ∈ d.tokens, '\n' ∉ t.chars) (level : Nat) :
    Compact (d.header.upToOptions level d.keyword) := by
  have hheader := forall_tokens_header h
  cases d with
  | enum decl =>
      have hopens : Opens "enum".toList := ⟨'e', _, rfl, by decide⟩
      exact Header.compact_upToOptions (by decide) hopens hheader level
  | message header nested =>
      have hopens : Opens "message".toList := ⟨'m', _, rfl, by decide⟩
      exact Header.compact_upToOptions (by decide) hopens hheader level

/-- The empty lines of a declaration are its separator and those of its items. -/
theorem emptyLinesWithin_own {d : Declaration} (h : ∀ t ∈ d.tokens, '\n' ∉ t.chars)
    (before : List Char) (level : Nat) (after : List Char) :
    emptyLinesWithin before (d.layout level) after =
      separators [⟨before, level, d, after⟩] ++
        emptyLinesWithin (before ++ (d.header.upToOptions level d.keyword ++ ['\n']))
          (d.itemLayouts (level + 1)).flatten (closingLine level ++ after) := by
  have hboth : d.hasBothParts =
      !(d.header.options.isEmpty || (d.itemLayouts (level + 1)).isEmpty) := by
    rw [hasBothParts, itemLayouts_isEmpty, Bool.not_or]
  rw [layout_eq_block, Header.emptyLinesWithin_block (compact_upToOptions h level)]
  congr 1
  cases hempty : d.header.options.isEmpty || (d.itemLayouts (level + 1)).isEmpty <;>
    simp [separators, hboth, hempty, Place.separator]

mutual

theorem emptyLinesWithin_layout : ∀ {d : Declaration}, (∀ t ∈ d.tokens, '\n' ∉ t.chars) →
    ∀ (before : List Char) (level : Nat) (after : List Char),
      emptyLinesWithin before (d.layout level) after =
        separators (placesWithin before level after d)
  | .enum decl, h, before, level, after => by
      have hconstants := (EnumDecl.forall_tokens_iff.mp h).2
      have hitems : Compact ((enum decl).itemLayouts (level + 1)).flatten :=
        compact_flatten_map fun c hc => c.compact_layout (hconstants c hc) (level + 1)
      rw [emptyLinesWithin_own h, hitems, List.append_nil, placesWithin]
  | .message header nested, h, before, level, after => by
      have hnested := (forall_tokens_message_iff.mp h).2
      rw [emptyLinesWithin_own h, placesWithin, separators_cons _ (allPlacesWithin _ _ _ nested),
        ← emptyLinesWithin_layouts hnested]
      rfl

theorem emptyLinesWithin_layouts : ∀ {ds : List Declaration},
    (∀ d ∈ ds, ∀ t ∈ d.tokens, '\n' ∉ t.chars) →
    ∀ (before : List Char) (level : Nat) (after : List Char),
      emptyLinesWithin before (ds.map (layout level)).flatten after =
        separators (allPlacesWithin before level after ds)
  | [], _, _, _, _ => rfl
  | d :: ds, h, before, level, after => by
      obtain ⟨hd, hds⟩ := List.forall_mem_cons.mp h
      rw [allPlacesWithin, separators_append, List.map_cons, List.flatten_cons,
        emptyLinesWithin_append, emptyLinesWithin_layout hd, emptyLinesWithin_layouts hds]

end

end Declaration

/-- The place falls apart into the two texts at an empty line between its last option and its first
constant or nested declaration, which begins behind the line and is not empty itself. -/
def Place.SplitsAt (p : Place) (before after : List Char) : Prop :=
  ∃ front o item back,
    p.decl.header.options.getLast? = some o ∧
    (p.decl.itemLayouts (p.level + 1)).head? = some item ∧ item ≠ [] ∧
    p.decl.layout p.level = front ++ o.statement (p.level + 1) ++ '\n' :: (item ++ back) ∧
    before = p.before ++ (front ++ o.statement (p.level + 1)) ∧ after = item ++ back ++ p.after

theorem Place.splitsAt_separator {p : Place} (h : p.decl.hasBothParts = true) :
    p.SplitsAt p.separator.before p.separator.after := by
  obtain ⟨hoptions, hitems⟩ :
      p.decl.header.options ≠ [] ∧ p.decl.itemLayouts (p.level + 1) ≠ [] := by
    rw [Declaration.hasBothParts, ← Declaration.itemLayouts_isEmpty (p.level + 1)] at h
    simpa using h
  obtain ⟨front, o, hlast, hfront⟩ :=
    Header.exists_upToOptions_eq p.level p.decl.keyword hoptions
  obtain ⟨item, others, hcons⟩ := List.exists_cons_of_ne_nil hitems
  have hitem : item ≠ [] :=
    Declaration.ne_nil_of_mem_itemLayouts (hcons ▸ List.mem_cons_self)
  refine ⟨front, o, item, others.flatten ++ closingLine p.level, hlast, ?_, hitem, ?_, ?_, ?_⟩
  · rw [hcons, List.head?_cons]
  · rw [Declaration.layout_eq_block, Header.block_of_items p.level hitems, hfront, hcons]
    simp
  · rw [separator, hfront]
  · rw [separator, hcons]
    simp

/-- Whatever the text falls apart into stands around an empty line of it. -/
theorem Place.SplitsAt.text_eq {p : Place} {before after : List Char}
    (h : p.SplitsAt before after) :
    p.before ++ p.decl.layout p.level ++ p.after = before ++ '\n' :: after := by
  obtain ⟨front, o, item, back, -, -, -, hlayout, rfl, rfl⟩ := h
  simp [hlayout]

namespace Declaration

theorem opens_layout {d : Declaration} (h : ∀ t ∈ d.tokens, '\n' ∉ t.chars) (level : Nat) :
    Opens (d.layout level) := by
  obtain ⟨rest, hrest⟩ :=
    Header.exists_block_eq level d.keyword d.header (d.itemLayouts (level + 1))
  rw [layout_eq_block, hrest]
  exact ((compact_upToOptions h level).opens (Header.upToOptions_ne_nil level)).append rest

/-- As long as no token holds a newline, the text of a declaration begins and ends with a line that
is not empty, and ends with a brace and one newline. It has as many empty lines as declarations in
it have options as well as constants or nested declarations. Two newlines stand side by side exactly
where such a declaration falls apart behind its last option and before its first constant or nested
declaration. -/
theorem emptyLines_layout {d : Declaration} (h : ∀ t ∈ d.tokens, '\n' ∉ t.chars) (level : Nat) :
    Opens (d.layout level) ∧ (∃ t, d.layout level = t ++ "\x7d\n".toList) ∧
      (emptyLines (d.layout level)).length = d.all.countP hasBothParts ∧
      ∀ before after, d.layout level = before ++ ['\n', '\n'] ++ after ↔
        ∃ p ∈ d.places level, p.decl.hasBothParts = true ∧ p.SplitsAt (before ++ ['\n']) after := by
  have hlines : emptyLines (d.layout level) = separators (d.places level) :=
    emptyLinesWithin_layout h [] level []
  refine ⟨opens_layout h level, exists_layout_eq level d, ?_,
    fun before after => ⟨fun htext => ?_, ?_⟩⟩
  · rw [hlines, separators, List.length_map, ← List.countP_eq_length_filter,
      ← map_decl_placesWithin [] level [] d, List.countP_map]
    rfl
  · have hline := mem_emptyLines_iff.mpr htext
    rw [hlines] at hline
    obtain ⟨p, hp, hseparator⟩ := List.mem_map.mp hline
    obtain ⟨hplace, hboth⟩ := List.mem_filter.mp hp
    have hsplits := Place.splitsAt_separator hboth
    rw [hseparator] at hsplits
    exact ⟨p, hplace, hboth, hsplits⟩
  · rintro ⟨p, hplace, -, hsplits⟩
    have htext := text_of_mem_placesWithin hplace
    rw [hsplits.text_eq] at htext
    simpa using htext.symm

/-- A message with both parts around an enum with both parts, with documentation of blank lines and
with newlines in a string, and around an enum with options only. -/
def twoPartSample : Declaration :=
  .message ⟨"Outer", "a.Outer", "\n\r\n\n", [⟨"note", .string "\n\n", true⟩]⟩
    [.enum ⟨⟨"Kind", "a.Outer.Kind", "", [⟨"rule", .aggregate [("k", .string "\n\n")], false⟩]⟩,
      [⟨"A", -1, "one\n\ntwo", [⟨"deprecated", .boolean true, false⟩]⟩]⟩,
      .enum ⟨⟨"None", "a.Outer.None", "", [⟨"rule", .boolean true, true⟩]⟩, []⟩]

theorem emptyLines_twoPartSample :
    (∀ t ∈ twoPartSample.tokens, '\n' ∉ t.chars) ∧
      (emptyLines (twoPartSample.layout 1)).length = 2 ∧ Opens (twoPartSample.layout 1) := by
  have htokens : ∀ t ∈ twoPartSample.tokens, '\n' ∉ t.chars := by decide
  obtain ⟨hopens, -, hcount, -⟩ := emptyLines_layout htokens 1
  exact ⟨htokens, hcount.trans (by decide), hopens⟩

end Declaration

end SchemaDecl
