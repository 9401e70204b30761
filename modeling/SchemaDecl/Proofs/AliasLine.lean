import Mathlib.Data.List.Basic
import SchemaDecl.Proofs.AliasRule
import SchemaDecl.Proofs.Layouts

/-!
# Aliases in the text of an enum

If constants of an enum share a tag, then the first option of the name `allow_alias` is set to true
and stands in the text of the enum. Its line is that of the built-in option unless it is a custom
one, which is written in parentheses and permits aliases all the same. Then the line of the
built-in option may be missing, and a reader who does not know the custom option finds an enum
that is not allowed.
-/

namespace SchemaDecl

open Textual

/-- The line that sets the built-in option `allow_alias` to true. -/
def aliasLine (level : Nat) : List Char :=
  indentation level ++ "option allow_alias = true;\n".toList

/-- An option has this line exactly if it is not a custom one, has the name `allow_alias`, and has
a value that is written `true`. -/
theorem SchemaOption.statement_eq_aliasLine_iff (o : SchemaOption) (level : Nat) :
    o.statement level = aliasLine level ↔
      o.isCustom = false ∧ o.name = "allow_alias" ∧
        (o.value.layout level : List Char) = "true".toList := by
  have hstatement : o.statement level = indentation level ++ ("option ".toList ++
      (o.label ++ ' ' :: '=' :: ' ' :: o.value.layout level ++ ";\n".toList)) := by
    simp [statement, assignment]
  have hline : aliasLine level = indentation level ++ ("option ".toList ++
      ("allow_alias".toList ++ ' ' :: '=' :: ' ' :: "true".toList ++ ";\n".toList)) := rfl
  rw [hstatement, hline, List.append_cancel_left_eq, List.append_cancel_left_eq,
    List.append_cancel_right_eq]
  cases hcustom : o.isCustom with
  | true => simp [label, hcustom]
  | false =>
      -- The only equals sign of the line ends the name.
      have hsplit : o.name.toList ++ ' ' :: '=' :: ' ' :: o.value.layout level =
            "allow_alias".toList ++ ' ' :: '=' :: ' ' :: "true".toList ↔
          "allow_alias ".toList = o.name.toList ++ [' '] ∧ '=' = '=' ∧
            " true".toList = ' ' :: o.value.layout level := by
        rw [← List.append_cons_inj_of_notMem (by decide) (by decide), List.append_assoc, eq_comm]
        rfl
      have hname : "allow_alias ".toList = o.name.toList ++ [' '] ↔ o.name = "allow_alias" := by
        rw [show "allow_alias ".toList = "allow_alias".toList ++ [' '] from rfl,
          List.append_cancel_right_eq, String.toList_inj, eq_comm]
      have hvalue : " true".toList = ' ' :: o.value.layout level ↔
          (o.value.layout level : List Char) = "true".toList := by
        rw [show " true".toList = ' ' :: "true".toList from rfl, List.cons_inj_right, eq_comm]
      have hlabel : (o.label : List Char) = o.name.toList := by simp [label, hcustom]
      rw [hlabel, hsplit, hname, hvalue]
      simp

/-- The options that the schema language knows by itself. -/
def builtInOptions (options : List SchemaOption) : List SchemaOption :=
  options.filter fun o => !o.isCustom

/-- If the option that decides is a built-in one, it decides among the built-in ones too. -/
theorem aliasesPermitted_builtInOptions {before after : List SchemaOption} {o : SchemaOption}
    (hbefore : ∀ p ∈ before, p.name ≠ "allow_alias") (ho : o.AllowsAlias)
    (hbuiltIn : o.isCustom = false) :
    AliasesPermitted (builtInOptions (before ++ o :: after)) := by
  have hsplit : builtInOptions (before ++ o :: after) =
      builtInOptions before ++ o :: builtInOptions after := by
    simp [builtInOptions, hbuiltIn]
  exact ⟨builtInOptions before, o, builtInOptions after, hsplit,
    fun p hp => hbefore p (List.mem_of_mem_filter hp), ho.1, ho.2⟩

theorem exists_blockRest_eq (level : Nat) {statements : List (List Char)} (h : statements ≠ [])
    (items : List (List Char)) :
    ∃ rest, blockRest level statements items = '\n' :: (statements.flatten ++ rest) := by
  have hnonempty : ¬ (statements.isEmpty && items.isEmpty) = true := by simp [h]
  rw [blockRest, if_neg hnonempty, List.append_assoc, List.append_assoc]
  exact ⟨_, rfl⟩

namespace EnumDecl

/-- The enum is also made if only the options count that the schema language knows by itself. -/
def MadeWithBuiltIn (decl : EnumDecl) : Prop :=
  ∃ made, (create { decl.toHeader with options := builtInOptions decl.options }
    decl.constants).result = .ok made

theorem madeWithBuiltIn_iff {decl : EnumDecl} :
    decl.MadeWithBuiltIn ↔
      (decl.constants.map Constant.tag).Nodup ∨
        AliasesPermitted (builtInOptions decl.options) :=
  hasResult_create_iff

/-- If constants of a made enum share a tag, its statements follow its opening line. The line of the
built-in option `allow_alias` is among them exactly if an option that is not a custom one has the
name and a value that is written `true`. That is so, and the enum is allowed as well without its
custom options, if the first option of the name is not a custom one. -/
theorem aliasLine_mem_statements_iff {header : Header} {constants : List Constant}
    {decl : EnumDecl} (made : (create header constants).result = .ok decl)
    (repeated : ¬ (decl.constants.map Constant.tag).Nodup) (level : Nat) :
    let statements : List (List Char) := decl.options.map (SchemaOption.statement (level + 1))
    (∃ rest, decl.layout level =
      Text.commentBlock level decl.documentation ++
        (indentation level ++ decl.opening "enum") ++ '\n' :: (statements.flatten ++ rest)) ∧
    (aliasLine (level + 1) ∈ statements ↔
      ∃ o ∈ decl.options, o.isCustom = false ∧ o.name = "allow_alias" ∧
        (o.value.layout (level + 1) : List Char) = "true".toList) ∧
    ∃ before o after, decl.options = before ++ o :: after ∧
      (∀ p ∈ before, p.name ≠ "allow_alias") ∧ o.AllowsAlias ∧
      (o.isCustom = false →
        aliasLine (level + 1) ∈ statements ∧ decl.MadeWithBuiltIn) := by
  intro statements
  obtain ⟨-, hsound⟩ := create_result_eq_ok_iff.mp made
  obtain ⟨before, o, after, hsplit, hbefore, ho⟩ := hsound.resolve_left repeated
  have hmem : o ∈ decl.options := by
    rw [hsplit]
    exact List.mem_append_cons_self
  have hline : aliasLine (level + 1) ∈ statements ↔
      ∃ o ∈ decl.options, o.isCustom = false ∧ o.name = "allow_alias" ∧
        (o.value.layout (level + 1) : List Char) = "true".toList := by
    simp only [statements, List.mem_map, SchemaOption.statement_eq_aliasLine_iff]
  refine ⟨?_, hline, before, o, after, hsplit, hbefore, ho, fun hbuiltIn => ⟨?_, ?_⟩⟩
  · have hstatements : statements ≠ [] := List.ne_nil_of_mem (List.mem_map_of_mem hmem)
    obtain ⟨rest, hrest⟩ := exists_blockRest_eq level hstatements
      (decl.constants.map (Constant.layout (level + 1)))
    refine ⟨rest, ?_⟩
    rw [layout, Header.block_eq, hrest]
  · exact hline.mpr ⟨o, hmem, hbuiltIn, ho.1, by rw [ho.2]; rfl⟩
  · rw [madeWithBuiltIn_iff, hsplit]
    exact .inr (aliasesPermitted_builtInOptions hbefore ho hbuiltIn)

/-- An enum with a repeated tag and an option `allow_alias`. -/
def aliasedSample (isCustom : Bool) : EnumDecl :=
  ⟨⟨"Color", "pkg.Color", "", [⟨"allow_alias", .boolean true, isCustom⟩]⟩, twins⟩

theorem aliasLine_mem_aliasedSample :
    (create (aliasedSample false).toHeader twins).result = .ok (aliasedSample false) ∧
      ¬ ((aliasedSample false).constants.map Constant.tag).Nodup ∧
        aliasLine 2 ∈ (aliasedSample false).options.map (SchemaOption.statement 2) :=
  ⟨rfl, by decide,
    (@aliasLine_mem_statements_iff (aliasedSample false).toHeader twins (aliasedSample false) rfl
      (by decide) 1).2.1.mpr ⟨_, List.mem_singleton_self _, rfl, rfl, rfl⟩⟩

/-- A custom option `allow_alias` lets an enum with a repeated tag be made, but the line of the
built-in option is not in the text, and the enum is not made with its built-in options alone. -/
theorem not_aliasLine_mem_of_custom :
    ¬ (∀ header constants decl level, (create header constants).result = .ok decl →
        ¬ (decl.constants.map Constant.tag).Nodup →
          aliasLine (level + 1) ∈ decl.options.map (SchemaOption.statement (level + 1))) ∧
      ¬ ∀ header constants decl, (create header constants).result = .ok decl →
        decl.MadeWithBuiltIn := by
  have hmade : (create (aliasedSample true).toHeader twins).result =
      .ok (aliasedSample true) := rfl
  have hrepeated : ¬ ((aliasedSample true).constants.map Constant.tag).Nodup := by decide
  constructor
  · intro h
    have hline := h _ _ _ 0 hmade hrepeated
    rw [aliasedSample, List.map_singleton, List.mem_singleton, eq_comm,
      SchemaOption.statement_eq_aliasLine_iff] at hline
    cases hline.1
  · intro h
    obtain hnodup | haliases := madeWithBuiltIn_iff.mp (h _ _ _ hmade)
    · exact hrepeated hnodup
    · obtain ⟨o, ho, -⟩ := haliases.exists_mem
      cases ho

end EnumDecl

end SchemaDecl
