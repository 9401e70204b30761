import SchemaDecl.Proofs.Trees

/-!
# What is written of a declaration

A text does not show everything of a declaration: qualified names are left out, and of a
documentation text only its lines are to be seen. What is left is the outline of the declaration.
Declarations with the same outline have the same text.
-/

namespace SchemaDecl

open Textual

/-- What is written of a constant. -/
structure ConstantOutline where
  name : String
  tag : Int32
  documentation : List (List Char)
  options : List SchemaOption
deriving DecidableEq

/-- What is written of a header. -/
structure HeaderOutline where
  name : String
  documentation : List (List Char)
  options : List SchemaOption
deriving DecidableEq

/-- What is written of an enum or a message. -/
inductive Outline where
  | enum (header : HeaderOutline) (constants : List ConstantOutline)
  | message (header : HeaderOutline) (nested : List Outline)

/-- The outline of a constant. -/
def Constant.outline (c : Constant) : ConstantOutline :=
  ⟨c.name, c.tag, Text.lines c.documentation.toList, c.options⟩

/-- The outline of a header. -/
def Header.outline (header : Header) : HeaderOutline :=
  ⟨header.name, Text.lines header.documentation.toList, header.options⟩

namespace Declaration

mutual

/-- The outline of a declaration. -/
def outline : Declaration → Outline
  | .enum decl => .enum decl.toHeader.outline (decl.constants.map Constant.outline)
  | .message header nested => .message header.outline (outlines nested)

/-- The outlines of declarations. -/
def outlines : List Declaration → List Outline
  | [] => []
  | d :: ds => outline d :: outlines ds

end

theorem outlines_eq_map (ds : List Declaration) : outlines ds = ds.map outline := by
  induction ds with
  | nil => rfl
  | cons d rest ih => rw [outlines, ih, List.map_cons]

end Declaration

/-- What depends on the outlines of single items depends on the list of outlines. -/
theorem map_eq_map_of_outlines {α β γ : Type} {outline : α → β} {text : α → γ} {as bs : List α}
    (h : ∀ a ∈ as, ∀ b, outline a = outline b → text a = text b)
    (heq : as.map outline = bs.map outline) : as.map text = bs.map text := by
  induction as generalizing bs with
  | nil =>
      obtain rfl := List.map_eq_nil_iff.mp heq.symm
      rfl
  | cons a rest ih =>
      obtain ⟨b, others, rfl, hb, hothers⟩ := List.map_eq_cons_iff.mp heq.symm
      obtain ⟨ha, hrest⟩ := List.forall_mem_cons.mp h
      rw [List.map_cons, List.map_cons, ha b hb.symm, ih hrest hothers.symm]

theorem Constant.layout_eq_of_outline_eq {b c : Constant} (h : b.outline = c.outline)
    (level : Nat) : (b.layout level : List Char) = c.layout level := by
  obtain ⟨hname, htag, hdocumentation, hoptions⟩ := ConstantOutline.mk.inj h
  simp only [layout, Text.commentBlock, hname, htag, hdocumentation, hoptions]

theorem Header.block_eq_of_outline_eq {header other : Header} (h : header.outline = other.outline)
    (level : Nat) (keyword : String) (items : List (List Char)) :
    header.block level keyword items = other.block level keyword items := by
  obtain ⟨hname, hdocumentation, hoptions⟩ := HeaderOutline.mk.inj h
  simp only [block, Text.commentBlock, hname, hdocumentation, hoptions]

theorem Declaration.layout_eq_of_outline_eq {d e : Declaration} (h : d.outline = e.outline)
    (level : Nat) : (d.layout level : List Char) = e.layout level := by
  induction d generalizing e level with
  | enum decl =>
      cases e with
      | message => cases h
      | enum other =>
          obtain ⟨hheader, hconstants⟩ := Outline.enum.inj h
          have hitems := map_eq_map_of_outlines
            (fun c _ _ hc => Constant.layout_eq_of_outline_eq hc (level + 1)) hconstants
          rw [layout, layout, EnumDecl.layout, EnumDecl.layout, hitems,
            Header.block_eq_of_outline_eq hheader]
  | message header nested ih =>
      cases e with
      | enum => cases h
      | message other others =>
          obtain ⟨hheader, hnested⟩ := Outline.message.inj h
          rw [outlines_eq_map, outlines_eq_map] at hnested
          have hitems := map_eq_map_of_outlines
            (fun d hd _ hd' => ih d hd hd' (level + 1)) hnested
          rw [layout, layout, layouts_eq_map, layouts_eq_map, hitems,
            Header.block_eq_of_outline_eq hheader]

end SchemaDecl
