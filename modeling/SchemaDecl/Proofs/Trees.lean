import SchemaDecl.Declaration.Create
import SchemaDecl.Declaration.Layout

/-!
# Trees, and everything that has a text at a level

A value holds a list of values under keys, and a message a list of declarations. A property of all
of them follows from one case for each form, where an aggregate or a message may use the property
of every member of its list. The functions that run along the lists inside a tree are the maps of
the functions along the tree.

Values, options, constants and declarations are all written at a level of nesting. A statement
about every text at a level is a statement about a `Form`.

## Implementation notes

The two principles are the eliminators of the tactic `induction`. They are the generated principles
with the motives for lists and pairs filled in: every member of the list has the property.
-/

namespace SchemaDecl

/-- A property of all values, where the values inside an aggregate have it before the aggregate. -/
@[induction_eliminator]
theorem Value.induct {motive : Value → Prop}
    (boolean : ∀ b, motive (.boolean b))
    (number : ∀ literal, motive (.number literal))
    (string : ∀ content, motive (.string content))
    (identifier : ∀ name, motive (.identifier name))
    (aggregate : ∀ entries : List (String × Value),
      (∀ e ∈ entries, motive e.2) → motive (.aggregate entries)) :
    ∀ v, motive v :=
  @Value.rec motive (fun entries => ∀ e ∈ entries, motive e.2) (fun e => motive e.2)
    boolean number string identifier aggregate
    (fun _ h => absurd h List.not_mem_nil)
    (fun _ _ he hrest => List.forall_mem_cons.mpr ⟨he, hrest⟩)
    (fun _ _ hvalue => hvalue)

/-- A property of all declarations, where those nested in a message have it before the message. -/
@[induction_eliminator]
theorem Declaration.induct {motive : Declaration → Prop}
    (enum : ∀ decl, motive (.enum decl))
    (message : ∀ header nested, (∀ d ∈ nested, motive d) → motive (.message header nested)) :
    ∀ d, motive d :=
  @Declaration.rec motive (fun ds => ∀ d ∈ ds, motive d) enum message
    (fun _ h => absurd h List.not_mem_nil)
    (fun _ _ hd hrest => List.forall_mem_cons.mpr ⟨hd, hrest⟩)

section Layout

variable {τ : Type} [Append τ] [Textual τ]

open Textual

theorem Value.entryLayouts_eq_map (level : Nat) (entries : List (String × Value)) :
    (entryLayouts level entries : List τ) =
      entries.map fun e => ofString e.1 ++ ofString ": " ++ e.2.layout level := by
  induction entries with
  | nil => rfl
  | cons e rest ih => rw [entryLayouts, ih, List.map_cons]

theorem Declaration.layouts_eq_map (level : Nat) (ds : List Declaration) :
    (layouts level ds : List τ) = ds.map (layout level) := by
  induction ds with
  | nil => rfl
  | cons d rest ih => rw [layouts, ih, List.map_cons]

end Layout

/-- A part of a schema together with the form in which it is written. -/
inductive Form where
  | value (v : Value)
  /-- An option in place. -/
  | assignment (o : SchemaOption)
  /-- An option on lines of its own. -/
  | statement (o : SchemaOption)
  | constant (c : Constant)
  | enum (decl : EnumDecl)
  | message (header : Header) (nested : List Declaration)
  | declaration (d : Declaration)

namespace Form

variable {τ : Type} [Append τ] [Textual τ]

/-- The text of a form at the given level. -/
def layout (level : Nat) : Form → τ
  | value v => v.layout level
  | assignment o => o.assignment level
  | statement o => o.statement level
  | constant c => c.layout level
  | enum decl => decl.layout level
  | message header nested => (Declaration.message header nested).layout level
  | declaration d => d.layout level

end Form

end SchemaDecl
