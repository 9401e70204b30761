import SchemaDecl.Fault
import SchemaDecl.Proofs.Trees
import SchemaDecl.Text.Sink

/-!
# Texts in sinks that run out of room

Every text is described once for lists of characters and for printers. The printer writes just the
characters of the list, up to the first that the sink refuses: nothing is lost before the refusal,
and nothing is offered after it.

## Implementation notes

The relation `Printer.Writes` between a printer and a list of characters is closed under joining.
It is carried along the trees, one lemma for each text; room and refusals are counted only once,
for the whole text.
-/

namespace SchemaDecl

open Textual

namespace Printer

/-- The printer offers just these characters, up to the first refusal. -/
def Writes (p : Printer) (cs : List Char) : Prop := p.run = Sink.offerAll cs

variable {p q : Printer} {cs ds : List Char} {α : Type} {f : α → Printer} {g : α → List Char}
  {items : List α}

theorem writes_ofChars (cs : List Char) : Writes (ofChars cs) cs := rfl

theorem writes_ofString (s : String) : Writes (ofString s) (ofString s) := rfl

theorem writes_nothing : Writes nothing nothing := rfl

theorem writes_indentation (level : Nat) : Writes (indentation level) (indentation level) := rfl

theorem Writes.append (hp : Writes p cs) (hq : Writes q ds) : Writes (p ++ q) (cs ++ ds) :=
  append_run_of_run hp hq

theorem Writes.ite {c : Prop} [Decidable c] (hp : Writes p cs) (hq : Writes q ds) :
    Writes (if c then p else q) (if c then cs else ds) := by
  by_cases h : c
  · simpa only [if_pos h] using hp
  · simpa only [if_neg h] using hq

theorem writes_concat_map (h : ∀ a ∈ items, Writes (f a) (g a)) :
    Writes (concat (items.map f)) (concat (items.map g)) := by
  induction items with
  | nil => exact writes_nothing
  | cons a rest ih =>
      obtain ⟨ha, hrest⟩ := List.forall_mem_cons.mp h
      exact ha.append (ih hrest)

theorem writes_commaLines_map (level : Nat) (h : ∀ a ∈ items, Writes (f a) (g a)) :
    Writes (commaLines level (items.map f)) (commaLines level (items.map g)) := by
  induction items with
  | nil => exact writes_nothing
  | cons a rest ih =>
      obtain ⟨ha, hrest⟩ := List.forall_mem_cons.mp h
      have hline : Writes (indentation level ++ f a) (indentation level ++ g a) :=
        (writes_indentation level).append ha
      cases rest with
      | nil => exact hline.append (writes_ofString "\n")
      | cons b rest => exact (hline.append (writes_ofString ",\n")).append (ih hrest)

theorem writes_blockPart_map (h : ∀ a ∈ items, Writes (f a) (g a)) :
    Writes (blockPart (items.map f)) (blockPart (items.map g)) := by
  simp only [blockPart, List.isEmpty_map]
  exact writes_nothing.ite ((writes_ofString "\n").append (writes_concat_map h))

end Printer

open Printer

theorem Text.writes_commentBlock (level : Nat) (documentation : String) :
    Writes (commentBlock level documentation) (commentBlock level documentation) :=
  writes_concat_map fun line _ =>
    ((writes_indentation level).append (writes_ofChars (comment line))).append
      (writes_ofString "\n")

theorem Value.writes_layout (level : Nat) (v : Value) :
    Writes (v.layout level) (v.layout level) := by
  induction v generalizing level with
  | boolean b => exact writes_ofString _
  | number literal => exact writes_ofString literal
  | string content => exact writes_ofChars _
  | identifier name => exact writes_ofString name
  | aggregate entries ih =>
      have hentries : Writes (commaLines (level + 1) (entryLayouts (level + 1) entries))
          (commaLines (level + 1) (entryLayouts (level + 1) entries)) := by
        rw [entryLayouts_eq_map, entryLayouts_eq_map]
        exact writes_commaLines_map (level + 1) fun e he =>
          ((writes_ofString e.1).append (writes_ofString ": ")).append (ih e he (level + 1))
      rw [layout, layout]
      exact (writes_ofString _).ite ((((writes_ofString "\x7b\n").append hentries).append
        (writes_indentation level)).append (writes_ofString "\x7d"))

namespace SchemaOption

theorem writes_label (o : SchemaOption) : Writes o.label o.label :=
  (((writes_ofString "(").append (writes_ofString o.name)).append (writes_ofString ")")).ite
    (writes_ofString o.name)

theorem writes_assignment (level : Nat) (o : SchemaOption) :
    Writes (o.assignment level) (o.assignment level) :=
  (o.writes_label.append (writes_ofString " = ")).append (o.value.writes_layout level)

theorem writes_statement (level : Nat) (o : SchemaOption) :
    Writes (o.statement level) (o.statement level) :=
  (((writes_indentation level).append (writes_ofString "option ")).append
    (o.writes_assignment level)).append (writes_ofString ";\n")

end SchemaOption

namespace Constant

theorem writes_bracketed (level : Nat) (options : List SchemaOption) :
    Writes (bracketed level options) (bracketed level options) :=
  writes_nothing.ite ((((writes_ofString " [\n").append
    (writes_commaLines_map (level + 1) fun o _ => o.writes_assignment (level + 1))).append
      (writes_indentation level)).append (writes_ofString "]"))

theorem writes_layout (level : Nat) (c : Constant) :
    Writes (c.layout level) (c.layout level) :=
  ((((((Text.writes_commentBlock level c.documentation).append
    (writes_indentation level)).append (writes_ofString c.name)).append
      (writes_ofString " = ")).append (writes_ofChars (Text.decimal c.tag.toInt))).append
        (writes_bracketed level c.options)).append (writes_ofString ";\n")

end Constant

theorem Header.writes_block_map {α : Type} {f : α → Printer} {g : α → List Char} {items : List α}
    (level : Nat) (keyword : String) (header : Header) (h : ∀ a ∈ items, Writes (f a) (g a)) :
    Writes (header.block level keyword (items.map f))
      (header.block level keyword (items.map g)) := by
  have hopening := (((((Text.writes_commentBlock level header.documentation).append
    (writes_indentation level)).append (writes_ofString keyword)).append
      (writes_ofString " ")).append (writes_ofString header.name)).append (writes_ofString " \x7b")
  have hoptions := writes_blockPart_map fun o (_ : o ∈ header.options) =>
    o.writes_statement (level + 1)
  simp only [block, List.isEmpty_map]
  exact (((hopening.append hoptions).append (writes_blockPart_map h)).append
    (writes_nothing.ite (writes_indentation level))).append (writes_ofString "\x7d\n")

theorem EnumDecl.writes_layout (level : Nat) (decl : EnumDecl) :
    Writes (decl.layout level) (decl.layout level) :=
  decl.toHeader.writes_block_map level "enum" fun c _ => c.writes_layout (level + 1)

theorem Declaration.writes_layout (level : Nat) (d : Declaration) :
    Writes (d.layout level) (d.layout level) := by
  induction d generalizing level with
  | enum decl => exact decl.writes_layout level
  | message header nested ih =>
      simp only [layout, layouts_eq_map]
      exact header.writes_block_map level "message" fun d hd => ih d hd (level + 1)

theorem Form.writes_layout (level : Nat) (form : Form) :
    Writes (form.layout level) (form.layout level) := by
  cases form with
  | value v => exact v.writes_layout level
  | assignment o => exact o.writes_assignment level
  | statement o => exact o.writes_statement level
  | constant c => exact c.writes_layout level
  | enum decl => exact decl.writes_layout level
  | message header nested => exact (Declaration.message header nested).writes_layout level
  | declaration d => exact d.writes_layout level

theorem Diagnostic.writes_layout (d : Diagnostic) : Writes d.layout d.layout := by
  have hmessage := ((writes_ofString d.severity.name).append (writes_ofString ": ")).append
    (writes_ofString d.message)
  rw [layout, layout]
  cases d.help with
  | none => exact hmessage.append writes_nothing
  | some help =>
      exact hmessage.append ((writes_ofString "\n  = help: ").append (writes_ofString help))

theorem Fault.writes_layout (f : Fault) : Writes f.layout f.layout := by
  cases f with
  | missingPart part =>
      exact ((writes_ofString "`").append (writes_ofString part)).append
        (writes_ofString "` is required")
  | duplicateTag tag enumName =>
      exact (((writes_ofString "Duplicate tag ").append (writes_ofChars _)).append
        (writes_ofString " in ")).append (writes_ofString enumName)
  | duplicateConstant constant scope =>
      exact (((writes_ofString "Duplicate enum constant ").append
        (writes_ofString constant)).append (writes_ofString " in scope ")).append
          (writes_ofString scope)

/-- Something that can be printed: a form at a level, a diagnostic or a fault. -/
inductive Printable where
  | form (level : Nat) (f : Form)
  | diagnostic (d : Diagnostic)
  | fault (f : Fault)

namespace Printable

variable {τ : Type} [Append τ] [Textual τ]

/-- The text of what can be printed. -/
def layout : Printable → τ
  | .form level f => f.layout level
  | .diagnostic d => d.layout
  | .fault f => f.layout

theorem writes_layout (item : Printable) : Writes item.layout item.layout := by
  cases item with
  | form level f => exact f.writes_layout level
  | diagnostic d => exact d.writes_layout
  | fault f => exact f.writes_layout

/-- A sink with room for `limit` characters holds as many characters from the beginning of the
text as it has room for. The printer reports success exactly if that is the whole text. A character
is offered in vain at most once, so that nothing reaches the sink after the first refusal. -/
theorem deliver_layout (item : Printable) (limit : Nat) :
    let text : List Char := item.layout
    let outcome := (item.layout : Printer).deliver limit
    outcome.1.written = text.take (min limit text.length) ∧
      (outcome.2 = true ↔ text.length ≤ limit) ∧
        outcome.1.refusals = if text.length ≤ limit then 0 else 1 := by
  intro text outcome
  have houtcome : outcome = Sink.offerAll text (Sink.ofLimit limit) :=
    congrFun item.writes_layout (Sink.ofLimit limit)
  rw [houtcome, Sink.offerAll_eq]
  refine ⟨?_, decide_eq_true_iff, ?_⟩
  · simp [Sink.ofLimit, Sink.written, List.take_eq_take_min]
  · exact Nat.zero_add _

end Printable

end SchemaDecl
