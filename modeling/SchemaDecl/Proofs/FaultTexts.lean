import SchemaDecl.Fault
import SchemaDecl.Proofs.Layouts
import SchemaDecl.Proofs.Reading.Notation

/-!
# Texts that tell faults apart

A fault is told in one sentence, and in a diagnostic that may repeat what it holds as advice. In
both forms different faults have different texts. The beginning of the sentence tells the cause; a
tag ends with its digits, the name of a constant at the first space, and a qualified name with the
line.
-/

namespace SchemaDecl.Fault

open Reading Textual Text

/-- Constants are named without spaces, all other names stand on one line. -/
def HasPlainNames : Fault → Prop
  | .missingPart part => '\n' ∉ part.toList
  | .duplicateTag _ enumName => '\n' ∉ enumName.toList
  | .duplicateConstant constant scope => ' ' ∉ constant.toList ∧ '\n' ∉ scope.toList

instance : (f : Fault) → Decidable f.HasPlainNames
  | .missingPart _ => inferInstanceAs (Decidable (_ ∉ _))
  | .duplicateTag _ _ => inferInstanceAs (Decidable (_ ∉ _))
  | .duplicateConstant _ _ => inferInstanceAs (Decidable (_ ∧ _))

/-- What two faults share if their sentences with further text behind them are the same. -/
inductive Agree (x y : List Char) : Fault → Fault → Prop
  | missingPart {p q : String}
      (h : p.toList ++ ("` is required".toList ++ x) = q.toList ++ ("` is required".toList ++ y)) :
      Agree x y (.missingPart p) (.missingPart q)
  | duplicateTag {tag : Int32} {m n : String} (h : m.toList ++ x = n.toList ++ y) :
      Agree x y (.duplicateTag tag m) (.duplicateTag tag n)
  | duplicateConstant {constant m n : String} (h : m.toList ++ x = n.toList ++ y) :
      Agree x y (.duplicateConstant constant m) (.duplicateConstant constant n)

/-- A number is told from the text behind it by a space. -/
theorem decimal_append_space_inj {i j : Int} {x y : List Char}
    (h : decimal i ++ ' ' :: x = decimal j ++ ' ' :: y) : i = j ∧ x = y := by
  have hspace (rest : List Char) : StartsWith (·.isDigit = false) (' ' :: rest) :=
    ⟨' ', rest, rfl, rfl⟩
  have hread := reads_decimal i (' ' :: x) (hspace x)
  rw [h, reads_decimal j (' ' :: y) (hspace y)] at hread
  obtain ⟨rfl, hrest⟩ := Prod.mk.inj (Option.some.inj hread)
  exact ⟨rfl, (List.cons.inj hrest).2.symm⟩

/-- A name is told from the text behind it by a character that it does not hold. -/
theorem name_append_cons_inj {c : Char} {m n : String} {x y : List Char} (hm : c ∉ m.toList)
    (hn : c ∉ n.toList) (h : m.toList ++ c :: x = n.toList ++ c :: y) : m = n ∧ x = y := by
  have hspan {word : List Char} (rest : List Char) (hword : c ∉ word) :
      (word ++ c :: rest).span (· != c) = (word, c :: rest) :=
    span_append (fun d hd => by simpa using ne_of_mem_of_not_mem hd hword)
      (.inr ⟨c, rest, rfl, by simp⟩)
  have hsplit := hspan x hm
  rw [h, hspan y hn] at hsplit
  obtain ⟨hname, hrest⟩ := Prod.mk.inj hsplit
  exact ⟨(String.toList_inj.mp hname).symm, (List.cons.inj hrest).2.symm⟩

theorem layout_append (f : Fault) (x : List Char) :
    (f.layout ++ x : List Char) =
      match f with
      | .missingPart part => "`".toList ++ (part.toList ++ ("` is required".toList ++ x))
      | .duplicateTag tag enumName =>
          "Duplicate tag ".toList ++
            (decimal tag.toInt ++ ' ' :: ("in ".toList ++ (enumName.toList ++ x)))
      | .duplicateConstant constant scope =>
          "Duplicate enum constant ".toList ++
            (constant.toList ++ ' ' :: ("in scope ".toList ++ (scope.toList ++ x))) := by
  cases f <;> simp only [layout, ofString_eq, ofChars_eq, List.append_assoc] <;> rfl

theorem tag_append_ne_constant_append (x y : List Char) :
    "Duplicate tag ".toList ++ x ≠ "Duplicate enum constant ".toList ++ y := by
  intro h
  have hbeginning : "Duplicate t".toList = "Duplicate e".toList := congrArg (List.take 11) h
  exact absurd hbeginning (by decide)

theorem agree_of_layout_append_eq {f g : Fault} (hf : f.HasPlainNames) (hg : g.HasPlainNames)
    {x y : List Char} (h : (f.layout ++ x : List Char) = g.layout ++ y) : Agree x y f g := by
  rw [layout_append, layout_append] at h
  cases f with
  | missingPart p =>
      cases g with
      | missingPart q => exact .missingPart (List.append_cancel_left h)
      | duplicateTag t n => cases h
      | duplicateConstant d n => cases h
  | duplicateTag s m =>
      cases g with
      | missingPart q => cases h
      | duplicateTag t n =>
          obtain ⟨htag, hname⟩ := decimal_append_space_inj (List.append_cancel_left h)
          obtain rfl := Int32.toInt_inj.mp htag
          exact .duplicateTag (List.append_cancel_left hname)
      | duplicateConstant d n => exact absurd h (tag_append_ne_constant_append _ _)
  | duplicateConstant c m =>
      cases g with
      | missingPart q => cases h
      | duplicateTag t n => exact absurd h.symm (tag_append_ne_constant_append _ _)
      | duplicateConstant d n =>
          obtain ⟨rfl, hscope⟩ := name_append_cons_inj hf.1 hg.1 (List.append_cancel_left h)
          exact .duplicateConstant (List.append_cancel_left hscope)

/-- What stands behind the sentence in a diagnostic. -/
def epilogue : Fault → List Char
  | .missingPart _ => " to build an enum declaration".toList
  | f => "\n  = help: ".toList ++ (f.help?.getD "").toList

theorem layout_diagnostic (f : Fault) :
    (f.diagnostic.layout : List Char) =
      "error".toList ++ ": ".toList ++ (f.layout ++ f.epilogue) := by
  have hmessage : f.message.toList = f.layout := String.toList_ofList
  rw [← hmessage, ← List.append_assoc]
  cases f with
  | missingPart p =>
      have hfinding : (missingPart p).finding.toList =
          (missingPart p).message.toList ++ " to build an enum declaration".toList :=
        String.toList_append
      calc
        ((missingPart p).diagnostic.layout : List Char) =
            "error".toList ++ ": ".toList ++ (missingPart p).finding.toList ++ [] := rfl
        _ = "error".toList ++ ": ".toList ++ (missingPart p).message.toList ++
            " to build an enum declaration".toList := by
          rw [hfinding, List.append_nil, ← List.append_assoc]
  | duplicateTag t n => rfl
  | duplicateConstant c n => rfl

/-- With the same text behind their sentences, faults are the same if the texts are. -/
theorem Agree.eq {f g : Fault} {x : List Char} (h : Agree x x f g) : f = g := by
  cases h with
  | missingPart h => rw [String.toList_inj.mp (List.append_cancel_right h)]
  | duplicateTag h => rw [String.toList_inj.mp (List.append_cancel_right h)]
  | duplicateConstant h => rw [String.toList_inj.mp (List.append_cancel_right h)]

theorem eq_of_message_eq {f g : Fault} (hf : f.HasPlainNames) (hg : g.HasPlainNames)
    (h : f.message = g.message) : f = g := by
  have hlayout : (f.layout ++ [] : List Char) = g.layout ++ [] :=
    congrArg (· ++ []) (String.ofList_inj.mp h)
  exact (agree_of_layout_append_eq hf hg hlayout).eq

theorem eq_of_render_diagnostic_eq {f g : Fault} (hf : f.HasPlainNames) (hg : g.HasPlainNames)
    (h : f.diagnostic.render = g.diagnostic.render) : f = g := by
  have hlayout : (f.diagnostic.layout : List Char) = g.diagnostic.layout := String.ofList_inj.mp h
  rw [layout_diagnostic, layout_diagnostic] at hlayout
  cases agree_of_layout_append_eq hf hg (List.append_cancel_left hlayout) with
  | missingPart h => exact (Agree.missingPart h).eq
  | duplicateTag h => exact (Agree.duplicateTag h).eq
  | duplicateConstant h =>
      -- The advice repeats both names, but begins with the end of the line.
      obtain ⟨rfl, -⟩ := name_append_cons_inj hf.2 hg.2 h
      rfl

/-- Faults with plain names have the same sentence exactly if they are the same fault, and the same
text of their diagnostics exactly if they are. -/
theorem texts_eq_iff {f g : Fault} (hf : f.HasPlainNames) (hg : g.HasPlainNames) :
    (f.message = g.message ↔ f = g) ∧ (f.diagnostic.render = g.diagnostic.render ↔ f = g) :=
  ⟨⟨eq_of_message_eq hf hg, congrArg message⟩,
    ⟨eq_of_render_diagnostic_eq hf hg, fun h => by rw [h]⟩⟩

/-- A name that looks like the words of the sentence around it. -/
theorem texts_ne_of_scope_name :
    (duplicateConstant "A\n" "p in scope q").HasPlainNames ∧
      (duplicateConstant "A" "q").HasPlainNames ∧
        (duplicateConstant "A\n" "p in scope q").message ≠ (duplicateConstant "A" "q").message ∧
          (duplicateConstant "A\n" "p in scope q").diagnostic.render ≠
            (duplicateConstant "A" "q").diagnostic.render := by
  have hfirst : (duplicateConstant "A\n" "p in scope q").HasPlainNames := by decide
  have hsecond : (duplicateConstant "A" "q").HasPlainNames := by decide
  obtain ⟨hmessage, hrender⟩ := texts_eq_iff hfirst hsecond
  exact ⟨hfirst, hsecond, mt hmessage.mp (by decide), mt hrender.mp (by decide)⟩

end SchemaDecl.Fault
