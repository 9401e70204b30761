import SchemaDecl.Proofs.Creation
import SchemaDecl.Proofs.Trees

/-!
# The declarations that can be obtained

Declarations are made by the factories only, from declarations made before; a message can be taken
apart, and an enum can be made again with other options. What can be obtained in this way is
described exactly: every enum in the tree has sound tags, and every message in it a sound scope.
Such a tree is its own assembly, and no other tree is.

## Implementation notes

Soundness speaks of all places in a tree at once, so that it does not depend on how the tree was
put together. A step that takes a message apart is then no harder than one that makes a message.
-/

namespace SchemaDecl.Declaration

/-- A run of the factories arrives at the declaration. Every constructor is one step of a run; the
declarations among its hypotheses were obtained by earlier steps. -/
inductive Obtainable : Declaration → Prop
  | createEnum {header : Header} {constants : List Constant} {d : Declaration}
      (made : (Declaration.createEnum header constants).result = .ok d) : Obtainable d
  | buildEnum {parts : List EnumDraft.Part} {decl : EnumDecl}
      (made : (parts.foldl EnumDraft.add EnumDraft.blank).build.result = .ok decl) :
      Obtainable (.enum decl)
  | createMessage {header : Header} {nested : List Declaration} {d : Declaration}
      (parts : ∀ e ∈ nested, Obtainable e)
      (made : (Declaration.createMessage header nested).result = .ok d) : Obtainable d
  | takeOut {whole d : Declaration} (obtained : Obtainable whole) (mem : d ∈ whole.nested) :
      Obtainable d
  | recreateEnum {decl : EnumDecl} {options : List SchemaOption} {d : Declaration}
      (obtained : Obtainable (.enum decl))
      (made : (Declaration.createEnum { decl.toHeader with options := options }
        decl.constants).result = .ok d) : Obtainable d

/-- A declaration stands somewhere in a tree: it is the tree, or stands in a nested one. -/
inductive OccursIn (d : Declaration) : Declaration → Prop
  | root : OccursIn d d
  | inside {header : Header} {nested : List Declaration} {e : Declaration}
      (mem : e ∈ nested) (deeper : OccursIn d e) : OccursIn d (.message header nested)

theorem occursIn_enum_iff {d : Declaration} {decl : EnumDecl} :
    OccursIn d (.enum decl) ↔ d = .enum decl := by
  constructor
  · rintro ⟨⟩
    rfl
  · rintro rfl
    exact .root

theorem occursIn_message_iff {d : Declaration} {header : Header} {nested : List Declaration} :
    OccursIn d (.message header nested) ↔
      d = .message header nested ∨ ∃ e ∈ nested, OccursIn d e := by
  constructor
  · intro h
    cases h with
    | root => exact .inl rfl
    | inside mem deeper => exact .inr ⟨_, mem, deeper⟩
  · rintro (rfl | ⟨e, mem, deeper⟩)
    · exact .root
    · exact .inside mem deeper

/-- All enums in the tree have sound tags and all messages in it have sound scopes. -/
def Sound (d : Declaration) : Prop :=
  (∀ decl, OccursIn (.enum decl) d → decl.TagsSound) ∧
    ∀ header nested, OccursIn (.message header nested) d → ScopeSound nested

theorem sound_enum_iff {decl : EnumDecl} : Sound (.enum decl) ↔ decl.TagsSound := by
  simp [Sound, occursIn_enum_iff]

theorem sound_message_iff {header : Header} {nested : List Declaration} :
    Sound (.message header nested) ↔ ScopeSound nested ∧ ∀ d ∈ nested, Sound d := by
  constructor
  · rintro ⟨henums, hscopes⟩
    refine ⟨hscopes header nested .root, fun d hd => ⟨fun decl h => ?_, fun g ds h => ?_⟩⟩
    · exact henums decl (.inside hd h)
    · exact hscopes g ds (.inside hd h)
  · rintro ⟨hscope, hnested⟩
    constructor
    · intro decl h
      obtain h | ⟨e, he, h⟩ := occursIn_message_iff.mp h
      · cases h
      · exact (hnested e he).1 decl h
    · intro g ds h
      obtain h | ⟨e, he, h⟩ := occursIn_message_iff.mp h
      · cases h
        exact hscope
      · exact (hnested e he).2 g ds h

/-- No step of a run leaves the sound declarations. -/
theorem Obtainable.sound {d : Declaration} (h : Obtainable d) : Sound d := by
  induction h with
  | createEnum made =>
      obtain ⟨rfl, htags⟩ := createEnum_result_eq_ok_iff.mp made
      exact sound_enum_iff.mpr htags
  | buildEnum made =>
      obtain ⟨_, _, _, _, _, htags⟩ := EnumDraft.build_result_eq_ok_iff.mp made
      exact sound_enum_iff.mpr htags
  | createMessage parts made ih =>
      obtain ⟨rfl, hscope⟩ := createMessage_result_eq_ok_iff.mp made
      exact sound_message_iff.mpr ⟨hscope, ih⟩
  | @takeOut whole d obtained mem ih =>
      cases whole with
      | enum decl => cases mem
      | message header nested => exact (sound_message_iff.mp ih).2 d mem
  | recreateEnum obtained made ih =>
      obtain ⟨rfl, htags⟩ := createEnum_result_eq_ok_iff.mp made
      exact sound_enum_iff.mpr htags

/-- A sound declaration is obtained from the leaves up. -/
theorem Sound.obtainable {d : Declaration} (h : Sound d) : Obtainable d := by
  induction d with
  | enum decl =>
      exact .createEnum (createEnum_result_eq_ok_iff.mpr ⟨rfl, sound_enum_iff.mp h⟩)
  | message header nested ih =>
      obtain ⟨hscope, hnested⟩ := sound_message_iff.mp h
      exact .createMessage (fun e he => ih e he (hnested e he))
        (createMessage_result_eq_ok_iff.mpr ⟨rfl, hscope⟩)

/-- If the assembly of each declaration does, then the assembly of all succeeds exactly for sound
ones and gives them back. -/
theorem assembleAll_result_eq_ok_iff {ds es : List Declaration}
    (h : ∀ d ∈ ds, ∀ e, d.assemble.result = .ok e ↔ Sound d ∧ e = d) :
    (assembleAll ds).result = .ok es ↔ (∀ d ∈ ds, Sound d) ∧ es = ds := by
  induction ds generalizing es with
  | nil => simp [assembleAll, eq_comm]
  | cons d rest ih =>
      have hrest (others : List Declaration) :
          (assembleAll rest).result = .ok others ↔ (∀ e ∈ rest, Sound e) ∧ others = rest :=
        ih fun e he => h e (List.mem_cons_of_mem d he)
      simp only [assembleAll, Checked.bind_result_eq_ok_iff, h d List.mem_cons_self, hrest,
        Checked.pure_result_eq_ok_iff, List.forall_mem_cons]
      constructor
      · rintro ⟨_, ⟨hd, rfl⟩, _, ⟨hsound, rfl⟩, rfl⟩
        exact ⟨⟨hd, hsound⟩, rfl⟩
      · rintro ⟨⟨hd, hsound⟩, rfl⟩
        exact ⟨d, ⟨hd, rfl⟩, rest, ⟨hsound, rfl⟩, rfl⟩

/-- Assembly succeeds exactly for the sound trees, and gives back the tree itself. -/
theorem assemble_result_eq_ok_iff {d e : Declaration} :
    d.assemble.result = .ok e ↔ Sound d ∧ e = d := by
  induction d generalizing e with
  | enum decl =>
      rw [assemble, createEnum_result_eq_ok_iff, sound_enum_iff, and_comm]
  | message header nested ih =>
      have hnested (made : List Declaration) :
          (assembleAll nested).result = .ok made ↔ (∀ d ∈ nested, Sound d) ∧ made = nested :=
        assembleAll_result_eq_ok_iff fun d hd _ => ih d hd
      simp only [assemble, Checked.bind_result_eq_ok_iff, hnested,
        createMessage_result_eq_ok_iff, sound_message_iff]
      constructor
      · rintro ⟨_, ⟨hsound, rfl⟩, rfl, hscope⟩
        exact ⟨⟨hscope, hsound⟩, rfl⟩
      · rintro ⟨⟨hscope, hsound⟩, rfl⟩
        exact ⟨nested, ⟨hsound, rfl⟩, rfl, hscope⟩

/-- A declaration can be obtained exactly if every enum in it, at every depth, has different tags
or lets its first option `allow_alias` be true, and the enums directly inside every message in it,
at every depth, declare constants with different names. These are just the trees whose assembly
from the leaves up succeeds and gives back the tree. -/
theorem obtainable_iff (d : Declaration) :
    (Obtainable d ↔
      (∀ decl, OccursIn (.enum decl) d →
        (decl.constants.map Constant.tag).Nodup ∨ AliasesPermitted decl.options) ∧
      ∀ header nested, OccursIn (.message header nested) d →
        ((enumsAmong nested).flatMap fun decl => decl.constants.map Constant.name).Nodup) ∧
    (Obtainable d ↔ d.assemble.result = .ok d) := by
  have hsound : Obtainable d ↔ Sound d := ⟨Obtainable.sound, Sound.obtainable⟩
  refine ⟨hsound, hsound.trans ?_⟩
  rw [assemble_result_eq_ok_iff]
  exact (and_iff_left rfl).symm

end SchemaDecl.Declaration
