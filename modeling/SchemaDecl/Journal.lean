import SchemaDecl.Fault

/-!
# The journal of what was made

Making declarations leaves records of what succeeded. `Checked α` is a result, or the fault that
stands in its way, together with the records left until then. Steps are joined so that records
add up in the order of the steps, and that the first fault ends the rest: the records before it
stay, and there are none after it.
-/

namespace SchemaDecl

/-- How closely one has to look to see a record. -/
inductive Level where
  | debug
  | trace
deriving DecidableEq, Repr

/-- The name of a level. -/
def Level.name : Level → String
  | .debug => "DEBUG"
  | .trace => "TRACE"

/-- Something that succeeded. Declarations and scopes appear under their qualified names. -/
inductive Record where
  /-- An enum has aliases, and its tags were not compared. -/
  | aliasesAllowed (enumName : String)
  | enumCreated (enumName : String) (options constants : Nat)
  | scopeValidated (scope : String) (constants : Nat)
  | messageCreated (messageName : String) (nested : Nat)
deriving DecidableEq, Repr

namespace Record

/-- The level of a record. -/
def level : Record → Level
  | .aliasesAllowed _ => .trace
  | _ => .debug

/-- The record in words. -/
def text : Record → String
  | .aliasesAllowed enumName => s!"`{enumName}` allows aliases, skipping tag checks"
  | .enumCreated enumName options constants =>
      s!"created enum `{enumName}` with {options} option(s) and {constants} constant(s)"
  | .scopeValidated scope constants =>
      s!"validated {constants} enum constant name(s) in scope `{scope}`"
  | .messageCreated messageName nested =>
      s!"created message `{messageName}` with {nested} nested element(s)"

/-- The level and the words on one line. -/
def line (r : Record) : String := r.level.name ++ " " ++ r.text

end Record

/-- A result or the fault in its way, with the records left until then. -/
structure Checked (α : Type) where
  journal : List Record
  result : Except Fault α

namespace Checked

variable {α β : Type}

/-- Leaves a record. -/
def record (r : Record) : Checked Unit := ⟨[r], .ok ()⟩

/-- Stops with a fault. -/
def fail (f : Fault) : Checked α := ⟨[], .error f⟩

/-- Goes on with the result if there is one. -/
def andThen (c : Checked α) (next : α → Checked β) : Checked β :=
  match c.result with
  | .ok a =>
      let d := next a
      ⟨c.journal ++ d.journal, d.result⟩
  | .error f => ⟨c.journal, .error f⟩

instance : Monad Checked where
  pure a := ⟨[], .ok a⟩
  bind := andThen

instance : LawfulMonad Checked := LawfulMonad.mk' Checked
  (by
    rintro α ⟨journal, _ | a⟩
    · rfl
    · change Checked.mk (journal ++ []) (.ok a) = _
      rw [List.append_nil])
  (by
    intro α β a next
    rfl)
  (by
    rintro α β γ ⟨journal, _ | a⟩ next last
    · rfl
    · change andThen ⟨journal ++ (next a).journal, (next a).result⟩ last =
        ⟨journal ++ (andThen (next a) last).journal, (andThen (next a) last).result⟩
      rcases next a with ⟨middle, _ | b⟩
      · rfl
      · simp only [andThen, List.append_assoc])

@[simp] theorem pure_eq (a : α) : (pure a : Checked α) = ⟨[], .ok a⟩ := rfl

@[simp] theorem fail_bind (f : Fault) (next : α → Checked β) :
    (fail f : Checked α) >>= next = fail f := rfl

@[simp] theorem record_bind (r : Record) (next : Unit → Checked β) :
    record r >>= next = ⟨r :: (next ()).journal, (next ()).result⟩ := rfl

@[simp] theorem ok_bind (journal : List Record) (a : α) (next : α → Checked β) :
    (⟨journal, .ok a⟩ : Checked α) >>= next =
      ⟨journal ++ (next a).journal, (next a).result⟩ := rfl

@[simp] theorem error_bind (journal : List Record) (f : Fault) (next : α → Checked β) :
    (⟨journal, .error f⟩ : Checked α) >>= next = ⟨journal, .error f⟩ := rfl

end Checked

end SchemaDecl
