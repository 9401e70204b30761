import SchemaDecl.Collation
import SchemaDecl.Declaration.Create
import SchemaDecl.Declaration.Layout

/-!
# Work on an open scope

A session holds the declarations of a scope that is being put together, and the faults met so far.
Each command answers with a reply or with a fault. A command that meets a fault leaves the scope
as it was, and the fault joins the others; the session goes on.
-/

namespace SchemaDecl

/-- A scope in work. -/
structure Session where
  scope : List Declaration
  faults : List Fault
deriving DecidableEq

namespace Session

/-- A session with an empty scope and without faults. -/
def start : Session := ⟨[], []⟩

/-- What a session can be told to do. -/
inductive Command where
  | declare (d : Declaration)
  /-- Makes a message around the last declarations, as many as counted and at most all. -/
  | wrap (header : Header) (count : Nat)
  /-- Puts the content of the last message in its place. -/
  | unwrap
  /-- Makes the last enum again with one more option. -/
  | extend (o : SchemaOption)
  | drop
  | rotate
  | check (scope : String)
  | render (level : Nat)
  | report
  | sortFaults

/-- What a command answers. -/
inductive Reply where
  | nothing
  | text (s : String)
  | aliases (allowed : Bool)
  | diagnostics (ds : List Diagnostic)
  | messages (texts : List String)

/-- The session with a further declaration at the end. -/
def push (session : Session) (d : Declaration) : Session :=
  { session with scope := session.scope ++ [d] }

/-- Does what a command says, as long as there is no fault. -/
def attempt (session : Session) : Command → Checked (Session × Reply)
  | .declare d => do
      let made ← d.assemble
      return (session.push made, .text (made.render 0))
  | .wrap header count => do
      let kept := session.scope.length - count
      let made ← Declaration.createMessage header (session.scope.drop kept)
      return ({ session with scope := session.scope.take kept ++ [made] }, .text (made.render 0))
  | .unwrap =>
      match session.scope.getLast? with
      | some (.message header nested) =>
          return ({ session with scope := session.scope.dropLast ++ nested }, .text header.name)
      | _ => return (session, .nothing)
  | .extend o =>
      match session.scope.getLast? with
      | some (.enum decl) => do
          let made ← EnumDecl.create { decl.toHeader with options := decl.options ++ [o] }
            decl.constants
          return ({ session with scope := session.scope.dropLast ++ [.enum made] },
            .aliases made.allowsAlias)
      | _ => return (session, .nothing)
  | .drop =>
      match session.scope.getLast? with
      | some d => return ({ session with scope := session.scope.dropLast }, .text d.name)
      | none => return (session, .nothing)
  | .rotate => return ({ session with scope := session.scope.rotateLeft }, .nothing)
  | .check scope => do
      checkScope scope session.scope
      return (session, .nothing)
  | .render level => return (session, .text (Declaration.renderAll level session.scope))
  | .report => return (session, .diagnostics (session.faults.map Fault.diagnostic))
  | .sortFaults =>
      let sorted := Collation.sorted session.faults
      return ({ session with faults := sorted }, .messages (sorted.map Fault.message))

/-- What comes of a command. -/
structure Outcome where
  session : Session
  journal : List Record
  reply : Except Fault Reply

/-- Runs a command. -/
def run (session : Session) (command : Command) : Outcome :=
  match session.attempt command with
  | ⟨journal, .ok (next, reply)⟩ => ⟨next, journal, .ok reply⟩
  | ⟨journal, .error fault⟩ =>
      ⟨{ session with faults := session.faults ++ [fault] }, journal, .error fault⟩

end Session

end SchemaDecl
