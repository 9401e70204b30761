import SchemaDecl.Collation
import SchemaDecl.Declaration.Basic
import SchemaDecl.Journal

/-!
# Making declarations

An enum is made if its constants have different tags or if it allows aliases. A message is made
if the enums directly inside it declare constants with different names: constants are siblings of
their enum, so all of them share the scope of the message. A whole tree is made from the leaves
up, in the order of the lists, and the first fault ends it.
-/

namespace SchemaDecl

/-- Finds no fault if the constants have different tags. -/
def checkTags (enumName : String) (constants : List Constant) : Checked Unit :=
  match firstRepeat? (constants.map Constant.tag) with
  | some tag => Checked.fail (.duplicateTag tag enumName)
  | none => pure ()

/-- Makes an enum. -/
def EnumDecl.create (header : Header) (constants : List Constant) : Checked EnumDecl := do
  if permitAliases header.options then
    Checked.record (.aliasesAllowed header.qualifiedName)
  else
    checkTags header.qualifiedName constants
  Checked.record (.enumCreated header.qualifiedName header.options.length constants.length)
  return ⟨header, constants⟩

/-- The names of the constants that declarations add to the scope they stand in. -/
def scopeNames (ds : List Declaration) : List String :=
  ds.flatMap fun d => d.constants.map Constant.name

/-- Finds no fault if the declarations of a scope add constants with different names to it, and
records how many different names there are. -/
def checkScope (scope : String) (ds : List Declaration) : Checked Unit :=
  match firstRepeat? (scopeNames ds) with
  | some constant => Checked.fail (.duplicateConstant constant scope)
  | none => Checked.record (.scopeValidated scope (Collation.distinctCount (scopeNames ds)))

namespace Declaration

/-- Makes an enum. -/
def createEnum (header : Header) (constants : List Constant) : Checked Declaration := do
  let decl ← EnumDecl.create header constants
  return .enum decl

/-- Makes a message around declarations. -/
def createMessage (header : Header) (nested : List Declaration) : Checked Declaration := do
  checkScope header.qualifiedName nested
  Checked.record (.messageCreated header.qualifiedName nested.length)
  return .message header nested

mutual

/-- Makes a declaration and all declarations in it from the leaves up. -/
def assemble : Declaration → Checked Declaration
  | .enum decl => createEnum decl.toHeader decl.constants
  | .message header nested => do
      let made ← assembleAll nested
      createMessage header made

/-- Makes declarations one after the other. -/
def assembleAll : List Declaration → Checked (List Declaration)
  | [] => return []
  | d :: ds => do
      let made ← assemble d
      let others ← assembleAll ds
      return made :: others

end

end Declaration

end SchemaDecl
