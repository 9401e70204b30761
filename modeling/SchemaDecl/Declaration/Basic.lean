import SchemaDecl.Constant

/-!
# Declarations

A declaration is an enum with its constants or a message with the declarations nested in it. Both
begin with a header: a name, a qualified name, documentation and options. The qualified name
labels faults and records and is never written.

A value of `Declaration` is a tree as it was put together. `SchemaDecl.Declaration.Create` holds
the checks that a tree has to pass.

## Implementation notes

Equality of declarations is decided like equality of values, by a Boolean function along the tree.
-/

namespace SchemaDecl

/-- What every declaration begins with. -/
structure Header where
  name : String
  qualifiedName : String
  documentation : String
  options : List SchemaOption
deriving DecidableEq

/-- An enum. -/
structure EnumDecl extends Header where
  constants : List Constant
deriving DecidableEq

/-- An enum or a message. -/
inductive Declaration where
  | enum (decl : EnumDecl)
  | message (header : Header) (nested : List Declaration)

/-- The name of the option that lets constants of an enum share a tag. -/
def allowAliasName : String := "allow_alias"

/-- Whether the options of an enum let its constants share a tag: the first option of the name
`allow_alias` decides, and it permits aliases if its value is the truth value true. -/
def permitAliases (options : List SchemaOption) : Bool :=
  match SchemaOption.find? allowAliasName options with
  | some o => o.value.truth? == some true
  | none => false

/-- Whether constants of the enum may share a tag. -/
def EnumDecl.allowsAlias (decl : EnumDecl) : Bool := permitAliases decl.options

namespace Declaration

instance : Inhabited Declaration := ⟨.message ⟨"", "", "", []⟩ []⟩

/-- The header of a declaration. -/
def header : Declaration → Header
  | .enum decl => decl.toHeader
  | .message header _ => header

/-- The name of a declaration. -/
def name (d : Declaration) : String := d.header.name

/-- The declarations nested in a declaration; an enum has none. -/
def nested : Declaration → List Declaration
  | .enum _ => []
  | .message _ nested => nested

/-- The constants that a declaration adds to the scope it stands in. The constants of an enum are
siblings of the enum; a message keeps those of its own enums to itself. -/
def constants : Declaration → List Constant
  | .enum decl => decl.constants
  | .message _ _ => []

mutual

/-- Whether two declarations are the same, by recursion on both trees. -/
def same : Declaration → Declaration → Bool
  | .enum a, .enum b => a == b
  | .message g a, .message h b => g == h && sameAll a b
  | _, _ => false

/-- Whether two lists of declarations are the same. -/
def sameAll : List Declaration → List Declaration → Bool
  | [], [] => true
  | d :: a, e :: b => same d e && sameAll a b
  | _, _ => false

end

mutual

theorem eq_of_same : ∀ {d e : Declaration}, same d e = true → d = e
  | .enum _, e, h => by
      cases e <;> simp_all [same]
  | .message g a, e, h => by
      cases e with
      | enum _ => simp [same] at h
      | message k b =>
          simp only [same, Bool.and_eq_true, beq_iff_eq] at h
          rw [h.1, eq_of_sameAll h.2]

theorem eq_of_sameAll : ∀ {a b : List Declaration}, sameAll a b = true → a = b
  | [], [], _ => rfl
  | [], _ :: _, h => by simp [sameAll] at h
  | _ :: _, [], h => by simp [sameAll] at h
  | d :: a, e :: b, h => by
      simp only [sameAll, Bool.and_eq_true] at h
      rw [eq_of_same h.1, eq_of_sameAll h.2]

end

mutual

theorem same_self : ∀ d : Declaration, same d d = true
  | .enum _ => by simp [same]
  | .message _ nested => by simp [same, sameAll_self nested]

theorem sameAll_self : ∀ ds : List Declaration, sameAll ds ds = true
  | [] => by rw [sameAll]
  | d :: ds => by simp [sameAll, same_self d, sameAll_self ds]

end

theorem same_iff {d e : Declaration} : same d e = true ↔ d = e :=
  ⟨eq_of_same, fun h => h ▸ same_self d⟩

instance : DecidableEq Declaration := fun _ _ => decidable_of_iff _ same_iff

end Declaration

end SchemaDecl
