import SchemaDecl.Proofs.Trees

/-!
# The tokens of a text

Names, keys and literals enter a text as they are, while strings are quoted, documentation is put
behind slashes and tags are written in base ten. The tokens of a part of a schema are all pieces of
the first sort, in the order in which they are written. What a text can be relied on for depends on
its tokens only.
-/

namespace SchemaDecl

/-- A piece of a schema that is written as it is. -/
inductive Token where
  | declaration (name : String)
  | constant (name : String)
  | option (name : String)
  | key (name : String)
  | number (literal : String)
  | identifier (name : String)
deriving DecidableEq, Repr

/-- The characters of a token. -/
def Token.chars : Token → List Char
  | .declaration s | .constant s | .option s | .key s | .number s | .identifier s => s.toList

mutual

/-- The tokens of a value. -/
def Value.tokens : Value → List Token
  | .boolean _ => []
  | .number literal => [.number literal]
  | .string _ => []
  | .identifier name => [.identifier name]
  | .aggregate entries => Value.entryTokens entries

/-- The tokens of entries, each a key and a value. -/
def Value.entryTokens : List (String × Value) → List Token
  | [] => []
  | (key, value) :: rest => .key key :: (value.tokens ++ Value.entryTokens rest)

end

/-- The tokens of an option. -/
def SchemaOption.tokens (o : SchemaOption) : List Token := .option o.name :: o.value.tokens

/-- The tokens of a constant. -/
def Constant.tokens (c : Constant) : List Token :=
  .constant c.name :: c.options.flatMap SchemaOption.tokens

/-- The tokens of a header. -/
def Header.tokens (header : Header) : List Token :=
  .declaration header.name :: header.options.flatMap SchemaOption.tokens

/-- The tokens of an enum. -/
def EnumDecl.tokens (decl : EnumDecl) : List Token :=
  decl.toHeader.tokens ++ decl.constants.flatMap Constant.tokens

mutual

/-- The tokens of a declaration. -/
def Declaration.tokens : Declaration → List Token
  | .enum decl => decl.tokens
  | .message header nested => header.tokens ++ Declaration.allTokens nested

/-- The tokens of declarations. -/
def Declaration.allTokens : List Declaration → List Token
  | [] => []
  | d :: ds => d.tokens ++ Declaration.allTokens ds

end

/-- The tokens of a form. -/
def Form.tokens : Form → List Token
  | .value v => v.tokens
  | .assignment o | .statement o => o.tokens
  | .constant c => c.tokens
  | .enum decl => decl.tokens
  | .message header nested => (Declaration.message header nested).tokens
  | .declaration d => d.tokens

theorem Value.entryTokens_eq_flatMap (entries : List (String × Value)) :
    entryTokens entries = entries.flatMap fun e => .key e.1 :: e.2.tokens := by
  induction entries with
  | nil => rfl
  | cons e rest ih => rw [entryTokens, ih, List.flatMap_cons, List.cons_append]

theorem Declaration.allTokens_eq_flatMap (ds : List Declaration) :
    allTokens ds = ds.flatMap tokens := by
  induction ds with
  | nil => rfl
  | cons d rest ih => rw [allTokens, ih, List.flatMap_cons]

section Forall

variable {p : Token → Prop}

theorem Value.forall_tokens_aggregate_iff {entries : List (String × Value)} :
    (∀ t ∈ (aggregate entries).tokens, p t) ↔
      ∀ e ∈ entries, p (.key e.1) ∧ ∀ t ∈ e.2.tokens, p t := by
  rw [tokens, entryTokens_eq_flatMap]
  simp only [List.forall_mem_flatMap, List.forall_mem_cons]

theorem SchemaOption.forall_tokens_iff {o : SchemaOption} :
    (∀ t ∈ o.tokens, p t) ↔ p (.option o.name) ∧ ∀ t ∈ o.value.tokens, p t :=
  List.forall_mem_cons

theorem Constant.forall_tokens_iff {c : Constant} :
    (∀ t ∈ c.tokens, p t) ↔
      p (.constant c.name) ∧ ∀ o ∈ c.options, ∀ t ∈ o.tokens, p t := by
  simp only [tokens, List.forall_mem_cons, List.forall_mem_flatMap]

theorem Header.forall_tokens_iff {header : Header} :
    (∀ t ∈ header.tokens, p t) ↔
      p (.declaration header.name) ∧ ∀ o ∈ header.options, ∀ t ∈ o.tokens, p t := by
  simp only [tokens, List.forall_mem_cons, List.forall_mem_flatMap]

theorem EnumDecl.forall_tokens_iff {decl : EnumDecl} :
    (∀ t ∈ decl.tokens, p t) ↔
      (∀ t ∈ decl.toHeader.tokens, p t) ∧ ∀ c ∈ decl.constants, ∀ t ∈ c.tokens, p t := by
  simp only [tokens, List.forall_mem_append, List.forall_mem_flatMap]

theorem Declaration.forall_tokens_message_iff {header : Header} {nested : List Declaration} :
    (∀ t ∈ (message header nested).tokens, p t) ↔
      (∀ t ∈ header.tokens, p t) ∧ ∀ d ∈ nested, ∀ t ∈ d.tokens, p t := by
  rw [tokens, allTokens_eq_flatMap]
  simp only [List.forall_mem_append, List.forall_mem_flatMap]

end Forall

end SchemaDecl
