import SchemaDecl.Proofs.Tokens

/-!
# Tokens as a tokenizer supplies them

Names and keys are identifiers, option names are identifiers with dots between them, and literals
begin in a way that tells their kind. Nothing is asked of strings, documentation, qualified names
and tags, which are no tokens.
-/

namespace SchemaDecl

/-- Letters of the Latin alphabet, and all characters beyond ASCII, so that the letters of other
scripts count as well. -/
def isLetter (c : Char) : Bool := c.isAlpha || decide (128 ≤ c.toNat)

/-- A letter or underscore of ASCII, and then letters, digits and underscores of ASCII. -/
def isIdentifier : List Char → Bool
  | [] => false
  | c :: rest => (c.isAlpha || c == '_') && rest.all fun d => d.isAlphanum || d == '_'

/-- Identifiers with dots between them. -/
def isDottedName (cs : List Char) : Bool := (cs.splitOn '.').all isIdentifier

/-- A digit or a minus sign, and then letters, digits, dots and signs. -/
def isNumberLiteral : List Char → Bool
  | [] => false
  | c :: rest => (c.isDigit || c == '-') &&
      rest.all fun d => isLetter d || d.isDigit || d == '.' || d == '+' || d == '-'

/-- A letter or an underscore, and then letters, digits, underscores and dots. The two truth values
are not among the identifiers. -/
def isBareIdentifier : List Char → Bool
  | [] => false
  | c :: rest => (isLetter c || c == '_') &&
      (rest.all fun d => isLetter d || d.isDigit || d == '_' || d == '.') &&
        c :: rest != "true".toList && c :: rest != "false".toList

/-- A token has the form that belongs to its kind. -/
def Token.isLexical : Token → Bool
  | .declaration s | .constant s | .key s => isIdentifier s.toList
  | .option s => isDottedName s.toList
  | .number s => isNumberLiteral s.toList
  | .identifier s => isBareIdentifier s.toList

theorem isDigit_eq_false_of_isLetter {c : Char} (h : isLetter c = true) : c.isDigit = false := by
  -- The classes of characters are ranges of one number.
  change ((decide (c.val ≥ 'A'.val ∧ c.val ≤ 'Z'.val) ||
    (decide (c.val ≥ 'a'.val) && decide (c.val ≤ 'z'.val))) || decide (128 ≤ c.toNat)) = true at h
  simp only [Bool.or_eq_true, Bool.and_eq_true, decide_eq_true_eq, ge_iff_le,
    UInt32.le_iff_toNat_le] at h
  change ((65 ≤ c.toNat ∧ c.toNat ≤ 90) ∨ (97 ≤ c.toNat ∧ c.toNat ≤ 122)) ∨ 128 ≤ c.toNat at h
  rw [← Bool.not_eq_true, Char.isDigit_iff_toNat]
  change ¬ (48 ≤ c.toNat ∧ c.toNat ≤ 57)
  omega

/-- A character that occurs in names and keys. -/
def isNameChar (c : Char) : Bool := c.isAlphanum || c == '_' || c == '.'

theorem ne_of_isNameChar {c d : Char} (hc : isNameChar c = true) (hd : isNameChar d = false) :
    c ≠ d := by
  rintro rfl
  rw [hc] at hd
  cases hd

/-- Not empty, and made of characters that occur in names and keys. -/
def IsName (cs : List Char) : Prop := cs ≠ [] ∧ ∀ c ∈ cs, isNameChar c = true

theorem isName_of_isIdentifier {cs : List Char} (h : isIdentifier cs = true) : IsName cs := by
  cases cs with
  | nil => cases h
  | cons c rest =>
      simp only [isIdentifier, Bool.and_eq_true, List.all_eq_true] at h
      refine ⟨List.cons_ne_nil c rest, List.forall_mem_cons.mpr ⟨?_, fun d hd => ?_⟩⟩
      · have hc := h.1
        simp only [isNameChar, Char.isAlphanum]
        grind
      · have hd := h.2 d hd
        simp only [isNameChar]
        grind

theorem forall_mem_of_splitOn {p : Char → Prop} {sep : Char} {cs : List Char}
    (h : ∀ piece ∈ cs.splitOn sep, ∀ c ∈ piece, p c) : ∀ c ∈ cs, c = sep ∨ p c := by
  induction cs with
  | nil => simp
  | cons d rest ih =>
      obtain ⟨piece, pieces, hsplit⟩ := List.exists_cons_of_ne_nil (List.splitOn_ne_nil sep rest)
      rw [List.splitOn_cons_eq_if_modifyHead] at h
      by_cases hd : d = sep
      · simp only [hd, beq_self_eq_true, if_true, List.forall_mem_cons] at h
        exact List.forall_mem_cons.mpr ⟨.inl hd, ih h.2⟩
      · simp only [beq_eq_false_iff_ne.mpr hd, Bool.false_eq_true, if_false, hsplit,
          List.modifyHead_cons, List.forall_mem_cons] at h
        refine List.forall_mem_cons.mpr ⟨.inr h.1.1, ih ?_⟩
        rw [hsplit]
        exact List.forall_mem_cons.mpr ⟨h.1.2, h.2⟩

theorem isName_of_isDottedName {cs : List Char} (h : isDottedName cs = true) : IsName cs := by
  rw [isDottedName, List.all_eq_true] at h
  constructor
  · rintro rfl
    exact absurd (h [] (by simp)) (by decide)
  · intro c hc
    obtain rfl | hc := forall_mem_of_splitOn
      (fun piece hpiece => (isName_of_isIdentifier (h piece hpiece)).2) c hc
    · decide
    · exact hc

end SchemaDecl
