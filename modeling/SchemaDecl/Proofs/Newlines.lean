import SchemaDecl.Text.Basic

/-!
# Pieces of text without a newline

Quoted strings, comments and numbers are pieces of a single line, whatever they are made from.
-/

namespace SchemaDecl.Text

namespace Quoted

/-- Characters that cannot stand for themselves between quotes. -/
theorem letter?_eq_none_iff {c : Char} :
    letter? c = none ↔ c ≠ '\\' ∧ c ≠ '"' ∧ c ≠ '\n' ∧ c ≠ '\r' ∧ c ≠ '\t' := by
  unfold letter?
  split <;> simp_all

theorem letter?_eq_some {c letter : Char} (h : letter? c = some letter) :
    letter = '\\' ∨ letter = '"' ∨ letter = 'n' ∨ letter = 'r' ∨ letter = 't' := by
  unfold letter? at h
  split at h <;> simp_all [eq_comm]

theorem escape_cons_of_none {c : Char} (h : letter? c = none) (rest : List Char) :
    escape (c :: rest) = c :: escape rest := by
  rw [escape, h]

theorem escape_cons_of_some {c letter : Char} (h : letter? c = some letter) (rest : List Char) :
    escape (c :: rest) = '\\' :: letter :: escape rest := by
  rw [escape, h]

/-- A character that stands for another one, a tab or a line end, never stands in a quoted text. -/
theorem ne_of_mem_encode {content : List Char} {c : Char} (h : c ∈ encode content) :
    c ≠ '\n' ∧ c ≠ '\r' ∧ c ≠ '\t' := by
  have hescape : c ∈ escape content → c ≠ '\n' ∧ c ≠ '\r' ∧ c ≠ '\t' := by
    clear h
    induction content with
    | nil => simp [escape]
    | cons d rest ih =>
        intro h
        cases hd : letter? d with
        | none =>
            obtain ⟨-, -, hplain⟩ := letter?_eq_none_iff.mp hd
            rw [escape_cons_of_none hd, List.mem_cons] at h
            obtain rfl | h := h
            · exact hplain
            · exact ih h
        | some letter =>
            rw [escape_cons_of_some hd, List.mem_cons, List.mem_cons] at h
            obtain rfl | rfl | h := h
            · decide
            · obtain rfl | rfl | rfl | rfl | rfl := letter?_eq_some hd <;> decide
            · exact ih h
  have hquote : '"' ≠ '\n' ∧ '"' ≠ '\r' ∧ '"' ≠ '\t' := by decide
  rw [encode, List.mem_cons, List.mem_append, List.mem_singleton] at h
  obtain rfl | h | rfl := h
  · exact hquote
  · exact hescape h
  · exact hquote

theorem newline_notMem_encode (content : List Char) : '\n' ∉ encode content :=
  fun h => (ne_of_mem_encode h).1 rfl

end Quoted

/-- A number is made of digits behind at most one minus sign. -/
theorem isDigit_of_mem_decimal {i : Int} {c : Char} (h : c ∈ decimal i) :
    c.isDigit = true ∨ c = '-' := by
  have hdigits {n : Nat} (h : c ∈ Nat.toDigits 10 n) : c.isDigit = true :=
    Nat.isDigit_of_mem_toDigits (by decide) (by decide) h
  cases i with
  | ofNat n => exact .inl (hdigits h)
  | negSucc n =>
      rw [decimal, List.mem_cons] at h
      exact h.symm.imp_left hdigits

theorem newline_notMem_decimal (i : Int) : '\n' ∉ decimal i := fun h => by
  obtain h | h := isDigit_of_mem_decimal h
  · exact absurd h (by decide)
  · exact absurd h (by decide)

theorem newline_notMem_of_mem_lines {text line : List Char} (h : line ∈ lines text) :
    '\n' ∉ line := by
  fun_induction lines text generalizing line with
  | case1 => cases h
  | case2 rest ih | case3 rest ih =>
      obtain rfl | h := List.mem_cons.mp h
      · exact List.not_mem_nil
      · exact ih h
  | case4 c rest hnewline hreturn hrest ih =>
      obtain rfl := List.mem_singleton.mp h
      exact fun hmem => hnewline (List.mem_singleton.mp hmem).symm
  | case5 c rest hnewline hreturn next others hrest ih =>
      obtain rfl | h := List.mem_cons.mp h
      · have hnext := ih (hrest ▸ List.mem_cons_self)
        simpa [Ne.symm hnewline] using hnext
      · exact ih (hrest ▸ List.mem_cons_of_mem next h)

theorem newline_notMem_comment {line : List Char} (h : '\n' ∉ line) : '\n' ∉ comment line := by
  cases line with
  | nil => decide
  | cons c rest => simpa [comment] using h

end SchemaDecl.Text
