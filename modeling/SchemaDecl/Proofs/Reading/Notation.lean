import SchemaDecl.Proofs.Newlines
import SchemaDecl.Proofs.Reading.Basic

/-!
# Reading numbers and quoted texts

A number ends where its digits end. The characters between quotes end at the first quote that no
backslash takes up. The escapes among them are undone afterwards, by themselves.
-/

namespace SchemaDecl.Text

open Reading

/-- The number that digits at the front of a text stand for, negative behind a minus sign. -/
def readDecimal : Reader Int
  | '-' :: text =>
      let (digits, rest) := text.span Char.isDigit
      some (-(Nat.ofDigitChars 10 digits 0 : Nat), rest)
  | text =>
      let (digits, rest) := text.span Char.isDigit
      some ((Nat.ofDigitChars 10 digits 0 : Nat), rest)

/-- A number is read back if no digit follows. -/
theorem reads_decimal (i : Int) :
    Reads readDecimal (StartsWith (·.isDigit = false)) i (decimal i) := by
  intro rest hrest
  have hspan (n : Nat) :
      (Nat.toDigits 10 n ++ rest).span Char.isDigit = (Nat.toDigits 10 n, rest) :=
    span_append (fun c hc => Nat.isDigit_of_mem_toDigits (by decide) (by decide) hc) (.inr hrest)
  cases i with
  | ofNat n =>
      -- The second equation of the reader applies, since no digit is a minus sign.
      have hminus (others : List Char) : Nat.toDigits 10 n ++ rest ≠ '-' :: others := by
        intro h
        obtain ⟨c, cs, hn⟩ := List.exists_cons_of_ne_nil (Nat.toDigits_ne_nil (n := n) (b := 10))
        have hc : c.isDigit = true :=
          Nat.isDigit_of_mem_toDigits (by decide) (by decide) (hn ▸ List.mem_cons_self)
        rw [hn] at h
        cases h
        exact absurd hc (by decide)
      rw [decimal, readDecimal, hspan]
      · simp
      · exact hminus
  | negSucc n =>
      rw [decimal, List.cons_append, readDecimal, hspan]
      simp [Int.negSucc_eq]

namespace Quoted

/-- The characters up to the closing quote, and what follows the quote. A backslash takes up the
next character, whatever it is. -/
def scan : Reader (List Char)
  | [] => none
  | '"' :: rest => some ([], rest)
  | '\\' :: c :: rest => (scan rest).map fun (inside, rest) => ('\\' :: c :: inside, rest)
  | c :: rest => (scan rest).map fun (inside, rest) => (c :: inside, rest)

/-- The characters that escaped ones stand for. -/
def unescape : List Char → List Char
  | [] => []
  | '\\' :: '\\' :: rest => '\\' :: unescape rest
  | '\\' :: '"' :: rest => '"' :: unescape rest
  | '\\' :: 'n' :: rest => '\n' :: unescape rest
  | '\\' :: 'r' :: rest => '\r' :: unescape rest
  | '\\' :: 't' :: rest => '\t' :: unescape rest
  | c :: rest => c :: unescape rest

theorem scan_cons_of_ne {c : Char} (hquote : c ≠ '"') (hbackslash : c ≠ '\\')
    (rest : List Char) :
    scan (c :: rest) = (scan rest).map fun (inside, rest) => (c :: inside, rest) := by
  rw [scan]
  · exact hquote
  · intro d others h
    exact absurd h hbackslash

theorem unescape_cons_of_ne {c : Char} (h : c ≠ '\\') (rest : List Char) :
    unescape (c :: rest) = c :: unescape rest := by
  rw [unescape] <;> intro others hc <;> exact absurd hc h

/-- Scanning stops at the closing quote, wherever the text goes on. -/
theorem scan_escape_append (content rest : List Char) :
    scan (escape content ++ '"' :: rest) = some (escape content, rest) := by
  induction content with
  | nil => rfl
  | cons c cs ih =>
      cases hc : letter? c with
      | none =>
          obtain ⟨hbackslash, hquote, -⟩ := letter?_eq_none_iff.mp hc
          rw [escape_cons_of_none hc, List.cons_append, scan_cons_of_ne hquote hbackslash, ih]
          rfl
      | some letter =>
          rw [escape_cons_of_some hc, List.cons_append, List.cons_append, scan, ih]
          rfl

/-- Undoing the escapes gives back the text. -/
theorem unescape_escape (content : List Char) : unescape (escape content) = content := by
  induction content with
  | nil => rfl
  | cons c cs ih =>
      cases hc : letter? c with
      | none =>
          rw [escape_cons_of_none hc, unescape_cons_of_ne (letter?_eq_none_iff.mp hc).1, ih]
      | some letter =>
          rw [escape_cons_of_some hc]
          unfold letter? at hc
          split at hc <;> cases hc <;> rw [unescape, ih]

theorem scan_tail_encode_append (content rest : List Char) :
    scan (encode content ++ rest).tail = some (escape content, rest) := by
  rw [encode, List.cons_append, List.tail_cons, List.append_assoc, List.singleton_append,
    scan_escape_append]

/-- What begins with a quoted text begins with that of one text only, and has one rest. -/
theorem encode_append_inj {content other rest after : List Char} :
    encode content ++ rest = encode other ++ after ↔ content = other ∧ rest = after := by
  constructor
  · intro h
    have hscan : some (escape content, rest) = some (escape other, after) := by
      rw [← scan_tail_encode_append content rest, h, scan_tail_encode_append]
    obtain ⟨hinside, hrest⟩ := Prod.mk.inj (Option.some.inj hscan)
    refine ⟨?_, hrest⟩
    rw [← unescape_escape content, hinside, unescape_escape]
  · rintro ⟨rfl, rfl⟩
    rfl

/-- A quoted text holds no line end and no tab. Behind its opening quote, the first quote that no
backslash takes up is the closing one, so that scanning leaves just what follows the text. Undoing
the escapes on what is in between gives back the text that was quoted. -/
theorem encode_delimits (content rest : List Char) :
    ('\n' ∉ encode content ∧ '\r' ∉ encode content ∧ '\t' ∉ encode content) ∧
      ∃ inside, encode content = '"' :: (inside ++ ['"']) ∧
        scan (encode content ++ rest).tail = some (inside, rest) ∧
          unescape inside = content := by
  refine ⟨⟨?_, ?_, ?_⟩, escape content, rfl, scan_tail_encode_append content rest,
    unescape_escape content⟩
  · exact newline_notMem_encode content
  · exact fun h => (ne_of_mem_encode h).2.1 rfl
  · exact fun h => (ne_of_mem_encode h).2.2 rfl

/-- Backslashes before a quote, before a letter and at the end, with a quote behind the text. -/
example : scan (encode "\\\"\\n\n\\".toList ++ "\"\\".toList).tail =
    some ("\\\\\\\"\\\\n\\n\\\\".toList, "\"\\".toList) := by decide

end Quoted

end SchemaDecl.Text
