import SchemaDecl.Proofs.Lexical
import SchemaDecl.Proofs.Reading.Notation

/-!
# Reading a value

The first character of a value tells how it goes on: a quoted text, an aggregate, or a word. A word
ends at the next delimiter, and its first character tells numbers from identifiers. What follows the
value may be anything that cannot go on with it, and is left as it is. The reader is the same for
all levels.

## Implementation notes

The reader of values has a bound on the depth of nesting. The length of the text is such a bound,
since what is nested is shorter than what it is nested in.
-/

namespace SchemaDecl

open Reading Textual

/-- A character that can follow a value. -/
def isDelimiter (c : Char) : Bool := c == ',' || c == ';' || c == '\x7d' || c == ']' || c == '\n'

/-- Nothing follows, or a delimiter. -/
def Delimited (text : List Char) : Prop := text = [] ∨ StartsWith (isDelimiter · = true) text

theorem delimited_of_endsLine {text : List Char} (h : EndsLine text) : Delimited text := by
  obtain ⟨rest, rfl | rfl⟩ := h
  · exact .inr ⟨',', _, rfl, by decide⟩
  · exact .inr ⟨'\n', _, rfl, by decide⟩

theorem IsName.startsWith_ne {name : List Char} (h : IsName name) {d : Char}
    (hd : isNameChar d = false) : StartsWith (· ≠ d) name := by
  obtain ⟨c, rest, rfl⟩ := List.exists_cons_of_ne_nil h.1
  exact ⟨c, rest, rfl, ne_of_isNameChar (h.2 c List.mem_cons_self) hd⟩

theorem IsName.span_append {name : List Char} (h : IsName name) {d : Char}
    (hd : isNameChar d = false) (rest : List Char) :
    (name ++ d :: rest).span (· != d) = (name, d :: rest) :=
  Reading.span_append (fun c hc => bne_iff_ne.mpr (ne_of_isNameChar (h.2 c hc) hd))
    (.inr ⟨d, rest, rfl, bne_self_eq_false d⟩)

theorem isDelimiter_eq_false {c : Char} (p : Char → Bool) (hc : p c = true)
    (hp : [',', ';', '\x7d', ']', '\n'].all fun d => !p d) : isDelimiter c = false := by
  simp only [List.all_cons, List.all_nil, Bool.and_true, Bool.and_eq_true,
    Bool.not_eq_true'] at hp
  simp only [isDelimiter, Bool.or_eq_false_iff, beq_eq_false_iff_ne]
  refine ⟨⟨⟨⟨?_, ?_⟩, ?_⟩, ?_⟩, ?_⟩ <;> rintro rfl <;> simp_all

namespace Value

/-- The value that a word stands for. -/
def ofWord (word : List Char) : Value :=
  if word = "true".toList then .boolean true
  else if word = "false".toList then .boolean false
  else if word.head?.any fun c => c.isDigit || c == '-' then .number (String.ofList word)
  else .identifier (String.ofList word)

/-- Reads a word, which ends at a delimiter. -/
def readWord : Reader Value := fun text =>
  let (word, rest) := text.span fun c => !isDelimiter c
  some (ofWord word, rest)

/-- Reads a key, a colon and a value. -/
def readEntry (read : Reader Value) : Reader (String × Value) := fun text => do
  let (key, text) := text.span (· != ':')
  let text ← ": ".toList.isPrefixOf? text
  let (value, text) ← read text
  return ((String.ofList key, value), text)

/-- Reads a value that is nested less deeply than given. -/
def readUpTo : (depth : Nat) → Reader Value
  | 0, _ => none
  | _ + 1, '"' :: text => do
      let (inside, text) ← Text.Quoted.scan text
      return (.string (String.ofList (Text.Quoted.unescape inside)), text)
  | _ + 1, '\x7b' :: '\x7d' :: text => some (.aggregate [], text)
  | depth + 1, '\x7b' :: '\n' :: text => do
      let (entries, text) ← readEnclosed '\x7d' (readEntry (readUpTo depth)) text
      return (.aggregate entries, text)
  | _ + 1, text => readWord text

/-- Reads a value. -/
def read : Reader Value := fun text => readUpTo (text.length + 1) text

theorem reads_word {word : List Char} (h : ∀ c ∈ word, isDelimiter c = false) :
    Reads readWord Delimited (ofWord word) word := by
  intro rest hrest
  have hstop : rest = [] ∨ StartsWith (fun c => (!isDelimiter c) = false) rest :=
    hrest.imp_right fun hrest => hrest.imp fun c hc => by simp [hc]
  rw [readWord, span_append (fun c hc => by simp [h c hc]) hstop]

theorem readUpTo_of_word {depth : Nat} {word : List Char}
    (hword : StartsWith (fun c => c ≠ '"' ∧ c ≠ '\x7b') word) (rest : List Char) :
    readUpTo (depth + 1) (word ++ rest) = readWord (word ++ rest) := by
  obtain ⟨c, cs, rfl, hquote, hbrace⟩ := hword
  rw [List.cons_append, readUpTo]
  · exact fun _ h => hquote (List.cons.inj h).1
  · exact fun _ h => hbrace (List.cons.inj h).1
  · exact fun _ h => hbrace (List.cons.inj h).1

theorem reads_readUpTo_of_word {depth : Nat} {word : List Char}
    (hword : StartsWith (fun c => c ≠ '"' ∧ c ≠ '\x7b') word)
    (h : ∀ c ∈ word, isDelimiter c = false) :
    Reads (readUpTo (depth + 1)) Delimited (ofWord word) word := fun rest hrest => by
  rw [readUpTo_of_word hword, reads_word h rest hrest]

theorem ofWord_boolean (b : Bool) :
    ofWord (if b then "true" else "false").toList = .boolean b := by
  cases b <;> rfl

theorem reads_number {literal : String} {depth : Nat} (h : isNumberLiteral literal.toList = true) :
    Reads (readUpTo (depth + 1)) Delimited (.number literal) literal.toList := by
  obtain ⟨c, rest, hliteral⟩ : ∃ c rest, literal.toList = c :: rest :=
    List.exists_cons_of_ne_nil fun hnil => by simp [hnil, isNumberLiteral] at h
  rw [hliteral, isNumberLiteral, Bool.and_eq_true, List.all_eq_true] at h
  have hvalue : ofWord literal.toList = .number literal := by
    have htrue : literal.toList ≠ "true".toList := by
      rw [hliteral]
      rintro ⟨⟩
      exact absurd h.1 (by decide)
    have hfalse : literal.toList ≠ "false".toList := by
      rw [hliteral]
      rintro ⟨⟩
      exact absurd h.1 (by decide)
    have hhead : (literal.toList.head?.any fun c => c.isDigit || c == '-') = true := by
      rw [hliteral]
      exact h.1
    rw [ofWord, if_neg htrue, if_neg hfalse, if_pos hhead, String.ofList_toList]
  rw [← hvalue]
  apply reads_readUpTo_of_word
  · refine ⟨c, rest, hliteral, ?_, ?_⟩ <;> rintro rfl <;> exact absurd h.1 (by decide)
  · rw [hliteral]
    refine List.forall_mem_cons.mpr ⟨isDelimiter_eq_false (fun c => c.isDigit || c == '-') h.1
      (by decide), fun d hd => isDelimiter_eq_false (fun d =>
        isLetter d || d.isDigit || d == '.' || d == '+' || d == '-') (h.2 d hd) (by decide)⟩

theorem reads_identifier {name : String} {depth : Nat} (h : isBareIdentifier name.toList = true) :
    Reads (readUpTo (depth + 1)) Delimited (.identifier name) name.toList := by
  obtain ⟨c, rest, hname⟩ : ∃ c rest, name.toList = c :: rest :=
    List.exists_cons_of_ne_nil fun hnil => by simp [hnil, isBareIdentifier] at h
  rw [hname, isBareIdentifier] at h
  simp only [Bool.and_eq_true, List.all_eq_true, bne_iff_ne] at h
  obtain ⟨⟨⟨hc, hrest⟩, htrue⟩, hfalse⟩ := h
  have hdigit : (c.isDigit || c == '-') = false := by
    obtain hletter | hunderscore := Bool.or_eq_true _ _ ▸ hc
    · have hminus : c ≠ '-' := by
        rintro rfl
        exact absurd hletter (by decide)
      simp [isDigit_eq_false_of_isLetter hletter, hminus]
    · rw [beq_iff_eq.mp hunderscore]
      decide
  have hvalue : ofWord name.toList = .identifier name := by
    have hhead : ¬ (name.toList.head?.any fun c => c.isDigit || c == '-') = true := by
      simpa [hname] using hdigit
    rw [ofWord, if_neg (hname ▸ htrue), if_neg (hname ▸ hfalse), if_neg hhead,
      String.ofList_toList]
  rw [← hvalue]
  apply reads_readUpTo_of_word
  · refine ⟨c, rest, hname, ?_, ?_⟩ <;> rintro rfl <;> exact absurd hc (by decide)
  · rw [hname]
    refine List.forall_mem_cons.mpr ⟨isDelimiter_eq_false (fun c => isLetter c || c == '_') hc
      (by decide), fun d hd => isDelimiter_eq_false (fun d =>
        isLetter d || d.isDigit || d == '_' || d == '.') (hrest d hd) (by decide)⟩

theorem reads_boolean {depth : Nat} (b : Bool) :
    Reads (readUpTo (depth + 1)) Delimited (.boolean b) (if b then "true" else "false").toList := by
  rw [← ofWord_boolean]
  apply reads_readUpTo_of_word
  · cases b
    · exact ⟨'f', _, rfl, by decide⟩
    · exact ⟨'t', _, rfl, by decide⟩
  · have hword : ((if b then "true" else "false").toList.all fun c => !isDelimiter c) = true := by
      cases b <;> rfl
    simpa only [List.all_eq_true, Bool.not_eq_true'] using hword

theorem reads_string {depth : Nat} (content : String) :
    Reads (readUpTo (depth + 1)) Delimited (.string content)
      (Text.Quoted.encode content.toList) := fun rest _ => by
  rw [Text.Quoted.encode, List.cons_append, List.append_assoc, List.singleton_append, readUpTo,
    Text.Quoted.scan_escape_append]
  simp [Text.Quoted.unescape_escape]

theorem reads_entry {read : Reader Value} {key : String} {value : Value} {text : List Char}
    (hkey : isIdentifier key.toList = true) (hvalue : Reads read Delimited value text) :
    Reads (readEntry read) EndsLine (key, value) (key.toList ++ (": ".toList ++ text)) := by
  intro rest hrest
  have hspan : (key.toList ++ (": ".toList ++ (text ++ rest))).span (· != ':') =
      (key.toList, ": ".toList ++ (text ++ rest)) :=
    (isName_of_isIdentifier hkey).span_append (by decide) _
  have hafter := hvalue rest (delimited_of_endsLine hrest)
  simp only [readEntry, List.append_assoc, hspan, isPrefixOf?_append]
  simp [hafter]

theorem startsWith_entryChars {e : String × Value} (level : Nat)
    (h : isIdentifier e.1.toList = true) : StartsWith (· ≠ ' ') (entryChars level e) := by
  exact ((isName_of_isIdentifier h).startsWith_ne (by decide)).append _

theorem reads_aggregate {depth level : Nat} {entries : List (String × Value)}
    (hne : entries ≠ []) (hkeys : ∀ e ∈ entries, isIdentifier e.1.toList = true)
    (hvalues : ∀ e ∈ entries, Reads (readUpTo depth) Delimited e.2 (e.2.layout (level + 1))) :
    Reads (readUpTo (depth + 1)) Delimited (.aggregate entries)
      ((aggregate entries).layout level) := by
  intro rest _
  have hentries := reads_enclosed '\x7d' (by decide) (level + 1) level hne
    (fun e he => startsWith_entryChars (level + 1) (hkeys e he))
    (fun e he => reads_entry (hkeys e he) (hvalues e he)) rest trivial
  rw [layout_aggregate hne, List.cons_append, List.cons_append, List.cons_append, List.cons_append,
    readUpTo, hentries]
  rfl

/-- A value is read back from its text at any level, wherever the text ends or a delimiter
follows. -/
theorem reads_layout {v : Value} (h : ∀ t ∈ v.tokens, t.isLexical = true) (level : Nat)
    {depth : Nat} (hdepth : (v.layout level : List Char).length ≤ depth) :
    Reads (readUpTo (depth + 1)) Delimited v (v.layout level) := by
  induction v generalizing level depth with
  | boolean b => exact reads_boolean b
  | number literal => exact reads_number (h (.number literal) List.mem_cons_self)
  | string content => exact reads_string content
  | identifier name => exact reads_identifier (h (.identifier name) List.mem_cons_self)
  | aggregate entries ih =>
      by_cases hne : entries = []
      · subst hne
        intro rest _
        rw [layout_aggregate_nil]
        rfl
      · rw [forall_tokens_aggregate_iff] at h
        refine reads_aggregate hne (fun e he => (h e he).1) fun e he => ?_
        -- The bound on depth goes down by one with each aggregate, and so does the length.
        have hlt : (e.2.layout (level + 1) : List Char).length < depth := by
          have hentry : (entryChars (level + 1) e).length <
              (commaLines (level + 1) (entries.map (entryChars (level + 1))) : List Char).length :=
            length_lt_length_commaLines (List.mem_map_of_mem he)
          rw [layout_aggregate hne] at hdepth
          simp only [entryChars, List.length_append, List.length_cons] at hentry hdepth
          omega
        obtain ⟨depth, rfl⟩ : ∃ d, depth = d + 1 := ⟨depth - 1, by omega⟩
        exact ih e he (h e he).2 (level + 1) (Nat.le_of_lt_succ hlt)

/-- A value is read back by the reader of values. -/
theorem reads_read {v : Value} (h : ∀ t ∈ v.tokens, t.isLexical = true) (level : Nat) :
    Reads read Delimited v (v.layout level) := fun rest hrest => by
  have hlength : (v.layout level : List Char).length ≤ (v.layout level ++ rest).length := by
    simp
  exact reads_layout h level hlength rest hrest

/-- Reads a value off the front of a text, and leaves the rest of the text. -/
def readText (text : String) : Option (Value × String) := do
  let (v, rest) ← read text.toList
  return (v, String.ofList rest)

/-- A value whose tokens are what a tokenizer supplies is read back from its text at any level, with
just the text that follows it left, if nothing or a delimiter follows. So a text that begins with
the texts of two values, at whatever levels, begins with one value and has one rest. -/
theorem readText_render_append {v : Value} (hv : ∀ t ∈ v.tokens, t.isLexical = true) (level : Nat)
    {rest : String} (hrest : Delimited rest.toList) :
    readText (v.render level ++ rest) = some (v, rest) ∧
      ∀ (w : Value) (other : Nat) (after : String), (∀ t ∈ w.tokens, t.isLexical = true) →
        Delimited after.toList → v.render level ++ rest = w.render other ++ after →
          v = w ∧ rest = after := by
  have hread (w : Value) (hw : ∀ t ∈ w.tokens, t.isLexical = true) (k : Nat) (after : String)
      (hafter : Delimited after.toList) : readText (w.render k ++ after) = some (w, after) := by
    have htext : (w.render k ++ after).toList = w.layout k ++ after.toList := by
      rw [String.toList_append, render, String.toList_ofList]
    rw [readText, htext, reads_read hw k after.toList hafter]
    simp
  refine ⟨hread v hv level rest hrest, fun w other after hw hafter h => ?_⟩
  have hsame : some (v, rest) = some (w, after) := by
    rw [← hread v hv level rest hrest, h, hread w hw other after hafter]
  exact Prod.mk.inj (Option.some.inj hsame)

/-- Values of all kinds in an aggregate, one key twice, and a string that looks like code. -/
def assortedSample : Value :=
  .aggregate [("a", .string "\x7d,\n\"\\"), ("b", .aggregate []), ("a", .aggregate
    [("n", .number "-1.5e+3"), ("i", .identifier "pkg.YES"), ("t", .boolean true)])]

theorem readText_render_append_assortedSample :
    readText (assortedSample.render 3 ++ "];\n") = some (assortedSample, "];\n") ∧
      readText (assortedSample.render 0 ++ "") = some (assortedSample, "") ∧
        ∀ after : String, Delimited after.toList →
          (number "1").render 0 ++ "," ≠ (number "12").render 3 ++ after := by
  have htokens : ∀ t ∈ assortedSample.tokens, t.isLexical = true := by decide
  have hbracket : Delimited "];\n".toList := .inr ⟨']', _, rfl, rfl⟩
  have hcomma : Delimited ",".toList := .inr ⟨',', _, rfl, rfl⟩
  refine ⟨(readText_render_append htokens 3 hbracket).1,
    (readText_render_append htokens 0 (.inl rfl)).1, fun after hafter h => ?_⟩
  obtain ⟨hsame, -⟩ := (readText_render_append (by decide) 0 hcomma).2 (number "12") 3 after
    (by decide) hafter h
  exact absurd (number.inj hsame) (by decide)

end Value

end SchemaDecl
