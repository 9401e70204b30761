import SchemaDecl.Text.Basic

/-!
# Sinks that run out of room, and printers

A `Sink` takes characters one by one until its room is used up, and refuses the next one. A
`Printer` writes a text into a sink and reports whether all of it was taken. Printers are a kind
of text: joining two of them runs the second only if the first was taken whole, so nothing is
written after a refusal.

## Implementation notes

The sink keeps the number of characters that it refused. A printer that went on after a refusal
would show up there.
-/

namespace SchemaDecl

/-- A destination with room for a limited number of characters. -/
structure Sink where
  /-- The characters taken so far, the latest first. -/
  taken : List Char
  room : Nat
  /-- How many characters were offered in vain. -/
  refusals : Nat
deriving DecidableEq, Repr

namespace Sink

/-- An empty sink with room for `limit` characters. -/
def ofLimit (limit : Nat) : Sink := ⟨[], limit, 0⟩

/-- What the sink holds, in the order of writing. -/
def written (sink : Sink) : List Char := sink.taken.reverse

/-- Offers one character; the answer says whether it was taken. -/
def offer (c : Char) (sink : Sink) : Sink × Bool :=
  match sink.room with
  | 0 => ({ sink with refusals := sink.refusals + 1 }, false)
  | room + 1 => ({ sink with taken := c :: sink.taken, room }, true)

/-- Offers characters one after the other, up to the first that is refused. -/
def offerAll : List Char → Sink → Sink × Bool
  | [], sink => (sink, true)
  | c :: cs, sink =>
      match sink.offer c with
      | (sink, true) => offerAll cs sink
      | (sink, false) => (sink, false)

/-- A sink takes as many characters as it has room for; if there are more, it refuses one. -/
theorem offerAll_eq (cs : List Char) (sink : Sink) :
    offerAll cs sink =
      (⟨(cs.take sink.room).reverse ++ sink.taken, sink.room - cs.length,
        sink.refusals + if cs.length ≤ sink.room then 0 else 1⟩,
        decide (cs.length ≤ sink.room)) := by
  induction cs generalizing sink with
  | nil => simp [offerAll]
  | cons c cs ih =>
      rcases sink with ⟨taken, _ | room, refusals⟩
      · simp [offerAll, offer]
      · simp [offerAll, offer, ih]

/-- Offering a text and then another one is offering both as one text. -/
theorem offerAll_append (cs ds : List Char) (sink : Sink) :
    offerAll (cs ++ ds) sink =
      match offerAll cs sink with
      | (sink, true) => offerAll ds sink
      | (sink, false) => (sink, false) := by
  induction cs generalizing sink with
  | nil => rfl
  | cons c cs ih =>
      rcases sink with ⟨taken, _ | room, refusals⟩
      · rfl
      · exact ih ⟨c :: taken, room, refusals⟩

end Sink

/-- A way to write a text into a sink; the answer says whether the whole text was taken. -/
structure Printer where
  run : Sink → Sink × Bool

namespace Printer

/-- Writes the second text only after the first has been taken whole. -/
def andThen (p q : Printer) : Printer where
  run sink :=
    match p.run sink with
    | (sink, true) => q.run sink
    | (sink, false) => (sink, false)

instance : Append Printer := ⟨andThen⟩

instance : Textual Printer where
  ofChars cs := ⟨Sink.offerAll cs⟩

/-- A printer of given characters writes just these. -/
@[simp] theorem ofChars_run (cs : List Char) :
    (Textual.ofChars cs : Printer).run = Sink.offerAll cs := rfl

/-- Joined printers of characters write the joined characters. -/
theorem append_run_of_run {p q : Printer} {cs ds : List Char} (hp : p.run = Sink.offerAll cs)
    (hq : q.run = Sink.offerAll ds) : (p ++ q).run = Sink.offerAll (cs ++ ds) := by
  funext sink
  rw [Sink.offerAll_append, ← hp, ← hq]
  rfl

/-- Writes into an empty sink with room for `limit` characters. -/
def deliver (p : Printer) (limit : Nat) : Sink × Bool := p.run (Sink.ofLimit limit)

end Printer

end SchemaDecl
