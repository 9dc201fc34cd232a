import Scenario.Parser.Verdict

/-!
# Reading machines

A machine reads a stream of items, one item at a time. What a token settles, such as the end of a
declaration, comes into effect only when the item after it is there: if that item is an error, it
is the only thing reported. So a machine that waits for an item holds the pending verdict on the
tokens so far, together with the span of the last token, behind which the input may turn out to
end.

Comments are passed over. Reading ends at the first item that is an error, a fault or a token of
kind `eof`, or with the stream, or as soon as the machine has its result.
-/

namespace Scenario

structure Machine (σ α : Type) where
  start : σ
  /-- Reads a token. The outer verdict is what comes out at once, the inner one what comes out as
  soon as the next item is there. -/
  step : σ → Token → Verdict (Turn (Verdict σ) α)
  /-- Comes to an end with the input, which ends at the given span. -/
  finish : σ → Span → Verdict α

/-- What a machine holds while it waits for an item. -/
structure Wait (σ : Type) where
  last : Span
  pending : Verdict σ

namespace Machine

variable {σ α : Type}

/-- Before the first item, where the source starts at position `base`. -/
def initial (m : Machine σ α) (base : Nat) : Wait σ := ⟨⟨base, 0⟩, pure m.start⟩

/-- Reads an item. -/
def receive (m : Machine σ α) (w : Wait σ) : Item → Verdict (Turn (Wait σ) α)
  | .error e => .reject (.lexical e)
  | .fault fault => .fault fault
  | .token t =>
    match t.kind with
    | .comment => pure (.more w)
    | .eof => do
      let state ← w.pending
      return .done (← m.finish state t.span)
    | _ => do
      let state ← w.pending
      match ← m.step state t with
      | .done value => return .done value
      | .more pending => return .more ⟨t.span, pending⟩

/-- Comes to an end because there is no further item. -/
def close (m : Machine σ α) (w : Wait σ) : Verdict α := do
  let stop ← .ofExcept w.last.shrinkToEnd
  let state ← w.pending
  m.finish state stop

/-- Reads items up to the result. -/
def run (m : Machine σ α) (w : Wait σ) : List Item → Verdict α
  | [] => m.close w
  | item :: rest => do
    match ← m.receive w item with
    | .done value => return value
    | .more w => m.run w rest

/-- Reads a whole stream, whose source starts at position `base`. -/
def read (m : Machine σ α) (base : Nat) (items : List Item) : Verdict α :=
  m.run (m.initial base) items

end Machine
end Scenario
