import Mathlib.Data.List.Pairwise
import Scenario.Proofs.Lexing.Decomposition

/-!
# Spans beside and inside each other

Two spans may stand one before the other, apart from each other, or one strictly inside the other. A
row is a list of things whose spans stand one after the other between two positions. A row may be
cut anywhere, so what is made of parts of a row stands in the order of the parts.

The tokens of a source are such a row. The span from a keyword of it to a closing brace covers a
declaration, and the tokens between the two are a row strictly inside that span.
-/

namespace Scenario

namespace Span

/-- The span begins before the other, and ends no later than the other begins. -/
def Before (s t : Span) : Prop := s.base < t.base ∧ s.base + s.len ≤ t.base

/-- One of the spans stands before the other. -/
def Disjoint (s t : Span) : Prop := s.Before t ∨ t.Before s

/-- The span begins after the other begins, and ends before the other ends. -/
def StrictlyIn (s t : Span) : Prop := t.base < s.base ∧ s.base + s.len < t.base + t.len

variable {s t u : Span}

theorem Disjoint.symm (h : s.Disjoint t) : t.Disjoint s := Or.symm h

theorem Disjoint.not_strictlyIn (h : s.Disjoint t) : ¬ s.StrictlyIn t := by
  simp only [Disjoint, Before, StrictlyIn] at *
  omega

/-- The union of two spans, one before the other, reaches from the one to the other. -/
theorem union_of_before (h : s.Before t) (hu : s.union t = .ok u) :
    u.base = s.base ∧ u.base + u.len = t.base + t.len := by
  simp only [Before] at h
  simp only [union, stop] at hu
  split at hu
  · split at hu
    · cases hu
      dsimp only
      omega
    · cases hu
  · cases hu

variable {source : List Char} {base : Nat} {first last : List Char → List Char → Prop}

/-- From a span that covers some text to a later one, all the text is covered. -/
theorem Covers.union (hs : s.Covers source base first) (ht : t.Covers source base last)
    (h : s.Before t) (hu : s.union t = .ok u) :
    u.Covers source base fun slice behind => ∃ front middle back,
      slice = front ++ (middle ++ back) ∧ first front (middle ++ (back ++ behind)) ∧
        last back behind := by
  obtain ⟨-, left, front, rest, rfl, rfl, hfirst⟩ := hs
  obtain ⟨hlen, before, back, behind, hsource, rfl, hlast⟩ := ht
  obtain ⟨hbase, hstop⟩ := union_of_before h hu
  simp only [Before] at h hbase hstop hlen
  -- The front ends before the back begins, so what is left of the back starts with the front.
  have hmiddle : ∃ middle, before = (left ++ front) ++ middle ∧
      rest = middle ++ (back ++ behind) := by
    rw [← List.append_assoc] at hsource
    rcases List.append_eq_append_iff.1 hsource with ⟨middle, hbefore, hrest⟩ | ⟨extra, hleft, hback⟩
    · exact ⟨middle, hbefore, hrest⟩
    · have hbytes := congrArg byteLength hleft
      simp only [byteLength_append] at hbytes
      obtain rfl := (byteLength_eq_zero_iff extra).1 (by omega)
      exact ⟨[], by simpa using hleft.symm, by simpa using hback.symm⟩
  obtain ⟨middle, rfl, rfl⟩ := hmiddle
  simp only [byteLength_append] at h hbase hstop
  refine ⟨by omega, left, front ++ (middle ++ back), behind, by simp, ?_, front, middle, back, rfl,
    hfirst, hlast⟩
  obtain ⟨ubase, ulen⟩ := u
  dsimp only at hbase hstop
  simp only [mk.injEq, byteLength_append]
  omega

/-- The span covers text that begins with the keyword and ends with a closing brace. -/
def Declares (source : List Char) (base : Nat) (k : Keyword) (span : Span) : Prop :=
  span.Covers source base fun slice _ => k.text.toList <+: slice ∧ ['}'] <:+ slice

end Span

/-- The list is a row from `lo` to `hi`: the spans of its members stand one after the other between
the two positions, none of them is empty, and all members have the property. -/
def Row {α : Type} (span : α → Span) (property : α → Prop) (lo hi : Nat) : List α → Prop
  | [] => lo ≤ hi
  | a :: rest =>
    lo ≤ (span a).base ∧ (span a).len ≠ 0 ∧ property a ∧
      Row span property ((span a).base + (span a).len) hi rest

namespace Row

variable {α : Type} {span : α → Span} {property : α → Prop} {lo mid hi : Nat}
  {members left right : List α}

theorem le (h : Row span property lo hi members) : lo ≤ hi := by
  induction members generalizing lo with
  | nil => exact h
  | cons a members ih =>
    obtain ⟨hlo, -, -, hrest⟩ := h
    have := ih hrest
    omega

theorem mono {lo' hi' : Nat} (h : Row span property lo hi members) (hlo : lo' ≤ lo)
    (hhi : hi ≤ hi') : Row span property lo' hi' members := by
  induction members generalizing lo lo' with
  | nil => exact Nat.le_trans hlo (Nat.le_trans h hhi)
  | cons a members ih =>
    obtain ⟨hbase, hlen, hp, hrest⟩ := h
    exact ⟨Nat.le_trans hlo hbase, hlen, hp, ih hrest (Nat.le_refl _)⟩

/-- A row may be cut anywhere. -/
theorem append_iff : Row span property lo hi (left ++ right) ↔
    ∃ mid, Row span property lo mid left ∧ Row span property mid hi right := by
  induction left generalizing lo with
  | nil =>
    constructor
    · intro h
      exact ⟨lo, Nat.le_refl lo, h⟩
    · rintro ⟨mid, hle, h⟩
      exact h.mono hle (Nat.le_refl hi)
  | cons a left ih =>
    simp only [List.cons_append, Row, ih]
    constructor
    · rintro ⟨hbase, hlen, hp, mid, hleft, hright⟩
      exact ⟨mid, ⟨hbase, hlen, hp, hleft⟩, hright⟩
    · rintro ⟨mid, ⟨hbase, hlen, hp, hleft⟩, hright⟩
      exact ⟨hbase, hlen, hp, mid, hleft, hright⟩

theorem append (hleft : Row span property lo mid left) (hright : Row span property mid hi right) :
    Row span property lo hi (left ++ right) :=
  append_iff.2 ⟨mid, hleft, hright⟩

theorem tail {a : α} (h : Row span property lo hi (a :: members)) :
    Row span property lo hi members := by
  obtain ⟨hbase, -, -, hrest⟩ := h
  exact hrest.mono (Nat.le_trans hbase (Nat.le_add_right _ _)) (Nat.le_refl hi)

/-- What is behind a part of a row is a row in the same place. -/
theorem of_append_right (h : Row span property lo hi (left ++ right)) :
    Row span property lo hi right := by
  obtain ⟨mid, hleft, hright⟩ := append_iff.1 h
  exact hright.mono hleft.le (Nat.le_refl hi)

theorem of_mem (h : Row span property lo hi members) {a : α} (ha : a ∈ members) :
    lo ≤ (span a).base ∧ (span a).len ≠ 0 ∧ (span a).base + (span a).len ≤ hi ∧ property a := by
  obtain ⟨left, right, rfl⟩ := List.append_of_mem ha
  obtain ⟨hlo, hlen, hp, hrest⟩ := of_append_right h
  exact ⟨hlo, hlen, hrest.le, hp⟩

/-- What stands in a row inside a span stands strictly inside that span. -/
theorem strictlyIn_of_mem {s : Span}
    (h : Row span property (s.base + 1) (s.base + s.len - 1) members) {a : α} (ha : a ∈ members) :
    (span a).StrictlyIn s := by
  obtain ⟨hlo, hlen, hhi, -⟩ := h.of_mem ha
  simp only [Span.StrictlyIn]
  omega

/-- The members of a row stand before those of a row behind it. -/
theorem before_of_mem {β : Type} {span' : β → Span} {property' : β → Prop} {others : List β}
    (h : Row span property lo mid members) (h' : Row span' property' mid hi others) {a : α}
    (ha : a ∈ members) {b : β} (hb : b ∈ others) : (span a).Before (span' b) := by
  obtain ⟨-, hlen, hhi, -⟩ := h.of_mem ha
  obtain ⟨hlo, -, -, -⟩ := h'.of_mem hb
  simp only [Span.Before]
  omega

theorem pairwise (h : Row span property lo hi members) :
    members.Pairwise fun a b => (span a).Before (span b) := by
  induction members generalizing lo with
  | nil => exact .nil
  | cons a members ih =>
    obtain ⟨hlo, hlen, hp, hrest⟩ := h
    have hfirst : Row span property lo ((span a).base + (span a).len) [a] :=
      ⟨hlo, hlen, hp, Nat.le_refl _⟩
    refine List.pairwise_cons.2 ⟨?_, ih hrest⟩
    intro b hb
    exact hfirst.before_of_mem hrest List.mem_cons_self hb

/-- Members that are taken from a row once each have disjoint spans. -/
theorem pairwise_disjoint (h : Row span property lo hi members) {taken : List α}
    (hnodup : taken.Nodup) (htaken : ∀ a ∈ taken, a ∈ members) :
    taken.Pairwise fun a b => (span a).Disjoint (span b) := by
  have hsymm : Std.Symm fun a b => (span a).Disjoint (span b) := ⟨fun _ _ hab => hab.symm⟩
  have hdisjoint : members.Pairwise fun a b => (span a).Disjoint (span b) :=
    h.pairwise.imp Or.inl
  refine hnodup.imp_of_mem ?_
  intro a b ha hb hne
  exact hdisjoint.forall (htaken a ha) (htaken b hb) hne

end Row

/-- The tokens are written in the source in a row, which reaches from `lo` to `hi`. -/
def TokenRow (collapse : Bool) (source : List Char) (base : Nat) : Nat → Nat → List Token → Prop :=
  Row Token.span fun t => t.span.Covers source base (t.IsWritten collapse)

section Tokens

variable {collapse : Bool} {source : List Char} {base lo hi : Nat}

/-- From a keyword to a closing brace a declaration is covered, with the tokens between strictly
inside it. -/
theorem TokenRow.declaration {k : Keyword} {keyword right : Token} {inner : List Token}
    {span : Span} (h : TokenRow collapse source base lo hi (keyword :: (inner ++ [right])))
    (hk : keyword.kind = .keyword k) (hr : right.kind = .closeBrace)
    (hu : keyword.span.union right.span = .ok span) :
    (lo ≤ span.base ∧ span.len ≠ 0 ∧ span.Declares source base k ∧ span.base + span.len ≤ hi) ∧
      TokenRow collapse source base (span.base + 1) (span.base + span.len - 1) inner := by
  obtain ⟨hlo, hlen, hfirst, hrest⟩ := h
  obtain ⟨mid, hinner, hmid, hlen', hlast, hhi⟩ := Row.append_iff.1 hrest
  have hle := hinner.le
  have hbefore : keyword.span.Before right.span := by
    simp only [Span.Before]
    omega
  obtain ⟨hbase, hstop⟩ := Span.union_of_before hbefore hu
  have hhi' : right.span.base + right.span.len ≤ hi := hhi
  refine ⟨⟨by omega, by omega, ?_, by omega⟩, hinner.mono (by omega) (by omega)⟩
  obtain ⟨hne, before, slice, behind, hsource, hspan, front, middle, back, rfl, hfront, hback⟩ :=
    hfirst.union hlast hbefore hu
  refine ⟨hne, before, _, behind, hsource, hspan, ?_, ?_⟩
  · simp only [Token.IsWritten, hk] at hfront
    obtain ⟨rfl, -, -, hvalue⟩ := hfront
    rw [(hvalue k).1 rfl]
    exact List.prefix_append _ _
  · simp only [Token.IsWritten, hr] at hback
    obtain ⟨rfl, -⟩ := hback
    exact ⟨front ++ middle, by simp⟩

/-- The tokens of a text stand in a row. -/
theorem Tiling.row_of_items {text : List Char} {tiles : List Tile} {tokens : List Token}
    {keep : Bool} {property : Token → Prop} (h : Tiling base text tiles)
    (hitems : Tile.items collapse keep tiles = tokens.map .token) (hp : ∀ t ∈ tokens, property t) :
    Row Token.span property base (base + byteLength text) tokens := by
  induction h generalizing tokens with
  | nil _ =>
    obtain rfl : tokens = [] := List.map_eq_nil_iff.1 hitems.symm
    exact Nat.le_add_right _ _
  | @cons base gap rest l tiles hgap hl ht ih =>
    have hbytes : base + byteLength gap + byteLength l.source + byteLength rest =
        base + byteLength (gap ++ (l.source ++ rest)) := by
      simp only [byteLength_append]
      omega
    have hlen := ((Tiling.cons hgap hl ht).span_of_mem _ List.mem_cons_self).2.1
    rw [Tile.items_cons] at hitems
    split at hitems
    · obtain ⟨t, tokens, rfl, hitem, hrest⟩ := List.map_eq_cons_iff.1 hitems.symm
      obtain ⟨hfirst, hothers⟩ := List.forall_mem_cons.1 hp
      have hspan := Lexeme.span_of_item hitem.symm
      rw [← hbytes]
      refine ⟨?_, ?_, hfirst, ?_⟩
      · rw [hspan]
        exact Nat.le_add_right _ _
      · rwa [hspan]
      · rw [hspan]
        exact ih hrest.symm hothers
    · rw [← hbytes]
      exact (ih hitems hp).mono (by omega) (Nat.le_refl _)

/-- The tokens of a source are written in it in a row. -/
theorem Tiling.tokenRow {tiles : List Tile} {tokens : List Token} {keep : Bool}
    (h : Tiling base source tiles)
    (hitems : Tile.items collapse keep tiles = tokens.map .token) :
    TokenRow collapse source base base (base + byteLength source) tokens := by
  refine h.row_of_items hitems ?_
  intro t ht
  have hmem : .token t ∈ Tile.items collapse keep tiles := hitems ▸ List.mem_map_of_mem ht
  exact h.covers_of_mem_items hmem

end Tokens
end Scenario
