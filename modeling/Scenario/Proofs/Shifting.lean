import Scenario.Proofs.Coupling.Script
import Scenario.Proofs.Lexing.Tiling

/-!
# Moved sources

When text is put in front of a source, everything in the source moves by the length of that text.
Spans are moved by `Span.shift`, and so is whatever holds spans; nothing else of it changes.

The relation between a span and the moved one is kept by the operations on spans, so what is coupled
along it is moved too. The tokens of a source that is moved are coupled with those of the source.
-/

namespace Scenario

def Span.shift (k : Nat) (s : Span) : Span := ⟨s.base + k, s.len⟩

def Remark.shift (k : Nat) (r : Remark) : Remark := ⟨r.span.shift k, r.note⟩

def AnnotatedSpan.shift (k : Nat) (a : AnnotatedSpan) : AnnotatedSpan :=
  ⟨a.main.shift k, a.remarks.map (Remark.shift k)⟩

def Diagnostic.shift (k : Nat) (x : Diagnostic) : Diagnostic :=
  { x with spans := x.spans.map (AnnotatedSpan.shift k) }

def Author.shift (k : Nat) (a : Author) : Author := ⟨a.id, a.span.shift k⟩

def Branch.shift (k : Nat) (b : Branch) : Branch := ⟨b.id, b.block, b.span.shift k⟩

def Tile.shift (k : Nat) (tile : Tile) : Tile := ⟨tile.lexeme, tile.span.shift k⟩

/-- The second span is the first one moved by `k`, and both of them fit. -/
def Span.Shifted (k : Nat) (s s' : Span) : Prop := s.Fits ∧ s'.Fits ∧ s' = s.shift k

variable {k : Nat}

theorem Span.coupling_shifted (k : Nat) : Coupling (Shifted k) where
  union s s' t t' hs ht := by
    obtain ⟨hs, hs', rfl⟩ := hs
    obtain ⟨ht, ht', rfl⟩ := ht
    refine ⟨_, _, union_of_fits hs ht, union_of_fits hs' ht', ?_, ?_, ?_⟩
    · simp only [Fits] at *
      omega
    · simp only [Fits, shift] at *
      omega
    · simp only [shift, mk.injEq]
      omega
  shrinkToEnd s s' hs := by
    obtain ⟨hs, hs', rfl⟩ := hs
    refine ⟨_, _, shrinkToEnd_of_fits hs, shrinkToEnd_of_fits hs', hs, hs', ?_⟩
    simp only [shift, Nat.add_right_comm]

/-- What is related to each element by a function is its image under that function. -/
theorem eq_map_of_forall₂ {α β : Type} {S : α → β → Prop} {f : α → β} (h : ∀ a b, S a b → b = f a)
    {left : List α} {right : List β} (hl : List.Forall₂ S left right) : right = left.map f := by
  rw [map_eq_map_of_forall₂ (fun a b hab => (h a b hab).symm) hl, List.map_id']

theorem Remark.Coupled.eq_shift {r r' : Remark} (h : r.Coupled (Span.Shifted k) r') :
    r' = r.shift k := by
  obtain ⟨span', note'⟩ := r'
  obtain ⟨⟨-, -, rfl⟩, rfl⟩ := h
  rfl

theorem AnnotatedSpan.Coupled.eq_shift {a a' : AnnotatedSpan}
    (h : a.Coupled (Span.Shifted k) a') : a' = a.shift k := by
  obtain ⟨main', remarks'⟩ := a'
  obtain ⟨⟨-, -, rfl⟩, hremarks⟩ := h
  obtain rfl := eq_map_of_forall₂ (f := Remark.shift k) (fun _ _ h => h.eq_shift) hremarks
  rfl

theorem Diagnostic.Coupled.eq_shift {x x' : Diagnostic} (h : x.Coupled (Span.Shifted k) x') :
    x' = x.shift k := by
  obtain ⟨level, category, message, spans⟩ := x
  obtain ⟨level', category', message', spans'⟩ := x'
  obtain ⟨rfl, rfl, rfl, hspans⟩ := h
  cases hspans with
  | none => rfl
  | some ha =>
    obtain rfl := ha.eq_shift
    rfl

theorem Issue.diagnostics_eq_shift {is js : List Issue}
    (h : List.Forall₂ (Coupled (Span.Shifted k)) is js) :
    js.map diagnostic = (is.map diagnostic).map (Diagnostic.shift k) :=
  eq_map_of_forall₂ (fun _ _ h => h.eq_shift) (coupled_diagnostics h)

theorem Author.Coupled.eq_shift {a a' : Author} (h : a.Coupled (Span.Shifted k) a') :
    a' = a.shift k := by
  obtain ⟨id', span'⟩ := a'
  obtain ⟨rfl, -, -, rfl⟩ := h
  rfl

theorem Branch.Coupled.eq_shift {b b' : Branch} (h : b.Coupled (Span.Shifted k) b') :
    b' = b.shift k := by
  obtain ⟨id', block', span'⟩ := b'
  obtain ⟨rfl, rfl, -, -, rfl⟩ := h
  rfl

theorem Registry.Coupled.eq_map {α : Type} {S : α → α → Prop} {f : α → α} {r s : Registry α}
    (hr : r.Coupled S s) (h : ∀ a b, S a b → b = f a) : s = r.map f := by
  obtain ⟨entries, hnodup⟩ := r
  obtain ⟨entries', hnodup'⟩ := s
  have heq : entries' = entries.map fun entry => (entry.1, f entry.2) :=
    eq_map_of_forall₂ (fun entry entry' he => Prod.ext he.1.symm (h _ _ he.2)) hr
  subst heq
  rfl

/-- A scene that is moved keeps its id and its branches, but for their spans. -/
theorem Scene.Coupled.outline_eq {s s' : Scene} (h : s.Coupled (Span.Shifted k) s') :
    (s.id, s.span.shift k, s.branches.map (Branch.shift k)) = (s'.id, s'.span, s'.branches) := by
  have hbranches : s'.branches = s.branches.map (Branch.shift k) :=
    h.branches.eq_map fun _ _ hb => hb.eq_shift
  rw [h.id_eq, h.span.2.2, hbranches]

/-- The items of a lexeme in two places are coupled, whether or not blanks collapse. -/
theorem Lexeme.coupled_item {R : Span → Span → Prop} {span span' : Span} (l : Lexeme)
    (collapse collapse' : Bool) (h : R span span') :
    (l.item collapse span).Coupled R (l.item collapse' span') := by
  cases l with
  | literal body => exact .token ⟨rfl, fun hk => (hk rfl).elim, h⟩
  | unterminated text => exact .error ⟨rfl, h⟩
  | _ => exact .token ⟨rfl, fun _ => rfl, h⟩

namespace Tile

/-- Tiles give related items if one by one they do, and are comments in the same places. -/
theorem forall₂_items {S : Item → Item → Prop} {collapse collapse' : Bool} (keep : Bool)
    {tiles tiles' : List Tile}
    (h : List.Forall₂ (fun tile tile' => tile.lexeme.isComment = tile'.lexeme.isComment ∧
      S (tile.lexeme.item collapse tile.span) (tile'.lexeme.item collapse' tile'.span))
      tiles tiles') :
    List.Forall₂ S (items collapse keep tiles) (items collapse' keep tiles') := by
  induction h with
  | nil => exact .nil
  | cons htile _ ih =>
    rw [items_cons, items_cons, ← htile.1]
    split
    · exact .cons htile.2 ih
    · exact ih

theorem coupled_items_shift {R : Span → Span → Prop} {tiles : List Tile}
    (h : ∀ tile ∈ tiles, R tile.span (tile.span.shift k)) (collapse keep : Bool) :
    List.Forall₂ (Item.Coupled R) (items collapse keep tiles)
      (items collapse keep (tiles.map (Tile.shift k))) := by
  apply forall₂_items keep
  rw [List.forall₂_map_right_iff, List.forall₂_same]
  exact fun tile htile => ⟨rfl, tile.lexeme.coupled_item collapse collapse (h tile htile)⟩

end Tile

namespace Tiling

variable {base : Nat} {text : List Char} {tiles : List Tile}

/-- A text has the same tiles wherever it begins. -/
theorem shift (h : Tiling base text tiles) (k : Nat) :
    Tiling (base + k) text (tiles.map (Tile.shift k)) := by
  induction h with
  | nil hgap => exact .nil hgap
  | @cons base gap rest l tiles hgap hl _ ih =>
    have hgapEnd : base + byteLength gap + k = base + k + byteLength gap := by omega
    have hend : base + byteLength gap + byteLength l.source + k =
        base + k + byteLength gap + byteLength l.source := by omega
    rw [hend] at ih
    simp only [List.map_cons, Tile.shift, Span.shift, hgapEnd]
    exact .cons hgap hl ih

theorem coupled_items (h : Tiling base text tiles)
    (hf : base + k + byteLength text ≤ positionLimit) (collapse keep : Bool) :
    List.Forall₂ (Item.Coupled (Span.Shifted k)) (Tile.items collapse keep tiles)
      (Tile.items collapse keep (tiles.map (Tile.shift k))) := by
  apply Tile.coupled_items_shift
  intro tile htile
  have hspan := h.span_of_mem tile htile
  refine ⟨?_, ?_, rfl⟩
  · unfold Span.Fits
    omega
  · unfold Span.Fits Span.shift
    dsimp only
    omega

end Tiling

/-- Lexers on a source in two places yield coupled items. -/
theorem Lexer.coupled_items_shift {source : String} {base : Nat} (d : Dialect)
    (hf : base + k + byteLength source.toList ≤ positionLimit) :
    List.Forall₂ (Item.Coupled (Span.Shifted k)) (ofString source base d).items
      (ofString source (base + k) d).items := by
  obtain ⟨tiles, ht⟩ := exists_tiling base source.toList
  have hitems : (ofString source base d).items =
      Tile.items d.collapseStringWhitespace false tiles := ht.items_ofText (by omega) d
  have hshift : (ofString source (base + k) d).items =
      Tile.items d.collapseStringWhitespace false (tiles.map (Tile.shift k)) :=
    (ht.shift k).items_ofText hf d
  rw [hitems, hshift]
  exact ht.coupled_items hf d.collapseStringWhitespace false

end Scenario
