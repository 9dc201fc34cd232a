import Scenario.Proofs.Agreement
import Scenario.Proofs.Lexing.Decomposition
import Scenario.Proofs.Returns
import Scenario.Proofs.Shifting

/-!
# Relocated sources

A source may begin at any position. Where it does is added to all spans, and has no other effect: a
lexer yields the moved items, a parser the moved script and moved diagnostics, and a moved
diagnostic over the moved source is rendered to the same text as before.

What is parsed is moved because the two runs are coupled along `Span.Shifted`. The renderings are
the same because the runs are also coupled along the places of the source.

Main statement: `Target.parse_relocated`.
-/

namespace Scenario

section Data

variable (k : Nat)

def Token.shift (t : Token) : Token := ⟨t.kind, t.value, t.span.shift k⟩

def LexicalError.shift (e : LexicalError) : LexicalError := ⟨e.cause, e.span.shift k⟩

def Item.shift : Item → Item
  | token t => token (t.shift k)
  | error e => error (e.shift k)
  | fault f => fault f

def Scene.shift (s : Scene) : Scene :=
  ⟨s.id, s.span.shift k, s.authors.map (Author.shift k), s.branches.map (Branch.shift k)⟩

def Document.shift (document : Document) : Document :=
  ⟨document.scenes.map (Scene.shift k), document.authors.map (Author.shift k)⟩

/-- The part of a script with all of its spans moved. -/
def Target.shift : (target : Target) → target.Node → target.Node
  | document => Document.shift k
  | scene => Scene.shift k
  | author => Author.shift k

/-- The outcome of a parse with all spans moved. -/
def Target.Outcome.shift {target : Target} : target.Outcome → target.Outcome
  | .ok parsed => .ok ⟨target.shift k parsed.value, parsed.warnings.map (Diagnostic.shift k)⟩
  | .error diagnostics => .error (diagnostics.map (Diagnostic.shift k))

end Data

variable {k : Nat}

theorem Scene.Coupled.eq_shift {s s' : Scene} (h : s.Coupled (Span.Shifted k) s') :
    s' = s.shift k := by
  obtain ⟨id', span', authors', branches'⟩ := s'
  obtain ⟨rfl, ⟨-, -, rfl⟩, hauthors, hbranches⟩ := h
  obtain rfl := hauthors.eq_map fun _ _ ha => ha.eq_shift
  obtain rfl := hbranches.eq_map fun _ _ hb => hb.eq_shift
  rfl

theorem Document.Coupled.eq_shift {document document' : Document}
    (h : document.Coupled (Span.Shifted k) document') : document' = document.shift k := by
  obtain ⟨scenes', authors'⟩ := document'
  obtain ⟨hscenes, hauthors⟩ := h
  obtain rfl := eq_map_of_forall₂ (fun _ _ hs => hs.eq_shift) hscenes
  obtain rfl := eq_map_of_forall₂ (fun _ _ ha => ha.eq_shift) hauthors
  rfl

namespace Target

variable {target : Target}

theorem Coupled.eq_shift {a b : target.Node} (h : target.Coupled (Span.Shifted k) a b) :
    b = target.shift k a := by
  cases target with
  | document => exact Document.Coupled.eq_shift h
  | scene => exact Scene.Coupled.eq_shift h
  | author => exact Author.Coupled.eq_shift h

namespace Outcome

variable {outcome outcome' : target.Outcome}

theorem Agree.eq_shift
    (h : Agree (target.Coupled (Span.Shifted k)) (Diagnostic.Coupled (Span.Shifted k)) outcome
      outcome') : outcome' = outcome.shift k := by
  cases h with
  | ok hv hx =>
    obtain rfl := hv.eq_shift
    obtain rfl := eq_map_of_forall₂ (fun _ _ h => h.eq_shift) hx
    rfl
  | error hx =>
    obtain rfl := eq_map_of_forall₂ (fun _ _ h => h.eq_shift) hx
    rfl

theorem Agree.forall_diagnostics {S : target.Node → target.Node → Prop}
    {T : Diagnostic → Diagnostic → Prop} (h : Agree S T outcome (outcome.shift k)) :
    ∀ x ∈ outcome.diagnostics, T x (x.shift k) := by
  have hpairs : List.Forall₂ T outcome.diagnostics
      (outcome.diagnostics.map (Diagnostic.shift k)) := by
    cases outcome with
    | ok parsed =>
      cases h with
      | ok _ hx => exact hx
    | error diagnostics =>
      cases h with
      | error hx => exact hx
  rwa [List.forall₂_map_right_iff, List.forall₂_same] at hpairs

end Outcome
end Target

theorem Lexeme.item_shift (l : Lexeme) (collapse : Bool) (span : Span) :
    l.item collapse (span.shift k) = (l.item collapse span).shift k := by
  cases l <;> rfl

namespace Tile

theorem items_shift (collapse keep : Bool) (tiles : List Tile) :
    items collapse keep (tiles.map (shift k)) =
      (items collapse keep tiles).map (Item.shift k) := by
  induction tiles with
  | nil => rfl
  | cons tile tiles ih =>
    rw [List.map_cons, items_cons, items_cons, ih]
    simp only [shift, Lexeme.item_shift]
    split <;> rfl

end Tile

/-- The tiles of a source stand at the same places in the moved source. -/
theorem Tiling.along_shift {base : Nat} {text : List Char} {tiles : List Tile}
    (h : Tiling base text tiles) :
    ∀ tile ∈ tiles, tile.span.Along (SamePlace 0 text base (base + k)) (tile.span.shift k) := by
  intro tile htile
  obtain ⟨before, behind, rfl, hspan, -⟩ := h.exists_of_mem tile htile
  rw [hspan]
  refine ⟨⟨before, _, rfl, rfl, ?_⟩, ⟨before ++ tile.lexeme.source, behind, by simp, ?_, ?_⟩⟩
  · simp only [withReturns_zero, Span.shift]
    omega
  · simp only [byteLength_append]
    omega
  · simp only [withReturns_zero, Span.shift, byteLength_append]
    omega

namespace Lexer

variable {source : String} {b : Nat}

/-- A lexer on a moved source yields the moved items, and keeps comments or leaves them out. -/
theorem items_shift (d : Dialect) (keep : Bool) {base k : Nat}
    (hf : base + k + byteLength source.toList ≤ positionLimit) :
    ({ ofString source (base + k) d with keepComments := keep } : Lexer).items =
      ({ ofString source base d with keepComments := keep } : Lexer).items.map (Item.shift k) := by
  obtain ⟨tiles, ht⟩ := exists_tiling base source.toList
  have hitems := @Tiling.items_eq base 0 _ tiles d.collapseStringWhitespace keep ht (by omega)
  have hmoved := @Tiling.items_eq (base + k) 0 _ _ d.collapseStringWhitespace keep (ht.shift k) hf
  rw [Tile.items_shift, ← hitems] at hmoved
  exact hmoved

theorem items_relocated (d : Dialect) (keep : Bool)
    (hf : b + byteLength source.toList ≤ positionLimit) :
    ({ ofString source b d with keepComments := keep } : Lexer).items =
      ({ ofString source 0 d with keepComments := keep } : Lexer).items.map (Item.shift b) := by
  have hshift := @items_shift source d keep 0 b (by omega)
  rwa [Nat.zero_add] at hshift

/-- The items of a moved source stand at the same places. -/
theorem coupled_items_along (d : Dialect) (hf : b + byteLength source.toList ≤ positionLimit) :
    List.Forall₂ (Item.Coupled (Span.Along (SamePlace 0 source.toList 0 b)))
      (ofString source 0 d).items (ofString source b d).items := by
  obtain ⟨tiles, ht⟩ := exists_tiling 0 source.toList
  have hshift : Tiling b source.toList (tiles.map (Tile.shift b)) := by
    simpa only [Nat.zero_add] using ht.shift b
  have hitems : (ofString source 0 d).items =
      Tile.items d.collapseStringWhitespace false tiles := ht.items_ofText (by omega) d
  have hmoved : (ofString source b d).items =
      Tile.items d.collapseStringWhitespace false (tiles.map (Tile.shift b)) :=
    hshift.items_ofText hf d
  rw [hitems, hmoved]
  apply Tile.coupled_items_shift
  simpa only [Nat.zero_add] using ht.along_shift (k := b)

end Lexer

theorem SourceMap.locate_relocated (source : String) (b o : Nat) :
    (ofString source b).locate (b + o) = (ofString source 0).locate o := by
  have hinside : ¬ b + o < b := by omega
  simp [ofString, ofText, locate, hinside]

/-- Moving a source to position `b` moves the items of a lexer, the script and all diagnostics by
`b`, and changes nothing else. The places of the source keep their locations, and its diagnostics
are rendered as before. -/
theorem Target.parse_relocated (target : Target) (d : Dialect) (extent : Extent) {source : String}
    {b : Nat} (hf : b + byteLength source.toList ≤ positionLimit) :
    (∀ keep, ({ Lexer.ofString source b d with keepComments := keep } : Lexer).items =
      ({ Lexer.ofString source 0 d with keepComments := keep } : Lexer).items.map
        (Item.shift b)) ∧
    (∀ o, (SourceMap.ofString source b).locate (b + o) =
      (SourceMap.ofString source 0).locate o) ∧
    ∃ outcome : target.Outcome, target.parse d extent source 0 = .ok outcome ∧
      target.parse d extent source b = .ok (outcome.shift b) ∧
      ∀ x ∈ outcome.diagnostics, ∃ text,
        x.render (SourceMap.ofString source 0) = .ok text ∧
        (x.shift b).render (SourceMap.ofString source b) = .ok text := by
  refine ⟨fun keep => Lexer.items_relocated d keep hf, SourceMap.locate_relocated source b, ?_⟩
  have hf0 : 0 + byteLength source.toList ≤ positionLimit := by omega
  have hshifted := @Lexer.coupled_items_shift b source 0 d (by omega)
  have hbase : b ≤ positionLimit := by omega
  have hstart : Span.Shifted b ⟨0, 0⟩ ⟨b, 0⟩ := by
    simp [Span.Shifted, Span.Fits, Span.shift, hbase]
  rw [Nat.zero_add] at hshifted
  obtain ⟨outcome, _, hp, hp', hagree⟩ :=
    parse_agree (Span.coupling_shifted b) hf0 hf hstart hshifted target extent
  obtain rfl := hagree.eq_shift
  refine ⟨outcome, hp, hp', ?_⟩
  -- How the diagnostics look is known from another coupling of the same runs.
  have hsame : source.toList = withReturns 0 source.toList := (withReturns_zero _).symm
  obtain ⟨_, _, hq, hq', hplaces⟩ := parse_agree_of_places hsame hf0 hf
    (Lexer.coupled_items_along d hf) target extent
  rw [hp, Except.ok.injEq] at hq
  rw [hp', Except.ok.injEq] at hq'
  subst hq hq'
  exact fun x hx => (hplaces.forall_diagnostics x hx).2

/-- A scene without an end, at position 7. Its diagnostic is moved, and looks as it did. -/
theorem Target.parse_relocated_unfinished :
    7 + byteLength "scene s \x7b".toList ≤ positionLimit ∧
    ∃ x text, Target.document.parse .strict .whole "scene s \x7b" 0 = .ok (.error [x]) ∧
      Target.document.parse .strict .whole "scene s \x7b" 7 = .ok (.error [x.shift 7]) ∧
      x.render (SourceMap.ofString "scene s \x7b" 0) = .ok text ∧
      (x.shift 7).render (SourceMap.ofString "scene s \x7b" 7) = .ok text := by
  have hf : 7 + byteLength "scene s \x7b".toList ≤ positionLimit := by decide
  have hrejected : ∃ x, Target.document.parse .strict .whole "scene s \x7b" 0 = .ok (.error [x]) :=
    ⟨_, by with_unfolding_all rfl⟩
  obtain ⟨x, hx⟩ := hrejected
  obtain ⟨-, -, outcome, hp, hp', hrender⟩ := parse_relocated .document .strict .whole hf
  obtain rfl : .error [x] = outcome := Except.ok.inj (hx.symm.trans hp)
  obtain ⟨text, hbefore, hbehind⟩ := hrender x List.mem_cons_self
  exact ⟨hf, x, text, hx, hp', hbefore, hbehind⟩

end Scenario
