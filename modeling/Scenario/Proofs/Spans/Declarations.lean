import Scenario.Proofs.Grammar.Fronts
import Scenario.Proofs.Lexing.Decomposition
import Scenario.Proofs.Spans.Declared
import Scenario.Proofs.Spans.Union

/-!
# Spans of declarations

The span of a declaration is the union of the spans of its first and last token. If the spans of
its tokens are in increasing order, then all of them lie in that union, those of comments too. No
token needs to have an end for this but the first and the last, and the tokens may overlap.

Unions are least upper bounds, and what a parse says of declarations rests on that. Both are put
together in `Span.union_least_upper_bound`.
-/

namespace Scenario

namespace Span

/-- The span begins no later than the other, and ends no later. -/
def NotBehind (s t : Span) : Prop := s.base ≤ t.base ∧ s.base + s.len ≤ t.base + t.len

/-- What is between two spans lies in their union. -/
theorem le_union_of_notBehind {s t u v : Span} (hu : s.union t = .ok u) (hs : s.NotBehind v)
    (ht : v.NotBehind t) : v ≤ u := by
  have hfirst := le_iff.1 (le_union_left hu)
  have hlast := le_iff.1 (le_union_right hu)
  rw [le_iff]
  exact ⟨hfirst.1.trans hs.1, ht.2.trans hlast.2⟩

end Span

/-- The spans of the tokens are in increasing order. -/
def Token.Ascending (tokens : List Token) : Prop :=
  tokens.Pairwise fun t u => t.span.NotBehind u.span

/-- In increasing order, the union of the first and the last span holds all of them. -/
theorem Token.Ascending.le_union {first last : Token} {inner : List Token} {u : Span}
    (h : Ascending (first :: (inner ++ [last]))) (hu : first.span.union last.span = .ok u) :
    ∀ t ∈ first :: (inner ++ [last]), t.span ≤ u := by
  obtain ⟨hfirst, hrest⟩ := List.pairwise_cons.1 h
  obtain ⟨-, -, hlast⟩ := List.pairwise_append.1 hrest
  intro t ht
  rcases List.mem_cons.1 ht with rfl | ht
  · exact Span.le_union_left hu
  rcases List.mem_append.1 ht with ht | ht
  · have hbetween := hfirst t (List.mem_append_left _ ht)
    exact Span.le_union_of_notBehind hu hbetween (hlast t ht last List.mem_cons_self)
  · obtain rfl := List.mem_singleton.1 ht
    exact Span.le_union_right hu

namespace Item

def token? : Item → Option Token
  | token t => some t
  | _ => none

/-- The tokens among the items, with the comments. -/
def tokens (items : List Item) : List Token := items.filterMap token?

theorem token?_eq_some_iff {item : Item} {t : Token} : item.token? = some t ↔ item = token t := by
  cases item <;> simp [token?]

theorem tokens_declaration (first last : Token) (between : List Item) :
    tokens (token first :: (between ++ [token last])) = first :: (tokens between ++ [last]) := by
  simp [tokens, token?]

/-- A part of a stream without its comments is a part of the stream, with comments inside it. -/
theorem exists_infix_of_uncommented {items before behind : List Item} {first last : Token}
    {inner : List Token}
    (h : uncommented items =
      before ++ (token first :: (inner.map token ++ token last :: behind))) :
    ∃ between, token first :: (between ++ [token last]) <:+: items ∧
      uncommented between = inner.map token := by
  obtain ⟨front, rest, rfl, -, hrest⟩ := List.filter_eq_append_iff.1 h
  obtain ⟨gap, rest, rfl, -, -, hrest⟩ := List.filter_eq_cons_iff.1 hrest
  obtain ⟨between, rest, rfl, hbetween, hrest⟩ := List.filter_eq_append_iff.1 hrest
  obtain ⟨gap', rest, rfl, hgap', -, -⟩ := List.filter_eq_cons_iff.1 hrest
  refine ⟨between ++ gap', ⟨front ++ gap, rest, by simp⟩, ?_⟩
  rw [uncommented, List.filter_append, hbetween, List.filter_eq_nil_iff.2 hgap', List.append_nil]

end Item

namespace Declared

/-- The items are the tokens of the declaration, from its keyword to its closing brace, and comments
between them. -/
inductive TakesUp (d : Dialect) (x : Declared) : List Item → Prop
  | intro {first last : Token} {inner : List Token} {between : List Item} :
      x.Form d (first :: (inner ++ [last])) → Item.uncommented between = inner.map .token →
      TakesUp d x (.token first :: (between ++ [.token last]))

variable {d : Dialect} {x : Declared} {part items : List Item}

/-- The span of a declaration is the union of the spans of its first and its last token. -/
theorem Form.union_eq {first last : Token} {inner : List Token}
    (h : x.Form d (first :: (inner ++ [last]))) : first.span.union last.span = .ok x.span := by
  obtain ⟨first', inner', last', htext, -, -, hu⟩ := h.exists_ends
  obtain ⟨rfl, hrest⟩ := List.cons.inj htext
  obtain ⟨-, hlast⟩ := List.append_inj' hrest rfl
  obtain rfl := List.singleton_inj.1 hlast
  exact hu

/-- The span of a declaration holds the spans of its tokens, if they are in increasing order. -/
theorem TakesUp.le_span (h : x.TakesUp d part) (ho : Token.Ascending (Item.tokens part)) :
    ∀ t ∈ Item.tokens part, t.span ≤ x.span := by
  obtain @⟨first, last, inner, between, hform, -⟩ := h
  rw [Item.tokens_declaration] at ho ⊢
  exact ho.le_union hform.union_eq

/-- A declaration that stands among the tokens at the beginning of a stream takes up a part of the
stream. -/
theorem FoundIn.exists_takesUp {text : List Token} {rest : List Item} (h : x.FoundIn d text)
    (hi : Item.uncommented items = text.map .token ++ rest) :
    ∃ part, part <:+: items ∧ x.TakesUp d part := by
  obtain ⟨_, ⟨before, behind, rfl⟩, hform⟩ := h
  obtain ⟨first, inner, last, rfl, -⟩ := hform.exists_ends
  have hparts : Item.uncommented items = before.map .token ++
      (.token first :: (inner.map .token ++ .token last :: (behind.map .token ++ rest))) := by
    rw [hi]
    simp
  obtain ⟨between, hinfix, hbetween⟩ := Item.exists_infix_of_uncommented hparts
  exact ⟨_, hinfix, .intro hform hbetween⟩

end Declared

/-- All that a parse gives is declared in the stream. -/
theorem Target.exists_takesUp_of_read {target : Target} {d : Dialect} {extent : Extent} {base : Nat}
    {items : List Item} {value : target.Node}
    (h : (target.read d extent base items).result = .ok value) :
    ∀ x ∈ target.declarations value, ∃ part, part <:+: items ∧ x.TakesUp d part := by
  obtain ⟨text, rest, hitems, hd⟩ := exists_derives_of_read h
  intro x hx
  exact (hd.foundIn x hx).exists_takesUp hitems

theorem Tiling.ascending_tokens {base : Nat} {text : List Char} {tiles : List Tile}
    (h : Tiling base text tiles) (collapse keep : Bool) :
    Token.Ascending (Item.tokens (Tile.items collapse keep tiles)) := by
  have hspans := (List.pairwise_map.1 h.pairwise_span).filter fun tile =>
    keep || !tile.lexeme.isComment
  rw [Token.Ascending, Item.tokens, List.pairwise_filterMap, Tile.items, List.pairwise_map]
  refine hspans.imp ?_
  intro tile tile' horder t ht u hu
  rw [Span.NotBehind, Lexeme.span_of_item (Item.token?_eq_some_iff.1 ht),
    Lexeme.span_of_item (Item.token?_eq_some_iff.1 hu)]
  omega

/-- The tokens of a source that fits are in increasing order. -/
theorem Lexer.ascending_items {source : String} {base : Nat} (d : Dialect) (keep : Bool)
    (hf : base + byteLength source.toList ≤ positionLimit) :
    Token.Ascending
      (Item.tokens ({ ofString source base d with keepComments := keep } : Lexer).items) := by
  obtain ⟨tiles, h⟩ := exists_tiling base source.toList
  have hitems := @Tiling.items_eq base 0 _ tiles d.collapseStringWhitespace keep h hf
  unfold ofString ofText Cursor.ofText
  rw [hitems]
  exact h.ascending_tokens _ keep

/-- Spans without an end cannot be united. All others have a least upper bound, which has an end and
is the only span of its length, or a smaller one, that holds both; in 32-bit words it is the same,
and nothing but a sum can fail. Unions do not depend on order or repetition, the end of a span adds
nothing to it, and smaller spans have smaller unions.

The span of a declaration, which is a union, holds the spans of its tokens if these are in
increasing order. What a parse gives is declared in its stream, and a source has its tokens in
increasing order. -/
theorem Span.union_least_upper_bound :
    (∀ (s t : Span) (f : Fault), s.union t = .error f ↔
      f = .spanEnd ∧ (positionLimit < s.base + s.len ∨ positionLimit < t.base + t.len)) ∧
    (∀ s t : Span, s.Fits → t.Fits → ∃ u, s.union t = .ok u ∧ u.Fits ∧ IsLUB {s, t} u ∧
      ∀ v, s ≤ v → t ≤ v → v.len ≤ u.len → v = u) ∧
    (∀ s t : WordSpan, s.toSpan.Fits → t.toSpan.Fits →
      ∃ u, s.union t = .ok u ∧ s.toSpan.union t.toSpan = .ok u.toSpan) ∧
    (∀ s t : WordSpan, ¬ s.toSpan.Fits ∨ ¬ t.toSpan.Fits →
      ∃ n k, s.union t = .error (.sum n k)) ∧
    (∀ s : WordSpan, s.toSpan.Fits →
      ∃ u, s.shrinkToEnd = .ok u ∧ s.toSpan.shrinkToEnd = .ok u.toSpan) ∧
    (∀ s t : Span, s.union t = t.union s) ∧
    (∀ s t u : Span, (do let left ← s.union t; left.union u) =
      (do let right ← t.union u; s.union right)) ∧
    (∀ s : Span, s.Fits →
      s.union s = .ok s ∧ (do let stop ← s.shrinkToEnd; s.union stop) = .ok s) ∧
    (∀ s t s' t' u' : Span, s ≤ s' → t ≤ t' → s'.union t' = .ok u' →
      ∃ u, s.union t = .ok u ∧ u ≤ u') ∧
    (∀ (d : Dialect) (x : Declared) (part : List Item), x.TakesUp d part →
      Token.Ascending (Item.tokens part) → ∀ t ∈ Item.tokens part, t.span ≤ x.span) ∧
    (∀ (target : Target) (d : Dialect) (extent : Extent) (base : Nat) (items : List Item)
      (value : target.Node), (target.read d extent base items).result = .ok value →
      ∀ x ∈ target.declarations value, ∃ part, part <:+: items ∧ x.TakesUp d part) ∧
    (∀ (source : String) (base : Nat) (d : Dialect) (keep : Bool),
      base + byteLength source.toList ≤ positionLimit →
      Token.Ascending (Item.tokens
        ({ Lexer.ofString source base d with keepComments := keep } : Lexer).items)) := by
  refine ⟨fun s t f => ?_, fun s t hs ht => ?_, fun s t => WordSpan.exists_union_of_fits,
    fun s t => WordSpan.exists_union_of_not_fits, fun s => WordSpan.exists_shrinkToEnd_of_fits,
    union_comm, union_assoc, fun s hs => ⟨union_self hs, union_shrinkToEnd hs⟩,
    fun s t s' t' u' => exists_union_le, fun d x part => Declared.TakesUp.le_span,
    fun target d extent base items value => Target.exists_takesUp_of_read,
    fun source base d keep => Lexer.ascending_items d keep⟩
  · rw [union_eq_error_iff, Fits, Fits, Nat.not_le, Nat.not_le]
  · obtain ⟨u, hu⟩ := exists_union hs ht
    exact ⟨u, hu, fits_union hu, isLUB_union hu, fun v hsv htv => eq_union_of_len_le hu hsv htv⟩

/-- Spans at the last position, in words, and an author with a comment in its body. -/
theorem Span.union_least_upper_bound_author :
    let empty : WordSpan := ⟨4294967280, 0⟩
    let last : WordSpan := ⟨4294967290, 5⟩
    let items : List Item := [.token ⟨.keyword .author, "author", ⟨3, 6⟩⟩,
      .token ⟨.ident, "a", ⟨10, 1⟩⟩, .token ⟨.openBrace, "\x7b", ⟨12, 1⟩⟩,
      .token ⟨.comment, "c", ⟨14, 3⟩⟩, .token ⟨.closeBrace, "\x7d", ⟨18, 1⟩⟩]
    (∃ u, empty.union last = .ok u ∧ IsLUB {empty.toSpan, last.toSpan} u.toSpan) ∧
    (∃ n k, empty.union ⟨4294967290, 6⟩ = .error (.sum n k)) ∧
    ∃ part, part <:+: items ∧ (⟨.author, "a", ⟨3, 16⟩⟩ : Declared).TakesUp .standard part ∧
      ∀ t ∈ Item.tokens part, t.span ≤ ⟨3, 16⟩ := by
  intro empty last items
  obtain ⟨-, hbound, hwords, hover, -, -, -, -, -, hcovers, hread, -⟩ :=
    Span.union_least_upper_bound
  have hempty : empty.toSpan.Fits := by decide
  have hlast : last.toSpan.Fits := by decide
  have hbeyond : ¬ (⟨4294967290, 6⟩ : WordSpan).toSpan.Fits := by decide
  refine ⟨?_, hover empty _ (.inr hbeyond), ?_⟩
  · obtain ⟨u, hu, hspan⟩ := hwords empty last hempty hlast
    obtain ⟨v, hv, -, hlub, -⟩ := hbound empty.toSpan last.toSpan hempty hlast
    obtain rfl := Except.ok.inj (hspan.symm.trans hv)
    exact ⟨u, hu, hlub⟩
  · have hvalue : (Target.author.read .standard .whole 3 items).result = .ok ⟨"a", ⟨3, 16⟩⟩ := rfl
    have horder : Token.Ascending (Item.tokens items) := by
      simp [items, Token.Ascending, Item.tokens, Item.token?, Span.NotBehind]
    obtain ⟨part, hpart, htakes⟩ :=
      hread .author .standard .whole 3 items _ hvalue _ List.mem_cons_self
    have htokens : Token.Ascending (Item.tokens part) :=
      horder.sublist (hpart.sublist.filterMap Item.token?)
    exact ⟨part, hpart, htakes, hcovers .standard _ part htakes htokens⟩

end Scenario
