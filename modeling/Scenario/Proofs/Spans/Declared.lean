import Scenario.Proofs.Equality
import Scenario.Proofs.Grammar.Acceptance
import Scenario.Proofs.Holdings

/-!
# Declarations and their tokens

Each scene, author and branch of a script comes of tokens that declare it, from its keyword to its
closing brace, and its span is the union of the spans of these two. Those tokens stand together
among the tokens that the script comes of. There is one lemma for each rule of the grammar that has
declarations in it.
-/

namespace Scenario

theorem Registry.mem_map_values_iff {α β : Type} {r : Registry α} {f : α → β} {y : β} :
    y ∈ r.values.map f ↔ ∃ key a, r.find? key = some a ∧ y = f a := by
  simp only [List.mem_map, mem_values_iff]
  constructor
  · rintro ⟨a, ⟨key, ha⟩, rfl⟩
    exact ⟨key, a, ha, rfl⟩
  · rintro ⟨key, a, ha, rfl⟩
    exact ⟨a, ⟨key, ha⟩, rfl⟩

/-- What a script tells of a declaration, whatever is declared. -/
structure Declared where
  keyword : Keyword
  id : String
  span : Span
deriving DecidableEq, Repr

def Author.declared (a : Author) : Declared := ⟨.author, a.id, a.span⟩

def Branch.declared (b : Branch) : Declared := ⟨.branch, b.id, b.span⟩

namespace Scene

def declared (s : Scene) : Declared := ⟨.scene, s.id, s.span⟩

/-- The scene and all that it holds. -/
def declarations (s : Scene) : List Declared :=
  s.declared :: (s.authors.values.map Author.declared ++ s.branches.values.map Branch.declared)

theorem mem_declarations_iff {s : Scene} {x : Declared} :
    x ∈ s.declarations ↔ x = s.declared ∨ (∃ id a, s.author? id = some a ∧ x = a.declared) ∨
      ∃ id b, s.branch? id = some b ∧ x = b.declared := by
  simp only [declarations, List.mem_cons, List.mem_append, Registry.mem_map_values_iff, author?,
    branch?]

/-- A scene that authors are added to declares itself as before, and what it holds was in it or is
one of the authors. -/
theorem mem_declarations_addAuthors {s : Scene} {authors : List Author} {x : Declared}
    (h : x ∈ (s.addAuthors authors).declarations) :
    x ∈ s.declarations ∨ ∃ a ∈ authors, x = a.declared := by
  rcases mem_declarations_iff.1 h with rfl | ⟨id, a, ha, rfl⟩ | ⟨id, b, hb, rfl⟩
  · refine .inl (mem_declarations_iff.2 (.inl ?_))
    rw [declared, id_addAuthors, span_addAuthors, declared]
  · rw [author?_addAuthors, Option.or_eq_some_iff] at ha
    rcases ha with ha | ⟨-, ha⟩
    · exact .inl (mem_declarations_iff.2 (.inr (.inl ⟨id, a, ha, rfl⟩)))
    · exact .inr ⟨a, List.mem_of_find?_eq_some ha, rfl⟩
  · rw [branch?_addAuthors] at hb
    exact .inl (mem_declarations_iff.2 (.inr (.inr ⟨id, b, hb, rfl⟩)))

end Scene

def Document.declarations (document : Document) : List Declared :=
  document.scenes.flatMap Scene.declarations ++ document.authors.map Author.declared

/-- All that is declared in a part of a script. -/
def Target.declarations : (target : Target) → target.Node → List Declared
  | document => Document.declarations
  | scene => Scene.declarations
  | author => fun a => [a.declared]

variable {d : Dialect} {text part : List Token} {x : Declared}

namespace Declared

/-- The tokens are the declaration. -/
inductive Form (d : Dialect) : List Token → Declared → Prop
  | scene {text : List Token} {s : Scene} : SceneForm d text s → Form d text s.declared
  | author {inScene : Bool} {text : List Token} {a : Author} {branches : List Branch} :
      AuthorForm d inScene text a branches → Form d text a.declared
  | branch {text : List Token} {b : Branch} : BranchForm d text b → Form d text b.declared

/-- A declaration begins with its keyword and ends with a brace, and its span is made of these. -/
theorem Form.exists_ends (h : x.Form d text) :
    ∃ first inner last, text = first :: (inner ++ [last]) ∧ first.kind = .keyword x.keyword ∧
      last.kind = .closeBrace ∧ first.span.union last.span = .ok x.span := by
  cases h with
  | scene h =>
    obtain @⟨keyword, name, left, right, content, _, _, span, hk, -, -, hr, -, hu⟩ := h
    refine ⟨keyword, name :: left :: content, right, rfl, hk, hr, ?_⟩
    rw [hu]
    exact congrArg Except.ok (Scene.holds_ofDeclarations _ _ _ _).span_eq.symm
  | author h =>
    obtain @⟨keyword, name, right, opening, content, _, span, hk, -, hr, -, -, hu⟩ := h
    exact ⟨keyword, name :: (opening ++ content), right, by simp, hk, hr, hu⟩
  | branch h =>
    obtain @⟨keyword, name, right, opening, content, span, hk, -, hr, -, -, hu⟩ := h
    exact ⟨keyword, name :: (opening ++ content), right, by simp, hk, hr, hu⟩

/-- The declaration stands among the tokens. -/
def FoundIn (d : Dialect) (text : List Token) (x : Declared) : Prop :=
  ∃ part, part <:+: text ∧ x.Form d part

theorem FoundIn.mono (h : x.FoundIn d part) (hp : part <:+: text) : x.FoundIn d text := by
  obtain ⟨inner, hinner, hx⟩ := h
  exact ⟨inner, hinner.trans hp, hx⟩

end Declared

theorem BranchForm.foundIn {b : Branch} (h : BranchForm d text b) : b.declared.FoundIn d text :=
  ⟨text, List.infix_rfl, .branch h⟩

theorem AuthorContent.foundIn {inScene : Bool} {branches : List Branch}
    (h : AuthorContent d inScene text branches) : ∀ b ∈ branches, b.declared.FoundIn d text := by
  induction h with
  | nil => simp
  | token _ _ _ ih => exact fun b hb => (ih b hb).mono (List.infix_cons List.infix_rfl)
  | @group left right inner rest branches _ _ _ _ _ ih =>
    intro b hb
    exact (ih b hb).mono ⟨left :: (inner ++ [right]), [], by simp⟩
  | @branch text rest b' branches _ hbranch _ ih =>
    intro b hb
    rcases List.mem_cons.1 hb with rfl | hb
    · exact hbranch.foundIn.mono (List.prefix_append text rest).isInfix
    · exact (ih b hb).mono (List.suffix_append text rest).isInfix

theorem AuthorForm.foundIn {inScene : Bool} {a : Author} {branches : List Branch}
    (h : AuthorForm d inScene text a branches) :
    a.declared.FoundIn d text ∧ ∀ b ∈ branches, b.declared.FoundIn d text := by
  refine ⟨⟨text, List.infix_rfl, .author h⟩, ?_⟩
  obtain @⟨keyword, name, right, opening, content, _, _, -, -, -, -, hc, -⟩ := h
  intro b hb
  exact (hc.foundIn b hb).mono ⟨keyword :: name :: opening, [right], by simp⟩

theorem SceneContent.foundIn {authors : List Author} {branches : List Branch}
    (h : SceneContent d text authors branches) :
    (∀ a ∈ authors, a.declared.FoundIn d text) ∧ ∀ b ∈ branches, b.declared.FoundIn d text := by
  induction h with
  | nil => simp
  | @author text rest a inner authors branches ha _ ih =>
    have hfront : text <:+: text ++ rest := (List.prefix_append text rest).isInfix
    have hback : rest <:+: text ++ rest := (List.suffix_append text rest).isInfix
    refine ⟨List.forall_mem_cons.2 ⟨ha.foundIn.1.mono hfront, ?_⟩,
      List.forall_mem_append.2 ⟨?_, ?_⟩⟩
    · exact fun a' ha' => (ih.1 a' ha').mono hback
    · exact fun b hb => (ha.foundIn.2 b hb).mono hfront
    · exact fun b hb => (ih.2 b hb).mono hback
  | @branch text rest b authors branches hb _ ih =>
    have hback : rest <:+: text ++ rest := (List.suffix_append text rest).isInfix
    refine ⟨fun a ha => (ih.1 a ha).mono hback, List.forall_mem_cons.2 ⟨?_, ?_⟩⟩
    · exact hb.foundIn.mono (List.prefix_append text rest).isInfix
    · exact fun b' hb' => (ih.2 b' hb').mono hback
  | @stray t rest authors branches _ _ _ ih =>
    have hrest : rest <:+: t :: rest := List.infix_cons List.infix_rfl
    exact ⟨fun a ha => (ih.1 a ha).mono hrest, fun b hb => (ih.2 b hb).mono hrest⟩

theorem SceneForm.foundIn {s : Scene} (h : SceneForm d text s) :
    ∀ x ∈ s.declarations, x.FoundIn d text := by
  intro x hx
  rcases Scene.mem_declarations_iff.1 hx with rfl | hheld
  · exact ⟨text, List.infix_rfl, .scene h⟩
  obtain @⟨keyword, name, left, right, content, authors, branches, span, -, -, -, -, hc, -⟩ := h
  have hholds := Scene.holds_ofDeclarations name.value span authors branches
  have hcontent : content <:+: keyword :: name :: left :: (content ++ [right]) :=
    ⟨[keyword, name, left], [right], rfl⟩
  rcases hheld with ⟨id, a, ha, rfl⟩ | ⟨id, b, hb, rfl⟩
  · exact (hc.foundIn.1 a (hholds.of_author? ha).1).mono hcontent
  · exact (hc.foundIn.2 b (hholds.of_branch? hb).1).mono hcontent

theorem DocumentContent.foundIn {scenes : List Scene} {authors : List Author}
    (h : DocumentContent d text scenes authors) :
    (∀ s ∈ scenes, ∀ x ∈ s.declarations, x.FoundIn d text) ∧
      ∀ a ∈ authors, a.declared.FoundIn d text := by
  induction h with
  | nil => simp
  | @scene text rest s scenes authors hs _ ih =>
    have hback : rest <:+: text ++ rest := (List.suffix_append text rest).isInfix
    refine ⟨List.forall_mem_cons.2 ⟨?_, ?_⟩, fun a ha => (ih.2 a ha).mono hback⟩
    · exact fun x hx => (hs.foundIn x hx).mono (List.prefix_append text rest).isInfix
    · exact fun s' hs' x hx => (ih.1 s' hs' x hx).mono hback
  | @author text rest a scenes authors ha _ ih =>
    have hback : rest <:+: text ++ rest := (List.suffix_append text rest).isInfix
    refine ⟨fun s hs x hx => (ih.1 s hs x hx).mono hback, List.forall_mem_cons.2 ⟨?_, ?_⟩⟩
    · exact (AuthorForm.foundIn ha).1.mono (List.prefix_append text rest).isInfix
    · exact fun a' ha' => (ih.2 a' ha').mono hback

/-- What is declared in a document stands among its tokens, also where it has been broadcast to. -/
theorem DocumentForm.foundIn {document : Document} (h : DocumentForm d text document) :
    ∀ x ∈ document.declarations, x.FoundIn d text := by
  obtain @⟨scenes, authors, hc⟩ := h
  intro x hx
  rcases List.mem_append.1 hx with hx | hx
  · obtain ⟨s', hs', hx⟩ := List.mem_flatMap.1 hx
    obtain ⟨s, hs, rfl⟩ := List.mem_map.1 hs'
    rcases Scene.mem_declarations_addAuthors hx with hx | ⟨a, ha, rfl⟩
    · exact hc.foundIn.1 s hs x hx
    · exact hc.foundIn.2 a ha
  · obtain ⟨a, ha, rfl⟩ := List.mem_map.1 hx
    exact hc.foundIn.2 a ha

/-- All that is declared in what a derivation gives stands among its tokens. -/
theorem Target.Derives.foundIn {target : Target} {value : target.Node}
    (h : target.Derives d text value) : ∀ x ∈ target.declarations value, x.FoundIn d text := by
  cases target with
  | document => exact DocumentForm.foundIn h
  | scene => exact SceneForm.foundIn h
  | author =>
    intro x hx
    obtain rfl := List.mem_singleton.1 hx
    exact (AuthorForm.foundIn h).1

end Scenario
