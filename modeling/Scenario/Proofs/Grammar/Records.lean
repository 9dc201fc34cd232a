import Scenario.Parser.Grammar
import Scenario.Parser.Issue

/-!
# Records

A derivation of a scene tells more than the scene holds: which tokens are skipped in it, and all the
branches that are declared, in the order of the text. The record of a scene keeps this. Whatever is
derivable is so with records of its scenes.

The warnings on a scene can be told from its record. A token that is skipped is warned about, and
so is a branch that is not the first of its name; the remark is at the last one before it.
-/

namespace Scenario

/-- What happens in a scene, apart from its authors. -/
inductive SceneEvent where
  /-- A token has no place in the scene. -/
  | skipped (t : Token)
  /-- A branch is declared, maybe in the body of an author. -/
  | declared (b : Branch)

namespace SceneEvent

/-- The branch that is declared. -/
def branch? : SceneEvent → Option Branch
  | skipped _ => none
  | declared b => some b

/-- The token that is skipped. -/
def token? : SceneEvent → Option Token
  | skipped t => some t
  | declared _ => none

/-- The branches that are declared, in their order. -/
def branches (events : List SceneEvent) : List Branch := events.filterMap branch?

@[simp] theorem branches_nil : branches [] = [] := rfl

@[simp] theorem branches_skipped (t : Token) (events : List SceneEvent) :
    branches (skipped t :: events) = branches events := rfl

@[simp] theorem branches_declared (b : Branch) (events : List SceneEvent) :
    branches (declared b :: events) = b :: branches events := rfl

@[simp] theorem branches_append (events later : List SceneEvent) :
    branches (events ++ later) = branches events ++ branches later :=
  List.filterMap_append

@[simp] theorem branches_map_declared (bs : List Branch) : branches (bs.map declared) = bs := by
  simp [branches, List.filterMap_map, Function.comp_def, branch?]

/-- The warning on a branch: it takes the place of the last one of the same name, if there is one
among those that were declared before. -/
def redefinition (scene : String) (before : List Branch) (b : Branch) : List Issue :=
  ((before.reverse.find? (·.id = b.id)).map fun previous =>
    .redefined b.id b.span scene previous.span).toList

/-- The warnings on the events in a scene, where the branches `before` are declared already. -/
def issuesAfter (scene : String) (before : List Branch) : List SceneEvent → List Issue
  | [] => []
  | skipped t :: rest => .skipped t scene :: issuesAfter scene before rest
  | declared b :: rest => redefinition scene before b ++ issuesAfter scene (before ++ [b]) rest

theorem issuesAfter_append (scene : String) (before : List Branch)
    (events later : List SceneEvent) :
    issuesAfter scene before (events ++ later) =
      issuesAfter scene before events ++ issuesAfter scene (before ++ branches events) later := by
  induction events generalizing before with
  | nil => simp [issuesAfter]
  | cons event events ih =>
    cases event with
    | skipped t => simp [issuesAfter, ih]
    | declared b => simp [issuesAfter, ih]

end SceneEvent

/-- What may stand between the braces of a scene, with the authors declared there and the events. -/
inductive SceneLog (d : Dialect) : List Token → List Author → List SceneEvent → Prop
  | nil : SceneLog d [] [] []
  | author {text rest : List Token} {a : Author} {inner : List Branch} {authors : List Author}
      {events : List SceneEvent} :
      AuthorForm d true text a inner → SceneLog d rest authors events →
      SceneLog d (text ++ rest) (a :: authors) (inner.map .declared ++ events)
  | branch {text rest : List Token} {b : Branch} {authors : List Author}
      {events : List SceneEvent} :
      BranchForm d text b → SceneLog d rest authors events →
      SceneLog d (text ++ rest) authors (.declared b :: events)
  | stray {t : Token} {rest : List Token} {authors : List Author} {events : List SceneEvent} :
      d.lenientSceneItems = true → t.IsStray → SceneLog d rest authors events →
      SceneLog d (t :: rest) authors (.skipped t :: events)

theorem SceneContent.exists_log {d : Dialect} {text : List Token} {authors : List Author}
    {branches : List Branch} (h : SceneContent d text authors branches) :
    ∃ events, SceneLog d text authors events ∧ branches = SceneEvent.branches events := by
  induction h with
  | nil => exact ⟨[], .nil, rfl⟩
  | author ha _ ih =>
    obtain ⟨events, hlog, rfl⟩ := ih
    exact ⟨_, .author ha hlog, by simp⟩
  | branch hb _ ih =>
    obtain ⟨events, hlog, rfl⟩ := ih
    exact ⟨_, .branch hb hlog, rfl⟩
  | stray hl hs _ ih =>
    obtain ⟨events, hlog, rfl⟩ := ih
    exact ⟨_, .stray hl hs hlog, rfl⟩

/-- A scene as it is written down: its name, its span, its authors in their order, and what happens
in it. -/
structure SceneRecord where
  id : String
  span : Span
  authors : List Author
  events : List SceneEvent

namespace SceneRecord

variable (r : SceneRecord)

/-- The branches that are declared in the scene, in their order. -/
def branches : List Branch := SceneEvent.branches r.events

/-- The tokens that are skipped in the scene, in their order. -/
def skipped : List Token := r.events.filterMap SceneEvent.token?

/-- The warnings on the scene. -/
def issues : List Issue := SceneEvent.issuesAfter r.id [] r.events

/-- The scene that is declared. -/
def scene : Scene := .ofDeclarations r.id r.span r.authors r.branches

end SceneRecord

/-- The declaration of a scene, with its record. -/
inductive SceneRecord.Form (d : Dialect) : List Token → SceneRecord → Prop
  | intro {keyword name left right : Token} {content : List Token} {authors : List Author}
      {events : List SceneEvent} {span : Span} :
      keyword.kind = .keyword .scene → name.kind = .ident → left.kind = .openBrace →
      right.kind = .closeBrace → SceneLog d content authors events →
      keyword.span.union right.span = .ok span →
      Form d (keyword :: name :: left :: (content ++ [right])) ⟨name.value, span, authors, events⟩

theorem SceneForm.exists_record {d : Dialect} {text : List Token} {s : Scene}
    (h : SceneForm d text s) : ∃ r : SceneRecord, r.Form d text ∧ s = r.scene := by
  obtain ⟨hk, hn, hl, hright, hc, hu⟩ := h
  obtain ⟨events, hlog, rfl⟩ := hc.exists_log
  exact ⟨_, .intro hk hn hl hright hlog hu, rfl⟩

/-- A sequence of scenes and authors, with the records of the scenes. -/
inductive DocumentLog (d : Dialect) : List Token → List SceneRecord → List Author → Prop
  | nil : DocumentLog d [] [] []
  | scene {text rest : List Token} {r : SceneRecord} {records : List SceneRecord}
      {authors : List Author} :
      r.Form d text → DocumentLog d rest records authors →
      DocumentLog d (text ++ rest) (r :: records) authors
  | author {text rest : List Token} {a : Author} {records : List SceneRecord}
      {authors : List Author} :
      LoneAuthorForm d text a → DocumentLog d rest records authors →
      DocumentLog d (text ++ rest) records (a :: authors)

theorem DocumentContent.exists_log {d : Dialect} {text : List Token} {scenes : List Scene}
    {authors : List Author} (h : DocumentContent d text scenes authors) :
    ∃ records, DocumentLog d text records authors ∧ scenes = records.map SceneRecord.scene := by
  induction h with
  | nil => exact ⟨[], .nil, rfl⟩
  | scene hs _ ih =>
    obtain ⟨r, hr, rfl⟩ := hs.exists_record
    obtain ⟨records, hlog, rfl⟩ := ih
    exact ⟨r :: records, .scene hr hlog, rfl⟩
  | author ha _ ih =>
    obtain ⟨records, hlog, hscenes⟩ := ih
    exact ⟨records, .author ha hlog, hscenes⟩

end Scenario
