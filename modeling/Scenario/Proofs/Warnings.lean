import Mathlib.Data.List.Induction
import Scenario.Proofs.Equality
import Scenario.Proofs.Grammar.Acceptance
import Scenario.Proofs.Leading

/-!
# Warnings account for what is lost

A parse that succeeds warns about what its result does not show: tokens that were skipped in scenes,
and branches that were replaced. The warnings are those that the records of the scenes tell, scene
by scene. They miss nothing, and nothing else is warned about: of the declarations of a branch in a
scene each but the first is warned about, with a remark at the one before it, and the last is kept.

Main statement: `Target.warnings_account`.
-/

namespace Scenario

namespace Issue

/-- The span of a branch of the given name that takes the place of another, and the span of that. -/
def redefinition? (id : String) : Issue → Option (Span × Span)
  | redefined name span _ previous => if name = id then some (span, previous) else none
  | _ => none

/-- The token that is skipped. -/
def skipped? : Issue → Option Token
  | skipped found _ => some found
  | _ => none

def isRedefinition : Issue → Bool
  | redefined _ _ _ _ => true
  | _ => false

end Issue

/-- The spans of the branches with the given id, in their order. -/
def Branch.spansOf (id : String) (branches : List Branch) : List Span :=
  (branches.filter (·.id = id)).map Branch.span

/-- The spans of the declarations of the branch with the given id, in their order. -/
def SceneRecord.declarations (r : SceneRecord) (id : String) : List Span :=
  Branch.spansOf id r.branches

/-- The pairs of neighbours in a list, once an element is added to its end. -/
theorem zip_tail_concat {α : Type} (l : List α) (a : α) :
    (l ++ [a]).tail.zip (l ++ [a]) = l.tail.zip l ++ (l.getLast?.map fun b => (a, b)).toList := by
  induction l with
  | nil => rfl
  | cons b l ih =>
    cases l with
    | nil => rfl
    | cons c l =>
      simp only [List.cons_append, List.tail_cons, List.zip_cons_cons] at ih ⊢
      rw [ih]
      rfl

/-- A value that is put under a new key is one more. -/
theorem Registry.size_put {α : Type} (r : Registry α) (key : String) (a : α) :
    (r.put key a).size = if (r.find? key).isSome then r.size else r.size + 1 := by
  have hsize : ∀ q : Registry α, q.size = q.keys.length := by
    intro q
    simp [size, keys]
  have hkey : key ∈ r.keys ↔ (r.find? key).isSome := by
    rw [mem_keys_iff, Option.isSome_iff_exists]
  rw [hsize, hsize, keys_put]
  by_cases h : key ∈ r.keys
  · rw [if_pos h, if_pos (hkey.1 h)]
  · rw [if_neg h, if_neg (mt hkey.2 h), List.length_append, List.length_singleton]

namespace SceneEvent

theorem span_last_eq (id : String) (before : List Branch) :
    (before.reverse.find? (·.id = id)).map Branch.span = (Branch.spansOf id before).getLast? := by
  rw [Branch.spansOf, List.getLast?_map, ← List.head?_reverse, ← List.filter_reverse,
    List.head?_filter]

theorem filterMap_redefinition (scene id : String) (before : List Branch) (b : Branch) :
    (redefinition scene before b).filterMap (Issue.redefinition? id) =
      if b.id = id then ((Branch.spansOf id before).getLast?.map fun s => (b.span, s)).toList
      else [] := by
  unfold redefinition
  by_cases hid : b.id = id
  · rw [if_pos hid, ← hid, ← span_last_eq]
    cases before.reverse.find? (·.id = b.id) with
    | none => rfl
    | some previous => simp [Issue.redefinition?]
  · rw [if_neg hid]
    cases before.reverse.find? (·.id = b.id) with
    | none => rfl
    | some previous => simp [Issue.redefinition?, hid]

/-- Each declaration but the first is warned about, with a remark at the one before it. -/
theorem filterMap_issuesAfter (scene id : String) (events : List SceneEvent) :
    (issuesAfter scene [] events).filterMap (Issue.redefinition? id) =
      (Branch.spansOf id (branches events)).tail.zip (Branch.spansOf id (branches events)) := by
  induction events using List.reverseRecOn with
  | nil => rfl
  | append_singleton events event ih =>
    rw [issuesAfter_append, List.filterMap_append, ih, branches_append]
    cases event with
    | skipped t => simp [issuesAfter, Issue.redefinition?]
    | declared b =>
      by_cases hid : b.id = id
      · have hspans : Branch.spansOf id (branches events ++ [b]) =
            Branch.spansOf id (branches events) ++ [b.span] := by
          simp [Branch.spansOf, hid]
        simp [issuesAfter, filterMap_redefinition, hid, hspans, zip_tail_concat]
      · have hspans : Branch.spansOf id (branches events ++ [b]) =
            Branch.spansOf id (branches events) := by
          simp [Branch.spansOf, hid]
        simp [issuesAfter, filterMap_redefinition, hid, hspans]

theorem filterMap_skipped (scene : String) (before : List Branch) (events : List SceneEvent) :
    (issuesAfter scene before events).filterMap Issue.skipped? = events.filterMap token? := by
  induction events generalizing before with
  | nil => rfl
  | cons event events ih =>
    cases event with
    | skipped t => simp [issuesAfter, Issue.skipped?, token?, ih]
    | declared b =>
      have hredefinition : (redefinition scene before b).filterMap Issue.skipped? = [] := by
        unfold redefinition
        cases before.reverse.find? (·.id = b.id) <;> simp [Issue.skipped?]
      simp [issuesAfter, List.filterMap_cons, token?, ih, hredefinition]

/-- Tokens that are skipped and branches that are replaced are all that is warned about. -/
theorem length_issuesAfter (scene : String) (before : List Branch) (events : List SceneEvent) :
    (issuesAfter scene before events).length = (events.filterMap token?).length +
      (issuesAfter scene before events).countP Issue.isRedefinition := by
  induction events generalizing before with
  | nil => rfl
  | cons event events ih =>
    cases event with
    | skipped t =>
      simp [issuesAfter, token?, Issue.isRedefinition, ih]
      omega
    | declared b =>
      have hredefinition : (redefinition scene before b).countP Issue.isRedefinition =
          (redefinition scene before b).length := by
        unfold redefinition
        cases before.reverse.find? (·.id = b.id) <;> simp [Issue.isRedefinition]
      simp [issuesAfter, List.filterMap_cons, token?, hredefinition, ih]
      omega

/-- The branches that are kept when they are registered one after the other. -/
def kept (branches : List Branch) : Registry Branch :=
  branches.foldl (fun r b => r.put b.id b) .empty

theorem find?_kept (id : String) (branches : List Branch) :
    (kept branches).find? id = branches.reverse.find? (·.id = id) :=
  (Registry.find?_foldl_put .empty id branches).trans Option.or_none

/-- A branch that is registered is one more to keep, or is warned about. -/
theorem size_kept_concat (scene : String) (before : List Branch) (b : Branch) :
    (kept (before ++ [b])).size + (redefinition scene before b).countP Issue.isRedefinition =
      (kept before).size + 1 := by
  have hput : kept (before ++ [b]) = (kept before).put b.id b := by
    simp [kept]
  rw [hput, Registry.size_put, find?_kept, redefinition]
  cases before.reverse.find? (·.id = b.id) with
  | none => simp
  | some previous => simp [Issue.isRedefinition]

/-- Every branch that is declared is kept, or replaced with a warning. -/
theorem length_branches (scene : String) (events : List SceneEvent) :
    (branches events).length = (kept (branches events)).size +
      (issuesAfter scene [] events).countP Issue.isRedefinition := by
  induction events using List.reverseRecOn with
  | nil => rfl
  | append_singleton events event ih =>
    rw [issuesAfter_append, List.countP_append, branches_append]
    cases event with
    | skipped t => simpa [issuesAfter, Issue.isRedefinition] using ih
    | declared b =>
      have hkept := size_kept_concat scene (branches events) b
      simp only [issuesAfter, List.nil_append, List.append_nil, branches_declared, branches_nil,
        List.length_append, List.length_singleton]
      omega

end SceneEvent

/-- The warnings in the record account for what the scene does not keep of it. -/
structure Scene.Accounts (s : Scene) (r : SceneRecord) : Prop where
  id_eq : s.id = r.id
  span_eq : s.span = r.span
  /-- The last declaration of a branch is kept. -/
  branch?_span : ∀ id, (s.branch? id).map Branch.span = (r.declarations id).getLast?
  /-- Each declaration but the first is warned about, with a remark at the one before it. -/
  redefinitions : ∀ id, r.issues.filterMap (Issue.redefinition? id) =
    (r.declarations id).tail.zip (r.declarations id)
  /-- Each token that is skipped is warned about. -/
  skipped : r.issues.filterMap Issue.skipped? = r.skipped
  /-- Nothing else is warned about. -/
  length_issues : r.issues.length = r.skipped.length + r.issues.countP Issue.isRedefinition
  /-- Each declaration of a branch is kept, or replaced with a warning. -/
  length_branches : r.branches.length =
    s.branches.size + r.issues.countP Issue.isRedefinition

/-- Authors that are broadcast to a scene do not matter to the warnings on it. -/
theorem SceneRecord.accounts (r : SceneRecord) (outside : List Author) :
    (r.scene.addAuthors outside).Accounts r := by
  have hholds : r.scene.Holds r.id r.span r.authors r.branches := Scene.holds_ofDeclarations _ _ _ _
  have hkept : r.scene.branches = SceneEvent.kept r.branches := by
    rw [scene, Scene.ofDeclarations, Scene.branches_addAuthors, Scene.foldl_addBranch_eq]
    rfl
  constructor
  case id_eq => rw [Scene.id_addAuthors, hholds.id_eq]
  case span_eq => rw [Scene.span_addAuthors, hholds.span_eq]
  case branch?_span =>
    intro id
    rw [Scene.branch?_addAuthors, hholds.branch?_eq]
    exact SceneEvent.span_last_eq id r.branches
  case redefinitions => exact fun id => SceneEvent.filterMap_issuesAfter r.id id r.events
  case skipped => exact SceneEvent.filterMap_skipped r.id [] r.events
  case length_issues => exact SceneEvent.length_issuesAfter r.id [] r.events
  case length_branches =>
    rw [Scene.branches_addAuthors, hkept]
    exact SceneEvent.length_branches r.id r.events

/-- The contents of a stream are what is left of it without comments, up to its end. -/
theorem Item.trimmed_of_contents {items : List Item} {text : List Token}
    (h : contents items = some text) : trimmed items = text.map .token := by
  induction items generalizing text with
  | nil =>
    cases h
    rfl
  | cons item items ih =>
    cases item with
    | error e => cases h
    | fault f => cases h
    | token t =>
      by_cases hc : t.kind = .comment
      · rw [contents_comment hc] at h
        rw [trimmed_comment hc, ih h]
      by_cases he : t.kind = .eof
      · rw [contents_eof he] at h
        cases h
        rw [trimmed_eof he]
        rfl
      · rw [contents_plain ⟨hc, he⟩, Option.map_eq_some_iff] at h
        obtain ⟨text, h, rfl⟩ := h
        rw [trimmed_plain ⟨hc, he⟩, ih h]
        rfl

namespace Target

/-- The scenes of what has been parsed. -/
def scenes : (target : Target) → target.Node → List Scene
  | document, value => value.scenes
  | scene, value => [value]
  | author, _ => []

/-- The tokens are derivable as the target, with the given reading and the records of its scenes. -/
def Logs (d : Dialect) : (target : Target) → List Token → target.Node → List SceneRecord → Prop
  | document, text, value, records => ∃ authors, DocumentLog d text records authors ∧
      value = Document.broadcast ⟨records.map SceneRecord.scene, authors⟩
  | scene, text, value, records => ∃ r : SceneRecord, records = [r] ∧ r.Form d text ∧
      value = r.scene
  | author, text, value, records => records = [] ∧ LoneAuthorForm d text value

variable {target : Target} {d : Dialect} {extent : Extent} {base : Nat} {items : List Item}
  {text : List Token} {value : target.Node} {records : List SceneRecord}

theorem exists_logs (h : target.Derives d text value) :
    ∃ records, target.Logs d text value records := by
  cases target with
  | document =>
    obtain ⟨hc⟩ := h
    obtain ⟨records, hlog, rfl⟩ := hc.exists_log
    exact ⟨records, _, hlog, rfl⟩
  | scene =>
    obtain ⟨r, hr, rfl⟩ := SceneForm.exists_record h
    exact ⟨[r], r, rfl, hr, rfl⟩
  | author => exact ⟨[], rfl, h⟩

/-- What is derivable is accepted, with the warnings that the records tell. -/
theorem accepts_of_logs {last : Span} (hl : last.Fits) (ht : ∀ t ∈ text, t.IsPlain ∧ t.span.Fits)
    (h : target.Logs d text value records) :
    (target.machine d .whole).Accepts last (target.machine d .whole).start (text.map .token)
      (records.flatMap SceneRecord.issues) value := by
  cases target with
  | document =>
    obtain ⟨authors, hlog, hvalue⟩ := h
    exact (OpenDocument.accepts_iff hl ht).2 ⟨_, _, documentReads_of_log hlog, hvalue⟩
  | scene =>
    obtain ⟨r, rfl, hr, rfl⟩ := h
    obtain ⟨keyword, rest, rfl, hk, hreads⟩ := OpenScene.reads_of_record hr
    rw [List.flatMap_singleton]
    exact (Sole.accepts_iff ht).2 ⟨keyword, rest, rfl, hk, hreads⟩
  | author =>
    obtain ⟨rfl, hform⟩ := h
    obtain ⟨keyword, rest, rfl, hk, hreads⟩ := LoneAuthor.reads_of_form hform
    exact (Sole.accepts_iff ht).2 ⟨keyword, rest, rfl, hk, hreads⟩

theorem accounts_of_logs (h : target.Logs d text value records) :
    List.Forall₂ Scene.Accounts (target.scenes value) records := by
  cases target with
  | document =>
    obtain ⟨authors, -, rfl⟩ := h
    rw [scenes, Document.broadcast, List.map_map, List.forall₂_map_left_iff]
    exact List.forall₂_same.2 fun r _ => r.accounts authors
  | scene =>
    obtain ⟨r, rfl, -, rfl⟩ := h
    exact .cons (r.accounts []) .nil
  | author =>
    obtain ⟨rfl, -⟩ := h
    exact .nil

/-- A parse that gives a value has read some tokens at the beginning of the stream, as a whole. -/
theorem exists_front_of_gives {warnings : List Diagnostic} (hb : base ≤ positionLimit)
    (hi : ∀ t, .token t ∈ items → t.span.Fits)
    (h : target.Gives d extent base items value warnings) :
    ∃ text rest, Item.trimmed items = List.map .token text ++ rest ∧
      (extent = .whole ∨ target = .document → rest = []) ∧
      target.Gives d .whole base (text.map .token) value warnings := by
  by_cases hwhole : extent = .whole ∨ target = .document
  · have hgives : target.Gives d .whole base items value warnings := by
      rcases hwhole with rfl | rfl
      · exact h
      · exact h
    obtain ⟨issues, ha, hwarnings⟩ := gives_iff.1 hgives
    obtain ⟨text, htext, haccepts⟩ := (read_eq_ok_iff hb hi).1 ha
    exact ⟨text, [], by rw [Item.trimmed_of_contents htext, List.append_nil], fun _ => rfl,
      gives_iff.2 ⟨issues, haccepts, hwarnings⟩⟩
  · obtain ⟨hextent, htarget⟩ := not_or.1 hwhole
    cases extent with
    | whole => exact (hextent rfl).elim
    | leading =>
      obtain ⟨text, rest, htext, -, hgives⟩ := (gives_leading_iff htarget hb hi).1 h
      exact ⟨text, rest, htext, fun hor => (hwhole hor).elim, hgives⟩

/-- A parse that succeeds has read tokens that are derivable, at the beginning of the stream if not
all of it was to be read. Its warnings are those that the records of the scenes tell, and account
for all that the scenes do not keep. -/
theorem warnings_account (target : Target) (d : Dialect) (extent : Extent)
    (hb : base ≤ positionLimit) (hi : ∀ t, .token t ∈ items → t.span.Fits) {value : target.Node}
    {warnings : List Diagnostic} (h : target.Gives d extent base items value warnings) :
    ∃ text rest, Item.trimmed items = List.map .token text ++ rest ∧
      (extent = .whole ∨ target = .document → rest = []) ∧
      (∃ records, target.Logs d text value records) ∧
      ∀ value' records, target.Logs d text value' records → value' = value ∧
        warnings = (records.flatMap SceneRecord.issues).map Issue.diagnostic ∧
        List.Forall₂ Scene.Accounts (target.scenes value) records := by
  obtain ⟨text, rest, htext, hrest, hgives⟩ := exists_front_of_gives hb hi h
  obtain ⟨issues, ha, rfl⟩ := gives_iff.1 hgives
  have hplain := Item.plain_of_trimmed_eq hi htext
  have hl : (⟨base, 0⟩ : Span).Fits := hb
  refine ⟨text, rest, htext, hrest, ?_, ?_⟩
  · exact exists_logs ((exists_accepts_iff_derives hl hplain).1 ⟨issues, ha⟩)
  · intro value' records hlogs
    have ha' := accepts_of_logs hl hplain hlogs
    rw [Machine.Accepts] at ha ha'
    rw [ha] at ha'
    cases ha'
    exact ⟨rfl, rfl, accounts_of_logs hlogs⟩

/-- A scene that declares a branch twice, with a token to skip in between. -/
theorem warnings_account_scene :
    let first : Branch := .ofSpan "b" ⟨10, 11⟩
    let second : Branch := .ofSpan "b" ⟨26, 11⟩
    let items : List Item := [.token ⟨.keyword .scene, "scene", ⟨0, 5⟩⟩,
      .token ⟨.ident, "s", ⟨6, 1⟩⟩, .token ⟨.openBrace, "\x7b", ⟨8, 1⟩⟩,
      .token ⟨.keyword .branch, "branch", ⟨10, 6⟩⟩, .token ⟨.ident, "b", ⟨17, 1⟩⟩,
      .token ⟨.openBrace, "\x7b", ⟨19, 1⟩⟩, .token ⟨.closeBrace, "\x7d", ⟨20, 1⟩⟩,
      .token ⟨.str, "x", ⟨22, 3⟩⟩,
      .token ⟨.keyword .branch, "branch", ⟨26, 6⟩⟩, .token ⟨.ident, "b", ⟨33, 1⟩⟩,
      .token ⟨.openBrace, "\x7b", ⟨35, 1⟩⟩, .token ⟨.closeBrace, "\x7d", ⟨36, 1⟩⟩,
      .token ⟨.closeBrace, "\x7d", ⟨38, 1⟩⟩]
    let value : Scene := .ofDeclarations "s" ⟨0, 39⟩ [] [first, second]
    let warnings := [Issue.skipped ⟨.str, "x", ⟨22, 3⟩⟩ "s",
      Issue.redefined "b" second.span "s" first.span].map Issue.diagnostic
    ∃ text records, Item.trimmed items = List.map .token text ∧
      Target.scene.Logs .standard text value records ∧
      warnings = (records.flatMap SceneRecord.issues).map Issue.diagnostic ∧
      List.Forall₂ Scene.Accounts [value] records := by
  intro first second items value warnings
  have hfits : ∀ t, .token t ∈ items → t.span.Fits := by
    simp [items, Span.Fits, positionLimit]
  have hgives : Target.scene.Gives .standard .whole 0 items value warnings := fun _ => rfl
  obtain ⟨text, rest, htext, hrest, ⟨records, hlogs⟩, hall⟩ :=
    warnings_account .scene .standard .whole (Nat.zero_le _) hfits hgives
  obtain ⟨-, hwarnings, haccounts⟩ := hall value records hlogs
  rw [hrest (.inl rfl), List.append_nil] at htext
  exact ⟨text, records, htext, hlogs, hwarnings, haccounts⟩

end Target
end Scenario
