import Scenario.Proofs.Grammar.Records
import Scenario.Proofs.Moves

/-!
# What is derivable is read

A derivation is followed from its outside to its inside: each of its parts leads the reader from the
place where the part begins to the place behind it. Groups in braces have to be read at any depth,
so what is said about them is said for all depths at once.

Declarations are read in three places: an author on its own, an author in a scene, and a branch in a
scene. `Carries` says what these have in common, and bodies are read once for all of them.

Only what happens in scenes raises issues, so they are told exactly from the records of the scenes.
-/

namespace Scenario

variable {ρ α : Type} {d : Dialect}

namespace Reads

variable {step : ρ → Token → Verdict (Verdict (Turn ρ α))}

/-- Only the first token depends on the state. -/
theorem congr_state {r r' : ρ} {t : Token} {rest : List Token} {is : List Issue}
    {turn : Turn ρ α} (h : settle step r t = settle step r' t)
    (hr : Reads step r (t :: rest) is turn) : Reads step r' (t :: rest) is turn := by
  cases hr with
  | done hs => exact .done (h ▸ hs)
  | more hs hr => exact .more (h ▸ hs) hr

end Reads

namespace Declaration

variable {decl : Declaration} {t : Token}

theorem enter_of_moves {turn : Turn Declaration (Header × Span)} (h : Moves d t decl turn) :
    decl.enter d t = decl := by
  cases h with
  | brace hk => simp [enter, hk]
  | _ => rfl

theorem branchPlace?_of_ne (h : t.kind ≠ .keyword .branch) : decl.branchPlace? d t = none :=
  branchPlace?_eq_none_iff.2 fun _ _ => h

theorem branchPlace?_inside_succ (owner : Header) (depth : Nat) :
    (inside owner (depth + 1)).branchPlace? d t = none :=
  branchPlace?_eq_none_iff.2 fun _ h => by simp at h

end Declaration

/-- The reader goes through a declaration: in the states that `place` makes of it, it takes the
moves of the declaration. If declarations may be nested there, branches are left to the reader. -/
structure Carries (d : Dialect) (step : ρ → Token → Verdict (Verdict (Turn ρ α)))
    (place : Declaration → ρ) (nested : Bool) : Prop where
  settle_enter : ∀ decl t, settle step (place (decl.enter d t)) t = settle step (place decl) t
  settle_more : ∀ decl decl' t, (nested = true → decl.branchPlace? d t = none) →
    Declaration.Moves d t decl (.more decl') →
    settle step (place decl) t = pure (.more (place decl'))

namespace Carries

variable {step : ρ → Token → Verdict (Verdict (Turn ρ α))} {place : Declaration → ρ}
  {nested : Bool} {owner : Header} {depth : Nat} {text rest : List Token} {is : List Issue}
  {turn : Turn ρ α}

/-- A group in braces is read at any depth if what is in it is, one deeper. -/
theorem reads_braces {left right : Token} (h : Carries d step place nested)
    (hb : d.balancedBodyBraces = true) (hl : left.kind = .openBrace)
    (hright : right.kind = .closeBrace)
    (hinner : Reads step (place (.inside owner (depth + 1))) (right :: rest) is turn →
      Reads step (place (.inside owner (depth + 1))) (text ++ right :: rest) is turn)
    (hr : Reads step (place (.inside owner depth)) rest is turn) :
    Reads step (place (.inside owner depth)) (left :: (text ++ right :: rest)) is turn := by
  have hleave := h.settle_more (.inside owner (depth + 1)) _ right
    (fun _ => Declaration.branchPlace?_inside_succ owner depth) (.leave hright)
  have hdeepen := h.settle_more (.inside owner depth) _ left
    (fun _ => Declaration.branchPlace?_of_ne (by simp [hl])) (.deepen hb hl)
  exact .cons hdeepen (hinner (.cons hleave hr))

theorem reads_filler (h : Carries d step place nested) (hf : Filler d text)
    (hd : nested = true → depth ≠ 0)
    (hr : Reads step (place (.inside owner depth)) rest is turn) :
    Reads step (place (.inside owner depth)) (text ++ rest) is turn := by
  induction hf generalizing depth rest with
  | nil => exact hr
  | @token t _ ht _ ih =>
    refine .cons (h.settle_more _ _ _ ?_ (.filler ht)) (ih hd hr)
    intro hn
    obtain ⟨depth, rfl⟩ := Nat.exists_eq_succ_of_ne_zero (hd hn)
    exact Declaration.branchPlace?_inside_succ owner depth
  | group hb hl hright _ _ ihi ih =>
    simpa using h.reads_braces hb hl hright (ihi fun _ => Nat.succ_ne_zero depth) (ih hd hr)

theorem reads_token {t : Token} (h : Carries d step place nested) (ht : t.IsFiller d)
    (hn : t.kind ≠ .keyword .branch)
    (hr : Reads step (place (.inside owner 0)) rest is turn) :
    Reads step (place (.inside owner 0)) (t :: rest) is turn :=
  .cons (h.settle_more _ _ _ (fun _ => Declaration.branchPlace?_of_ne hn) (.filler ht)) hr

theorem reads_group {left right : Token} (h : Carries d step place nested)
    (hb : d.balancedBodyBraces = true) (hl : left.kind = .openBrace)
    (hright : right.kind = .closeBrace) (hf : Filler d text)
    (hr : Reads step (place (.inside owner 0)) rest is turn) :
    Reads step (place (.inside owner 0)) (left :: (text ++ right :: rest)) is turn :=
  h.reads_braces hb hl hright (h.reads_filler hf fun _ => Nat.one_ne_zero) hr

/-- The name and the opening of a declaration lead to its body. -/
theorem reads_header {keyword : Keyword} {span : Span} {name : Token} {opening body : List Token}
    (h : Carries d step place nested) (hn : name.kind = .ident) (ho : Opening d opening body)
    (hb : body ≠ [])
    (hr : Reads step (place (.inside ⟨keyword, span, name.value⟩ 0)) body is turn) :
    Reads step (place (.opened keyword span)) (name :: (opening ++ body)) is turn := by
  have hname := h.settle_more (.opened keyword span) _ name
    (fun _ => Declaration.branchPlace?_of_ne (by simp [hn])) (.name hn)
  apply Reads.cons hname
  cases ho with
  | brace hl =>
    exact .cons (h.settle_more _ _ _ (fun _ => Declaration.branchPlace?_of_ne (by simp [hl]))
      (.brace hl)) hr
  | missing hopt hhead =>
    obtain ⟨t, body, rfl⟩ := List.exists_cons_of_ne_nil hb
    have hk : t.kind ≠ .openBrace := hhead t rfl
    have he : (Declaration.named ⟨keyword, span, name.value⟩).enter d t =
        .inside ⟨keyword, span, name.value⟩ 0 := by
      simp [Declaration.enter, hopt, hk]
    apply hr.congr_state
    rw [← he, h.settle_enter]

end Carries

namespace LoneAuthor

theorem carries : Carries d (step d) reading true where
  settle_enter decl t := by
    simp only [settle, step, Declaration.branchPlace?_enter, Declaration.step_enter]
  settle_more decl decl' t hb hm :=
    settle_eq_ok_iff.2 ⟨rfl, .decl (hb rfl) (by rwa [Declaration.enter_of_moves hm])⟩

theorem reads_content {owner : Header} {text rest : List Token} {branches : List Branch}
    {is : List Issue} {turn : Turn LoneAuthor Author} (h : AuthorContent d false text branches)
    (hr : Reads (step d) (reading (.inside owner 0)) rest is turn) :
    Reads (step d) (reading (.inside owner 0)) (text ++ rest) is turn := by
  induction h with
  | nil => exact hr
  | token ht hn _ ih => exact carries.reads_token ht hn ih
  | group hb hl hright hi _ ih => simpa using carries.reads_group hb hl hright hi ih
  | branch hs => cases hs

/-- A derivable author outside of scenes is read to its end, without an issue. -/
theorem reads_of_form {text : List Token} {a : Author} (h : LoneAuthorForm d text a) :
    ∃ keyword rest, text = keyword :: rest ∧ keyword.kind = .keyword .author ∧
      Reads (step d) (start keyword.span) rest [] (.done a) := by
  obtain @⟨keyword, name, right, opening, content, _, span, hk, hn, hright, ho, hc, hu⟩ := h
  have hne : right.kind ≠ .keyword .branch := by simp [hright]
  refine ⟨keyword, _, rfl, hk, carries.reads_header hn ho (by simp) ?_⟩
  refine reads_content hc (.done (settle_eq_ok_iff.2 ⟨rfl, ?_⟩))
  exact @Moves.close d right (.inside ⟨.author, keyword.span, name.value⟩ 0)
    ⟨.author, keyword.span, name.value⟩ right.span span (Declaration.branchPlace?_of_ne hne)
    (.close hright) hu

end LoneAuthor

namespace SceneDraft

/-- The issues with the events in a scene that has been read in part. -/
def issues (s : SceneDraft) : List SceneEvent → List Issue
  | [] => []
  | .skipped t :: rest => .skipped t s.header.id :: s.issues rest
  | .declared b :: rest => (s.addBranch b).issues ++ (s.extend [] [b]).issues rest

variable (s : SceneDraft)

/-- Authors do not matter to the issues. -/
@[simp] theorem issues_extend (authors : List Author) (branches : List Branch)
    (events : List SceneEvent) :
    (s.extend authors branches).issues events = (s.extend [] branches).issues events := by
  induction events generalizing s authors branches with
  | nil => rfl
  | cons event events ih =>
    cases event with
    | skipped t => simp only [issues, header_extend, ih s authors branches]
    | declared b =>
      have hadd : ((s.extend authors branches).addBranch b).issues =
          ((s.extend [] branches).addBranch b).issues := by
        simp only [addBranch, extend]
        split <;> rfl
      simp only [issues, hadd, extend_extend, ih s (authors ++ []), ih s ([] ++ [])]

theorem issues_append (events later : List SceneEvent) :
    s.issues (events ++ later) =
      s.issues events ++ (s.extend [] (SceneEvent.branches events)).issues later := by
  induction events generalizing s with
  | nil => simp [issues]
  | cons event events ih =>
    cases event with
    | skipped t => simp [issues, ih]
    | declared b => simp [issues, ih]

theorem addBranch_eq (b : Branch) :
    s.addBranch b = ⟨(s.addBranch b).issues, .ok (s.extend [] [b])⟩ := by
  obtain ⟨is, h⟩ := s.exists_addBranch_eq b
  rw [h]

/-- What takes the place of what is known from the branches that were declared before. -/
theorem issues_addBranch_extend_start (header : Header) (authors : List Author)
    (before : List Branch) (b : Branch) :
    (((start header).extend authors before).addBranch b).issues =
      SceneEvent.redefinition header.id before b := by
  have hfind : ((start header).extend authors before).branches.find? b.id =
      before.reverse.find? (·.id = b.id) :=
    (Registry.find?_foldl_put .empty b.id before).trans Option.or_none
  rw [addBranch, hfind, SceneEvent.redefinition]
  cases before.reverse.find? (·.id = b.id) <;> rfl

/-- The issues with a scene from its start on are the warnings that its record tells. -/
theorem issues_extend_start (header : Header) (before : List Branch) (events : List SceneEvent) :
    ((start header).extend [] before).issues events =
      SceneEvent.issuesAfter header.id before events := by
  induction events generalizing before with
  | nil => rfl
  | cons event events ih =>
    cases event with
    | skipped t =>
      simp only [issues, SceneEvent.issuesAfter, ih]
      rfl
    | declared b =>
      simp only [issues, SceneEvent.issuesAfter, issues_addBranch_extend_start, extend_extend,
        List.append_nil, ih]

end SceneDraft

namespace OpenScene

variable {s : SceneDraft} {text : List Token}

theorem carries_author (s : SceneDraft) :
    Carries d (step d) (fun decl => inside s (.author decl)) true where
  settle_enter decl t := by
    simp only [settle, step, stepAuthor, Declaration.branchPlace?_enter, Declaration.step_enter]
  settle_more decl decl' t hb hm :=
    settle_eq_ok_iff.2 (.inAuthor (hb rfl) (by rwa [Declaration.enter_of_moves hm]))

theorem carries_branch (s : SceneDraft) (host : Option Header) :
    Carries d (step d) (fun decl => inside s (.branch host decl)) false where
  settle_enter decl t := by
    simp only [settle, step, stepBranch, Declaration.step_enter]
  settle_more decl decl' t _ hm :=
    settle_eq_ok_iff.2 (.inBranch (by rwa [Declaration.enter_of_moves hm]))

/-- A branch may begin wherever one may end. -/
theorem settle_behindBranch {t : Token} (host : Option Header) (ht : t.kind = .keyword .branch) :
    settle (step d) (inside s (.behindBranch host)) t =
      pure (.more (inside s (.branch host (.opened .branch t.span)))) := by
  cases host with
  | none => exact settle_eq_ok_iff.2 (.branch ht)
  | some host =>
    exact settle_eq_ok_iff.2 (.nested (Declaration.branchPlace?_eq_some_iff.2 ⟨rfl, ht⟩))

theorem reads_branchForm {b : Branch} {s' : SceneDraft} {is : List Issue} (host : Option Header)
    (h : BranchForm d text b) (ha : s.addBranch b = ⟨is, .ok s'⟩) :
    Reads (step d) (inside s (.behindBranch host)) text is
      (.more (inside s' (.behindBranch host))) := by
  obtain @⟨keyword, name, right, opening, content, span, hk, hn, hright, ho, hc, hu⟩ := h
  apply Reads.cons (settle_behindBranch host hk)
  apply (carries_branch s host).reads_header hn ho (by simp)
  refine (carries_branch s host).reads_filler hc (by simp) (.single (settle_eq_ok_iff.2 ?_))
  exact .branchEnd (.close hright) hu ha

/-- The body of an author raises no issue but for the branches in it. -/
theorem reads_authorContent {owner : Header} {branches : List Branch}
    (h : AuthorContent d true text branches) :
    Reads (step d) (inside s (.author (.inside owner 0))) text (s.issues (branches.map .declared))
      (.more (inside (s.extend [] branches) (.author (.inside owner 0)))) := by
  induction h generalizing s with
  | nil => simpa [SceneDraft.issues] using Reads.nil _
  | token ht hn _ ih => exact (carries_author s).reads_token ht hn ih
  | group hb hl hright hi _ ih => simpa using (carries_author s).reads_group hb hl hright hi ih
  | @branch _ _ b branches _ hb _ ih =>
    have happend := (reads_branchForm (some owner) hb (s.addBranch_eq b)).append ih
    simpa [Place.behindBranch, SceneDraft.issues] using happend

theorem reads_authorForm {a : Author} {branches : List Branch}
    (h : AuthorForm d true text a branches) :
    Reads (step d) (inside s .items) text (s.issues (branches.map .declared))
      (.more (inside (s.extend [a] branches) .items)) := by
  obtain @⟨keyword, name, right, opening, content, branches, span, hk, hn, hright, ho, hc, hu⟩ := h
  have hne : right.kind ≠ .keyword .branch := by simp [hright]
  have hr := @reads_authorContent d s content ⟨.author, keyword.span, name.value⟩ _ hc
  have hend := @Moves.authorEnd d right (s.extend [] branches)
    (.inside ⟨.author, keyword.span, name.value⟩ 0) ⟨.author, keyword.span, name.value⟩ right.span
    span (Declaration.branchPlace?_of_ne hne) (.close hright) hu
  have hbody := hr.append (.single (settle_eq_ok_iff.2 hend))
  refine .cons (settle_eq_ok_iff.2 (.author hk)) ?_
  apply (carries_author s).reads_header hn ho (by simp)
  simpa [SceneDraft.addAuthor_eq_extend] using hbody

theorem reads_sceneLog {authors : List Author} {events : List SceneEvent}
    (h : SceneLog d text authors events) :
    Reads (step d) (inside s .items) text (s.issues events)
      (.more (inside (s.extend authors (SceneEvent.branches events)) .items)) := by
  induction h generalizing s with
  | nil => simpa [SceneDraft.issues] using Reads.nil _
  | @author _ _ a inner _ _ ha _ ih =>
    simpa [SceneDraft.issues_append] using (reads_authorForm ha).append ih
  | @branch _ _ b _ _ hb _ ih =>
    have happend := (reads_branchForm none hb (s.addBranch_eq b)).append ih
    simpa [Place.behindBranch, SceneDraft.issues] using happend
  | stray hl hs _ ih => exact .more (settle_eq_ok_iff.2 (.stray hl hs)) ih

/-- A derivable scene is read to its end, with the warnings that its record tells. -/
theorem reads_of_record {r : SceneRecord} (h : r.Form d text) :
    ∃ keyword rest, text = keyword :: rest ∧ keyword.kind = .keyword .scene ∧
      Reads (step d) (.opened keyword.span) rest r.issues (.done r.scene) := by
  obtain @⟨keyword, name, left, right, content, authors, events, span, hk, hn, hl, hright, hlog,
    hu⟩ := h
  have hr := @reads_sceneLog d (.start ⟨.scene, keyword.span, name.value⟩) _ _ _ hlog
  have hend : Moves d right (inside (.extend (.start ⟨.scene, keyword.span, name.value⟩) authors
      (SceneEvent.branches events)) .items) []
      (.done (.ofDeclarations name.value span authors (SceneEvent.branches events))) := by
    have hclose := @Moves.close d right
      (.extend (.start ⟨.scene, keyword.span, name.value⟩) authors (SceneEvent.branches events))
      span hright hu
    rwa [SceneDraft.close_extend_start] at hclose
  have hscene := hr.append (.done (settle_eq_ok_iff.2 hend))
  rw [← SceneDraft.extend_nil (.start _), SceneDraft.issues_extend_start, List.append_nil]
    at hscene
  refine ⟨keyword, _, rfl, hk, .cons (settle_eq_ok_iff.2 (.name hn)) ?_⟩
  exact .cons (settle_eq_ok_iff.2 (.brace hl)) hscene

theorem reads_of_form {scene : Scene} (h : SceneForm d text scene) :
    ∃ keyword rest is, text = keyword :: rest ∧ keyword.kind = .keyword .scene ∧
      Reads (step d) (.opened keyword.span) rest is (.done scene) := by
  obtain ⟨r, hr, rfl⟩ := h.exists_record
  obtain ⟨keyword, rest, htext, hk, hreads⟩ := reads_of_record hr
  exact ⟨keyword, rest, _, htext, hk, hreads⟩

end OpenScene

/-- The scenes and authors of a derivable document are read to their ends, with the warnings that
the records of the scenes tell. -/
theorem documentReads_of_log {text : List Token} {records : List SceneRecord}
    {authors : List Author} (h : DocumentLog d text records authors) :
    DocumentReads d text (records.flatMap SceneRecord.issues) (records.map SceneRecord.scene)
      authors := by
  induction h with
  | nil => exact .nil
  | scene hr _ ih =>
    obtain ⟨keyword, rest, rfl, hk, hreads⟩ := OpenScene.reads_of_record hr
    exact .scene hk hreads ih
  | author ha _ ih =>
    obtain ⟨keyword, rest, rfl, hk, hreads⟩ := LoneAuthor.reads_of_form ha
    exact .author hk hreads ih

theorem documentReads_of_content {text : List Token} {scenes : List Scene} {authors : List Author}
    (h : DocumentContent d text scenes authors) :
    ∃ is, DocumentReads d text is scenes authors := by
  obtain ⟨records, hlog, rfl⟩ := h.exists_log
  exact ⟨_, documentReads_of_log hlog⟩

end Scenario
