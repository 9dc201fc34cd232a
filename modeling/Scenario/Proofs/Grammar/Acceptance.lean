import Scenario.Parser.Target
import Scenario.Proofs.Grammar.Completeness
import Scenario.Proofs.Grammar.Soundness

/-!
# Parsing and the grammar

Parsing a whole stream succeeds exactly if the contents of the stream are derivable, and its result
is then what the derivation makes of them. Since there is only one result, there is also only one
reading of derivable tokens.
-/

namespace Scenario
namespace Target

/-- The tokens are derivable as the target, with the given reading. -/
def Derives (d : Dialect) : (target : Target) → List Token → target.Node → Prop
  | document => DocumentForm d
  | scene => SceneForm d
  | author => LoneAuthorForm d

variable {d : Dialect} {target : Target}

theorem readsOn_machine : (target.machine d .whole).ReadsOn := by
  cases target with
  | document => exact OpenDocument.readsOn_machine
  | scene => exact Sole.readsOn_machine
  | author => exact Sole.readsOn_machine

/-- A target is accepted, whatever issues are raised on the way, exactly if it is derivable. -/
theorem exists_accepts_iff_derives {last : Span} {text : List Token} {value : target.Node}
    (hl : last.Fits) (ht : ∀ t ∈ text, t.IsPlain ∧ t.span.Fits) :
    (∃ issues, (target.machine d .whole).Accepts last (target.machine d .whole).start
      (text.map .token) issues value) ↔ target.Derives d text value := by
  cases target with
  | document =>
    constructor
    · rintro ⟨issues, h⟩
      obtain ⟨scenes, authors, hd, rfl⟩ := (OpenDocument.accepts_iff hl ht).1 h
      exact .intro (documentContent_of_reads hd)
    · rintro ⟨hc⟩
      obtain ⟨issues, hd⟩ := documentReads_of_content hc
      exact ⟨issues, (OpenDocument.accepts_iff hl ht).2 ⟨_, _, hd, rfl⟩⟩
  | scene =>
    constructor
    · rintro ⟨issues, h⟩
      obtain ⟨keyword, rest, rfl, hk, hr⟩ := (Sole.accepts_iff ht).1 h
      exact OpenScene.form_of_reads hk hr
    · intro h
      obtain ⟨keyword, rest, issues, rfl, hk, hr⟩ := OpenScene.reads_of_form h
      exact ⟨issues, (Sole.accepts_iff ht).2 ⟨keyword, rest, rfl, hk, hr⟩⟩
  | author =>
    constructor
    · rintro ⟨issues, h⟩
      obtain ⟨keyword, rest, rfl, hk, hr⟩ := (Sole.accepts_iff ht).1 h
      exact LoneAuthor.form_of_reads hk hr
    · intro h
      obtain ⟨keyword, rest, rfl, hk, hr⟩ := LoneAuthor.reads_of_form h
      exact ⟨[], (Sole.accepts_iff ht).2 ⟨keyword, rest, rfl, hk, hr⟩⟩

/-- Parsing is running the machine on the contents of the stream. -/
theorem read_eq_ok_iff {base : Nat} {items : List Item} {issues : List Issue}
    {value : target.Node} (hb : base ≤ positionLimit)
    (hi : ∀ t, Item.token t ∈ items → t.span.Fits) :
    target.read d .whole base items = ⟨issues, .ok value⟩ ↔
      ∃ text, Item.contents items = some text ∧
        (target.machine d .whole).Accepts ⟨base, 0⟩ (target.machine d .whole).start
          (text.map .token) issues value := by
  have hl : (⟨base, 0⟩ : Span).Fits := hb
  exact readsOn_machine.accepts_iff_contents hl hi

/-- Parsing succeeds exactly on derivable tokens, with the reading of the derivation. In it, a scene
holds the first author and the last branch of each id, and the authors of a document come behind
those of each scene. -/
theorem read_whole_iff_derives {base : Nat} {items : List Item} (hb : base ≤ positionLimit)
    (hi : ∀ t, Item.token t ∈ items → t.span.Fits) :
    (∀ value, (target.read d .whole base items).result = .ok value ↔
      ∃ text, Item.contents items = some text ∧ target.Derives d text value) ∧
    (∀ id span authors branches,
      (Scene.ofDeclarations id span authors branches).Holds id span authors branches) ∧
    (∀ (s : Scene) id span authors branches more, s.Holds id span authors branches →
      (s.addAuthors more).Holds id span (authors ++ more) branches) := by
  refine ⟨fun value => ?_, Scene.holds_ofDeclarations, fun s _ _ _ _ more h => h.addAuthors more⟩
  have hl : (⟨base, 0⟩ : Span).Fits := hb
  have hplain : ∀ text, Item.contents items = some text → ∀ t ∈ text, t.IsPlain ∧ t.span.Fits := by
    intro text hc t hmem
    obtain ⟨hitem, hp⟩ := Item.mem_of_contents hc t hmem
    exact ⟨hp, hi t hitem⟩
  rw [Verdict.result_eq_ok_iff]
  constructor
  · rintro ⟨issues, h⟩
    obtain ⟨text, hc, ha⟩ := (read_eq_ok_iff hb hi).1 h
    exact ⟨text, hc, (exists_accepts_iff_derives hl (hplain text hc)).1 ⟨issues, ha⟩⟩
  · rintro ⟨text, hc, hd⟩
    obtain ⟨issues, ha⟩ := (exists_accepts_iff_derives hl (hplain text hc)).2 hd
    exact ⟨issues, (read_eq_ok_iff hb hi).2 ⟨text, hc, ha⟩⟩

/-- The tokens of a scene, with a comment in it and further tokens behind its end. -/
theorem read_whole_iff_derives_scene :
    Target.scene.Derives .strict
      [⟨.keyword .scene, "scene", ⟨3, 5⟩⟩, ⟨.ident, "s", ⟨9, 1⟩⟩, ⟨.openBrace, "\x7b", ⟨11, 1⟩⟩,
        ⟨.closeBrace, "\x7d", ⟨16, 1⟩⟩]
      ⟨"s", ⟨3, 14⟩, .empty, .empty⟩ := by
  have h := (@read_whole_iff_derives .strict .scene 3
    [.token ⟨.keyword .scene, "scene", ⟨3, 5⟩⟩, .token ⟨.ident, "s", ⟨9, 1⟩⟩,
      .token ⟨.openBrace, "\x7b", ⟨11, 1⟩⟩, .token ⟨.comment, "a", ⟨12, 3⟩⟩,
      .token ⟨.closeBrace, "\x7d", ⟨16, 1⟩⟩, .token ⟨.eof, "", ⟨17, 0⟩⟩,
      .token ⟨.ident, "t", ⟨18, 1⟩⟩] (by decide) (by simp; decide)).1
    ⟨"s", ⟨3, 14⟩, .empty, .empty⟩
  obtain ⟨text, hc, hd⟩ := h.1 rfl
  cases hc
  exact hd

end Target
end Scenario
