import Scenario.Proofs.Coupling.Steps
import Scenario.Proofs.Equality
import Scenario.Proofs.Lexing.Joining
import Scenario.Proofs.Passing
import Scenario.Proofs.Scenes.Sameness
import Scenario.Proofs.Shifting
import Scenario.Proofs.Sources

/-!
# Documents one after the other

A document may be continued after a line feed with another one. The parse of the whole is then
made of the parses of the two: the first is read as before, nothing of it is pending at the line
feed, and the run over the second is coupled with the one over the second alone.

The authors of each document are broadcast to the scenes of both. Up to `==` this is what
broadcasting once more makes of the two documents.

Main statement: `Target.parse_document_append`.
-/

namespace Scenario

namespace Document

/-- Broadcasting the authors of two documents to the scenes of both comes to the same if each of
them has been broadcast before. -/
theorem beq_broadcast_append {R : Span → Span → Prop} {document own : Document} (before : Document)
    (h : document.Coupled R own) :
    ((before.append own).broadcast == (before.broadcast.append document.broadcast).broadcast) =
      true := by
  have hids : document.authors.map Author.id = own.authors.map Author.id :=
    map_eq_map_of_forall₂ (fun _ _ ha => ha.id_eq) h.authors
  have hscene : ∀ (s t : Scene) (first : List Author), t.sense = s.sense →
      (∀ id, id ∈ first.map Author.id → id ∈ (before.authors ++ own.authors).map Author.id) →
      (t.addAuthors (before.authors ++ own.authors)).sense =
        ((s.addAuthors first).addAuthors (before.authors ++ document.authors)).sense := by
    intro s t first hst hfirst
    rw [← Scene.addAuthors_append]
    apply Scene.sense_addAuthors_congr hst
    intro id
    have hsub := hfirst id
    simp only [List.map_append, List.mem_append, hids] at hsub ⊢
    constructor
    · exact .inr
    · rintro (hid | hid)
      · exact hsub hid
      · exact hid
  rw [Document.beq_iff]
  simp only [sense, broadcast, append, List.map_append, List.map_map, Prod.mk.injEq, hids, and_true]
  congr 1
  · apply List.map_congr_left
    intro s _
    exact hscene s s before.authors rfl (by simp; grind)
  · symm
    refine map_eq_map_of_forall₂ (fun s t hst => ?_) h.scenes
    exact (hscene s t document.authors hst.sense_eq.symm (by rw [hids]; simp; grind)).symm

end Document

namespace OpenDocument

variable {d : Dialect}

/-- Where the last token stood does not matter between two declarations. -/
theorem run_items_congr {last last' : Span} (hl : last.Fits) (hl' : last'.Fits)
    (document : Document) (items : List Item) :
    (machine d).run ⟨last, pure (.items document)⟩ items =
      (machine d).run ⟨last', pure (.items document)⟩ items := by
  induction items with
  | nil =>
    simp only [Machine.run, Machine.close, Span.shrinkToEnd_of_fits hl,
      Span.shrinkToEnd_of_fits hl', Verdict.ofExcept_ok, pure_bind]
    rfl
  | cons item rest ih =>
    cases item with
    | error e => rfl
    | fault f => rfl
    | token t =>
      by_cases hc : t.kind = .comment
      · simpa only [Machine.run_comment hc] using ih
      by_cases he : t.kind = .eof
      · rw [Machine.run_eof he, Machine.run_eof he]
      · rw [Machine.run_plain ⟨hc, he⟩, Machine.run_plain ⟨hc, he⟩]

end OpenDocument

namespace Target

variable {target : Target} {d : Dialect} {extent : Extent} {base : Nat} {source : String}

/-- The run over a document that is continued goes through the first document and then, coupled with
the run over the second one, through that. -/
theorem read_document_append {a b : String} {k : Nat} {left : Parsed Document}
    (hk : k = byteLength a.toList + 1)
    (hf : base + k + byteLength b.toList ≤ positionLimit)
    (ha : Target.document.parse d extent a base = .ok (.ok left)) :
    ∃ (issues : List Issue) (before : Document) (w : Verdict Document),
      left.warnings = issues.map Issue.diagnostic ∧ left.value = before.broadcast ∧
      Target.document.read d extent base (Lexer.ofString (a ++ "\n" ++ b) base d).items =
        ⟨issues ++ w.issues, w.result⟩ ∧
      (Target.document.read d extent base (Lexer.ofString b base d).items).Coupled (Span.Shifted k)
        (fun value value' => ∃ document document',
          Document.CoupledBehind (Span.Shifted k) before document document' ∧
            value = document.broadcast ∧ value' = document'.broadcast) w := by
  obtain ⟨document, warnings⟩ := left
  obtain ⟨tiles, ht⟩ := exists_tiling base a.toList
  obtain ⟨tokens, issues, scenes, authors, hi, hd, rfl, rfl⟩ :=
    (parse_document_iff ht (by omega)).1 ha
  have hplain := ht.plain_of_items (by omega) hi
  have hleft : (Lexer.ofString a base d).items = tokens.map .token :=
    (ht.items_ofText (by omega) d).trans hi
  have hstart : (⟨base, 0⟩ : Span).Fits := by
    unfold Span.Fits
    dsimp only
    omega
  have hbehind : (⟨base + k, 0⟩ : Span).Fits := Nat.le_trans (Nat.le_add_right _ _) hf
  have hlast : (Token.lastSpan ⟨base, 0⟩ tokens).Fits :=
    Token.fits_lastSpan hstart fun t h => (hplain t h).2
  have hpass := @OpenDocument.pass_of_reads d ⟨base, 0⟩ .empty _ _ _ _
    (fun t h => (hplain t h).1) hd
  subst hk
  refine ⟨issues, ⟨scenes, authors⟩, (OpenDocument.machine d).run
    ⟨Token.lastSpan ⟨base, 0⟩ tokens, pure (.items ⟨scenes, authors⟩)⟩
    (Lexer.ofString b (base + (byteLength a.toList + 1)) d).items, rfl, rfl, ?_, ?_⟩
  · rw [Lexer.items_join hf hleft]
    exact Machine.run_append_of_pass hpass
  · rw [OpenDocument.run_items_congr hlast hbehind]
    have hR := Span.coupling_shifted (byteLength a.toList + 1)
    refine (OpenDocument.respects_machine hR ⟨scenes, authors⟩).run hR ⟨?_, ?_⟩
      (Lexer.coupled_items_shift d hf)
    · exact ⟨hstart, hbehind, rfl⟩
    · exact Verdict.coupled_pure (.items (Document.coupledBehind_empty _))

/-- A document followed by another source parses exactly if the source does, and gives the parts and
the warnings of the two, those of the source moved behind the document. Up to `==`, this is what
broadcasting the authors makes of the two documents that are read alone. -/
theorem parse_document_append {a b : String} {k : Nat} {left : Parsed Document}
    (hk : k = byteLength a.toList + 1)
    (hf : base + k + byteLength b.toList ≤ positionLimit)
    (ha : Target.document.parse d extent a base = .ok (.ok left)) :
    (∀ right, Target.document.parse d extent b base = .ok (.ok right) →
      ∃ whole, Target.document.parse d extent (a ++ "\n" ++ b) base = .ok (.ok whole) ∧
        whole.value.authors = left.value.authors ++ right.value.authors.map (Author.shift k) ∧
        whole.value.scenes.map (fun s => (s.id, s.span, s.branches)) =
          left.value.scenes.map (fun s => (s.id, s.span, s.branches)) ++
            right.value.scenes.map
              (fun s => (s.id, s.span.shift k, s.branches.map (Branch.shift k))) ∧
        (whole.value == (left.value.append right.value).broadcast) = true ∧
        whole.warnings = left.warnings ++ right.warnings.map (Diagnostic.shift k)) ∧
    ∀ diagnostics, Target.document.parse d extent b base = .ok (.error diagnostics) →
      Target.document.parse d extent (a ++ "\n" ++ b) base =
        .ok (.error (left.warnings ++ diagnostics.map (Diagnostic.shift k))) := by
  have hbytes : base + byteLength (a ++ "\n" ++ b).toList ≤ positionLimit := by
    have htext : (a ++ "\n" ++ b).toList = a.toList ++ '\n' :: b.toList := by simp
    have hbreak : Char.utf8Size '\n' = 1 := rfl
    rw [htext, byteLength_append, byteLength_cons]
    omega
  obtain ⟨issues, before, w, hwarnings, hvalue, hread, hw⟩ := read_document_append hk hf ha
  constructor
  · rintro ⟨document, warnings⟩ hb
    obtain ⟨js, hr, rfl⟩ := (parse_eq_ok_iff (by omega)).1 hb
    rw [hr] at hw
    cases hw with
    | @ok _ js' _ value' hi hv =>
      obtain ⟨document, _, ⟨own, hown, rfl⟩, rfl, rfl⟩ := hv
      refine ⟨⟨(before.append own).broadcast, (issues ++ js').map Issue.diagnostic⟩,
        (parse_eq_ok_iff hbytes).2 ⟨_, hread, rfl⟩, ?_, ?_, ?_, ?_⟩
      · have hauthors := eq_map_of_forall₂ (fun _ _ h => h.eq_shift) hown.authors
        rw [hvalue]
        exact congrArg (before.authors ++ ·) hauthors
      · have hscenes : document.scenes.map
            (fun s => (s.id, s.span.shift k, s.branches.map (Branch.shift k))) =
              own.scenes.map fun s => (s.id, s.span, s.branches) :=
          map_eq_map_of_forall₂ (fun _ _ h => h.outline_eq) hown.scenes
        simp only [hvalue, Document.broadcast, Document.append, List.map_append, List.map_map,
          Function.comp_def, Scene.id_addAuthors, Scene.span_addAuthors, Scene.branches_addAuthors,
          hscenes]
      · rw [hvalue]
        exact Document.beq_broadcast_append before hown
      · rw [hwarnings, List.map_append, Issue.diagnostics_eq_shift hi]
  · intro diagnostics hb
    obtain ⟨js, hr, rfl⟩ := (parse_eq_rejected_iff (by omega)).1 hb
    rw [hr] at hw
    cases hw with
    | @error _ js' stop hi =>
      refine (parse_eq_rejected_iff hbytes).2 ⟨_, hread, ?_⟩
      rw [hwarnings, List.map_append, Issue.diagnostics_eq_shift hi]

/-- A scene with a comment behind it, which the line feed ends, followed by an author, and followed
by a literal without an end. -/
theorem parse_document_append_comment :
    let a := "scene s \x7b \x7d #"
    let b := "author b \x7b \x7d"
    (14 = byteLength a.toList + 1 ∧ 3 + 14 + byteLength b.toList ≤ positionLimit) ∧
    (∃ whole, Target.document.parse .strict .whole (a ++ "\n" ++ b) 3 = .ok (.ok whole) ∧
      whole.value.authors = [⟨"b", ⟨17, 12⟩⟩] ∧
      whole.value.scenes.map (fun s => (s.id, s.span, s.branches)) = [("s", ⟨3, 11⟩, .empty)]) ∧
    Target.document.parse .strict .whole (a ++ "\n" ++ "\"") 3 =
      .ok (.error [⟨.error, .malformed, "unterminated string literal", some ⟨⟨17, 1⟩, []⟩⟩]) := by
  intro a b
  have hk : 14 = byteLength a.toList + 1 := by decide
  have hf : 3 + 14 + byteLength b.toList ≤ positionLimit := by decide
  have ha : Target.document.parse .strict .whole "scene s \x7b \x7d #" 3 =
      .ok (.ok ⟨⟨[⟨"s", ⟨3, 11⟩, .empty, .empty⟩], []⟩, []⟩) := by with_unfolding_all rfl
  have hb : Target.document.parse .strict .whole "author b \x7b \x7d" 3 =
      .ok (.ok ⟨⟨[], [⟨"b", ⟨3, 12⟩⟩]⟩, []⟩) := by with_unfolding_all rfl
  have hbroken : Target.document.parse .strict .whole "\"" 3 =
      .ok (.error [⟨.error, .malformed, "unterminated string literal", some ⟨⟨3, 1⟩, []⟩⟩]) := by
    with_unfolding_all rfl
  refine ⟨⟨hk, hf⟩, ?_, (parse_document_append hk (by decide) ha).2 _ hbroken⟩
  obtain ⟨whole, hwhole, hauthors, hscenes, -⟩ := (parse_document_append hk hf ha).1 _ hb
  exact ⟨whole, hwhole, hauthors, hscenes⟩

end Target
end Scenario
