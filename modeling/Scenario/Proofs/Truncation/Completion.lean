import Scenario.Proofs.Grammar.Completeness
import Scenario.Proofs.Outcome
import Scenario.Parser.Target

/-!
# Scripts that can be completed

A part of a script that has been read so far can be completed nearly always: its name and its brace
are supplied if they are missing, and all open braces are closed. The one part that no token helps
is an author outside of scenes in whose body a branch begins.

Main statement: `Target.completes_iff`.
-/

namespace Scenario

section Supplies

/-- A token that is put behind the end of the input. Where it stands does not matter. -/
def Token.supply (kind : Kind) (value : String) : Token := ⟨kind, value, ⟨0, 0⟩⟩

/-- Steps can be taken at the tokens, and their spans fit. -/
def Token.AllSound (text : List Token) : Prop := ∀ t ∈ text, t.IsPlain ∧ t.span.Fits

def Token.name : Token := supply .ident "x"

def Token.openBrace : Token := supply .openBrace "\x7b"

def Token.closeBrace : Token := supply .closeBrace "\x7d"

end Supplies

theorem Token.allSound_nil : AllSound [] := by
  unfold AllSound
  simp

theorem Token.AllSound.append {left right : List Token} (hl : AllSound left)
    (hr : AllSound right) : AllSound (left ++ right) :=
  List.forall_mem_append.2 ⟨hl, hr⟩

theorem Token.allSound_closeBrace : AllSound [closeBrace] := by
  unfold AllSound
  decide

/-- Further tokens lead to the end of the part. -/
def CanEnd {ρ α : Type} (step : ρ → Token → Verdict (Verdict (Turn ρ α))) (r : ρ) : Prop :=
  ∃ text is v, Token.AllSound text ∧ Reads step r text is (.done v)

variable {d : Dialect}

/-- A declaration is brought to the point where a brace closes it. -/
theorem Carries.exists_reads_body {ρ α : Type} {step : ρ → Token → Verdict (Verdict (Turn ρ α))}
    {place : Declaration → ρ} {nested : Bool} (h : Carries d step place nested)
    {decl : Declaration} (hd : decl.Spans Span.Fits) :
    ∃ text header, Token.AllSound text ∧ header.opened.Fits ∧
      Reads step (place decl) text [] (.more (place (.inside header 0))) := by
  have hbrace : ∀ header : Header,
      Reads step (place (.named header)) [.openBrace] [] (.more (place (.inside header 0))) := by
    intro header
    exact .single (h.settle_more _ _ _ (fun _ => Declaration.branchPlace?_of_ne (by decide))
      (.brace rfl))
  cases decl with
  | opened keyword span =>
    have hname := h.settle_more (.opened keyword span) _ .name
      (fun _ => Declaration.branchPlace?_of_ne (by decide)) (.name rfl)
    refine ⟨[.name, .openBrace], ⟨keyword, span, Token.name.value⟩, ?_, hd, .cons hname (hbrace _)⟩
    unfold Token.AllSound
    decide
  | named header =>
    refine ⟨[.openBrace], header, ?_, hd, hbrace header⟩
    unfold Token.AllSound
    decide
  | inside header depth =>
    induction depth with
    | zero => exact ⟨[], header, Token.allSound_nil, hd, .nil _⟩
    | succ depth ih =>
      obtain ⟨text, header', htext, hh, hr⟩ := ih hd
      have hleave := h.settle_more (.inside header (depth + 1)) _ .closeBrace
        (fun _ => Declaration.branchPlace?_inside_succ header depth) (.leave rfl)
      exact ⟨.closeBrace :: text, header', Token.allSound_closeBrace.append htext, hh,
        .cons hleave hr⟩

namespace LoneAuthor

/-- A branch has begun outside of scenes. -/
def IsStray : LoneAuthor → Prop
  | reading _ => False
  | stray _ _ => True

theorem canEnd_reading {decl : Declaration} (hd : decl.Spans Span.Fits) :
    CanEnd (step d) (reading decl) := by
  obtain ⟨text, header, htext, hh, hr⟩ := (@carries d).exists_reads_body hd
  obtain ⟨span, hu⟩ := Span.exists_union hh (by decide : Token.closeBrace.span.Fits)
  have hclose : Moves d .closeBrace (reading (.inside header 0)) (.done ⟨header.id, span⟩) :=
    .close (Declaration.branchPlace?_of_ne (by decide)) (.close rfl) hu
  have hdone := hr.append (.done (settle_eq_ok_iff.2 ⟨rfl, hclose⟩))
  exact ⟨text ++ [.closeBrace], _, _, htext.append Token.allSound_closeBrace, hdone⟩

/-- Nothing is read to its end in which a branch begins that belongs to no scene. -/
theorem not_reads_stray {author : Header} {opened : Span} {text : List Token} {is : List Issue}
    {a : Author} : ¬ Reads (step d) (stray author opened) text is (.done a) := by
  intro h
  cases h with
  | done hs => cases (settle_eq_ok_iff.1 hs).2
  | more hs _ => cases (settle_eq_ok_iff.1 hs).2

theorem canEnd_iff {a : LoneAuthor} (ha : a.Spans Span.Fits) :
    CanEnd (step d) a ↔ ¬ a.IsStray := by
  cases a with
  | reading decl => exact iff_of_true (canEnd_reading ha) not_false
  | stray author opened =>
    refine iff_of_false ?_ (not_not_intro trivial)
    rintro ⟨_, _, _, -, h⟩
    exact not_reads_stray h

end LoneAuthor

namespace OpenScene

variable {s : SceneDraft}

theorem reads_items_done (hs : s.header.opened.Fits) :
    ∃ scene, Reads (step d) (inside s .items) [.closeBrace] [] (.done scene) := by
  obtain ⟨span, hu⟩ := Span.exists_union hs (by decide : Token.closeBrace.span.Fits)
  exact ⟨s.close span, .done (settle_eq_ok_iff.2 (.close rfl hu))⟩

theorem canEnd_author {decl : Declaration} (hs : s.header.opened.Fits)
    (hd : decl.Spans Span.Fits) : CanEnd (step d) (inside s (.author decl)) := by
  obtain ⟨text, header, htext, hh, hr⟩ := (@carries_author d s).exists_reads_body hd
  obtain ⟨span, hu⟩ := Span.exists_union hh (by decide : Token.closeBrace.span.Fits)
  have hclose : Moves d .closeBrace (inside s (.author (.inside header 0))) []
      (.more (inside (s.addAuthor ⟨header.id, span⟩) .items)) :=
    .authorEnd (Declaration.branchPlace?_of_ne (by decide)) (.close rfl) hu
  have hauthor := hr.append (.single (settle_eq_ok_iff.2 hclose))
  obtain ⟨scene, hscene⟩ := @reads_items_done d (s.addAuthor ⟨header.id, span⟩) hs
  exact ⟨_, _, scene, (htext.append Token.allSound_closeBrace).append Token.allSound_closeBrace,
    hauthor.append hscene⟩

theorem canEnd_branch {host : Option Header} {decl : Declaration} (hs : s.header.opened.Fits)
    (hh : ∀ header ∈ host, header.opened.Fits) (hd : decl.Spans Span.Fits) :
    CanEnd (step d) (inside s (.branch host decl)) := by
  obtain ⟨text, header, htext, hheader, hr⟩ := (@carries_branch d s host).exists_reads_body hd
  obtain ⟨span, hu⟩ := Span.exists_union hheader (by decide : Token.closeBrace.span.Fits)
  obtain ⟨is, hadd⟩ := s.exists_addBranch_eq (.ofSpan header.id span)
  have hclose : Moves d .closeBrace (inside s (.branch host (.inside header 0))) is
      (.more (inside (s.extend [] [.ofSpan header.id span]) (.behindBranch host))) :=
    .branchEnd (.close rfl) hu hadd
  have hbranch := hr.append (.single (settle_eq_ok_iff.2 hclose))
  have htext' := htext.append Token.allSound_closeBrace
  cases host with
  | none =>
    obtain ⟨scene, hscene⟩ := @reads_items_done d (s.extend [] [.ofSpan header.id span]) hs
    exact ⟨_, _, scene, htext'.append Token.allSound_closeBrace, hbranch.append hscene⟩
  | some host =>
    -- Behind the branch, the author in whose body it stands is still open.
    obtain ⟨more, _, scene, hmore, hscene⟩ := @canEnd_author d
      (s.extend [] [.ofSpan header.id span]) (.inside host 0) hs (hh host rfl)
    exact ⟨_, _, scene, htext'.append hmore, hbranch.append hscene⟩

theorem canEnd_named {header : Header} (hh : header.opened.Fits) :
    CanEnd (step d) (named header) := by
  obtain ⟨scene, hscene⟩ := @reads_items_done d (.start header) hh
  refine ⟨[.openBrace, .closeBrace], _, scene, ?_, .cons (settle_eq_ok_iff.2 (.brace rfl)) hscene⟩
  unfold Token.AllSound
  decide

/-- A scene can be read to its end from wherever it has got to. -/
theorem canEnd {o : OpenScene} (ho : o.Spans Span.Fits) : CanEnd (step d) o := by
  match o with
  | opened span =>
    have hnamed : CanEnd (step d) (named ⟨.scene, span, Token.name.value⟩) := canEnd_named ho
    obtain ⟨text, is, scene, htext, hscene⟩ := hnamed
    have hname : Token.AllSound [Token.name] := by
      unfold Token.AllSound
      decide
    exact ⟨.name :: text, is, scene, hname.append htext,
      .cons (settle_eq_ok_iff.2 (.name rfl)) hscene⟩
  | named header => exact canEnd_named ho
  | inside s .items =>
    obtain ⟨scene, hscene⟩ := @reads_items_done d s ho
    exact ⟨_, _, scene, Token.allSound_closeBrace, hscene⟩
  | inside s (.author decl) => exact canEnd_author ho.1 ho.2
  | inside s (.branch host decl) => exact canEnd_branch ho.1 ho.2.1 ho.2.2

end OpenScene

namespace Machine

variable {σ α ρ β : Type} {m : Machine σ α} {step : ρ → Token → Verdict (Verdict (Turn ρ β))}
  {resume : Turn ρ β → σ}

/-- Further tokens lead from the state to a result. -/
def Completes (m : Machine σ α) (last : Span) (s : σ) : Prop :=
  ∃ text issues value, Token.AllSound text ∧ m.Accepts last s (text.map .token) issues value

theorem completes_of_finish {last : Span} {s : σ} {value : α} (hl : last.Fits)
    (hf : ∀ stop, m.finish s stop = pure value) : m.Completes last s :=
  ⟨[], [], value, Token.allSound_nil,
    accepts_nil_iff.2 ⟨_, Span.shrinkToEnd_of_fits hl, hf _⟩⟩

/-- A machine that may stop behind a part comes to a result exactly if the part does to its end. -/
theorem Hosts.completes_iff (h : m.Hosts step resume)
    (hend : ∀ v, ∃ value, ∀ stop, m.finish (resume (.done v)) stop = pure value)
    {last : Span} (hl : last.Fits) (r : ρ) :
    m.Completes last (resume (.more r)) ↔ CanEnd step r := by
  constructor
  · rintro ⟨text, issues, value, ht, ha⟩
    obtain ⟨left, right, is, js, v, rfl, -, hr, -⟩ :=
      h.exists_reads (fun t hmem => (ht t hmem).1) ha
    exact ⟨left, is, v, fun t hmem => ht t (List.mem_append_left right hmem), hr⟩
  · rintro ⟨text, is, v, ht, hr⟩
    obtain ⟨value, hvalue⟩ := hend v
    have hlast := Token.fits_lastSpan hl fun t hmem => (ht t hmem).2
    have hstop : m.Accepts (Token.lastSpan last text) (resume (.done v))
        (([] : List Token).map .token) [] value :=
      accepts_nil_iff.2 ⟨_, Span.shrinkToEnd_of_fits hlast, hvalue _⟩
    have happend := h.accepts_append (fun t hmem => (ht t hmem).1) hr hstop
    rw [List.append_nil] at happend
    exact ⟨text, _, value, ht, happend⟩

end Machine

namespace OpenDocument

/-- A branch has begun in an author of the document. -/
def IsStray : OpenDocument → Prop
  | author _ a => a.IsStray
  | _ => False

theorem completes_iff {last : Span} {o : OpenDocument} (hl : last.Fits) (ho : o.Spans Span.Fits) :
    (machine d).Completes last o ↔ ¬ o.IsStray := by
  have hitems : ∀ document, ∀ stop, (machine d).finish (items document) stop =
      pure document.broadcast := fun _ _ => rfl
  cases o with
  | items document => exact iff_of_true (Machine.completes_of_finish hl (hitems document)) not_false
  | author document a =>
    have hhost := (@hosts_author d document).completes_iff (fun _ => ⟨_, hitems _⟩) hl a
    exact hhost.trans (LoneAuthor.canEnd_iff ho)
  | scene document o =>
    have hhost := (@hosts_scene d document).completes_iff (fun _ => ⟨_, hitems _⟩) hl o
    exact iff_of_true (hhost.2 (OpenScene.canEnd ho)) not_false

end OpenDocument

namespace Sole

variable {ρ α : Type}

/-- The declaration is being read, and has `p`. -/
def Reading (p : ρ → Prop) : Sole ρ α → Prop
  | reading rest => p rest
  | _ => False

variable {keyword : Keyword} {first : Span → ρ}
  {step : ρ → Token → Verdict (Verdict (Turn ρ α))} {unfinished : ρ → Span → Issue} {last : Span}

theorem completes_reading_iff {r : ρ} (hl : last.Fits) :
    (machine keyword first step unfinished .whole).Completes last (reading r) ↔ CanEnd step r :=
  (hosts_machine .whole).completes_iff (fun v => ⟨v, fun _ => rfl⟩) hl r

theorem completes_complete (hl : last.Fits) (v : α) :
    (machine keyword first step unfinished .whole).Completes last (complete v) :=
  Machine.completes_of_finish hl fun _ => rfl

/-- A declaration can be supplied as a whole. -/
theorem completes_start (h : CanEnd step (first ⟨0, 0⟩)) :
    (machine keyword first step unfinished .whole).Completes last start := by
  obtain ⟨text, is, v, htext, hr⟩ := h
  have hkeyword : Token.AllSound [.supply (.keyword keyword) keyword.text] := by
    simp [Token.AllSound, Token.supply, Token.IsPlain, Span.Fits]
  have hall := hkeyword.append htext
  exact ⟨_, is, v, hall, (accepts_iff hall).2 ⟨_, text, rfl, rfl, hr⟩⟩

end Sole

namespace Target

/-- A branch has begun in an author outside of scenes. -/
def IsStray : (target : Target) → target.State → Prop
  | document => OpenDocument.IsStray
  | scene => fun _ => False
  | author => Sole.Reading LoneAuthor.IsStray

variable {target : Target} {last : Span} {s : target.State}

/-- Reading can come to a result from every state but those in a branch outside of scenes. -/
theorem completes_iff (hl : last.Fits) (hs : target.Spans Span.Fits s) :
    (target.machine d .whole).Completes last s ↔ ¬ target.IsStray s := by
  have hzero : (⟨0, 0⟩ : Span).Fits := by decide
  cases target with
  | document => exact OpenDocument.completes_iff hl hs
  | scene =>
    refine iff_of_true ?_ not_false
    cases s with
    | start => exact Sole.completes_start (OpenScene.canEnd hzero)
    | reading o => exact (Sole.completes_reading_iff hl).2 (OpenScene.canEnd hs)
    | complete v => exact Sole.completes_complete hl v
  | author =>
    cases s with
    | start => exact iff_of_true (Sole.completes_start (LoneAuthor.canEnd_reading hzero)) not_false
    | reading a => exact (Sole.completes_reading_iff hl).trans (LoneAuthor.canEnd_iff hs)
    | complete v => exact iff_of_true (Sole.completes_complete hl v) not_false

end Target
end Scenario
