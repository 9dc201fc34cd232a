import Mathlib.Algebra.Ring.Int.Defs
import Scenario.Proofs.Raising
import Scenario.Proofs.Trails.Rendering

/-!
# No number leaves its range

Positions, lines and columns are kept in 32 bits, and no number may go below zero. Here natural
numbers stand for all of them, so that a result is right only as long as no sum exceeds the limit
and no difference is cut off at zero. Both are proved of everything that parsing and rendering
compute from tokens whose spans fit.

The sums are those of spans: no run over such tokens ends with a fault. The differences are the
length of a union, the number of braces that are open in a body, and the widths in a picture. A
difference is exact if it is also one of integers.

Main statement: `Target.parse_safe`.
-/

namespace Scenario

/-- What a token does to the number of braces that are open in the body in which it stands. -/
def Token.braceChange (d : Dialect) (t : Token) : ℤ :=
  match t.kind with
  | .openBrace => if d.balancedBodyBraces then 1 else 0
  | .closeBrace => -1
  | _ => 0

namespace Declaration

variable {d : Dialect} {header : Header} {depth : Nat}

/-- In a body the count of open braces changes as it does in the integers, unless the token closes
the body, where no brace is open. -/
theorem step_inside (d : Dialect) (header : Header) (depth : Nat) (t : Token) :
    (∃ depth' : Nat, (inside header depth).step d t = pure (.more (inside header depth')) ∧
      (depth' : ℤ) = depth + t.braceChange d) ∨
    depth = 0 ∧ t.kind = .closeBrace ∧
      (inside header depth).step d t = pure (.done (header, t.span)) := by
  have henter : (inside header depth).enter d t = inside header depth := rfl
  simp only [step, henter, Token.braceChange]
  split
  · rename_i hk
    cases depth with
    | zero => exact .inr ⟨rfl, hk, rfl⟩
    | succ depth => exact .inl ⟨depth, rfl, by simp [hk]⟩
  · rename_i hk
    refine .inl ⟨_, rfl, ?_⟩
    cases d.balancedBodyBraces <;> simp [hk]
  · rename_i hclose hopen
    refine .inl ⟨depth, rfl, ?_⟩
    split
    · exact (hopen ‹_›).elim
    · exact (hclose ‹_›).elim
    · exact (add_zero _).symm

/-- The tokens are read in a declaration without closing it. -/
inductive Passes (d : Dialect) : Declaration → List Token → Declaration → Prop
  | nil (decl : Declaration) : Passes d decl [] decl
  | cons {decl next last : Declaration} {t : Token} {text : List Token} :
      decl.step d t = pure (.more next) → Passes d next text last → Passes d decl (t :: text) last

/-- The count of open braces is the number of those that have been opened less the number of those
that have been closed. -/
theorem Passes.exists_depth {decl : Declaration} {text : List Token}
    (h : Passes d (inside header depth) text decl) :
    ∃ depth' : Nat, decl = inside header depth' ∧
      (depth' : ℤ) = depth + (text.map (Token.braceChange d)).sum := by
  induction text generalizing depth with
  | nil =>
    cases h
    exact ⟨depth, rfl, by simp⟩
  | cons t text ih =>
    cases h with
    | cons hstep hrest =>
      rcases step_inside d header depth t with ⟨mid, hmid, hchange⟩ | ⟨-, -, hdone⟩
      · obtain ⟨-, hturn⟩ := Verdict.pure_eq_ok_iff.1 (hstep.symm.trans hmid)
        cases hturn
        obtain ⟨depth', rfl, hsum⟩ := ih hrest
        refine ⟨depth', rfl, ?_⟩
        rw [hsum, hchange, List.map_cons, List.sum_cons, add_assoc]
      · obtain ⟨-, hturn⟩ := Verdict.pure_eq_ok_iff.1 (hstep.symm.trans hdone)
        cases hturn

end Declaration

/-- The union of spans that fit is a span that fits, and its length is a difference of integers. -/
theorem Span.exists_union_exact {s t : Span} (hs : s.Fits) (ht : t.Fits) :
    ∃ u, s.union t = .ok u ∧ u.Fits ∧
      (u.len : ℤ) = max (s.base + s.len : ℤ) (t.base + t.len) - min (s.base : ℤ) t.base := by
  refine ⟨_, union_of_fits hs ht, Span.closed_fits.union _ _ _ hs ht (union_of_fits hs ht), ?_⟩
  dsimp only
  omega

namespace SourceMap

/-- The numbers from which a picture of the span is drawn are in their range, and the columns that
are subtracted are not above those that they are subtracted from. -/
def Draws (m : SourceMap) (s : Span) : Prop :=
  ∃ finish start last text, s.stop = .ok finish ∧ m.locate s.base = some start ∧
    m.locate finish = some last ∧ m.line start.line = some text ∧
    start.line ≤ positionLimit ∧ start.column ≤ positionLimit ∧
    last.line ≤ positionLimit ∧ last.column ≤ positionLimit ∧ text.length + 1 ≤ positionLimit ∧
    1 ≤ start.column ∧ (last.line = start.line → start.column ≤ last.column)

variable {base lo hi : Nat} {source : List Char} {s : Span}

theorem draws_of_standsIn (hf : base + byteLength source ≤ positionLimit)
    (hlt : byteLength source < positionLimit) (h : s.StandsIn (IsPlace base source) lo hi) :
    (ofText source base).Draws s := by
  obtain ⟨start, text, hstart, htext, hcolumn, hline, hle⟩ := exists_locate h.base_place
  obtain ⟨last, -, hlast, -, -, hline', hle'⟩ := exists_locate h.stop_place
  have hwidth := (line_ofText htext).2
  have hsize := length_le_byteLength source
  have horder := locate_le h.base_place h.stop_place (Nat.le_add_right _ _) hstart hlast
  exact ⟨_, start, last, text, Span.stop_of_fits (Nat.le_trans h.stop_place.le hf), hstart, hlast,
    htext, by omega, by omega, by omega, by omega, by omega, hcolumn, horder.2⟩

end SourceMap

namespace Target

/-- Parsing and rendering compute with numbers that are in their range.

Of a stream whose tokens have spans that fit, whatever else it holds, a parse comes to a result or a
rejection, and an error never asks for one of no kinds of token. Spans that fit are united exactly.
The count of braces that are open in a body never goes below zero: it is always what the tokens of
the body make of it.

A source that fits is parsed, and if it is shorter than the limit every diagnostic of it is
rendered, from lines and columns that are in range. -/
theorem parse_safe (target : Target) (d : Dialect) (extent : Extent) (base : Nat) :
    (∀ items, base ≤ positionLimit → (∀ t, Item.token t ∈ items → t.span.Fits) →
      (∀ f, Item.fault f ∉ items) →
      (∀ f, (target.read d extent base items).result ≠ .error (.fault f)) ∧
      ∀ kinds found, .expected kinds found ∈ (target.read d extent base items).issues →
        kinds ≠ []) ∧
    (∀ s t : Span, s.Fits → t.Fits → s.stop = .ok (s.base + s.len) ∧
      s.shrinkToEnd = .ok ⟨s.base + s.len, 0⟩ ∧ ∃ u, s.union t = .ok u ∧ u.Fits ∧
        (u.len : ℤ) = max (s.base + s.len : ℤ) (t.base + t.len) - min (s.base : ℤ) t.base) ∧
    (∀ header depth text decl, Declaration.Passes d (.inside header depth) text decl →
      ∃ depth' : Nat, decl = .inside header depth' ∧
        (depth' : ℤ) = depth + (text.map (Token.braceChange d)).sum) ∧
    (∀ source : String, base + byteLength source.toList ≤ positionLimit →
      ∃ outcome : target.Outcome, target.parse d extent source base = .ok outcome ∧
        (byteLength source.toList < positionLimit → ∀ x ∈ outcome.diagnostics,
          (∃ text, x.render (SourceMap.ofString source base) = .ok text) ∧
          ∃ spans, x.spans = some spans ∧ (SourceMap.ofString source base).Draws spans.main ∧
            ∀ remark ∈ spans.remarks, (SourceMap.ofString source base).Draws remark.span)) := by
  refine ⟨?_, ?_, fun _ _ _ _ h => h.exists_depth, ?_⟩
  · intro items hb ht hfault
    refine ⟨fun f hresult => ?_, fun kinds found hmem => ?_⟩
    · have hm := @meets_read _ d Span.closed_fits target extent base items hb
        (fun t h _ => ht t h) hfault
      unfold Verdict.Meets at hm
      rw [hresult] at hm
      exact hm
    · cases target.arises_of_mem_read d extent base items _ hmem with
      | expected _ hkinds => exact hkinds
  · exact fun s t hs ht => ⟨Span.stop_of_fits hs, Span.shrinkToEnd_of_fits hs,
      Span.exists_union_exact hs ht⟩
  · intro source hf
    obtain ⟨outcome, hp, hdiagnostics⟩ := target.exists_outcome d extent hf
    obtain ⟨stop, htrail⟩ := target.exists_trail_source d extent hf
    refine ⟨outcome, hp, fun hlt x hx => ?_⟩
    rw [hdiagnostics] at hx
    obtain ⟨i, hi, rfl⟩ := List.mem_map.1 hx
    obtain ⟨lo, hi, -, hpoints⟩ := htrail.of_mem hi
    obtain ⟨text, hrender, -⟩ := hpoints.exists_render hf
    obtain ⟨a, ha, hmain, hremarks⟩ := hpoints.exists_spans
    refine ⟨⟨text, hrender⟩, a, ha, SourceMap.draws_of_standsIn hf hlt hmain, ?_⟩
    exact fun remark hmem => SourceMap.draws_of_standsIn hf hlt (hremarks remark hmem)

/-- A scene whose tokens stand in no order, up to the limit, and one of which the source ends at the
limit, with a brace that is still open. -/
theorem parse_safe_scene :
    let items : List Item := [.token ⟨.keyword .scene, "scene", ⟨0xfffffffa, 5⟩⟩,
      .token ⟨.ident, "s", ⟨7, 1⟩⟩, .token ⟨.openBrace, "\x7b", ⟨0xffffffff, 0⟩⟩,
      .token ⟨.closeBrace, "\x7d", ⟨3, 1⟩⟩]
    let source := "scene s \x7b"
    (∀ f, (Target.scene.read .standard .whole 9 items).result ≠ .error (.fault f)) ∧
    ∃ outcome : Target.scene.Outcome,
      Target.scene.parse .standard .whole source 0xfffffff6 = .ok outcome ∧
      ∀ x ∈ outcome.diagnostics,
        ∃ text, x.render (SourceMap.ofString source 0xfffffff6) = .ok text := by
  intro items source
  have hfits : ∀ t, .token t ∈ items → t.span.Fits := by
    simp [items, Span.Fits, positionLimit]
  constructor
  · exact ((parse_safe .scene .standard .whole 9).1 items (by decide) hfits (by simp [items])).1
  · obtain ⟨outcome, hp, hsafe⟩ :=
      (parse_safe .scene .standard .whole 0xfffffff6).2.2.2 source (by decide)
    exact ⟨outcome, hp, fun x hx => (hsafe (by decide) x hx).1⟩

end Target
end Scenario
