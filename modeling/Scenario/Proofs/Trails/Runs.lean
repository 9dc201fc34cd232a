import Scenario.Proofs.Locations
import Scenario.Proofs.Outcome
import Scenario.Proofs.Trails.Steps
import Scenario.Token.WellFormed

/-!
# Trails of runs

A machine whose steps continue the trail leaves one when it reads items that stand one behind the
other. What is pending is raised before the next token and stands in front of it; an error takes its
place, and stands behind what was raised before.

The items of a source stand like this, between places of the source, and the names among them are
identifiers. So the issues of every parse leave a trail (`Target.trail_read_source`).
-/

namespace Scenario

section Runs

variable {place : Nat → Prop} {word : String → Prop} {lo hi : Nat} {d : Dialect} {t : Token}

/-- The items stand one behind the other, from `lo` on. -/
def Item.Stand (place : Nat → Prop) (word : String → Prop) : Nat → List Item → Prop
  | _, [] => True
  | lo, .token t :: rest => t.Stands place word lo ∧ Stand place word t.behind rest
  | lo, .error e :: rest => e.span.StandsIn place lo (e.span.base + e.span.len) ∧
    Stand place word (e.span.base + e.span.len) rest
  | lo, .fault _ :: rest => Stand place word lo rest

theorem Item.Stand.mono {items : List Item} {lo' : Nat} (h : Stand place word lo items)
    (hlo : lo' ≤ lo) : Stand place word lo' items := by
  induction items with
  | nil => trivial
  | cons item rest ih =>
    cases item with
    | token t => exact ⟨⟨h.1.span.mono hlo (Nat.le_refl _), h.1.word⟩, h.2⟩
    | error e => exact ⟨h.1.mono hlo (Nat.le_refl _), h.2⟩
    | fault f => exact ih h

theorem Issue.pointsIn_lexical {e : LexicalError}
    (he : e.span.StandsIn place hi (e.span.base + e.span.len)) (hlo : lo ≤ hi) :
    (lexical e).PointsIn place word lo (e.span.base + e.span.len) :=
  ⟨⟨_, rfl, he.mono hlo (Nat.le_refl _), by simp [AnnotatedSpan.ofSpan]⟩, by simp [names]⟩

namespace Machine

variable {σ α : Type} {m : Machine σ α} {inv : Nat → Nat → σ → Prop}

/-- The machine continues the trail in its states with `inv`, which depends on where the trail and
the last token end. -/
structure Trails (m : Machine σ α) (place : Nat → Prop) (word : String → Prop)
    (inv : Nat → Nat → σ → Prop) : Prop where
  start : ∀ p, inv p p m.start
  step : ∀ lo hi s t, inv lo hi s → lo ≤ hi → t.Stands place word hi →
    (m.step s t).Trails place word lo fun stop turn =>
      turn.Leads (fun pending => stop ≤ t.behind ∧ pending.Trails place word stop fun stop' s' =>
        stop' ≤ t.behind ∧ inv stop' t.behind s') fun _ => True
  finish : ∀ lo hi s stop, inv lo hi s → lo ≤ hi →
    stop.StandsIn place hi (stop.base + stop.len) →
    (m.finish s stop).Trails place word lo fun _ _ => True

/-- A run continues the trail that ends with what is pending. -/
theorem Trails.trails_run (h : m.Trails place word inv)
    (hplace : ∀ p, place p → p ≤ positionLimit) {last : Span} {pending : Verdict σ}
    {items : List Item} (hlast : place (last.base + last.len)) (hlo : lo ≤ last.base + last.len)
    (hp : pending.Trails place word lo fun stop s =>
      stop ≤ last.base + last.len ∧ inv stop (last.base + last.len) s)
    (hitems : Item.Stand place word (last.base + last.len) items) :
    (m.run ⟨last, pending⟩ items).Trails place word lo fun _ _ => True := by
  induction items generalizing lo last pending with
  | nil =>
    have hrun : m.run ⟨last, pending⟩ [] = (do
        let state ← pending
        m.finish state ⟨last.base + last.len, 0⟩) := by
      simp only [run, close, Span.shrinkToEnd_of_fits (hplace _ hlast), Verdict.ofExcept_ok,
        pure_bind]
    rw [hrun]
    apply hp.bind
    rintro stop s ⟨hstop, hs⟩
    exact h.finish _ _ _ _ hs hstop ⟨hlast, hlast, Nat.le_refl _, Nat.le_refl _⟩
  | cons item rest ih =>
    cases item with
    | error e => exact Verdict.trails_reject (Issue.pointsIn_lexical hitems.1 hlo)
    | fault f => exact ⟨lo, Nat.le_refl lo, fun _ ha => by cases ha⟩
    | token t =>
      obtain ⟨ht, hrest⟩ := hitems
      by_cases hc : t.kind = .comment
      · rw [run_comment hc]
        exact ih hlast hlo hp (hrest.mono ht.le_behind)
      by_cases he : t.kind = .eof
      · rw [run_eof he]
        apply hp.bind
        rintro stop s ⟨hstop, hs⟩
        exact h.finish _ _ _ _ hs hstop ht.span
      · rw [run_plain ⟨hc, he⟩]
        apply hp.bind
        rintro mid s ⟨hmid, hs⟩
        apply (h.step _ _ _ _ hs hmid ht).bind
        intro stop turn hturn
        cases turn with
        | done value => exact Verdict.trails_pure trivial
        | more pending' => exact ih ht.span.stop_place hturn.1 hturn.2 hrest

/-- A machine that reads a part continues the trail as the part does. -/
theorem Hosts.trails_step {ρ β : Type} {step : ρ → Token → Verdict (Verdict (Turn ρ β))}
    {resume : Turn ρ β → σ} {part : Nat → ρ → Prop} {after : Nat → σ → Prop} {r : ρ}
    (h : m.Hosts step resume) (hr : (step r t).StepTrails place word lo hi part)
    (hmore : ∀ stop r, part stop r → after stop (resume (.more r)))
    (hdone : ∀ stop v, after stop (resume (.done v))) :
    (m.step (resume (.more r)) t).Trails place word lo fun stop turn =>
      turn.Leads (fun pending => stop ≤ hi ∧ pending.Trails place word stop fun stop' s' =>
        stop' ≤ hi ∧ after stop' s') fun _ => True := by
  rw [h.step_eq]
  apply hr.bind
  rintro stop inner ⟨hstop, hinner⟩
  refine Verdict.trails_pure ⟨hstop, hinner.map ?_⟩
  rintro stop' turn ⟨hstop', hturn⟩
  refine ⟨hstop', ?_⟩
  cases turn with
  | more r' => exact hmore stop' r' hturn
  | done v => exact hdone stop' v

end Machine

namespace OpenDocument

/-- What has been read of the part that the document is reading stands in front of `hi`. -/
def Stands (place : Nat → Prop) (word : String → Prop) (lo hi : Nat) : OpenDocument → Prop
  | items _ => True
  | author _ rest => rest.Stands place word lo hi
  | scene _ rest => rest.Stands place word lo hi

theorem trails_machine (hplace : ∀ p, place p → p ≤ positionLimit) :
    (machine d).Trails place word (Stands place word) where
  start _ := trivial
  step lo hi o t h hlo ht := by
    have hbehind := Nat.le_trans hlo ht.le_behind
    have hspan := ht.span.mono hlo (Nat.le_refl _)
    cases o with
    | items document =>
      simp only [machine, step]
      split
      · rw [pure_bind]
        exact Verdict.trails_pure ⟨hbehind, Verdict.trails_pure ⟨hbehind, hspan⟩⟩
      · rw [pure_bind]
        exact Verdict.trails_pure ⟨hbehind, Verdict.trails_pure ⟨hbehind,
          hspan.mono (Nat.zero_le lo) (Nat.le_refl _)⟩⟩
      · rw [Verdict.reject_bind]
        exact Verdict.trails_reject (Issue.pointsIn_expected _ ht hlo)
    | author document rest =>
      exact (hosts_author document).trails_step (LoneAuthor.trails_step hplace h ht hlo)
        (fun _ _ h => h) fun _ _ => trivial
    | scene document rest =>
      exact (hosts_scene document).trails_step (OpenScene.trails_step h ht hlo)
        (fun _ _ h => h) fun _ _ => trivial
  finish lo hi o stop h hlo hstop := by
    cases o with
    | items document => exact Verdict.trails_pure trivial
    | author document rest =>
      exact Verdict.trails_reject (LoneAuthor.pointsIn_unfinished h hstop hlo)
    | scene document rest =>
      exact Verdict.trails_reject (OpenScene.pointsIn_unfinished h hstop hlo)

end OpenDocument

namespace Sole

variable {ρ α : Type} {inv : Nat → Nat → ρ → Prop}

theorem trails_machine {keyword : Keyword} {first : Span → ρ}
    {step : ρ → Token → Verdict (Verdict (Turn ρ α))} {unfinished : ρ → Span → Issue}
    (extent : Extent)
    (hfirst : ∀ lo hi span, span.StandsIn place lo hi → inv lo hi (first span))
    (hstep : ∀ lo hi r t, inv lo hi r → t.Stands place word hi → lo ≤ hi →
      (step r t).StepTrails place word lo t.behind (inv · t.behind))
    (hun : ∀ lo hi r stop, inv lo hi r → stop.StandsIn place hi (stop.base + stop.len) → lo ≤ hi →
      (unfinished r stop).PointsIn place word lo (stop.base + stop.len)) :
    (machine keyword first step unfinished extent).Trails place word
      fun lo hi => Keeps (inv lo hi) where
  start _ := trivial
  step lo hi s t h hlo ht := by
    have hbehind := Nat.le_trans hlo ht.le_behind
    have hspan := ht.span.mono hlo (Nat.le_refl _)
    cases s with
    | start =>
      simp only [machine]
      split
      · exact Verdict.trails_pure ⟨hbehind, Verdict.trails_pure ⟨hbehind, hfirst _ _ _ hspan⟩⟩
      · exact Verdict.trails_reject (Issue.pointsIn_expected _ ht hlo)
    | reading rest =>
      exact (hosts_machine extent).trails_step (hstep _ _ _ _ h ht hlo) (fun _ _ h => h)
        fun _ _ => trivial
    | complete value =>
      cases extent with
      | whole => exact Verdict.trails_reject (Issue.pointsIn_expected _ ht hlo)
      | leading => exact Verdict.trails_pure trivial
  finish lo hi s stop h hlo hstop := by
    cases s with
    | start => exact Verdict.trails_reject (Issue.pointsIn_expected_eof _ hstop hlo)
    | reading rest => exact Verdict.trails_reject (hun _ _ _ _ h hstop hlo)
    | complete value => exact Verdict.trails_pure trivial

end Sole

namespace Target

/-- What the state of a target keeps stands where it has to. -/
def Stands (place : Nat → Prop) (word : String → Prop) (lo hi : Nat) :
    (target : Target) → target.State → Prop
  | document => OpenDocument.Stands place word lo hi
  | scene => Sole.Keeps (OpenScene.Stands place word lo hi)
  | author => Sole.Keeps (LoneAuthor.Stands place word lo hi)

theorem trails_machine (hplace : ∀ p, place p → p ≤ positionLimit) (target : Target)
    (extent : Extent) :
    (target.machine d extent).Trails place word fun lo hi => target.Stands place word lo hi := by
  cases target with
  | document => exact OpenDocument.trails_machine hplace
  | scene =>
    exact Sole.trails_machine extent
      (fun _ _ _ h => Span.StandsIn.mono h (Nat.zero_le _) (Nat.le_refl _))
      (fun _ _ _ _ h ht hlo => OpenScene.trails_step h ht hlo)
      fun _ _ _ _ h hstop hlo => OpenScene.pointsIn_unfinished h hstop hlo
  | author =>
    exact Sole.trails_machine extent (fun _ _ _ h => h)
      (fun _ _ _ _ h ht hlo => LoneAuthor.trails_step hplace h ht hlo)
      fun _ _ _ _ h hstop hlo => LoneAuthor.pointsIn_unfinished h hstop hlo

/-- The issues with a stream whose items stand one behind the other leave a trail. -/
theorem exists_trail_read (hplace : ∀ p, place p → p ≤ positionLimit) (target : Target)
    (d : Dialect) (extent : Extent) {base : Nat} {items : List Item} (hbase : place base)
    (hitems : Item.Stand place word base items) :
    ∃ stop, Issue.Trail place word base stop (target.read d extent base items).issues := by
  have hm := @trails_machine place word d hplace target extent
  have hstart : (pure (target.machine d extent).start : Verdict target.State).Trails place word base
      fun stop s => stop ≤ base ∧ target.Stands place word stop base s :=
    Verdict.trails_pure ⟨Nat.le_refl base, hm.start base⟩
  have hrun : (target.read d extent base items).Trails place word base fun _ _ => True :=
    hm.trails_run hplace hbase (Nat.le_refl base) hstart hitems
  obtain ⟨stop, htrail, -⟩ := hrun
  exact ⟨stop, htrail⟩

end Target
end Runs

section Sources

variable {base : Nat} {source text : List Char} {tiles : List Tile} {place : Nat → Prop}

/-- The items of a text stand one behind the other, between its places. -/
theorem Tiling.stand_items {collapse keep : Bool} (h : Tiling base text tiles)
    (hplace : ∀ p, IsPlace base text p → place p) :
    Item.Stand place IsIdent base (Tile.items collapse keep tiles) := by
  induction h with
  | nil _ => trivial
  | @cons base gap rest l tiles hgap hl ht ih =>
    have hstart : place (base + byteLength gap) :=
      hplace _ ⟨gap, _, rfl, rfl⟩
    have hstop : place (base + byteLength gap + byteLength l.source) := by
      refine hplace _ ⟨gap ++ l.source, rest, by simp, ?_⟩
      rw [byteLength_append, Nat.add_assoc]
    have hspan : (⟨base + byteLength gap, byteLength l.source⟩ : Span).StandsIn place base
        (base + byteLength gap + byteLength l.source) :=
      ⟨hstart, hstop, Nat.le_add_right _ _, Nat.le_refl _⟩
    have hrest := ih fun p hp => hplace p (hp.append.append)
    rw [Tile.items_cons]
    split
    · rcases l.item_cases collapse ⟨base + byteLength gap, byteLength l.source⟩ with
        ⟨t, hitem, hts, -, -⟩ | ⟨hitem, -⟩
      · have hword : t.kind = .ident → IsIdent t.value := by
          intro hk
          have hadmits := Lexeme.admits_of_item hl hitem
          rwa [hk] at hadmits
        dsimp only
        rw [hitem]
        refine ⟨⟨?_, hword⟩, ?_⟩
        · rwa [Token.behind, hts]
        · rwa [Token.behind, hts]
      · dsimp only
        rw [hitem]
        exact ⟨hspan, hrest⟩
    · exact hrest.mono (by omega)

/-- The issues of a parse leave a trail between the places of its source, and the names that they
show are identifiers. -/
theorem Target.exists_trail_source (target : Target) (d : Dialect) (extent : Extent)
    {source : String} (hf : base + byteLength source.toList ≤ positionLimit) :
    ∃ stop, Issue.Trail (IsPlace base source.toList) IsIdent base stop
      (target.read d extent base (Lexer.ofString source base d).items).issues := by
  obtain ⟨tiles, ht⟩ := exists_tiling base source.toList
  have hitems : (Lexer.ofString source base d).items =
      Tile.items d.collapseStringWhitespace false tiles := ht.items_ofText hf d
  rw [hitems]
  exact exists_trail_read (fun p hp => Nat.le_trans hp.le hf) target d extent
    ⟨[], _, rfl, rfl⟩ (ht.stand_items fun p hp => hp)

end Sources
end Scenario
