import Scenario.Proofs.Protocol
import Scenario.Proofs.Trails.Basic

/-!
# Trails of steps

Each step continues the trail. A part knows where what it has read stands: its own keywords and
names, and the branches that it keeps. Besides it knows two positions, the end of the trail so far
(`lo`) and the end of the last token (`hi`).

A branch that takes the place of another is pointed at as a whole, from its keyword on. This is
still behind the trail, since nothing is raised inside a branch; so a branch that is being read
begins behind the trail, and what is kept of the scene ends in front of it.
-/

namespace Scenario

variable {place : Nat → Prop} {word : String → Prop} {lo start hi : Nat} {d : Dialect} {t : Token}

/-- The position right behind the token. -/
def Token.behind (t : Token) : Nat := t.span.base + t.span.len

/-- The token stands behind `hi`. -/
structure Token.Stands (place : Nat → Prop) (word : String → Prop) (hi : Nat) (t : Token) :
    Prop where
  span : t.span.StandsIn place hi t.behind
  word : t.kind = .ident → word t.value

theorem Token.Stands.le_behind (h : t.Stands place word hi) : hi ≤ t.behind := h.span.le

theorem Token.Stands.names_word (h : t.Stands place word hi) : ∀ name ∈ t.names, word name := by
  intro name hname
  simp only [names] at hname
  split at hname
  · rename_i hk
    rw [List.mem_singleton.1 hname]
    exact h.word hk
  · cases hname

/-- The step of a part continues the trail, and so does what comes out of it when the next item is
there. The trail ends in front of `hi` as long as there is a result, and then the part has `inv`
with its end. -/
def Verdict.StepTrails {ρ α : Type} (place : Nat → Prop) (word : String → Prop) (lo hi : Nat)
    (inv : Nat → ρ → Prop) (v : Verdict (Verdict (Turn ρ α))) : Prop :=
  v.Trails place word lo fun stop inner => stop ≤ hi ∧
    inner.Trails place word stop fun stop' turn => stop' ≤ hi ∧
      turn.Leads (inv stop') fun _ => True

theorem Verdict.stepTrails_pure {ρ α : Type} {inv : Nat → ρ → Prop} {turn : Turn ρ α}
    (hle : lo ≤ hi) (h : turn.Leads (inv lo) fun _ => True) :
    (pure (pure turn) : Verdict (Verdict (Turn ρ α))).StepTrails place word lo hi inv :=
  trails_pure ⟨hle, trails_pure ⟨hle, h⟩⟩

/-- The header of a declaration that stands between the positions. -/
structure Header.Stands (place : Nat → Prop) (word : String → Prop) (lo hi : Nat) (h : Header) :
    Prop where
  opened : h.opened.StandsIn place lo hi
  word : word h.id

theorem Header.Stands.mono {header : Header} {lo' hi' : Nat}
    (h : header.Stands place word lo hi) (hlo : lo' ≤ lo) (hhi : hi ≤ hi') :
    header.Stands place word lo' hi' :=
  ⟨h.opened.mono hlo hhi, h.word⟩

namespace Issue

theorem pointsIn_expected (kinds : List Kind) (h : t.Stands place word hi) (hlo : lo ≤ hi) :
    (expected kinds t).PointsIn place word lo t.behind :=
  ⟨⟨_, rfl, h.span.mono hlo (Nat.le_refl _), by simp [AnnotatedSpan.ofSpan]⟩, h.names_word⟩

theorem pointsIn_expected_eof (kinds : List Kind) {stop : Span}
    (h : stop.StandsIn place hi (stop.base + stop.len)) (hlo : lo ≤ hi) :
    (expected kinds (.eof stop)).PointsIn place word lo (stop.base + stop.len) :=
  pointsIn_expected kinds (t := .eof stop) ⟨h, fun hk => by cases hk⟩ hlo

theorem pointsIn_skipped {scene : String} (h : t.Stands place word hi) (hlo : lo ≤ hi)
    (hscene : word scene) : (skipped t scene).PointsIn place word lo t.behind :=
  ⟨⟨_, rfl, h.span.mono hlo (Nat.le_refl _), by simp [AnnotatedSpan.ofSpan]⟩,
    List.forall_mem_cons.2 ⟨hscene, h.names_word⟩⟩

theorem pointsIn_unclosed {header : Header} {stop : Span} (h : header.Stands place word 0 hi)
    (hstop : stop.StandsIn place hi (stop.base + stop.len)) (hlo : lo ≤ hi) :
    (unclosed header stop).PointsIn place word lo (stop.base + stop.len) := by
  refine ⟨⟨_, rfl, hstop.mono hlo (Nat.le_refl _), ?_⟩, ?_⟩
  · simpa using h.opened.mono (Nat.le_refl 0) hstop.lo_le
  · simpa [names] using h.word

theorem pointsIn_strayBranch {author : Header} {opened span : Span} (hword : word t.value)
    (h : author.Stands place word 0 opened.base) (hspan : span.StandsIn place lo hi)
    (hbase : span.base = opened.base) :
    (strayBranch t.value (some span) author).PointsIn place word lo hi := by
  refine ⟨⟨_, rfl, hspan, ?_⟩, ?_⟩
  · simpa [hbase] using h.opened
  · simpa [names] using ⟨hword, h.word⟩

theorem pointsIn_redefined {id scene : String} {span previous : Span} (hid : word id)
    (hscene : word scene) (hspan : span.StandsIn place start hi)
    (hprevious : previous.StandsIn place 0 start) (hlo : lo ≤ start) :
    (redefined id span scene previous).PointsIn place word lo hi := by
  refine ⟨⟨_, rfl, hspan.mono hlo (Nat.le_refl hi), ?_⟩, ?_⟩
  · simpa using hprevious.mono (Nat.le_refl 0) hspan.lo_le
  · simpa [names] using ⟨hid, hscene⟩

end Issue

namespace Declaration

/-- What has been read of the declaration stands between the positions. -/
def Stands (place : Nat → Prop) (word : String → Prop) (lo hi : Nat) : Declaration → Prop
  | opened _ span => span.StandsIn place lo hi
  | named header => header.Stands place word lo hi
  | inside header _ => header.Stands place word lo hi

variable {decl : Declaration}

theorem Stands.mono {lo' hi' : Nat} (h : decl.Stands place word lo hi) (hlo : lo' ≤ lo)
    (hhi : hi ≤ hi') : decl.Stands place word lo' hi' := by
  cases decl with
  | opened keyword span => exact Span.StandsIn.mono h hlo hhi
  | named header => exact Header.Stands.mono h hlo hhi
  | inside header depth => exact Header.Stands.mono h hlo hhi

theorem Stands.enter (h : decl.Stands place word lo hi) :
    (decl.enter d t).Stands place word lo hi := by
  cases decl with
  | named header =>
    simp only [Declaration.enter]
    split <;> exact h
  | _ => exact h

theorem Stands.of_branchPlace? {header : Header} (h : decl.Stands place word lo hi)
    (hb : decl.branchPlace? d t = some header) : header.Stands place word lo hi := by
  have hd := h.enter (d := d) (t := t)
  unfold branchPlace? at hb
  split at hb
  · rename_i he _
    rw [he] at hd
    cases hb
    exact hd
  · cases hb

/-- A declaration raises nothing but an error at the token. -/
theorem trails_step (h : decl.Stands place word start hi) (ht : t.Stands place word hi)
    (hlo : lo ≤ hi) :
    (decl.step d t).Trails place word lo fun stop turn => stop = lo ∧
      turn.Leads (Stands place word start t.behind)
        fun last => last.1.Stands place word start hi ∧ last.2 = t.span := by
  have hd : (decl.enter d t).Stands place word start hi := h.enter
  have hle := ht.le_behind
  have hrefl := Nat.le_refl start
  unfold step
  split
  · rename_i he
    rw [he] at hd
    split
    · rename_i hk
      exact Verdict.trails_pure ⟨rfl, Span.StandsIn.mono hd hrefl hle, ht.word hk⟩
    · exact Verdict.trails_reject (Issue.pointsIn_expected _ ht hlo)
  · rename_i he
    rw [he] at hd
    split
    · exact Verdict.trails_pure ⟨rfl, Header.Stands.mono hd hrefl hle⟩
    · exact Verdict.trails_reject (Issue.pointsIn_expected _ ht hlo)
  · rename_i he
    rw [he] at hd
    have hmore := Header.Stands.mono hd hrefl hle
    split
    · split
      · exact Verdict.trails_pure ⟨rfl, hd, rfl⟩
      · exact Verdict.trails_pure ⟨rfl, hmore⟩
    · exact Verdict.trails_pure ⟨rfl, hmore⟩
    · exact Verdict.trails_pure ⟨rfl, hmore⟩

/-- A span at which the input may end. -/
theorem pointsIn_unfinished {stop : Span} (h : decl.Stands place word 0 hi)
    (hstop : stop.StandsIn place hi (stop.base + stop.len)) (hlo : lo ≤ hi) :
    (decl.unfinished d stop).PointsIn place word lo (stop.base + stop.len) := by
  have hd : (decl.enter d (.eof stop)).Stands place word 0 hi := h.enter
  unfold unfinished
  split
  · exact Issue.pointsIn_expected_eof _ hstop hlo
  · exact Issue.pointsIn_expected_eof _ hstop hlo
  · rename_i he
    rw [he] at hd
    exact Issue.pointsIn_unclosed hd hstop hlo

end Declaration

namespace LoneAuthor

/-- What has been read of the author stands between the positions. -/
def Stands (place : Nat → Prop) (word : String → Prop) (lo hi : Nat) : LoneAuthor → Prop
  | reading decl => decl.Stands place word lo hi
  | stray author opened => opened.StandsIn place lo hi ∧ author.Stands place word 0 opened.base

theorem trails_step (hplace : ∀ p, place p → p ≤ positionLimit) {a : LoneAuthor}
    (h : a.Stands place word lo hi) (ht : t.Stands place word hi) (hlo : lo ≤ hi) :
    (a.step d t).StepTrails place word lo t.behind (Stands place word · t.behind) := by
  have hle := Nat.le_trans hlo ht.le_behind
  cases a with
  | stray author opened =>
    obtain ⟨hopened, hauthor⟩ := h
    simp only [step]
    split
    · rename_i hk
      refine Verdict.trails_pure ⟨hle, ?_⟩
      have hu := Span.union_of_fits (hplace _ hopened.stop_place) (hplace _ ht.span.stop_place)
      obtain ⟨hspan, hbase⟩ := hopened.union ht.span hu
      simp only [rejectBranch, hu]
      exact Verdict.trails_reject
        (Issue.pointsIn_strayBranch (ht.word hk) hauthor hspan hbase)
    · exact Verdict.trails_reject (Issue.pointsIn_expected _ ht hlo)
  | reading decl =>
    simp only [step]
    split
    · rename_i author hb
      have hauthor := Declaration.Stands.of_branchPlace? h hb
      refine Verdict.stepTrails_pure hle ⟨?_, ?_⟩
      · exact ht.span.mono hlo (Nat.le_refl _)
      · exact hauthor.mono (Nat.zero_le lo) ht.span.lo_le
    · apply (Declaration.trails_step h ht hlo).bind
      rintro stop turn ⟨rfl, hturn⟩
      cases turn with
      | more decl' => exact Verdict.stepTrails_pure hle hturn
      | done last =>
        refine Verdict.trails_pure ⟨hle, (Verdict.trails_ofExcept _).bind ?_⟩
        rintro stop' span ⟨rfl, -⟩
        exact Verdict.trails_pure ⟨hle, trivial⟩

theorem pointsIn_unfinished {a : LoneAuthor} {stop : Span} (h : a.Stands place word lo hi)
    (hstop : stop.StandsIn place hi (stop.base + stop.len)) (hlo : lo ≤ hi) :
    (a.unfinished d stop).PointsIn place word lo (stop.base + stop.len) := by
  cases a with
  | reading decl =>
    exact Declaration.pointsIn_unfinished (Declaration.Stands.mono h (Nat.zero_le lo)
      (Nat.le_refl hi)) hstop hlo
  | stray author opened =>
      exact Issue.pointsIn_expected_eof _ hstop hlo

end LoneAuthor

/-- What is kept of a scene stands in front of the position. -/
structure SceneDraft.Stands (place : Nat → Prop) (word : String → Prop) (hi : Nat)
    (s : SceneDraft) : Prop where
  header : s.header.Stands place word 0 hi
  branches : ∀ id b, s.branches.find? id = some b → b.span.StandsIn place 0 hi

namespace SceneDraft

variable {s : SceneDraft}

theorem Stands.mono {hi' : Nat} (h : s.Stands place word hi) (hhi : hi ≤ hi') :
    s.Stands place word hi' where
  header := h.header.mono (Nat.le_refl 0) hhi
  branches id b hb := (h.branches id b hb).mono (Nat.le_refl 0) hhi

theorem stands_start {header : Header} (h : header.Stands place word 0 hi) :
    (SceneDraft.start header).Stands place word hi where
  header := h
  branches id b hb := by cases hb

theorem Stands.put {b : Branch} (h : s.Stands place word hi) (hb : b.span.StandsIn place 0 hi) :
    SceneDraft.Stands place word hi { s with branches := s.branches.put b.id b } where
  header := h.header
  branches id c hc := by
    rw [Registry.find?_put] at hc
    split at hc
    · cases hc
      exact hb
    · exact h.branches id c hc

/-- A branch that begins behind what the scene keeps is added to it. -/
theorem trails_addBranch {b : Branch} (h : s.Stands place word start)
    (hb : b.span.StandsIn place start hi) (hword : word b.id) (hlo : lo ≤ start) :
    (s.addBranch b).Trails place word lo fun stop s' => stop ≤ hi ∧ s'.Stands place word hi := by
  have hle := hb.le
  have hput := (h.mono hle).put (hb.mono (Nat.zero_le start) (Nat.le_refl hi))
  unfold addBranch
  split
  · rename_i replaced hfind
    have hissue := Issue.pointsIn_redefined hword h.header.word hb
      (h.branches _ _ hfind) hlo
    apply (Verdict.trails_note hissue).bind
    rintro stop _ rfl
    exact Verdict.trails_pure ⟨Nat.le_refl _, hput⟩
  · exact Verdict.trails_pure ⟨Nat.le_trans hlo hle, hput⟩

end SceneDraft

namespace OpenScene

/-- What has been read of the scene stands in front of `hi`. A branch that is being read begins
behind `lo`, and behind all that the scene keeps. -/
def Stands (place : Nat → Prop) (word : String → Prop) (lo hi : Nat) : OpenScene → Prop
  | opened span => span.StandsIn place 0 hi
  | named header => header.Stands place word 0 hi
  | inside s .items => s.Stands place word hi
  | inside s (.author decl) => s.Stands place word hi ∧ decl.Stands place word 0 hi
  | inside s (.branch host decl) => ∃ start, lo ≤ start ∧ s.Stands place word start ∧
    (∀ header ∈ host, header.Stands place word 0 start) ∧ decl.Stands place word start hi

theorem trails_stepItem {s : SceneDraft} (h : s.Stands place word hi)
    (ht : t.Stands place word hi) (hlo : lo ≤ hi) :
    (stepItem d s t).StepTrails place word lo t.behind (Stands place word · t.behind) := by
  have hle := ht.le_behind
  have hbehind := Nat.le_trans hlo hle
  unfold stepItem
  split
  · exact Verdict.stepTrails_pure hbehind
      ⟨h.mono hle, ht.span.mono (Nat.zero_le hi) (Nat.le_refl _)⟩
  · refine Verdict.stepTrails_pure hbehind ⟨hi, hlo, h, ?_, ht.span⟩
    simp
  · refine Verdict.trails_pure ⟨hbehind, (Verdict.trails_ofExcept _).bind ?_⟩
    rintro stop span ⟨rfl, -⟩
    exact Verdict.trails_pure ⟨hbehind, trivial⟩
  · split
    · apply (Verdict.trails_note (Issue.pointsIn_skipped ht hlo h.header.word)).bind
      rintro stop _ rfl
      exact Verdict.stepTrails_pure (Nat.le_refl _) (h.mono hle)
    · exact Verdict.trails_reject (Issue.pointsIn_expected _ ht hlo)

theorem trails_stepAuthor {s : SceneDraft} {decl : Declaration} (h : s.Stands place word hi)
    (hd : decl.Stands place word 0 hi) (ht : t.Stands place word hi) (hlo : lo ≤ hi) :
    (stepAuthor d s decl t).StepTrails place word lo t.behind (Stands place word · t.behind) := by
  have hle := ht.le_behind
  have hbehind := Nat.le_trans hlo hle
  unfold stepAuthor
  split
  · rename_i host hb
    refine Verdict.stepTrails_pure hbehind ⟨hi, hlo, h, ?_, ht.span⟩
    rintro _ ⟨rfl⟩
    exact hd.of_branchPlace? hb
  · apply (Declaration.trails_step hd ht hlo).bind
    rintro stop turn ⟨rfl, hturn⟩
    cases turn with
    | more decl' => exact Verdict.stepTrails_pure hbehind ⟨h.mono hle, hturn⟩
    | done last =>
      refine Verdict.trails_pure ⟨hbehind, (Verdict.trails_ofExcept _).bind ?_⟩
      rintro stop' span ⟨rfl, -⟩
      have hkept := h.mono hle
      exact Verdict.trails_pure ⟨hbehind, hkept.header, hkept.branches⟩

theorem stands_behindBranch {s : SceneDraft} {host : Option Header} (h : s.Stands place word hi)
    (hh : ∀ header ∈ host, header.Stands place word 0 hi) :
    (inside s (.behindBranch host)).Stands place word lo hi := by
  cases host with
  | none => exact h
  | some host => exact ⟨h, hh host rfl⟩

theorem trails_stepBranch {s : SceneDraft} {host : Option Header} {decl : Declaration}
    (hstart : lo ≤ start) (h : s.Stands place word start)
    (hh : ∀ header ∈ host, header.Stands place word 0 start)
    (hd : decl.Stands place word start hi) (ht : t.Stands place word hi) (hlo : lo ≤ hi) :
    (stepBranch d s host decl t).StepTrails place word lo t.behind
      (Stands place word · t.behind) := by
  have hle := ht.le_behind
  have hbehind := Nat.le_trans hlo hle
  unfold stepBranch
  apply (Declaration.trails_step hd ht hlo).bind
  rintro stop turn ⟨rfl, hturn⟩
  cases turn with
  | more decl' => exact Verdict.stepTrails_pure hbehind ⟨start, hstart, h, hh, hturn⟩
  | done last =>
    obtain ⟨header, close⟩ := last
    obtain ⟨hheader, rfl⟩ := hturn
    refine Verdict.trails_pure ⟨hbehind, (Verdict.trails_ofExcept _).bind ?_⟩
    rintro stop' span ⟨rfl, hu⟩
    have hspan := (hheader.opened.union ht.span hu).1
    apply (SceneDraft.trails_addBranch (b := .ofSpan header.id span) h hspan hheader.word
      hstart).bind
    rintro stop'' s' ⟨hstop, hs'⟩
    refine Verdict.trails_pure ⟨hstop, stands_behindBranch hs' ?_⟩
    exact fun header hmem => (hh header hmem).mono (Nat.le_refl 0) hspan.le

theorem trails_step {s : OpenScene} (h : s.Stands place word lo hi) (ht : t.Stands place word hi)
    (hlo : lo ≤ hi) :
    (s.step d t).StepTrails place word lo t.behind (Stands place word · t.behind) := by
  have hle := ht.le_behind
  have hbehind := Nat.le_trans hlo hle
  match s with
  | opened span =>
    simp only [step]
    split
    · rename_i hk
      exact Verdict.stepTrails_pure hbehind ⟨Span.StandsIn.mono h (Nat.le_refl 0) hle, ht.word hk⟩
    · exact Verdict.trails_reject (Issue.pointsIn_expected _ ht hlo)
  | named header =>
    simp only [step]
    split
    · exact Verdict.stepTrails_pure hbehind
        (SceneDraft.stands_start (Header.Stands.mono h (Nat.le_refl 0) hle))
    · exact Verdict.trails_reject (Issue.pointsIn_expected _ ht hlo)
  | inside s .items => exact trails_stepItem h ht hlo
  | inside s (.author decl) => exact trails_stepAuthor h.1 h.2 ht hlo
  | inside s (.branch host decl) =>
    obtain ⟨start, hstart, hs, hh, hd⟩ := h
    exact trails_stepBranch hstart hs hh hd ht hlo

theorem pointsIn_unfinished {s : OpenScene} {stop : Span} (h : s.Stands place word lo hi)
    (hstop : stop.StandsIn place hi (stop.base + stop.len)) (hlo : lo ≤ hi) :
    (s.unfinished d stop).PointsIn place word lo (stop.base + stop.len) := by
  match s with
  | opened span => exact Issue.pointsIn_expected_eof _ hstop hlo
  | named header => exact Issue.pointsIn_expected_eof _ hstop hlo
  | inside s .items => exact Issue.pointsIn_unclosed (SceneDraft.Stands.header h) hstop hlo
  | inside s (.author decl) => exact Declaration.pointsIn_unfinished h.2 hstop hlo
  | inside s (.branch host decl) =>
    obtain ⟨start, -, -, -, hd⟩ := h
    exact Declaration.pointsIn_unfinished (hd.mono (Nat.zero_le start) (Nat.le_refl hi)) hstop hlo

end OpenScene
end Scenario
