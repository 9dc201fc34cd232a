import Scenario.Proofs.Verdict

/-!
# Trails of issues

The issues that a run raises leave a trail in the source: the main span of each begins where that of
the one before has ended, or later, and what an issue remarks on stands in front of its main span.

Spans of a source begin and end at certain places, and names are written in it in a certain way.
What places and names these are does not matter here: they are parameters.
-/

namespace Scenario

/-- The span stands between the two positions, and begins and ends at places. -/
structure Span.StandsIn (place : Nat → Prop) (lo hi : Nat) (s : Span) : Prop where
  base_place : place s.base
  stop_place : place (s.base + s.len)
  lo_le : lo ≤ s.base
  le_hi : s.base + s.len ≤ hi

namespace Span.StandsIn

variable {place : Nat → Prop} {lo mid hi : Nat} {s t u : Span}

theorem mono {lo' hi' : Nat} (h : s.StandsIn place lo hi) (hlo : lo' ≤ lo) (hhi : hi ≤ hi') :
    s.StandsIn place lo' hi' :=
  ⟨h.base_place, h.stop_place, Nat.le_trans hlo h.lo_le, Nat.le_trans h.le_hi hhi⟩

theorem le (h : s.StandsIn place lo hi) : lo ≤ hi := by
  have hlo := h.lo_le
  have hhi := h.le_hi
  omega

/-- From one span to a later one. -/
theorem union (hs : s.StandsIn place lo mid) (ht : t.StandsIn place mid hi)
    (hu : s.union t = .ok u) : u.StandsIn place lo hi ∧ u.base = s.base := by
  have hlo := hs.lo_le
  have hmid := hs.le_hi
  have hmid' := ht.lo_le
  have hhi := ht.le_hi
  simp only [Span.union, stop] at hu
  split at hu
  · split at hu
    · cases hu
      have hbase : min s.base t.base = s.base := by omega
      have hstop : min s.base t.base +
          (max (s.base + s.len) (t.base + t.len) - min s.base t.base) = t.base + t.len := by
        omega
      refine ⟨⟨?_, ?_, ?_, ?_⟩, hbase⟩
      · simpa only [hbase] using hs.base_place
      · simpa only [hstop] using ht.stop_place
      · simpa only [hbase] using hlo
      · simpa only [hstop] using hhi
    · cases hu
  · cases hu

end Span.StandsIn

/-- The names that a message shows of a token. -/
def Token.names (t : Token) : List String := if t.kind = .ident then [t.value] else []

namespace Issue

/-- The names that the message and the remarks show. -/
def names : Issue → List String
  | lexical _ => []
  | expected _ found => found.names
  | unclosed header _ => [header.id]
  | strayBranch id _ author => [id, author.id]
  | skipped found scene => scene :: found.names
  | redefined id _ scene _ => [id, scene]

/-- The issue points at the source between the two positions, and remarks on what stands in front
of that. -/
structure PointsIn (place : Nat → Prop) (word : String → Prop) (lo hi : Nat) (i : Issue) :
    Prop where
  exists_spans : ∃ a, i.spans = some a ∧ a.main.StandsIn place lo hi ∧
    ∀ remark ∈ a.remarks, remark.span.StandsIn place 0 a.main.base
  names_word : ∀ name ∈ i.names, word name

/-- The issues point at the source one after the other between the two positions. -/
def Trail (place : Nat → Prop) (word : String → Prop) : Nat → Nat → List Issue → Prop
  | lo, hi, [] => lo ≤ hi
  | lo, hi, i :: rest => ∃ mid, i.PointsIn place word lo mid ∧ Trail place word mid hi rest

namespace Trail

variable {place : Nat → Prop} {word : String → Prop} {lo mid hi : Nat} {left right : List Issue}

theorem mono {lo' : Nat} (h : Trail place word lo hi left) (hlo : lo' ≤ lo) :
    Trail place word lo' hi left := by
  cases left with
  | nil => exact Nat.le_trans hlo h
  | cons i left =>
    obtain ⟨mid, hi, hrest⟩ := h
    obtain ⟨⟨a, ha, hmain, hremarks⟩, hnames⟩ := hi
    exact ⟨mid, ⟨⟨a, ha, hmain.mono hlo (Nat.le_refl mid), hremarks⟩, hnames⟩, hrest⟩

theorem append (hleft : Trail place word lo mid left) (hright : Trail place word mid hi right) :
    Trail place word lo hi (left ++ right) := by
  induction left generalizing lo with
  | nil => exact hright.mono hleft
  | cons i left ih =>
    obtain ⟨next, hi, hrest⟩ := hleft
    exact ⟨next, hi, ih hrest⟩

theorem of_mem (h : Trail place word lo hi left) {i : Issue} (hmem : i ∈ left) :
    ∃ lo' hi', lo ≤ lo' ∧ i.PointsIn place word lo' hi' := by
  induction left generalizing lo with
  | nil => cases hmem
  | cons j left ih =>
    obtain ⟨mid, hj, hrest⟩ := h
    rcases List.mem_cons.1 hmem with rfl | hmem
    · exact ⟨lo, mid, Nat.le_refl lo, hj⟩
    · obtain ⟨lo', hi', hle, hi⟩ := ih hrest hmem
      obtain ⟨a, -, hmain, -⟩ := hj.exists_spans
      exact ⟨lo', hi', Nat.le_trans hmain.le hle, hi⟩

/-- The main spans stand one after the other. -/
theorem pairwise (h : Trail place word lo hi left) :
    left.Pairwise fun i j => ∀ a b, i.spans = some a → j.spans = some b →
      a.main.base + a.main.len ≤ b.main.base := by
  induction left generalizing lo with
  | nil => exact .nil
  | cons i left ih =>
    obtain ⟨mid, hi, hrest⟩ := h
    refine List.pairwise_cons.2 ⟨?_, ih hrest⟩
    intro j hj a b ha hb
    obtain ⟨a', ha', hmain, -⟩ := hi.exists_spans
    obtain ⟨lo', hi', hle, hpoints⟩ := hrest.of_mem hj
    obtain ⟨b', hb', hmain', -⟩ := hpoints.exists_spans
    cases ha.symm.trans ha'
    cases hb.symm.trans hb'
    exact Nat.le_trans hmain.le_hi (Nat.le_trans hle hmain'.lo_le)

end Trail
end Issue

namespace Verdict

variable {α β : Type} {place : Nat → Prop} {word : String → Prop} {lo hi : Nat}
  {post : Nat → α → Prop} {after : Nat → β → Prop}

/-- The issues leave a trail from `lo` on, and a result has `post` with the end of the trail. -/
def Trails (place : Nat → Prop) (word : String → Prop) (lo : Nat) (post : Nat → α → Prop)
    (v : Verdict α) : Prop :=
  ∃ hi, Issue.Trail place word lo hi v.issues ∧ ∀ a, v.result = .ok a → post hi a

theorem trails_pure {a : α} (h : post lo a) : (pure a : Verdict α).Trails place word lo post :=
  ⟨lo, Nat.le_refl lo, fun _ ha => Except.ok.inj ha ▸ h⟩

theorem trails_note {issue : Issue} (h : issue.PointsIn place word lo hi) :
    (note issue).Trails place word lo fun stop _ => stop = hi :=
  ⟨hi, ⟨hi, h, Nat.le_refl hi⟩, fun _ _ => rfl⟩

theorem trails_reject {issue : Issue} (h : issue.PointsIn place word lo hi) :
    (reject issue : Verdict α).Trails place word lo post :=
  ⟨hi, ⟨hi, h, Nat.le_refl hi⟩, fun _ ha => by cases ha⟩

theorem trails_ofExcept (r : Except Fault α) :
    (ofExcept r).Trails place word lo fun stop a => stop = lo ∧ r = .ok a := by
  cases r with
  | ok a => exact trails_pure ⟨rfl, rfl⟩
  | error f => exact ⟨lo, Nat.le_refl lo, fun _ ha => by cases ha⟩

theorem Trails.bind {v : Verdict α} {f : α → Verdict β} (hv : v.Trails place word lo post)
    (hf : ∀ mid a, post mid a → (f a).Trails place word mid after) :
    (v >>= f).Trails place word lo after := by
  obtain ⟨is, stop | a⟩ := v
  · obtain ⟨mid, htrail, -⟩ := hv
    rw [mk_error_bind]
    exact ⟨mid, htrail, fun _ ha => by cases ha⟩
  · obtain ⟨mid, htrail, hpost⟩ := hv
    obtain ⟨hi, htrail', hafter⟩ := hf mid a (hpost a rfl)
    rw [mk_ok_bind]
    exact ⟨hi, htrail.append htrail', hafter⟩

theorem Trails.map {v : Verdict α} {f : α → β} (hv : v.Trails place word lo post)
    (hf : ∀ stop a, post stop a → after stop (f a)) : (f <$> v).Trails place word lo after := by
  rw [map_eq_pure_bind]
  exact hv.bind fun stop a ha => trails_pure (hf stop a ha)

end Verdict
end Scenario
