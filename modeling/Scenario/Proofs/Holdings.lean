import Scenario.Parser.Grammar

/-!
# What a scene holds

A scene that is made of authors and branches holds, for each id, the first author and the last
branch with that id. Authors that are broadcast to it come behind its own.
-/

namespace Scenario

/-- The last of the branches that are put under an id counts. -/
theorem Registry.find?_foldl_put (r : Registry Branch) (id : String) (branches : List Branch) :
    (branches.foldl (fun r b => r.put b.id b) r).find? id =
      (branches.reverse.find? (·.id = id)).or (r.find? id) := by
  induction branches generalizing r with
  | nil => rfl
  | cons b branches ih =>
    rw [List.foldl_cons, ih, List.reverse_cons, List.find?_append, Option.or_assoc, find?_put]
    congr 1
    by_cases hid : b.id = id <;> simp [hid]

namespace Scene

variable (s : Scene) (id : String)

theorem addAuthor_of_some {a b : Author} (h : s.author? a.id = some b) : (s.addAuthor a).2 = s := by
  simp [addAuthor, h]

theorem addAuthor_of_none {a : Author} (h : s.author? a.id = none) :
    (s.addAuthor a).2 = { s with authors := s.authors.put a.id a } := by
  simp [addAuthor, h]

theorem author?_addAuthor (a : Author) :
    (s.addAuthor a).2.author? id = (s.author? id).or (if a.id = id then some a else none) := by
  cases h : s.author? a.id with
  | some b =>
    rw [addAuthor_of_some s h]
    by_cases hid : a.id = id
    · rw [← hid, h]
      rfl
    · simp [hid]
  | none =>
    rw [addAuthor_of_none s h]
    change (s.authors.put a.id a).find? id = _
    rw [Registry.find?_put]
    by_cases hid : a.id = id
    · rw [← hid, h]
      simp
    · simp [hid, author?]

/-- An author that the scene has keeps its place, and the first of each id counts. -/
theorem author?_addAuthors (authors : List Author) :
    (s.addAuthors authors).author? id = (s.author? id).or (authors.find? (·.id = id)) := by
  induction authors generalizing s with
  | nil => simp [addAuthors]
  | cons a authors ih =>
    change ((s.addAuthor a).2.addAuthors authors).author? id = _
    rw [ih, author?_addAuthor, Option.or_assoc]
    by_cases hid : a.id = id <;> simp [hid]

/-- Adding an author changes nothing but the authors. -/
theorem addAuthor_eq (a : Author) :
    (s.addAuthor a).2 = ⟨s.id, s.span, (s.addAuthor a).2.authors, s.branches⟩ := by
  cases h : s.author? a.id with
  | some b => rw [addAuthor_of_some s h]
  | none => rw [addAuthor_of_none s h]

theorem addAuthors_eq (authors : List Author) :
    s.addAuthors authors = ⟨s.id, s.span, (s.addAuthors authors).authors, s.branches⟩ := by
  induction authors generalizing s with
  | nil => rfl
  | cons a authors ih =>
    have h : s.addAuthors (a :: authors) = (s.addAuthor a).2.addAuthors authors := rfl
    rw [h, ih, addAuthor_eq]

theorem addAuthors_append (authors more : List Author) :
    s.addAuthors (authors ++ more) = (s.addAuthors authors).addAuthors more :=
  List.foldl_append

@[simp] theorem id_addAuthors (authors : List Author) : (s.addAuthors authors).id = s.id := by
  rw [addAuthors_eq]

@[simp] theorem span_addAuthors (authors : List Author) : (s.addAuthors authors).span = s.span := by
  rw [addAuthors_eq]

@[simp] theorem branches_addAuthors (authors : List Author) :
    (s.addAuthors authors).branches = s.branches := by
  rw [addAuthors_eq]

@[simp] theorem branch?_addAuthors (authors : List Author) :
    (s.addAuthors authors).branch? id = s.branch? id := by
  rw [addAuthors_eq]
  rfl

theorem foldl_addBranch_eq (branches : List Branch) :
    branches.foldl (fun s b => (s.addBranch b).2) s =
      ⟨s.id, s.span, s.authors, branches.foldl (fun r b => r.put b.id b) s.branches⟩ := by
  induction branches generalizing s with
  | nil => rfl
  | cons b branches ih => exact ih _

/-- The last branch of each id counts. -/
theorem branch?_foldl_addBranch (branches : List Branch) :
    (branches.foldl (fun s b => (s.addBranch b).2) s).branch? id =
      (branches.reverse.find? (·.id = id)).or (s.branch? id) := by
  rw [foldl_addBranch_eq]
  exact Registry.find?_foldl_put s.branches id branches

/-- The scene holds the first author and the last branch of each id. -/
structure Holds (s : Scene) (id : String) (span : Span) (authors : List Author)
    (branches : List Branch) : Prop where
  id_eq : s.id = id
  span_eq : s.span = span
  author?_eq : ∀ x, s.author? x = authors.find? (·.id = x)
  branch?_eq : ∀ x, s.branch? x = branches.reverse.find? (·.id = x)

theorem Holds.addAuthors {s : Scene} {id : String} {span : Span} {authors : List Author}
    {branches : List Branch} (h : s.Holds id span authors branches) (more : List Author) :
    (s.addAuthors more).Holds id span (authors ++ more) branches where
  id_eq := by rw [addAuthors_eq, h.id_eq]
  span_eq := by rw [addAuthors_eq, h.span_eq]
  author?_eq x := by rw [author?_addAuthors, h.author?_eq, List.find?_append]
  branch?_eq x := by rw [branch?_addAuthors, h.branch?_eq]

section Found

variable {s : Scene} {id : String} {span : Span} {authors : List Author} {branches : List Branch}

/-- An author that is found under an id is among those the scene is made of, and has that id. -/
theorem Holds.of_author? (h : s.Holds id span authors branches) {x : String} {a : Author}
    (ha : s.author? x = some a) : a ∈ authors ∧ a.id = x := by
  rw [h.author?_eq] at ha
  exact ⟨List.mem_of_find?_eq_some ha, by simpa using List.find?_some ha⟩

/-- A branch that is found under an id is among those the scene is made of, and has that id. -/
theorem Holds.of_branch? (h : s.Holds id span authors branches) {x : String} {b : Branch}
    (hb : s.branch? x = some b) : b ∈ branches ∧ b.id = x := by
  rw [h.branch?_eq] at hb
  exact ⟨List.mem_reverse.1 (List.mem_of_find?_eq_some hb), by simpa using List.find?_some hb⟩

end Found

theorem holds_ofDeclarations (id : String) (span : Span) (authors : List Author)
    (branches : List Branch) :
    (ofDeclarations id span authors branches).Holds id span authors branches := by
  have h : (branches.foldl (fun s b => (s.addBranch b).2) (ofSpan id span)).Holds id span []
      branches := by
    refine ⟨?_, ?_, fun x => ?_, fun x => ?_⟩
    · rw [foldl_addBranch_eq]
      rfl
    · rw [foldl_addBranch_eq]
      rfl
    · rw [foldl_addBranch_eq]
      rfl
    · rw [branch?_foldl_addBranch]
      exact Option.or_none
  exact h.addAuthors authors

end Scene
end Scenario
