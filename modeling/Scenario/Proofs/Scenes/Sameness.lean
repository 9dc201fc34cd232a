import Mathlib.Data.List.Nodup
import Scenario.Proofs.Scenes.Changes
import Scenario.Script.Broadcast

/-!
# Operations on equal scripts

What an operation makes of a script depends, up to `==`, only on what the script says: not on where
its parts stand, nor on the order in which they were added. There is one lemma for each operation,
stated for the senses of scripts (`sense_..._congr`).

Main statement: `Scene.operations_respect_equality`.
-/

namespace Scenario

namespace Registry

variable {α : Type}

theorem lookupIn_map (f : α → α) (key : String) (entries : List (String × α)) :
    lookupIn key (entries.map fun entry => (entry.1, f entry.2)) =
      (lookupIn key entries).map f := by
  induction entries with
  | nil => rfl
  | cons entry rest ih =>
    rw [List.map_cons, lookupIn, lookupIn, ih]
    split <;> rfl

theorem find?_map (f : α → α) (r : Registry α) (key : String) :
    (r.map f).find? key = (r.find? key).map f :=
  lookupIn_map f key r.entries

end Registry

namespace Branch

/-- Where ids occur once, the order does not matter for what is found. -/
theorem find?_eq_of_perm {left right : List Branch} (h : left.Perm right)
    (hn : (left.map Branch.id).Nodup) (x : String) :
    left.find? (·.id = x) = right.find? (·.id = x) := by
  have hfind : ∀ l : List Branch, (l.map Branch.id).Nodup → ∀ b,
      l.find? (·.id = x) = some b ↔ b ∈ l ∧ b.id = x := by
    intro l hl b
    constructor
    · intro hb
      exact ⟨List.mem_of_find?_eq_some hb, by simpa using List.find?_some hb⟩
    · rintro ⟨hb, hid⟩
      have hsome : (l.find? (·.id = x)).isSome = true :=
        List.find?_isSome.2 ⟨b, hb, by simpa using hid⟩
      obtain ⟨c, hc⟩ := Option.isSome_iff_exists.1 hsome
      have hcid : c.id = x := by simpa using List.find?_some hc
      rw [hc, List.inj_on_of_nodup_map hl (List.mem_of_find?_eq_some hc) hb (hcid.trans hid.symm)]
  ext b
  rw [hfind left hn, hfind right ((h.map Branch.id).nodup_iff.1 hn), h.mem_iff]

theorem option_beq_iff (o p : Option Branch) :
    (o == p) = true ↔ o.map Branch.sense = p.map Branch.sense := by
  cases o <;> cases p <;> simp [beq_iff_sense_eq]

end Branch

namespace Scene

variable {s t : Scene}

/-- What a scene says after authors are added depends on what it said before, and on the ids of the
authors. -/
theorem sense_addAuthors_congr {authors authors' : List Author} (h : s.sense = t.sense)
    (ha : ∀ id, id ∈ authors.map Author.id ↔ id ∈ authors'.map Author.id) :
    (s.addAuthors authors).sense = (t.addAuthors authors').sense := by
  have hfind : ∀ (l : List Author) (x : String), (l.find? (·.id = x)).map Author.id =
      if x ∈ l.map Author.id then some x else none :=
    fun l => @map_find?_eq _ _ Author.id Author.id (fun x => x) l fun _ _ => rfl
  simp only [sense, Prod.mk.injEq, funext_iff] at h ⊢
  obtain ⟨hid, hauthors, hbranches⟩ := h
  refine ⟨by simpa using hid, fun id => ?_, fun id => by simpa using hbranches id⟩
  rw [author?_addAuthors, author?_addAuthors, Option.map_or, Option.map_or, hauthors, hfind, hfind]
  simp only [ha]

theorem sense_addAuthor_congr {a b : Author} (h : s.sense = t.sense) (hab : a.id = b.id) :
    (s.addAuthor a).2.sense = (t.addAuthor b).2.sense := by
  apply @sense_addAuthors_congr s t [a] [b] h
  simp [hab]

theorem addAuthor_fst_congr {a b : Author} (h : s.sense = t.sense) (hab : a.id = b.id) :
    (s.addAuthor a).1 = (t.addAuthor b).1 := by
  have hfound := congrArg Option.isSome (author?_of_sense_eq h a.id)
  simp only [Option.isSome_map] at hfound
  rw [Bool.eq_iff_iff, ← Bool.not_eq_false, ← Bool.not_eq_false, not_iff_not,
    addAuthor_fst_eq_false_iff, addAuthor_fst_eq_false_iff, hfound, hab]

theorem branch?_addBranch (s : Scene) (b : Branch) (x : String) :
    (s.addBranch b).2.branch? x = if b.id = x then some b else s.branch? x :=
  Registry.find?_put s.branches b.id x b

theorem sense_addBranch_congr {b c : Branch} (h : s.sense = t.sense) (hbc : b.sense = c.sense) :
    (s.addBranch b).2.sense = (t.addBranch c).2.sense := by
  have hid : b.id = c.id := congrArg (·.1) hbc
  have hbranch : ∀ x, ((s.addBranch b).2.branch? x).map Branch.sense =
      ((t.addBranch c).2.branch? x).map Branch.sense := by
    intro x
    rw [branch?_addBranch, branch?_addBranch, ← hid]
    split
    · rw [Option.map_some, Option.map_some, hbc]
    · exact branch?_of_sense_eq h x
  exact Prod.ext (congrArg (·.1) h) (Prod.ext (congrArg (·.2.1) h) (funext hbranch))

/-- Branches with different ids may be added in any order. -/
theorem sense_addBranches_congr {left right : List Branch} (h : s.sense = t.sense)
    (hperm : left.Perm right) (hn : (left.map Branch.id).Nodup) :
    (left.foldl (fun s b => (s.addBranch b).2) s).sense =
      (right.foldl (fun s b => (s.addBranch b).2) t).sense := by
  have hreverse : left.reverse.Perm right.reverse :=
    (List.reverse_perm left).trans (hperm.trans (List.reverse_perm right).symm)
  have hn' : (left.reverse.map Branch.id).Nodup := by
    rw [List.map_reverse, List.nodup_reverse]
    exact hn
  have hbranch : ∀ x, ((left.foldl (fun s b => (s.addBranch b).2) s).branch? x).map Branch.sense =
      ((right.foldl (fun s b => (s.addBranch b).2) t).branch? x).map Branch.sense := by
    intro x
    rw [branch?_foldl_addBranch, branch?_foldl_addBranch, Option.map_or, Option.map_or,
      Branch.find?_eq_of_perm hreverse hn', branch?_of_sense_eq h]
  rw [foldl_addBranch_eq, foldl_addBranch_eq] at hbranch ⊢
  exact Prod.ext (congrArg (·.1) h) (Prod.ext (congrArg (·.2.1) h) (funext hbranch))

/-- A step that is pushed is said behind what the branches with the id said before. -/
theorem sense_pushStep_congr (h : s.sense = t.sense) (id : String) (step : Step) :
    (s.pushStep id step).sense = (t.pushStep id step).sense := by
  let extend (b : Branch) : Branch :=
    if b.id = id then { b with block := b.block.push step } else b
  let extended (said : String × Block) : String × Block :=
    if said.1 = id then (said.1, said.2.push step) else said
  have hextend : ∀ b : Branch, (extend b).sense = extended b.sense := by
    intro b
    by_cases hb : b.id = id <;> simp [extend, extended, Branch.sense, hb]
  have hbranch : ∀ (u : Scene) (x : String), ((u.pushStep id step).branch? x).map Branch.sense =
      ((u.branch? x).map Branch.sense).map extended := by
    intro u x
    change ((u.branches.map extend).find? x).map Branch.sense = _
    rw [Registry.find?_map, Option.map_map, Option.map_map]
    exact congrArg (fun f => (u.branch? x).map f) (funext hextend)
  refine Prod.ext (congrArg (·.1) h) (Prod.ext (congrArg (·.2.1) h) (funext fun x => ?_))
  exact (hbranch s x).trans
    ((congrArg (·.map extended) (branch?_of_sense_eq h x)).trans (hbranch t x).symm)

/-- The scenes have authors and branches of the same ids, and their branches have the same steps. -/
structure Matches (s t : Scene) : Prop where
  id_eq : s.id = t.id
  author_iff : ∀ x, (∃ a ∈ s.authors.values, a.id = x) ↔ ∃ a ∈ t.authors.values, a.id = x
  branch_iff : ∀ x, (∃ b ∈ s.branches.values, b.id = x) ↔ ∃ b ∈ t.branches.values, b.id = x
  steps_eq : ∀ b ∈ s.branches.values, ∀ c ∈ t.branches.values, b.id = c.id →
    b.block.steps = c.block.steps

theorem Keyed.isSome_branch?_iff (h : s.Keyed) (x : String) :
    (s.branch? x).isSome = true ↔ ∃ b ∈ s.branches.values, b.id = x := by
  simp only [Option.isSome_iff_exists, h.branch?_eq_some_iff]

theorem Keyed.map_id_author? (h : s.Keyed) (x : String) :
    (s.author? x).map Author.id = if (s.author? x).isSome = true then some x else none := by
  cases hx : s.author? x with
  | none => rfl
  | some a => rw [Option.map_some, h.1 x a hx, if_pos Option.isSome_some]

theorem Keyed.matches_of_sense_eq (hs : s.Keyed) (ht : t.Keyed) (h : s.sense = t.sense) :
    s.Matches t where
  id_eq := congrArg (·.1) h
  author_iff x := by
    have hx := congrArg Option.isSome (author?_of_sense_eq h x)
    simp only [Option.isSome_map] at hx
    rw [← hs.isSome_author?_iff, ← ht.isSome_author?_iff, hx]
  branch_iff x := by
    have hx := congrArg Option.isSome (branch?_of_sense_eq h x)
    simp only [Option.isSome_map] at hx
    rw [← hs.isSome_branch?_iff, ← ht.isSome_branch?_iff, hx]
  steps_eq b hb c hc hid := by
    have hx := branch?_of_sense_eq h b.id
    rw [(hs.branch?_eq_some_iff b.id b).2 ⟨hb, rfl⟩,
      (ht.branch?_eq_some_iff b.id c).2 ⟨hc, hid.symm⟩] at hx
    exact congrArg (fun said => said.2.steps) (Option.some.inj hx)

theorem Matches.sense_eq (h : s.Matches t) (hs : s.Keyed) (ht : t.Keyed) : s.sense = t.sense := by
  have hauthor : ∀ x, (s.author? x).map Author.id = (t.author? x).map Author.id := by
    intro x
    simp only [hs.map_id_author?, ht.map_id_author?, hs.isSome_author?_iff, ht.isSome_author?_iff,
      h.author_iff x]
  have hbranch : ∀ x, (s.branch? x).map Branch.sense = (t.branch? x).map Branch.sense := by
    intro x
    have hx := h.branch_iff x
    rw [← hs.isSome_branch?_iff, ← ht.isSome_branch?_iff] at hx
    cases hb : s.branch? x with
    | none =>
      cases hc : t.branch? x with
      | none => rfl
      | some c => simp [hb, hc] at hx
    | some b =>
      cases hc : t.branch? x with
      | none => simp [hb, hc] at hx
      | some c =>
        obtain ⟨hbmem, rfl⟩ := (hs.branch?_eq_some_iff x b).1 hb
        obtain ⟨hcmem, hid⟩ := (ht.branch?_eq_some_iff b.id c).1 hc
        have hblock : b.block = c.block := congrArg Block.mk (h.steps_eq b hbmem c hcmem hid.symm)
        rw [Option.map_some, Option.map_some, Branch.sense, Branch.sense, hid, hblock]
  exact Prod.ext h.id_eq (Prod.ext (funext hauthor) (funext hbranch))

end Scene

namespace Document

variable {d e : Document}

theorem map_eq_map_iff_forall₂ {α β γ : Type} {f : α → γ} {g : β → γ} {left : List α}
    {right : List β} :
    left.map f = right.map g ↔ List.Forall₂ (fun a b => f a = g b) left right := by
  rw [← List.forall₂_eq_eq_eq, List.forall₂_map_left_iff, List.forall₂_map_right_iff]

theorem sense_broadcast_congr (h : d.sense = e.sense) : d.broadcast.sense = e.broadcast.sense := by
  obtain ⟨hscenes, hauthors⟩ := Prod.mk.inj h
  have hsame : (d.scenes.map fun s => (s.addAuthors d.authors).sense) =
      e.scenes.map fun t => (t.addAuthors e.authors).sense := by
    rw [map_eq_map_iff_forall₂] at hscenes ⊢
    exact hscenes.imp fun s t hst => Scene.sense_addAuthors_congr hst (by simp [hauthors])
  simp only [sense, broadcast, List.map_map, Function.comp_def, hsame, hauthors]

theorem sense_set_congr {s t : Scene} (h : d.sense = e.sense) (hst : s.sense = t.sense) (i : Nat) :
    sense ⟨d.scenes.set i s, d.authors⟩ = sense ⟨e.scenes.set i t, e.authors⟩ := by
  obtain ⟨hscenes, hauthors⟩ := Prod.mk.inj h
  simp only [sense, List.map_set, hscenes, hauthors, hst]

end Document

/-- Equality of scripts does not see spans, nor the order in which things were added, and neither
does anything that can be done with scripts.

It is an equivalence relation, and scenes that have been made step by step are equal if their
authors and branches have the same ids and their branches the same steps. Authors may be added in
any order, and so may branches with different ids. From equal scripts and equal parts an operation
makes equal scripts, and it gives equal answers. -/
theorem Scene.operations_respect_equality :
    (Equivalence (fun s t : Scene => (s == t) = true) ∧
      Equivalence fun d e : Document => (d == e) = true) ∧
    (∀ s t : Scene, s.Reached → t.Reached → ((s == t) = true ↔ s.Matches t)) ∧
    (∀ s t : Scene, (s == t) = true →
      (∀ left right : List Author, left.Perm right →
        (s.addAuthors left == t.addAuthors right) = true) ∧
      (∀ left right : List Branch, left.Perm right → (left.map Branch.id).Nodup →
        (left.foldl (fun s b => (s.addBranch b).2) s ==
          right.foldl (fun s b => (s.addBranch b).2) t) = true) ∧
      (∀ a b : Author, (a == b) = true → (s.addAuthor a).1 = (t.addAuthor b).1 ∧
        ((s.addAuthor a).2 == (t.addAuthor b).2) = true) ∧
      (∀ b c : Branch, (b == c) = true → ((s.addBranch b).1 == (t.addBranch c).1) = true ∧
        ((s.addBranch b).2 == (t.addBranch c).2) = true) ∧
      ∀ id step, (s.pushStep id step == t.pushStep id step) = true) ∧
    ∀ d e : Document, (d == e) = true →
      (d.broadcast == e.broadcast) = true ∧
      (∀ (i : Nat) (s : Scene), d.scenes[i]? = some s →
        ∃ t, e.scenes[i]? = some t ∧ (s == t) = true) ∧
      ∀ (i : Nat) (s t : Scene), (s == t) = true →
        ((⟨d.scenes.set i s, d.authors⟩ : Document) == ⟨e.scenes.set i t, e.authors⟩) = true := by
  refine ⟨⟨?_, ?_⟩, fun s t hs ht => ?_, fun s t hst => ⟨?_, ?_, ?_, ?_, ?_⟩,
    fun d e hde => ⟨?_, ?_, ?_⟩⟩
  · simp only [beq_iff]
    exact eq_equivalence.comap Scene.sense
  · simp only [Document.beq_iff]
    exact eq_equivalence.comap Document.sense
  · rw [beq_iff]
    exact ⟨hs.keyed.matches_of_sense_eq ht.keyed, fun h => h.sense_eq hs.keyed ht.keyed⟩
  all_goals simp only [beq_iff, Document.beq_iff, Branch.option_beq_iff, Author.beq_iff,
    Branch.beq_iff_sense_eq] at *
  · exact fun left right h => sense_addAuthors_congr hst fun id => (h.map Author.id).mem_iff
  · exact fun left right h hn => sense_addBranches_congr hst h hn
  · exact fun a b hab => ⟨addAuthor_fst_congr hst hab, sense_addAuthor_congr hst hab⟩
  · intro b c hbc
    have hid : b.id = c.id := congrArg (·.1) hbc
    have hreplaced : (s.branch? b.id).map Branch.sense = (t.branch? c.id).map Branch.sense := by
      rw [← hid]
      exact branch?_of_sense_eq hst b.id
    exact ⟨hreplaced, sense_addBranch_congr hst hbc⟩
  · exact sense_pushStep_congr hst
  · exact Document.sense_broadcast_congr hde
  · intro i s hs
    have hscenes := congrArg (fun said => said.1[i]?) hde
    simp only [Document.sense, List.getElem?_map, hs, Option.map_some] at hscenes
    obtain ⟨t, ht, hst⟩ := Option.map_eq_some_iff.1 hscenes.symm
    exact ⟨t, ht, hst.symm⟩
  · exact fun i s t hst => Document.sense_set_congr hde hst i

/-- Two scenes with the same two authors and two branches, added in different orders and standing in
different places, and the documents that hold them. -/
theorem Scene.operations_respect_equality_order :
    let authors : List Author := [⟨"a", ⟨0, 1⟩⟩, ⟨"b", ⟨2, 1⟩⟩]
    let branches : List Branch := [.ofSpan "x" ⟨4, 1⟩, ⟨"y", ⟨[.finish]⟩, ⟨6, 1⟩⟩]
    let empty : Scene := .ofSpan "s" ⟨0, 9⟩
    let moved : Scene := .ofSpan "s" ⟨20, 9⟩
    let add (s : Scene) (b : Branch) : Scene := (s.addBranch b).2
    (empty == moved) = true ∧ authors.Perm authors.reverse ∧
    (empty.addAuthors authors == moved.addAuthors authors.reverse) = true ∧
    branches.Perm branches.reverse ∧ (branches.map Branch.id).Nodup ∧
    (branches.foldl add empty == branches.reverse.foldl add moved) = true ∧
    (empty.addBranch (.ofSpan "x" ⟨4, 1⟩)).2.Reached ∧
    (moved.addBranch (.ofSpan "x" ⟨24, 1⟩)).2.Reached ∧
    (empty.addBranch (.ofSpan "x" ⟨4, 1⟩)).2.Matches (moved.addBranch (.ofSpan "x" ⟨24, 1⟩)).2 ∧
    (Document.broadcast ⟨[empty], authors⟩ == Document.broadcast ⟨[moved], authors⟩) = true := by
  intro authors branches empty moved add
  have hempty : (empty == moved) = true := by with_unfolding_all rfl
  have hauthors : authors.Perm authors.reverse := (List.reverse_perm authors).symm
  have hbranches : branches.Perm branches.reverse := (List.reverse_perm branches).symm
  have hnodup : (branches.map Branch.id).Nodup := by decide
  have hx : (Branch.ofSpan "x" ⟨4, 1⟩ == Branch.ofSpan "x" ⟨24, 1⟩) = true := by
    with_unfolding_all rfl
  have hs : (empty.addBranch (.ofSpan "x" ⟨4, 1⟩)).2.Reached :=
    ⟨"s", ⟨0, 9⟩, .single (.addBranch _ _)⟩
  have ht : (moved.addBranch (.ofSpan "x" ⟨24, 1⟩)).2.Reached :=
    ⟨"s", ⟨20, 9⟩, .single (.addBranch _ _)⟩
  have hdocuments : ((⟨[empty], authors⟩ : Document) == ⟨[moved], authors⟩) = true := by
    with_unfolding_all rfl
  obtain ⟨-, hmatches, hscenes, hbroadcast⟩ := operations_respect_equality
  obtain ⟨hperm, hpermBranches, -, hadd, -⟩ := hscenes empty moved hempty
  exact ⟨hempty, hauthors, hperm _ _ hauthors, hbranches, hnodup,
    hpermBranches _ _ hbranches hnodup, hs, ht, (hmatches _ _ hs ht).1 (hadd _ _ hx).2,
    (hbroadcast _ _ hdocuments).1⟩

end Scenario
