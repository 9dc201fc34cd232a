import Scenario.Proofs.Lexing.Tiling

/-!
# Spaced text

A text that shows tokens one after the other, with blanks between any two of them, is split into
just these tokens. How many blanks there are, and which ones, does not matter. The text that
`Token.printAll` prints is of this sort.
-/

namespace Scenario

/-- The text shows tokens with the given contents, with blanks between any two of them. -/
inductive Spaced : List (Kind × String) → List Char → Prop
  | nil {gap : List Char} : (∀ c ∈ gap, isBlank c = true) → Spaced [] gap
  | cons {gap rest : List Char} {kind : Kind} {value : String} {contents : List (Kind × String)} :
      (∀ c ∈ gap, isBlank c = true) → (∀ c ∈ rest.head?, isBlank c = true) →
      Spaced contents rest → Spaced ((kind, value) :: contents) (gap ++ (kind.print value ++ rest))

namespace Spaced

variable {contents : List (Kind × String)} {text : List Char}

theorem append_gap {gap : List Char} (hg : ∀ c ∈ gap, isBlank c = true)
    (h : Spaced contents text) : Spaced contents (gap ++ text) := by
  have happend : ∀ gap' : List Char, (∀ c ∈ gap', isBlank c = true) →
      ∀ c ∈ gap ++ gap', isBlank c = true :=
    fun gap' hg' => List.forall_mem_append.2 ⟨hg, hg'⟩
  cases h with
  | nil hg' => exact .nil (happend text hg')
  | @cons gap' rest kind value contents hg' hr h =>
    rw [← List.append_assoc]
    exact .cons (happend gap' hg') hr h

theorem printAll (contents : List (Kind × String)) : Spaced contents (Token.printAll contents) := by
  induction contents with
  | nil => exact .nil (by simp [Token.printAll])
  | cons content contents ih =>
    obtain ⟨kind, value⟩ := content
    cases contents with
    | nil =>
      have hlast : Spaced [(kind, value)] ([] ++ (kind.print value ++ [])) :=
        .cons (by simp) (by simp) (.nil (by simp))
      simpa [Token.printAll] using hlast
    | cons next contents =>
      have hspace : ∀ c ∈ [' '], isBlank c = true := List.forall_mem_singleton.2 rfl
      have hmore := @Spaced.cons [] _ kind value _ (by simp)
        (by simpa using hspace) (ih.append_gap hspace)
      simpa [Token.printAll, List.intercalate] using hmore

/-- Spaced text falls into tokens with the contents that it shows, if comments are kept or there
are none. -/
theorem exists_tiling_keeping (h : Spaced contents text) {keep : Bool}
    (ha : ∀ content ∈ contents, content.1.Admits content.2 ∧ (keep = true ∨ content.1 ≠ .comment))
    (base : Nat) (collapse : Bool) :
    ∃ tiles tokens, Tiling base text tiles ∧
      Tile.items collapse keep tiles = List.map .token tokens ∧
      tokens.map Token.content = contents := by
  induction h generalizing base with
  | nil hg => exact ⟨[], [], .nil hg, rfl, rfl⟩
  | @cons gap rest kind value contents hg hr _ ih =>
    obtain ⟨hadmits, hk⟩ := ha (kind, value) List.mem_cons_self
    obtain ⟨l, tail, hprint, htail, hstands, hc, hitem⟩ := Lexeme.exists_print_eq hadmits
    obtain ⟨tiles, tokens, ht, hi, hcontents⟩ :=
      ih (fun content hmem => ha content (List.mem_cons_of_mem _ hmem))
        (base + byteLength gap + byteLength l.source + byteLength tail)
    have hkept : (keep || !l.isComment) = true := by
      rcases hk with rfl | hk
      · rfl
      · have hl : l.isComment = false := Bool.eq_false_iff.2 fun hl => hk (hc.1 hl)
        simp [hl]
    rw [hprint, List.append_assoc]
    refine ⟨_, ⟨kind, value, ⟨base + byteLength gap, byteLength l.source⟩⟩ :: tokens,
      .cons hg (hstands rest hr) (.append_gap htail ht), ?_, ?_⟩
    · rw [Tile.items_cons, if_pos hkept, hitem, hi]
      rfl
    · rw [List.map_cons, hcontents]
      rfl

/-- Spaced text falls into tokens with the contents that it shows. -/
theorem exists_tiling (h : Spaced contents text)
    (ha : ∀ content ∈ contents, content.1.Admits content.2 ∧ content.1 ≠ .comment) (base : Nat)
    (collapse : Bool) :
    ∃ tiles tokens, Tiling base text tiles ∧
      Tile.items collapse false tiles = List.map .token tokens ∧
      tokens.map Token.content = contents :=
  h.exists_tiling_keeping (fun content hmem => ⟨(ha content hmem).1, .inr (ha content hmem).2⟩)
    base collapse

end Spaced
end Scenario
