import Scenario.Proofs.Grammar.Acceptance
import Scenario.Proofs.Passing

/-!
# Balanced braces

The height of a state is the number of braces that have been opened and are still to be closed: one
for a scene, one for the body of each declaration that is being read, and one for each brace that is
open in such a body. If braces nest, and none may be missing or is skipped, each token changes the
height as its kind has it (`OpenScene.lifts_of_moves`, `LoneAuthor.lifts_of_moves`).

Main statement: `Target.exists_balanced`. The braces of what is accepted are balanced, since the
height is zero before the first token and behind the last one.
-/

namespace Scenario
namespace Token

/-- The number of opening braces. -/
def opens (text : List Token) : Nat := text.countP (·.kind = .openBrace)

/-- The number of closing braces. -/
def closes (text : List Token) : Nat := text.countP (·.kind = .closeBrace)

/-- The braces of the text form a balanced word. -/
structure Balanced (text : List Token) : Prop where
  closes_le : ∀ front, front <+: text → closes front ≤ opens front
  closes_eq : closes text = opens text

/-- The token changes a height as its kind has it. -/
def Lifts (t : Token) (before behind : Nat) : Prop :=
  match t.kind with
  | .openBrace => behind = before + 1
  | .closeBrace => before = behind + 1
  | _ => behind = before

/-- The tokens lead from one height to another, each as its kind has it, and never below `low`. -/
inductive Climbs (low : Nat) : List Token → Nat → Nat → Prop
  | nil {n : Nat} : low ≤ n → Climbs low [] n n
  | cons {t : Token} {text : List Token} {before mid behind : Nat} : low ≤ before →
      t.Lifts before mid → Climbs low text mid behind → Climbs low (t :: text) before behind

variable {t : Token} {text front : List Token} {low before behind : Nat}

theorem Lifts.add_closes_cons (h : t.Lifts before behind) (text : List Token) :
    behind + closes (t :: text) + opens text = before + opens (t :: text) + closes text := by
  unfold Lifts at h
  unfold opens closes
  split at h
  · rename_i hk
    rw [List.countP_cons_of_neg (by simp [hk]), List.countP_cons_of_pos (by simp [hk])]
    omega
  · rename_i hk
    rw [List.countP_cons_of_pos (by simp [hk]), List.countP_cons_of_neg (by simp [hk])]
    omega
  · rename_i ho hc
    rw [List.countP_cons_of_neg (by simpa using hc), List.countP_cons_of_neg (by simpa using ho)]
    omega

theorem Climbs.low_le_before (h : Climbs low text before behind) : low ≤ before := by
  cases h <;> assumption

theorem Climbs.low_le (h : Climbs low text before behind) : low ≤ behind := by
  induction h with
  | nil hle => exact hle
  | cons _ _ _ ih => exact ih

/-- The height is counted by the braces. -/
theorem Climbs.add_closes_eq (h : Climbs low text before behind) :
    behind + closes text = before + opens text := by
  induction h with
  | nil _ => rfl
  | @cons t text before mid behind _ hlifts _ ih =>
    have hcount := hlifts.add_closes_cons text
    omega

theorem Climbs.exists_of_prefix (h : Climbs low text before behind) (hf : front <+: text) :
    ∃ n, Climbs low front before n := by
  induction h generalizing front with
  | @nil n hle =>
    rw [List.prefix_nil.1 hf]
    exact ⟨n, .nil hle⟩
  | @cons t text before mid behind hle hlifts _ ih =>
    rcases List.prefix_cons_iff.1 hf with rfl | ⟨front, rfl, hf⟩
    · exact ⟨before, .nil hle⟩
    · obtain ⟨n, hn⟩ := ih ((List.prefix_cons_inj t).1 hf)
      exact ⟨n, .cons hle hlifts hn⟩

/-- Tokens that lead back to the height from which they start, and never below it, are balanced. -/
theorem Climbs.balanced (h : Climbs low text low low) : Balanced text where
  closes_le front hf := by
    obtain ⟨n, hn⟩ := h.exists_of_prefix hf
    have hle := hn.low_le
    have hcount := hn.add_closes_eq
    omega
  closes_eq := Nat.add_left_cancel h.add_closes_eq

theorem exists_lifts (h : closes [t] + low ≤ before + opens [t]) (hle : low ≤ before) :
    ∃ behind, low ≤ behind ∧ t.Lifts before behind := by
  unfold Lifts
  split
  · exact ⟨before + 1, by omega, rfl⟩
  · rename_i hk
    simp only [closes, opens, List.countP_singleton, hk, decide_true, if_true, reduceCtorEq,
      decide_false, Bool.false_eq_true, if_false] at h
    exact ⟨before - 1, by omega, by omega⟩
  · exact ⟨before, hle, rfl⟩

/-- Tokens lead to some height if no front of them closes too many braces. -/
theorem exists_climbs (hle : low ≤ before)
    (h : ∀ front, front <+: text → closes front + low ≤ before + opens front) :
    ∃ behind, Climbs low text before behind := by
  induction text generalizing before with
  | nil => exact ⟨before, .nil hle⟩
  | cons t text ih =>
    obtain ⟨mid, hmid, hlifts⟩ := exists_lifts (h [t] (by simp)) hle
    obtain ⟨behind, hrest⟩ := ih hmid fun front hf => by
      have hfront := h (t :: front) ((List.prefix_cons_inj t).2 hf)
      have hcount := hlifts.add_closes_cons front
      omega
    exact ⟨behind, .cons hle hlifts hrest⟩

/-- Balanced tokens lead from any height back to it, and never below it. -/
theorem Balanced.climbs (h : Balanced text) (low : Nat) : Climbs low text low low := by
  obtain ⟨behind, hclimbs⟩ := exists_climbs (Nat.le_refl low) fun front hf => by
    have hle := h.closes_le front hf
    omega
  have hcount := hclimbs.add_closes_eq
  have hbehind : behind = low := by
    have heq := h.closes_eq
    omega
  rwa [hbehind] at hclimbs

theorem lifts_open (h : t.kind = .openBrace) (n : Nat) : t.Lifts n (n + 1) := by
  simp [Lifts, h]

theorem lifts_close (h : t.kind = .closeBrace) (n : Nat) : t.Lifts (n + 1) n := by
  simp [Lifts, h]

theorem lifts_other (ho : t.kind ≠ .openBrace) (hc : t.kind ≠ .closeBrace) (n : Nat) :
    t.Lifts n n := by
  unfold Lifts
  split
  · exact (ho ‹_›).elim
  · exact (hc ‹_›).elim
  · rfl

theorem Lifts.succ {before behind : Nat} (h : t.Lifts before behind) :
    t.Lifts (before + 1) (behind + 1) := by
  unfold Lifts at h ⊢
  split at h <;> omega

end Token

/-- The height when there is a turn, if the part that is done has no open brace left. -/
def Turn.height {ρ α : Type} (height : ρ → Nat) : Turn ρ α → Nat
  | .more rest => height rest
  | .done _ => 0

/-! ### Heights of parts -/

variable {d : Dialect} {t : Token}

namespace Declaration

/-- The braces that are open: that of the body, and those in the body. -/
def height : Declaration → Nat
  | inside _ depth => depth + 1
  | _ => 0

/-- Where no brace may be missing, only a brace leads into a body. -/
theorem enter_eq_self (ho : d.optionalBodyBrace = false) (decl : Declaration) :
    decl.enter d t = decl := by
  cases decl with
  | named header => simp [enter, ho]
  | _ => rfl

theorem lifts_of_moves (hb : d.balancedBodyBraces = true) {decl : Declaration}
    {turn : Turn Declaration (Header × Span)} (h : Moves d t decl turn) :
    t.Lifts decl.height (turn.height height) := by
  cases h with
  | name hk => exact Token.lifts_other (by simp [hk]) (by simp [hk]) 0
  | brace hk => exact Token.lifts_open hk 0
  | close hk => exact Token.lifts_close hk 0
  | leave hk => exact Token.lifts_close hk _
  | deepen _ hk => exact Token.lifts_open hk _
  | filler hf => exact Token.lifts_other (hf.2 hb) hf.1 _

/-- Behind the keyword of a branch the height is that of the body in which it stands. -/
theorem lifts_of_branchPlace? (ho : d.optionalBodyBrace = false) {decl : Declaration}
    {header : Header} (h : decl.branchPlace? d t = some header) : t.Lifts decl.height 1 := by
  obtain ⟨he, hk⟩ := branchPlace?_eq_some_iff.1 h
  rw [enter_eq_self ho] at he
  subst he
  exact Token.lifts_other (by simp [hk]) (by simp [hk]) 1

end Declaration

namespace LoneAuthor

def height : LoneAuthor → Nat
  | reading decl => decl.height
  | stray _ _ => 1

theorem lifts_of_moves (hb : d.balancedBodyBraces = true) (ho : d.optionalBodyBrace = false)
    {a : LoneAuthor} {turn : Turn LoneAuthor Author} (h : Moves d t a turn) :
    t.Lifts a.height (turn.height height) := by
  cases h with
  | decl _ hm =>
    rw [Declaration.enter_eq_self ho] at hm
    exact Declaration.lifts_of_moves hb hm
  | close _ hm _ =>
    rw [Declaration.enter_eq_self ho] at hm
    exact Declaration.lifts_of_moves hb hm
  | stray hp => exact Declaration.lifts_of_branchPlace? ho hp

end LoneAuthor

/-- The braces that are open in a scene, apart from its own. A branch in the body of an author
stands behind the brace of that body. -/
def Place.height : Place → Nat
  | items => 0
  | author decl => decl.height
  | branch none decl => decl.height
  | branch (some _) decl => decl.height + 1

theorem Place.height_behindBranch (host : Option Header) (header : Header) :
    (branch host (.inside header 0)).height = (behindBranch host).height + 1 := by
  cases host <;> rfl

namespace OpenScene

def height : OpenScene → Nat
  | inside _ place => place.height + 1
  | _ => 0

theorem lifts_of_branch_moves (hb : d.balancedBodyBraces = true) {s : SceneDraft}
    {host : Option Header} {decl decl' : Declaration}
    (h : Declaration.Moves d t decl (.more decl')) :
    t.Lifts (inside s (.branch host decl)).height (inside s (.branch host decl')).height := by
  have hl : t.Lifts decl.height decl'.height := Declaration.lifts_of_moves hb h
  cases host with
  | none => exact hl.succ
  | some header => exact hl.succ.succ

/-- A token that is skipped between the authors and branches of a scene may be a brace. -/
theorem lifts_of_moves (hb : d.balancedBodyBraces = true) (ho : d.optionalBodyBrace = false)
    {s : OpenScene} {is : List Issue} {turn : Turn OpenScene Scene}
    (hs : d.lenientSceneItems = true → ∀ draft, s ≠ inside draft .items)
    (h : Moves d t s is turn) : t.Lifts s.height (turn.height height) := by
  cases h with
  | name hk => exact Token.lifts_other (by simp [hk]) (by simp [hk]) 0
  | brace hk => exact Token.lifts_open hk 0
  | author hk => exact Token.lifts_other (by simp [hk]) (by simp [hk]) 1
  | branch hk => exact Token.lifts_other (by simp [hk]) (by simp [hk]) 1
  | close hk _ => exact Token.lifts_close hk 0
  | stray hl _ => exact (hs hl _ rfl).elim
  | inAuthor _ hm =>
    rw [Declaration.enter_eq_self ho] at hm
    exact (Declaration.lifts_of_moves hb hm).succ
  | authorEnd _ hm _ =>
    rw [Declaration.enter_eq_self ho] at hm
    exact (Declaration.lifts_of_moves hb hm).succ
  | nested hp => exact (Declaration.lifts_of_branchPlace? ho hp).succ
  | inBranch hm =>
    rw [Declaration.enter_eq_self ho] at hm
    exact lifts_of_branch_moves hb hm
  | @branchEnd s s' host decl header close span is hm _ _ =>
    rw [Declaration.enter_eq_self ho] at hm
    cases hm with
    | @close header hk =>
      change t.Lifts ((Place.branch host (.inside header 0)).height + 1)
        ((Place.behindBranch host).height + 1)
      rw [Place.height_behindBranch]
      exact Token.lifts_close hk _

end OpenScene

/-! ### Heights of whole runs -/

namespace Machine

variable {σ α : Type} {m : Machine σ α}

/-- If each step changes the height of the state as the token has it, and there is a result only at
height zero, then the tokens of what is accepted lead down to zero. -/
theorem exists_climbs_of_accepts {height : σ → Nat} (hm : m.ReadsOn)
    (hstep : ∀ s t is js s', m.step s t = ⟨is, .ok (.more ⟨js, .ok s'⟩)⟩ →
      t.Lifts (height s) (height s'))
    (hfinish : ∀ s stop is value, m.finish s stop = ⟨is, .ok value⟩ → height s = 0)
    {last : Span} {s : σ} {items : List Item} {issues : List Issue} {value : α}
    (h : m.Accepts last s items issues value) :
    ∃ text, Item.contents items = some text ∧ Token.Climbs 0 text (height s) 0 := by
  induction items generalizing last s issues with
  | nil =>
    obtain ⟨stop, -, hf⟩ := accepts_nil_iff.1 h
    rw [hfinish s stop issues value hf]
    exact ⟨[], rfl, .nil (Nat.zero_le 0)⟩
  | cons item rest ih =>
    cases item with
    | error e => exact (not_accepts_error h).elim
    | fault f => exact (not_accepts_fault h).elim
    | token t =>
      by_cases hc : t.kind = .comment
      · rw [Item.contents_comment hc]
        exact ih ((accepts_comment_iff hc).1 h)
      by_cases he : t.kind = .eof
      · rw [hfinish s _ issues value ((accepts_eof_iff he).1 h), Item.contents_eof he]
        exact ⟨[], rfl, .nil (Nat.zero_le 0)⟩
      rcases (accepts_plain_iff ⟨hc, he⟩).1 h with hs | ⟨is, _, js, s', ks, hs, rfl, ha, -⟩
      · exact (hm.step_more _ _ _ _ hs).elim
      obtain ⟨text, htext, hclimbs⟩ := ih ha
      refine ⟨t :: text, ?_, .cons (Nat.zero_le _) (hstep s t is js s' hs) hclimbs⟩
      rw [Item.contents_plain ⟨hc, he⟩, htext]
      rfl

end Machine

namespace OpenDocument

def height : OpenDocument → Nat
  | items _ => 0
  | author _ rest => rest.height
  | scene _ rest => rest.height

theorem lifts_of_step (hb : d.balancedBodyBraces = true) (ho : d.optionalBodyBrace = false)
    (hl : d.lenientSceneItems = false) {o o' : OpenDocument} {is js : List Issue}
    (h : (machine d).step o t = ⟨is, .ok (.more ⟨js, .ok o'⟩)⟩) :
    t.Lifts o.height o'.height := by
  cases o with
  | items document =>
    obtain ⟨-, ⟨hk, hturn⟩ | ⟨hk, hturn⟩⟩ := step_items_cases h
    · cases hturn
      exact Token.lifts_other (by simp [hk]) (by simp [hk]) 0
    · cases hturn
      exact Token.lifts_other (by simp [hk]) (by simp [hk]) 0
  | author document rest =>
    obtain ⟨turn, hs, rfl⟩ := (hosts_author document).exists_settle h
    have hlifts := LoneAuthor.lifts_of_moves hb ho (LoneAuthor.settle_eq_ok_iff.1 hs).2
    cases turn <;> exact hlifts
  | scene document rest =>
    obtain ⟨turn, hs, rfl⟩ := (hosts_scene document).exists_settle h
    have hlifts := OpenScene.lifts_of_moves hb ho (by simp [hl]) (OpenScene.settle_eq_ok_iff.1 hs)
    cases turn <;> exact hlifts

end OpenDocument

namespace Sole

variable {ρ α : Type}

def height (inner : ρ → Nat) : Sole ρ α → Nat
  | start => 0
  | reading rest => inner rest
  | complete _ => 0

theorem lifts_of_step {keyword : Keyword} {first : Span → ρ}
    {step : ρ → Token → Verdict (Verdict (Turn ρ α))} {unfinished : ρ → Span → Issue}
    {inner : ρ → Nat} {s s' : Sole ρ α} {is js : List Issue}
    (h : (machine keyword first step unfinished .whole).step s t =
      ⟨is, .ok (.more ⟨js, .ok s'⟩)⟩) (hfirst : ∀ span, inner (first span) = 0)
    (hstep : ∀ r is turn, settle step r t = ⟨is, .ok turn⟩ →
      t.Lifts (inner r) (turn.height inner)) : t.Lifts (s.height inner) (s'.height inner) := by
  cases s with
  | start =>
    simp only [machine] at h
    split at h
    · rename_i hk
      obtain ⟨-, hturn⟩ := Verdict.pure_eq_ok_iff.1 h
      cases hturn
      have hlifts : t.Lifts 0 0 := Token.lifts_other (by simp [hk]) (by simp [hk]) 0
      rw [show (reading (first t.span) : Sole ρ α).height inner = 0 from hfirst t.span]
      exact hlifts
    · exact (Verdict.reject_ne_ok h).elim
  | reading rest =>
    obtain ⟨turn, hs, rfl⟩ := (hosts_machine .whole).exists_settle h
    have hlifts := hstep rest _ turn hs
    cases turn <;> exact hlifts
  | complete value => exact (Verdict.reject_ne_ok h).elim

theorem height_of_finish {keyword : Keyword} {first : Span → ρ}
    {step : ρ → Token → Verdict (Verdict (Turn ρ α))} {unfinished : ρ → Span → Issue}
    {inner : ρ → Nat} {s : Sole ρ α} {stop : Span} {is : List Issue} {value : α}
    (h : (machine keyword first step unfinished .whole).finish s stop = ⟨is, .ok value⟩) :
    s.height inner = 0 := by
  cases s with
  | start => exact (Verdict.reject_ne_ok h).elim
  | reading rest => exact (Verdict.reject_ne_ok h).elim
  | complete value => rfl

end Sole

namespace Target

/-- The number of braces that are open in a target. -/
def height : (target : Target) → target.State → Nat
  | document => OpenDocument.height
  | scene => Sole.height OpenScene.height
  | author => Sole.height LoneAuthor.height

variable {target : Target}

theorem lifts_of_step (hb : d.balancedBodyBraces = true) (ho : d.optionalBodyBrace = false)
    (hl : d.lenientSceneItems = false) {s s' : target.State} {is js : List Issue}
    (h : (target.machine d .whole).step s t = ⟨is, .ok (.more ⟨js, .ok s'⟩)⟩) :
    t.Lifts (target.height s) (target.height s') := by
  cases target with
  | document => exact OpenDocument.lifts_of_step hb ho hl h
  | scene =>
    refine Sole.lifts_of_step h (fun _ => rfl) fun r is turn hs => ?_
    exact OpenScene.lifts_of_moves hb ho (by simp [hl]) (OpenScene.settle_eq_ok_iff.1 hs)
  | author =>
    refine Sole.lifts_of_step h (fun _ => rfl) fun r is turn hs => ?_
    exact LoneAuthor.lifts_of_moves hb ho (LoneAuthor.settle_eq_ok_iff.1 hs).2

theorem height_of_finish {s : target.State} {stop : Span} {is : List Issue} {value : target.Node}
    (h : (target.machine d .whole).finish s stop = ⟨is, .ok value⟩) : target.height s = 0 := by
  cases target with
  | document =>
    cases s with
    | items document => rfl
    | author document rest => exact (Verdict.reject_ne_ok h).elim
    | scene document rest => exact (Verdict.reject_ne_ok h).elim
  | scene => exact Sole.height_of_finish h
  | author => exact Sole.height_of_finish h

/-- If braces nest, and none may be missing or is skipped, then the braces of what is accepted are
balanced. -/
theorem exists_balanced (hb : d.balancedBodyBraces = true) (ho : d.optionalBodyBrace = false)
    (hl : d.lenientSceneItems = false) {base : Nat} {items : List Item} {value : target.Node}
    (h : (target.read d .whole base items).result = .ok value) :
    ∃ text, Item.contents items = some text ∧ Token.Balanced text := by
  obtain ⟨issues, hread⟩ := Verdict.result_eq_ok_iff.1 h
  obtain ⟨text, htext, hclimbs⟩ := Machine.exists_climbs_of_accepts readsOn_machine
    (fun _ _ _ _ _ => lifts_of_step hb ho hl) (fun _ _ _ _ => height_of_finish) hread
  have hstart : target.height (target.machine d .whole).start = 0 := by
    cases target <;> rfl
  rw [hstart] at hclimbs
  exact ⟨text, htext, hclimbs.balanced⟩

end Target
end Scenario
