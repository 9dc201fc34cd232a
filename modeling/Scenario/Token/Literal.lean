import Scenario.Text

/-!
# String literals

A string literal stands between double quotes. Between them it is a list of elements: a backslash
together with the character after it, or any other character alone. The first quote that no
backslash escapes ends the literal.

The content of a literal is read off its elements. An escape stands for its character, whatever
that is. A CR character that is not escaped stands for nothing, so a line break has one form. When
blanks collapse, spaces and tabs right after a space or a line feed stand for nothing either.
-/

namespace Scenario

/-- The piece of a string literal that is read at once. -/
inductive Element where
  | escaped (char : Char)
  | plain (char : Char)
deriving DecidableEq, Repr

namespace Element

/-- The text of an element in a script. -/
def source : Element → List Char
  | escaped c => ['\\', c]
  | plain c => [c]

def sourceAll (body : List Element) : List Char := body.flatMap source

/-- A plain element is neither a quote nor a backslash. -/
def WellFormed : Element → Prop
  | escaped _ => True
  | plain c => c ≠ '"' ∧ c ≠ '\\'

/-- The elements in front of the quote that ends a literal, and the text behind that quote. There
is nothing to return if no quote ends the literal. -/
def splitBody : List Char → Option (List Element × List Char)
  | [] => none
  | ['\\'] => none
  | '"' :: text => some ([], text)
  | '\\' :: c :: text => (splitBody text).map fun (body, rest) => (escaped c :: body, rest)
  | c :: text => (splitBody text).map fun (body, rest) => (plain c :: body, rest)

/-- The content of the elements. With `collapse`, spaces and tabs in a run of blanks are dropped
after its first character; `inRun` tells whether such a run is going on. -/
def decodeFrom (collapse : Bool) : Bool → List Element → List Char
  | _, [] => []
  | _, escaped c :: body => c :: decodeFrom collapse false body
  | inRun, plain c :: body =>
    if c = '\r' then decodeFrom collapse false body
    else if inRun && isHorizontal c then decodeFrom collapse true body
    else c :: decodeFrom collapse (collapse && (c = '\n' || c = ' ')) body

/-- The content of a literal with the given elements. -/
def decode (collapse : Bool) (body : List Element) : List Char := decodeFrom collapse false body

/-- Elements with the given content, whether blanks collapse or not. An escape is used where a
plain character would end the literal or be dropped; `afterBlank` tells whether a space or a line
feed went before. -/
def encodeFrom : Bool → List Char → List Element
  | _, [] => []
  | afterBlank, c :: content =>
    let element :=
      if c = '"' || c = '\\' || c = '\r' || (afterBlank && isHorizontal c) then escaped c
      else plain c
    element :: encodeFrom (c = '\n' || c = ' ') content

def encode (content : List Char) : List Element := encodeFrom false content

@[simp] theorem sourceAll_nil : sourceAll [] = [] := rfl

@[simp] theorem sourceAll_cons (e : Element) (body : List Element) :
    sourceAll (e :: body) = e.source ++ sourceAll body := by
  simp [sourceAll]

theorem splitBody_eq_some {text rest : List Char} {body : List Element}
    (h : splitBody text = some (body, rest)) :
    text = sourceAll body ++ '"' :: rest ∧ ∀ e ∈ body, e.WellFormed := by
  fun_induction splitBody text generalizing body rest with
  | case1 => simp at h
  | case2 => simp at h
  | case3 text => simp_all
  | case4 c text ih =>
    simp only [Option.map_eq_some_iff, Prod.mk.injEq, Prod.exists] at h
    obtain ⟨b, r, hs, rfl, rfl⟩ := h
    obtain ⟨ht, hw⟩ := ih hs
    simp_all [source, WellFormed]
  | case5 c text hend hq hb ih =>
    simp only [Option.map_eq_some_iff, Prod.mk.injEq, Prod.exists] at h
    obtain ⟨b, r, hs, rfl, rfl⟩ := h
    obtain ⟨ht, hw⟩ := ih hs
    have hc : c ≠ '\\' := by
      rintro rfl
      cases text with
      | nil => exact hend rfl rfl
      | cons d text => exact hb d text rfl rfl
    exact ⟨by simp [source, ht], List.forall_mem_cons.2 ⟨⟨hq, hc⟩, hw⟩⟩

theorem splitBody_source {body : List Element} (h : ∀ e ∈ body, e.WellFormed) (rest : List Char) :
    splitBody (sourceAll body ++ '"' :: rest) = some (body, rest) := by
  induction body with
  | nil => simp [splitBody]
  | cons e body ih =>
    have ih := ih fun e he => h e (List.mem_cons_of_mem _ he)
    cases e with
    | escaped c => simp [source, splitBody, ih]
    | plain c =>
      have hc := h (plain c) List.mem_cons_self
      simp_all [source, splitBody, WellFormed]

theorem wellFormed_encodeFrom (afterBlank : Bool) (content : List Char) :
    ∀ e ∈ encodeFrom afterBlank content, e.WellFormed := by
  induction content generalizing afterBlank with
  | nil => simp [encodeFrom]
  | cons c content ih =>
    intro e he
    simp only [encodeFrom, List.mem_cons] at he
    rcases he with rfl | he
    · split <;> simp_all [WellFormed]
    · exact ih _ e he

theorem decodeFrom_encodeFrom (collapse inRun afterBlank : Bool) (content : List Char)
    (h : inRun = true → afterBlank = true) :
    decodeFrom collapse inRun (encodeFrom afterBlank content) = content := by
  induction content generalizing inRun afterBlank with
  | nil => simp [encodeFrom, decodeFrom]
  | cons c content ih =>
    simp only [encodeFrom]
    split
    · rw [decodeFrom, ih]
      simp
    · rename_i hc
      simp only [Bool.or_eq_true, decide_eq_true_eq, Bool.and_eq_true, not_or, not_and] at hc
      have hr : (inRun && isHorizontal c) = false := by
        cases inRun <;> simp_all
      simp only [decodeFrom, if_neg hc.1.2, hr, Bool.false_eq_true, if_false]
      rw [ih]
      simp

theorem decode_encode (collapse : Bool) (content : List Char) :
    decode collapse (encode content) = content :=
  decodeFrom_encodeFrom collapse false false content (by simp)

end Element
end Scenario
