import ClassCollapse.Naming.Request
import ClassCollapse.Proofs.Json.Compact
import ClassCollapse.Proofs.Naming.PercentEncoding

/-!
# What a request says

The URL of a request holds the whole prompt, and the last line of the prompt holds the whole element
in question. So requests to one endpoint differ wherever their elements do.
-/

namespace ClassCollapse.Naming

/-! ## Prompts -/

/-- The text after the last line feed, or the whole text if there is none. -/
def lastLine (s : String) : String :=
  String.ofList (s.toList.reverse.takeWhile (· ≠ '\n')).reverse

theorem lastLine_append (front : String) {line : String} (h : '\n' ∉ line.toList) :
    lastLine (front ++ "\n" ++ line) = line := by
  have hReverse : (front ++ "\n" ++ line).toList.reverse =
      line.toList.reverse ++ '\n' :: front.toList.reverse := by
    rw [String.toList_append, String.toList_append, List.reverse_append, List.reverse_append]
    rfl
  have hLine : ∀ c ∈ line.toList.reverse, decide (c ≠ '\n') = true := by
    intro c hc
    rw [decide_eq_true_eq]
    rintro rfl
    exact h (List.mem_reverse.mp hc)
  have hStop : ∀ c ∈ ('\n' :: front.toList.reverse).head?, decide (c ≠ '\n') = false := by
    intro c hc
    cases hc
    rfl
  rw [lastLine, hReverse, (Text.span_run hLine hStop).1, List.reverse_reverse,
    String.ofList_toList]

theorem element_eq_ofTexts (tag : Option String) (classList : String) :
    element tag classList = Json.ofTexts [("class", classList), ("tag", tag.getD "")] := rfl

theorem newline_notMem_compact (tag : Option String) (classList : String) :
    '\n' ∉ (element tag classList).compact.toList := by
  rw [element_eq_ofTexts]
  intro hMem
  exact absurd (Json.le_of_mem_compact hMem) (by decide)

/-- The prompt goes on with a new line for the element. -/
theorem exists_preamble_eq : ∃ front, preamble = front ++ "\n" := by
  have hEnd : "Answer with the class name only, wrapped like <result>class-name</result>.\n" =
      "Answer with the class name only, wrapped like <result>class-name</result>." ++ "\n" := rfl
  rw [preamble, hEnd, ← String.append_assoc]
  exact ⟨_, rfl⟩

theorem lastLine_prompt (tag : Option String) (classList : String) :
    lastLine (prompt tag classList) = (element tag classList).compact ++ " -> " := by
  obtain ⟨front, hFront⟩ := exists_preamble_eq
  rw [prompt, hFront, String.append_assoc]
  apply lastLine_append
  rw [String.toList_append, List.mem_append, not_or]
  constructor
  · exact newline_notMem_compact tag classList
  · decide

theorem texts?_parse?_element (tag : Option String) (classList : String) :
    (Json.parse? (element tag classList).compact).bind Json.texts? =
      some [("class", classList), ("tag", tag.getD "")] := by
  rw [element_eq_ofTexts, Json.parse?_compact]
  exact Json.texts?_ofTexts _

/-- Prompts differ wherever their elements do; no tag counts as the empty tag. -/
theorem prompt_eq_iff (tag tag' : Option String) (classList classList' : String) :
    prompt tag classList = prompt tag' classList' ↔
      classList = classList' ∧ tag.getD "" = tag'.getD "" := by
  constructor
  · intro h
    have hLine := congrArg lastLine h
    rw [lastLine_prompt, lastLine_prompt] at hLine
    have hObject := (String.append_left_inj " -> ").mp hLine
    have hTexts := texts?_parse?_element tag classList
    rw [hObject, texts?_parse?_element] at hTexts
    simp only [Option.some.injEq, List.cons.injEq, Prod.mk.injEq, true_and, and_true] at hTexts
    exact ⟨hTexts.1.symm, hTexts.2.symm⟩
  · rintro ⟨rfl, hTag⟩
    rw [prompt, prompt, element, element, hTag]

/-! ## URLs -/

theorem percentEncode_injective : Function.Injective percentEncode := by
  intro s t h
  have hDecoded := congrArg percentDecode? h
  rw [percentDecode?_percentEncode, percentDecode?_percentEncode] at hDecoded
  exact Option.some.inj hDecoded

theorem joint_cases (endpoint : String) :
    joint endpoint = "" ∨ joint endpoint = "&prompt=" ∨ joint endpoint = "?prompt=" := by
  rw [joint]
  split
  · exact .inl rfl
  · split
    · exact .inr (.inl rfl)
    · exact .inr (.inr rfl)

theorem requestUrl_eq_iff (endpoint prompt prompt' : String) :
    requestUrl endpoint prompt = requestUrl endpoint prompt' ↔ prompt = prompt' := by
  constructor
  · intro h
    exact percentEncode_injective ((String.append_right_inj _).mp h)
  · rintro rfl
    rfl

/-- A request loses nothing. Its URL is the endpoint, a text that depends on the endpoint only, and
an encoded text that is read back as the prompt. The last line of the prompt is a JSON object before
an arrow, and this object has the class list and the tag as texts, without a tag the empty one. So
two requests to one endpoint have the same URL exactly if they ask about the same class list and the
same tag. -/
theorem requestUrl_lossless (endpoint : String) (tag : Option String) (classList : String) :
    (joint endpoint = "" ∨ joint endpoint = "&prompt=" ∨ joint endpoint = "?prompt=") ∧
    (∃ text, requestUrl endpoint (prompt tag classList) = endpoint ++ joint endpoint ++ text ∧
      IsEncoded text.toList ∧ percentDecode? text = some (prompt tag classList)) ∧
    (∃ object, lastLine (prompt tag classList) = object ++ " -> " ∧
      (Json.parse? object).bind Json.texts? =
        some [("class", classList), ("tag", tag.getD "")]) ∧
    ∀ tag' classList', requestUrl endpoint (prompt tag classList) =
      requestUrl endpoint (prompt tag' classList') ↔
        classList = classList' ∧ tag.getD "" = tag'.getD "" := by
  refine ⟨joint_cases endpoint, ?_, ?_, ?_⟩
  · exact ⟨percentEncode (prompt tag classList), rfl, isEncoded_percentEncode _,
      percentDecode?_percentEncode _⟩
  · exact ⟨(element tag classList).compact, lastLine_prompt tag classList,
      texts?_parse?_element tag classList⟩
  · intro tag' classList'
    rw [requestUrl_eq_iff, prompt_eq_iff]

end ClassCollapse.Naming
