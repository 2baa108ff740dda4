import ClassCollapse.Proofs.Text.Search
import ClassCollapse.Style.Placement

/-!
# Rules inside a page

Rules that go into a page have one place there: right after the first `<style>`, which is put there
with the rules if the page has none. All of the page stays on either side of the rules. A page with
rules has its place right in front of them, so rules that are put into a page one after the other
stand in one element, the last ones first, with nothing between them.
-/

namespace ClassCollapse.Placement

open Text

/-- A place for rules in a page: what stands on either side, and the marks that go around the rules.
-/
structure StylePlace where
  front : String
  opening : String
  closing : String
  back : String

namespace StylePlace

/-- The page with rules at its place. -/
def fill (p : StylePlace) (css : String) : String :=
  p.front ++ (p.opening ++ css ++ p.closing) ++ p.back

/-- The place right in front of the rules that are there already. -/
def before (p : StylePlace) (css : String) : StylePlace :=
  ⟨p.front ++ p.opening, "", "", css ++ p.closing ++ p.back⟩

theorem fill_before (p : StylePlace) (a b : String) : (p.before a).fill b = p.fill (b ++ a) := by
  simp only [before, fill, String.append_assoc, String.empty_append]

/-- An element is put around the rules exactly if the page has no mark of one. -/
def Marks (p : StylePlace) (content : String) : Prop :=
  holds "<style>" content = true ∧ p.opening = "" ∧ p.closing = "" ∨
    holds "<style>" content = false ∧ p.opening ∈ ["<style>", "\n<style>"] ∧
      p.closing = "</style>"

/-- The rules come right after a mark, and no mark stands before it. -/
def AfterFirst (p : StylePlace) : Prop :=
  ∃ lead : List Char, (p.front ++ p.opening).toList = lead ++ "<style>".toList ∧
    ¬ "<style>".toList <:+: lead ++ "<style>".toList.dropLast

end StylePlace

/-- The place of rules in a page. -/
def stylePlace (content : String) : StylePlace :=
  match splitFirst? "<style>".toList content.toList with
  | some (before, after) => ⟨String.ofList before ++ "<style>", "", "", String.ofList after⟩
  | none =>
    match splitFirst? "</head>".toList content.toList with
    | some (before, after) =>
      ⟨String.ofList before, "<style>", "</style>", "</head>" ++ String.ofList after⟩
    | none => ⟨content, "\n<style>", "</style>", ""⟩

theorem eq_ofList_of_splitFirst? {pattern content : String} {before after : List Char}
    (h : splitFirst? pattern.toList content.toList = some (before, after)) :
    content = String.ofList before ++ pattern ++ String.ofList after := by
  rw [← String.toList_inj, eq_of_splitFirst? h]
  simp

theorem injectInline_eq (content css : String) :
    injectInline content css = (stylePlace content).fill css := by
  rw [injectInline, stylePlace]
  cases splitFirst? "<style>".toList content.toList with
  | some _ => simp only [StylePlace.fill, String.append_assoc, String.empty_append]
  | none =>
    cases splitFirst? "</head>".toList content.toList with
    | some _ =>
      have hClosing : "</style></head>" = "</style>" ++ "</head>" := rfl
      simp only [StylePlace.fill, hClosing, String.append_assoc]
    | none => simp only [StylePlace.fill, String.append_assoc, String.append_empty]

theorem front_append_back (content : String) :
    (stylePlace content).front ++ (stylePlace content).back = content := by
  rw [stylePlace]
  split
  next hMark => exact (eq_ofList_of_splitFirst? hMark).symm
  next =>
    split
    next hHead =>
      rw [← String.append_assoc]
      exact (eq_ofList_of_splitFirst? hHead).symm
    next => exact String.append_empty

theorem marks_stylePlace (content : String) : (stylePlace content).Marks content := by
  rw [stylePlace, StylePlace.Marks, holds]
  cases splitFirst? "<style>".toList content.toList with
  | some _ => exact .inl ⟨rfl, rfl, rfl⟩
  | none =>
    cases splitFirst? "</head>".toList content.toList with
    | some _ => exact .inr ⟨rfl, List.mem_cons_self, rfl⟩
    | none => exact .inr ⟨rfl, List.mem_cons_of_mem _ List.mem_cons_self, rfl⟩

theorem styleMark_ne_nil : "<style>".toList ≠ [] := by
  decide

/-- The bracket that opens a mark is nowhere else in it, so a mark that is put after a text without
marks is the first one. -/
theorem not_styleMark_infix {lead : List Char} (h : ¬ "<style>".toList <:+: lead) :
    ¬ "<style>".toList <:+: lead ++ "<style>".toList.dropLast :=
  not_infix_append_dropLast (by decide) h

theorem afterFirst_stylePlace (content : String) : (stylePlace content).AfterFirst := by
  rw [stylePlace]
  split
  next before after hThere =>
    exact ⟨before, by simp, ((splitFirst?_eq_some_iff styleMark_ne_nil).mp hThere).2⟩
  next hNone =>
    have hNone := splitFirst?_eq_none_iff.mp hNone
    split
    next before after hHead =>
      refine ⟨before, by simp, not_styleMark_infix fun hEarlier => hNone ?_⟩
      rw [eq_of_splitFirst? hHead, List.append_assoc]
      exact List.infix_append_of_infix_left hEarlier
    next =>
      refine ⟨content.toList ++ ['\n'], by simp, not_styleMark_infix fun hEarlier => ?_⟩
      rcases (infix_append_cons_iff (by decide)).mp hEarlier with hContent | hLine
      · exact hNone hContent
      · exact styleMark_ne_nil (List.eq_nil_of_infix_nil hLine)

/-- The first mark of a page with rules is the one in front of them. -/
theorem splitFirst?_fill {p : StylePlace} (h : p.AfterFirst) (css : String) :
    ∃ lead, (p.front ++ p.opening).toList = lead ++ "<style>".toList ∧
      splitFirst? "<style>".toList (p.fill css).toList =
        some (lead, (css ++ p.closing ++ p.back).toList) := by
  obtain ⟨lead, hFront, hFirst⟩ := h
  have hFill : p.fill css = (p.front ++ p.opening) ++ (css ++ p.closing ++ p.back) := by
    simp only [StylePlace.fill, String.append_assoc]
  refine ⟨lead, hFront, (splitFirst?_eq_some_iff styleMark_ne_nil).mpr ⟨?_, hFirst⟩⟩
  rw [hFill, String.toList_append, hFront]

/-- A page with rules has its place in front of them. -/
theorem stylePlace_fill {p : StylePlace} (h : p.AfterFirst) (css : String) :
    stylePlace (p.fill css) = p.before css := by
  obtain ⟨lead, hFront, hSplit⟩ := splitFirst?_fill h css
  have hLead : String.ofList lead ++ "<style>" = p.front ++ p.opening := by
    rw [← String.toList_inj, hFront, String.toList_append, String.toList_ofList]
  rw [stylePlace, hSplit]
  simp only [StylePlace.before, hLead, String.ofList_toList]

theorem injectInline_injectInline (content a b : String) :
    injectInline (injectInline content a) b = (stylePlace content).fill (b ++ a) := by
  rw [injectInline_eq, injectInline_eq, stylePlace_fill (afterFirst_stylePlace content),
    StylePlace.fill_before]

/-- Rules that are put into a page one after the other are in it as one text. -/
theorem foldl_injectInline (content first : String) (later : List String) :
    later.foldl injectInline (injectInline content first) =
      (stylePlace content).fill (String.join later.reverse ++ first) := by
  induction later generalizing first with
  | nil =>
    rw [List.foldl_nil, List.reverse_nil, String.join_nil, String.empty_append, injectInline_eq]
  | cons next later ih =>
    have hOne : injectInline (injectInline content first) next =
        injectInline content (next ++ first) := by
      rw [injectInline_injectInline, injectInline_eq]
    rw [List.foldl_cons, hOne, ih, List.reverse_cons, String.join_append, String.join_cons,
      String.join_nil, String.append_empty, String.append_assoc]

/-- Whatever rules are put into a page, and however often, the page gets one new part. It opens and
closes one element if the page has none, and nothing else but the rules is in it, right after a
mark, the last ones first. -/
theorem exists_part_of_injectInline (content : String) :
    ∃ front opening closing back, front ++ back = content ∧
      "<style>".toList <:+ (front ++ opening).toList ∧
      (holds "<style>" content = true ∧ opening = "" ∧ closing = "" ∨
        holds "<style>" content = false ∧ opening ∈ ["<style>", "\n<style>"] ∧
          closing = "</style>") ∧
      (∀ a, injectInline content a = front ++ (opening ++ a ++ closing) ++ back) ∧
      (∀ a b, injectInline (injectInline content a) b = injectInline content (b ++ a)) ∧
      ∀ (first : String) (later : List String),
        later.foldl injectInline (injectInline content first) =
          front ++ (opening ++ (String.join later.reverse ++ first) ++ closing) ++ back := by
  refine ⟨(stylePlace content).front, (stylePlace content).opening, (stylePlace content).closing,
    (stylePlace content).back, front_append_back content, ?_, marks_stylePlace content,
    injectInline_eq content, ?_, foldl_injectInline content⟩
  · obtain ⟨lead, hFront, _⟩ := afterFirst_stylePlace content
    rw [hFront]
    exact List.suffix_append _ _
  · intro a b
    rw [injectInline_injectInline, injectInline_eq]

end ClassCollapse.Placement
