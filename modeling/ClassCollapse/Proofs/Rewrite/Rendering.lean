import ClassCollapse.Proofs.Style.Declarations
import ClassCollapse.Proofs.Text.Words
import ClassCollapse.Rewrite.Rewriter

/-!
# What takes the place of a class list

A rewriter asks for each word of a class list whether it compiles to something. With the compiler of
a table these are the words that the table recognizes, so the text that takes the place of a class
list consists of the other words and the name of the key.
-/

namespace ClassCollapse.Rewriter

open Text

variable {w : Rewriter} {t : UtilityTable} {o : Occurrence}

/-- For a rewriter that compiles with a table, the utilities are the recognized words. -/
theorem isUtility_eq (hCompile : w.compile = t.compile) {word : String}
    (hWord : word ∈ words o.classList) : w.isUtility word = t.recognizes word := by
  rw [isUtility, hCompile, UtilityTable.isBlankText_compile_word (isWord_of_mem_words hWord),
    Bool.not_not]

theorem render_unnamed (hName : w.names.lookup o.key = none) :
    w.render o = join " " (words o.classList) := by
  rw [render, hName]

theorem render_named (hCompile : w.compile = t.compile) {name : String}
    (hName : w.names.lookup o.key = some name) (hSome : t.recognized o.classList ≠ []) :
    w.render o = join " " (t.kept o.classList ++ [name]) := by
  have hKept : (words o.classList).filter (fun word => !w.isUtility word) =
      t.kept o.classList := by
    refine List.filter_congr fun word hWord => ?_
    rw [isUtility_eq hCompile hWord]
  have hAny : (words o.classList).any w.isUtility = true := by
    obtain ⟨word, hMem⟩ := List.exists_mem_of_ne_nil _ hSome
    obtain ⟨hWord, hRecognized⟩ := List.mem_filter.mp hMem
    exact List.any_eq_true.mpr ⟨word, hWord, (isUtility_eq hCompile hWord).trans hRecognized⟩
  rw [render, hName]
  dsimp only
  rw [hKept, if_pos hAny]

end ClassCollapse.Rewriter
