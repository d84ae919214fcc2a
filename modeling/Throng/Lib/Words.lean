import Mathlib.Data.List.Basic

/-!
# Splitting a line into the words it was joined from

A splitter reads a line letter by letter. Between two words it is in a known state; after a
word it may be in one of several, but a blank ends the word in each of them, and so does the
end of the line. Spelled words with one blank between them are then read back, whatever the
spelling, once each spelling alone is.
-/

namespace Words

/-- A reader of lines and the words it tells. -/
structure Splitter (σ α : Type*) where
  /-- one letter of the line -/
  step : σ → α → σ
  /-- the words, once the line is over -/
  finish : σ → List (List α)
  blank : α
  /-- the words `done` are read, and nothing of the next -/
  between : List (List α) → σ
  /-- the words `done` are read, and `word` is, but for what ends it -/
  Ended : σ → List (List α) → List α → Prop
  step_blank : ∀ {s done word}, Ended s done word → step s blank = between (done ++ [word])
  finish_between : ∀ done, finish (between done) = done
  finish_ended : ∀ {s done word}, Ended s done word → finish s = done ++ [word]

namespace Splitter

variable {σ α : Type*} (splitter : Splitter σ α)

/-- The words of a line. -/
def words (line : List α) : List (List α) :=
  splitter.finish (line.foldl splitter.step (splitter.between []))

/-- The spelling of a word is read as the word. -/
def Reads (spelled : List α) (word : List α) : Prop :=
  ∀ done, splitter.Ended (spelled.foldl splitter.step (splitter.between done)) done word

/-- Spelled words with a blank between them. -/
def spell (spelling : List α → List α) (words : List (List α)) : List α :=
  [splitter.blank].intercalate (words.map spelling)

variable {splitter} {spelling : List α → List α}

theorem finish_foldl_spell (h : ∀ word, splitter.Reads (spelling word) word) :
    ∀ (done words : List (List α)),
      splitter.finish ((splitter.spell spelling words).foldl splitter.step
        (splitter.between done)) = done ++ words
  | done, [] => by
      rw [List.append_nil]
      exact splitter.finish_between done
  | done, [word] => by
      have hended := h word done
      rw [spell, List.map_singleton, List.intercalate_singleton]
      exact splitter.finish_ended hended
  | done, word :: other :: words => by
      have hended := h word done
      have ih := finish_foldl_spell h (done ++ [word]) (other :: words)
      have hspell : splitter.spell spelling (word :: other :: words) =
          spelling word ++ splitter.blank :: splitter.spell spelling (other :: words) := by
        rw [spell, List.map_cons, List.map_cons, List.intercalate_cons_cons, List.append_assoc,
          List.singleton_append, spell, List.map_cons]
      rw [hspell, List.foldl_append, List.foldl_cons, splitter.step_blank hended, ih,
        List.append_assoc, List.singleton_append]

/-- Words spelled so that each alone is read back are read back from their line. -/
theorem words_spell (h : ∀ word, splitter.Reads (spelling word) word) (words : List (List α)) :
    splitter.words (splitter.spell spelling words) = words :=
  (finish_foldl_spell h [] words).trans (List.nil_append words)

/-! ## Strings -/

/-- The words of a line, as strings. -/
def wordsOf {σ : Type*} (splitter : Splitter σ Char) (line : String) : List String :=
  (splitter.words line.toList).map .ofList

theorem wordsOf_spelled {σ : Type*} {splitter : Splitter σ Char} {spelling : List Char → List Char}
    (h : ∀ word, splitter.Reads (spelling word) word) (words : List String) :
    splitter.wordsOf (.ofList ([splitter.blank].intercalate
      (words.map fun word => spelling word.toList))) = words := by
  have hread := words_spell h (words.map String.toList)
  have hid : String.ofList ∘ String.toList = id := by
    funext word
    exact String.ofList_toList
  rw [spell, List.map_map] at hread
  change (splitter.words (String.ofList ([splitter.blank].intercalate
    (words.map (spelling ∘ String.toList)))).toList).map String.ofList = words
  rw [String.toList_ofList, hread, List.map_map, hid, List.map_id]

end Splitter

end Words
