import LiveProse.Text.Codepoint

/-!
The vocabulary numbers texts, so that texts are compared by number. It only grows: a word stays good
after the last token that is spelled with it has gone.
-/

namespace LiveProse

/-- The number of a text in a vocabulary. -/
structure Word where
  index : Nat
deriving DecidableEq, Repr

def Word.display (word : Word) : String := "Word(" ++ toString word.index ++ ")"

/-- The texts in the order of their numbers, each of them once. The empty text comes first. -/
structure Vocabulary where
  texts : List Text := [[]]
deriving DecidableEq, Repr

namespace Vocabulary

/-- The word of a text that has one. -/
def get? (vocabulary : Vocabulary) (text : Text) : Option Word :=
  (vocabulary.texts.idxOf? text).map Word.mk

/-- The vocabulary with the text in it, and the word of the text. -/
def intern (vocabulary : Vocabulary) (text : Text) : Vocabulary × Word :=
  match vocabulary.get? text with
  | some word => (vocabulary, word)
  | none => (⟨vocabulary.texts ++ [text]⟩, ⟨vocabulary.texts.length⟩)

/-- The text of a word. A word of another vocabulary may have none and counts as empty. -/
def lookup (vocabulary : Vocabulary) (word : Word) : Text :=
  (vocabulary.texts[word.index]?).getD []

def size (vocabulary : Vocabulary) : Nat :=
  vocabulary.texts.length

theorem lookup_of_get? {vocabulary : Vocabulary} {text : Text} {word : Word}
    (h : vocabulary.get? text = some word) : vocabulary.lookup word = text := by
  obtain ⟨index, hi, rfl⟩ := Option.map_eq_some_iff.1 h
  rw [List.idxOf?, List.findIdx?_eq_some_iff_getElem] at hi
  obtain ⟨hlt, heq, -⟩ := hi
  simpa [lookup, hlt] using heq

/-- The word that a text is given stands for the text. -/
theorem lookup_intern (vocabulary : Vocabulary) (text : Text) :
    (vocabulary.intern text).1.lookup (vocabulary.intern text).2 = text := by
  unfold intern
  split
  · exact lookup_of_get? ‹_›
  · simp [lookup]

/-- A word that has been given out keeps its text. -/
theorem lookup_intern_of_lt {vocabulary : Vocabulary} {word : Word} (text : Text)
    (h : word.index < vocabulary.size) :
    (vocabulary.intern text).1.lookup word = vocabulary.lookup word := by
  unfold intern
  split
  · rfl
  · simp only [lookup]
    rw [List.getElem?_append_left h]

end Vocabulary

end LiveProse
