import TreeWalk.Tree.Rendering
import Mathlib.Data.List.Basic

/-!
# Nested lists read in one way

An expression is written as a nest of lists whose innermost parts are atoms. If no atom has
a blank or a parenthesis in it, then the text of a nest can be read in one way only.

## Implementation notes

A nest is compared with another one in front of whatever follows. An atom ends where a blank
or a closing parenthesis follows, and a list where its own parenthesis is closed, so equal
texts have equal first nests and go on equally. The parts of a list behind its head are
compared together with the parenthesis behind them.
-/

namespace TreeWalk

/-- A text with its parts: an atom, or a list with a head. -/
inductive Nest
  | atom (text : String)
  | list (head : Nest) (parts : List Nest)

namespace Nest

mutual

/-- The text of a nest. -/
def text : Nest → String
  | atom text => text
  | list head parts => parenthesized (head.text :: textEach parts)

/-- The texts of some nests. -/
def textEach : List Nest → List String
  | [] => []
  | part :: others => part.text :: textEach others

end

/-- The parts of a list behind its head. -/
def tail : List Nest → List Char
  | [] => []
  | part :: others => ' ' :: (part.text.toList ++ tail others)

theorem intercalate_eq (head : String) (parts : List Nest) :
    (" ".intercalate (head :: textEach parts)).toList = head.toList ++ tail parts := by
  rw [String.toList_intercalate]
  induction parts generalizing head with
  | nil => simp [textEach, tail]
  | cons part others ih =>
    rw [textEach, List.map_cons, List.map_cons, List.intercalate_cons_cons, ← List.map_cons, ih]
    simp [tail]

theorem text_list (head : Nest) (parts : List Nest) :
    (list head parts).text.toList = '(' :: (head.text.toList ++ (tail parts ++ [')'])) := by
  rw [text, parenthesized, String.toList_append, String.toList_append, intercalate_eq]
  simp

/-- The characters that end an atom or begin a list. -/
def delimiters : List Char := [' ', '(', ')']

/-- A text that can be an atom. -/
def Unbroken (text : String) : Prop :=
  text.toList ≠ [] ∧ ∀ c ∈ text.toList, c ∉ delimiters

mutual

/-- All atoms in a nest can be atoms. -/
def Clean : Nest → Prop
  | atom text => Unbroken text
  | list head parts => head.Clean ∧ CleanEach parts

/-- All atoms in some nests can be atoms. -/
def CleanEach : List Nest → Prop
  | [] => True
  | part :: others => part.Clean ∧ CleanEach others

end

/-- What follows does not belong to an atom. -/
def Apart (rest : List Char) : Prop := ∀ c ∈ rest.head?, c ∈ delimiters

theorem apart_tail (parts : List Nest) (rest : List Char) :
    Apart (tail parts ++ ')' :: rest) := by
  cases parts <;> simp [Apart, tail, delimiters]

/-- An atom goes as far as there is no delimiter. -/
theorem atom_append_inj {text text' : List Char} {rest rest' : List Char}
    (clean : ∀ c ∈ text, c ∉ delimiters) (clean' : ∀ c ∈ text', c ∉ delimiters)
    (apart : Apart rest) (apart' : Apart rest') (same : text ++ rest = text' ++ rest') :
    text = text' ∧ rest = rest' := by
  have cut {text rest : List Char} (clean : ∀ c ∈ text, c ∉ delimiters) (apart : Apart rest) :
      (text ++ rest).takeWhile (· ∉ delimiters) = text := by
    rw [List.takeWhile_append_of_pos (by simpa using clean)]
    cases rest with
    | nil => simp
    | cons c rest => simp [apart c rfl]
  have first : text = text' := by rw [← cut clean apart, same, cut clean' apart']
  subst first
  exact ⟨rfl, List.append_cancel_left same⟩

theorem Unbroken.ne_cons {text : String} (clean : Unbroken text) (c : Char)
    (delimiter : c ∈ delimiters) (rest rest' : List Char) : text.toList ++ rest ≠ c :: rest' := by
  obtain ⟨some, inside⟩ := clean
  obtain ⟨d, more, cut⟩ := List.exists_cons_of_ne_nil some
  intro same
  rw [cut] at same
  obtain rfl : d = c := (List.cons.inj same).1
  exact inside d (cut ▸ List.mem_cons_self) delimiter

mutual

/-- A nest is known from a text that begins with its text. -/
theorem text_append_inj : ∀ (n n' : Nest) (rest rest' : List Char), n.Clean → n'.Clean →
    Apart rest → Apart rest' → n.text.toList ++ rest = n'.text.toList ++ rest' →
    n = n' ∧ rest = rest'
  | atom one, atom other, rest, rest', clean, clean', apart, apart', same => by
    obtain ⟨first, behind⟩ := atom_append_inj clean.2 clean'.2 apart apart' same
    exact ⟨congrArg atom (String.toList_injective first), behind⟩
  | atom one, list head parts, rest, rest', clean, clean', apart, apart', same => by
    rw [text_list, List.cons_append] at same
    exact absurd same (clean.ne_cons '(' (by decide) _ _)
  | list head parts, atom other, rest, rest', clean, clean', apart, apart', same => by
    rw [text_list, List.cons_append] at same
    exact absurd same.symm (clean'.ne_cons '(' (by decide) _ _)
  | list head parts, list head' parts', rest, rest', clean, clean', apart, apart', same => by
    simp only [text_list, List.cons_append, List.append_assoc, List.cons.injEq, true_and,
      List.nil_append] at same
    obtain ⟨rfl, behind⟩ := text_append_inj head head' _ _ clean.1 clean'.1
      (apart_tail parts rest) (apart_tail parts' rest') same
    obtain ⟨rfl, left⟩ := tail_append_inj parts parts' rest rest' clean.2 clean'.2 behind
    exact ⟨rfl, left⟩

/-- The parts behind a head are known from a text that begins with them and closes the list. -/
theorem tail_append_inj : ∀ (parts parts' : List Nest) (rest rest' : List Char),
    CleanEach parts → CleanEach parts' →
    tail parts ++ ')' :: rest = tail parts' ++ ')' :: rest' → parts = parts' ∧ rest = rest'
  | [], [], rest, rest', _, _, same => ⟨rfl, (List.cons.inj same).2⟩
  | [], part :: others, rest, rest', _, _, same => by
    cases (List.cons.inj same).1
  | part :: others, [], rest, rest', _, _, same => by
    cases (List.cons.inj same).1
  | part :: others, part' :: others', rest, rest', clean, clean', same => by
    simp only [tail, List.cons_append, List.append_assoc, List.cons.injEq, true_and] at same
    obtain ⟨rfl, behind⟩ := text_append_inj part part' _ _ clean.1 clean'.1
      (apart_tail others rest) (apart_tail others' rest') same
    obtain ⟨rfl, left⟩ := tail_append_inj others others' rest rest' clean.2 clean'.2 behind
    exact ⟨rfl, left⟩

end

/-- A nest is known from its text. -/
theorem text_injective {n n' : Nest} (clean : n.Clean) (clean' : n'.Clean)
    (same : n.text = n'.text) : n = n' := by
  have apart : Apart [] := fun c first => by cases first
  exact (text_append_inj n n' [] [] clean clean' apart apart (by rw [same])).1

end Nest

end TreeWalk
