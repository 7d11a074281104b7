import TreeWalk.Cursor
import TreeWalk.Proofs.Scope.Spots

/-!
# The names in a scanned text

Every token that is scanned is proper: a name is no reserved word, and the words `this`
and `super` have their own text. So no program can declare a name that hides them.
-/

namespace TreeWalk

namespace TokenKind

/-- A kind other than that of names is given to the words that are listed with it. -/
theorem mem_keywords {word : String} {kind : TokenKind} (h : ofWord word = kind)
    (other : kind ≠ .identifier) : (word, kind) ∈ keywords := by
  unfold ofWord at h
  cases found : keywords.lookup word with
  | none =>
      rw [found] at h
      exact absurd h.symm other
  | some listed =>
      rw [found] at h
      obtain rfl : listed = kind := h
      obtain ⟨before, after, cut, -⟩ := List.lookup_eq_some_iff.1 found
      rw [cut]
      simp

/-- The kinds of names, of `this` and of `super` tell the text. -/
theorem ofWord_proper (word : String) :
    (ofWord word = .identifier → IsPlainName word) ∧ (ofWord word = .thisWord → word = "this") ∧
      (ofWord word = .superWord → word = "super") := by
  refine ⟨fun isName => ⟨?_, ?_⟩, fun isThis => ?_, fun isSuper => ?_⟩
  · rintro rfl
    exact absurd isName (by decide)
  · rintro rfl
    exact absurd isName (by decide)
  · have listed := mem_keywords isThis (by decide)
    simpa [keywords] using listed
  · have listed := mem_keywords isSuper (by decide)
    simpa [keywords] using listed

/-- A character that is a token by itself is no word. -/
theorem ofMark_ne {c : Char} {kind : TokenKind} (h : ofMark c = some kind) :
    kind ≠ .identifier ∧ kind ≠ .thisWord ∧ kind ≠ .superWord := by
  unfold ofMark at h
  split at h <;> cases h <;> decide

theorem ofComparison_ne {c : Char} {single double : TokenKind}
    (h : ofComparison c = some (single, double)) :
    (single ≠ .identifier ∧ single ≠ .thisWord ∧ single ≠ .superWord) ∧
      double ≠ .identifier ∧ double ≠ .thisWord ∧ double ≠ .superWord := by
  unfold ofComparison at h
  split at h <;> cases h <;> decide

end TokenKind

/-- A token of another kind is proper whatever its text. -/
theorem Token.isProper_of_ne {t : Token}
    (other : t.kind ≠ .identifier ∧ t.kind ≠ .thisWord ∧ t.kind ≠ .superWord) : t.IsProper :=
  ⟨fun h => absurd h other.1, fun h => absurd h other.2.1, fun h => absurd h other.2.2⟩

namespace Cut

/-- If a cut is a word, the token of the word is proper. -/
def IsProper (cut : Cut) : Prop :=
  ∀ kind literal line, cut.piece = .word kind literal →
    Token.IsProper ⟨kind, String.ofList cut.text, literal, line⟩

theorem isProper_of_ne {cut : Cut} (other : ∀ kind literal, cut.piece = .word kind literal →
    kind ≠ .identifier ∧ kind ≠ .thisWord ∧ kind ≠ .superWord) : cut.IsProper :=
  fun kind literal _ isWord => Token.isProper_of_ne (other kind literal isWord)

theorem afterSlash_proper (cs : List Char) : (afterSlash cs).IsProper := by
  apply isProper_of_ne
  intro kind literal isWord
  unfold afterSlash at isWord
  split at isWord <;> cases isWord
  decide

theorem afterQuote_proper (cs : List Char) : (afterQuote cs).IsProper := by
  apply isProper_of_ne
  intro kind literal isWord
  unfold afterQuote at isWord
  split at isWord <;> cases isWord
  decide

theorem afterDigit_proper (c : Char) (cs : List Char) : (afterDigit c cs).IsProper := by
  apply isProper_of_ne
  intro kind literal isWord
  simp only [afterDigit] at isWord
  split at isWord <;> cases isWord <;> decide

theorem afterLetter_proper (c : Char) (cs : List Char) : (afterLetter c cs).IsProper := by
  intro kind literal line isWord
  cases isWord
  obtain ⟨isName, isThis, isSuper⟩ :=
    TokenKind.ofWord_proper (String.ofList (c :: cs.takeWhile isNameChar))
  exact ⟨isName, isThis, isSuper⟩

theorem afterComparison_proper {c : Char} {single double : TokenKind} (cs : List Char)
    (h : TokenKind.ofComparison c = some (single, double)) :
    (afterComparison c single double cs).IsProper := by
  apply isProper_of_ne
  intro kind literal isWord
  have others := TokenKind.ofComparison_ne h
  unfold afterComparison at isWord
  split at isWord <;> cases isWord
  · exact others.2
  · exact others.1

/-- Whatever is cut off first is proper. -/
theorem first_proper (c : Char) (cs : List Char) : (first c cs).IsProper := by
  unfold first
  split
  next => exact afterSlash_proper cs
  next =>
    split
    next => exact isProper_of_ne nofun
    next =>
      split
      next => exact afterQuote_proper cs
      next =>
        split
        next => exact afterDigit_proper c cs
        next =>
          split
          next => exact afterLetter_proper c cs
          next =>
            split
            next mark =>
              apply isProper_of_ne
              rintro kind literal ⟨⟩
              exact TokenKind.ofMark_ne mark
            next comparison => exact afterComparison_proper cs comparison
            next => exact isProper_of_ne nofun

end Cut

namespace Cursor

/-- Every token that a cursor hands out is proper. -/
theorem next_proper {place after : Cursor} {t : Token} (h : place.next = (.ok t, after)) :
    t.IsProper := by
  fun_induction next place with
  | case1 =>
      obtain ⟨⟨⟩, -⟩ := Prod.mk.inj h
      exact Token.isProper_of_ne (by simp [Token.endOfText])
  | case2 place c cs cut rest blank isBlank ih => exact ih h
  | case3 place c cs found cut rest token isWord =>
      obtain ⟨⟨⟩, -⟩ := Prod.mk.inj h
      unfold classify at isWord
      split at isWord <;> cases isWord
      next isWord => exact Cut.first_proper c cs _ _ _ isWord
  | case4 => cases h

theorem all_proper {place after : Cursor} {tokens : List Token}
    (h : place.all = (.ok tokens, after)) : ∀ t ∈ tokens, t.IsProper := by
  fun_induction all place generalizing tokens after with
  | case1 => cases h
  | case2 place first mid isNext more rest last isRest ih =>
      obtain ⟨same, -⟩ := Prod.mk.inj h
      cases rest with
      | error e => cases same
      | ok others =>
          cases same
          intro t among
          obtain rfl | among := List.mem_cons.1 among
          · exact next_proper isNext
          · exact ih isRest t among
  | case3 place first mid isNext =>
      obtain ⟨⟨⟩, -⟩ := Prod.mk.inj h
      intro t among
      obtain rfl := List.mem_singleton.1 among
      exact next_proper isNext

end Cursor

end TreeWalk
