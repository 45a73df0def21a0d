/-
The characters of written numbers.  Whatever the number, its text holds digits, signs,
points and the letters of the words for values that are no numbers, so it ends no line
and closes no bracket.
-/
import Parterre.Decimal.Layout

namespace Parterre.Decimal

/-- The text of a number may hold the character. -/
def isNumeral (c : Char) : Bool :=
  c.isDigit || ['-', '.', 'N', 'a', 'i', 'n', 'f'].contains c

/-- The text holds characters of numbers only. -/
def IsNumeralText (text : String) : Prop :=
  ∀ c ∈ text.toList, isNumeral c = true

instance (text : String) : Decidable (IsNumeralText text) :=
  List.decidableBAll (fun c => isNumeral c = true) text.toList

namespace IsNumeralText

theorem not_mem {text : String} (h : IsNumeralText text) {c : Char} (hc : isNumeral c = false) :
    c ∉ text.toList := by
  intro hmem
  rw [h c hmem] at hc
  cases hc

theorem append {first second : String} (h : IsNumeralText first) (h' : IsNumeralText second) :
    IsNumeralText (first ++ second) := by
  intro c hc
  rw [String.toList_append, List.mem_append] at hc
  exact hc.elim (h c) (h' c)

theorem ofList {cs : List Char} (h : ∀ c ∈ cs, isNumeral c = true) :
    IsNumeralText (String.ofList cs) := by
  rwa [IsNumeralText, String.toList_ofList]

theorem toString (number : Nat) : IsNumeralText (toString number) := by
  intro c hc
  rw [Nat.toString_eq_repr, Nat.toList_repr] at hc
  rw [isNumeral, Nat.isDigit_of_mem_toDigits (by decide) (by decide) hc, Bool.true_or]

theorem zeros (count : Nat) : IsNumeralText (zeros count) := by
  refine ofList fun c hc => ?_
  rw [List.eq_of_mem_replicate hc]
  rfl

theorem signed {text : String} (h : IsNumeralText text) (negative : Bool) :
    IsNumeralText (signed negative text) := by
  cases negative with
  | false => exact h
  | true => exact append (by decide) h

theorem positional (number : Digits) : IsNumeralText (positional number) := by
  have hdigits := IsNumeralText.toString number.digits
  rw [Decimal.positional]
  split
  · exact hdigits.append (zeros _)
  · -- the digits behind some zeros are cut at the point
    have hpadded := (zeros (number.exponent.natAbs + 1 -
      (ToString.toString number.digits).length)).append hdigits
    exact append (append (ofList fun c hc => hpadded c (List.mem_of_mem_take hc)) (by decide))
      (ofList fun c hc => hpadded c (List.mem_of_mem_drop hc))

theorem plain (value : Float) : IsNumeralText (plain value) := by
  rw [Decimal.plain]
  split
  · decide
  · exact signed (by decide) _
  · exact signed (by decide) _
  · exact signed (positional _) _

theorem tenths (value : Float) : IsNumeralText (tenths value) := by
  rw [Decimal.tenths]
  split
  · decide
  · exact signed (by decide) _
  · exact signed (positional _) _

end IsNumeralText

end Parterre.Decimal
