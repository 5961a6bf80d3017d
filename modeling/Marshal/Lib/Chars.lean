import Mathlib.Data.List.Basic

/-! What holds of each character of a text, or of one if there is one.

It is decided by going through the text, and not through all the characters there are. -/
namespace Chars

instance (priority := high) decidableForallMem (p : Char → Prop) [DecidablePred p] (text : List Char) :
    Decidable (∀ c ∈ text, p c) := text.decidableBAll p

instance (priority := high) decidableForallMemOption (p : Char → Prop) [DecidablePred p] (c : Option Char) :
    Decidable (∀ d ∈ c, p d) := Option.decidableForallMem c

/-! ### Literals

A literal is the string of its characters. What is computed from its text is computed from these, which
takes far less than to decode it. -/

theorem spelled {P : List Char → Prop} {l : List Char} (h : P l) : P (String.ofList l).toList :=
  String.toList_ofList.symm ▸ h

theorem spelled_eq {l m s : List Char} (hs : s = m) (h : m = l) : (String.ofList l).toList = s :=
  String.toList_ofList.trans (hs.trans h).symm

theorem append_spelled {s l m : List Char} (hs : s = l) : s ++ (String.ofList m).toList = l ++ m := by
  rw [hs, String.toList_ofList]

end Chars
