import Marshal.LogStore
import Mathlib.Data.List.Infix

/-! Searching the log is literal.

A needle is put between two `%` with its metacharacters escaped, so that each of its characters
stands for itself in the pattern, whatever they are and whatever comes after them. -/
namespace Marshal.LogStore

/-- The escaped characters of a needle. -/
def escaped (needle : List Char) : List Char :=
  needle.flatMap fun c => if c = '\\' ∨ c = '%' ∨ c = '_' then ['\\', c] else [c]

theorem escapeLike_toList (s : String) : (escapeLike s).toList = escaped s.toList :=
  String.toList_ofList

/-- An escaped character takes one character of the text. -/
theorem like_escaped_cons (c : Char) (needle pattern text : List Char) :
    like (escaped (c :: needle) ++ pattern) text = true ↔
      ∃ x rest, text = x :: rest ∧ asciiLower c = asciiLower x ∧
        like (escaped needle ++ pattern) rest = true := by
  have hcons : escaped (c :: needle) =
      (if c = '\\' ∨ c = '%' ∨ c = '_' then ['\\', c] else [c]) ++ escaped needle := rfl
  rw [hcons]
  by_cases hmeta : c = '\\' ∨ c = '%' ∨ c = '_'
  · rw [if_pos hmeta]
    cases text with
    | nil => simp [like]
    | cons x rest => simp [like]
  · rw [if_neg hmeta]
    obtain ⟨hbackslash, hpercent, hunderscore⟩ : c ≠ '\\' ∧ c ≠ '%' ∧ c ≠ '_' := by simpa using hmeta
    cases text with
    | nil => simp [like, hbackslash]
    | cons x rest => simp [like, hbackslash]

/-- The escaped needle and a `%` match the texts that begin with the needle. -/
theorem like_escaped (needle text : List Char) :
    like (escaped needle ++ ['%']) text = true ↔ needle.map asciiLower <+: text.map asciiLower := by
  induction needle generalizing text with
  | nil =>
    have hany : like ['%'] text = true := by
      have hmem : ([] : List Char) ∈ text.tails := (List.mem_tails _ _).mpr List.nil_suffix
      rw [like, List.any_eq_true]
      exact ⟨[], hmem, rfl⟩
    simp [escaped, hany]
  | cons c needle ih =>
    rw [like_escaped_cons]
    cases text with
    | nil => simp
    | cons x rest => simp [ih, List.cons_prefix_cons]

/-- **Log search is literal**: a line is found exactly if it contains the needle, up to ASCII case. -/
theorem like_escapeLike (t s : String) :
    like ('%' :: (escapeLike s).toList ++ ['%']) t.toList = true ↔
      s.toList.map asciiLower <:+: t.toList.map asciiLower := by
  rw [escapeLike_toList, List.cons_append, like, List.any_eq_true]
  simp only [List.mem_tails, like_escaped, List.infix_iff_prefix_suffix]
  constructor
  · intro h
    obtain ⟨rest, hrest, hstart⟩ := h
    exact ⟨_, hstart, hrest.map asciiLower⟩
  · intro h
    obtain ⟨lowered, hstart, hend⟩ := h
    -- the end of the lowered text is a lowered end of the text
    obtain ⟨front, hfront⟩ := hend
    obtain ⟨before, rest, htext, -, rfl⟩ := List.map_eq_append_iff.mp hfront.symm
    exact ⟨rest, ⟨before, htext.symm⟩, hstart⟩

/-- What a query finds; no text is found everywhere. -/
theorem matching_iff (filter : StreamFilter) (text : String) (r : StoredLine) :
    matching filter text r = true ↔ filter.accepts r.stderr = true ∧
      text.toList.map asciiLower <:+: r.text.toList.map asciiLower := by
  rw [matching, Bool.and_eq_true, Bool.or_eq_true, like_escapeLike, beq_iff_eq]
  refine and_congr_right fun _ => or_iff_right_of_imp fun h => ?_
  rw [h]
  exact List.nil_infix

/-- A needle of metacharacters only. -/
example : like ('%' :: (escapeLike "_\\%").toList ++ ['%']) "1_\\%".toList = true ∧
    like ('%' :: (escapeLike "_\\%").toList ++ ['%']) "1x\\%".toList = false := by decide +kernel

end Marshal.LogStore
