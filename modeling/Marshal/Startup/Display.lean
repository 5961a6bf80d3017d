import Marshal.Lib.Shell
import Marshal.Startup

/-! Displayed commands can be pasted.

A part is shown as it is only where each of its characters is ordinary to the shell;
otherwise it is in single quotes, and each of its own quotes stands outside of them behind
a backslash. So a shell reads the parts back, one word each (`Display_fields`). -/
namespace Marshal.Startup
open Shell

/-- The word a shell makes of a part. -/
def shellWord (s : List Char) : List Piece :=
  s.map fun c => ⟨c, !decide (s ≠ [] ∧ containsAny s shellSignificant = false)⟩

theorem ordinary_of_containsAny {s : List Char} (h : containsAny s shellSignificant = false) :
    ∀ c ∈ s, ordinary c = true := by
  intro c hc
  have hnone := List.any_eq_false.mp h c hc
  have hchars : shellSignificant.toList = [' ', '\t', '\n', '"', '\'', '\\', '$', '\x60', '&', ';', '|', '<', '>', '(',
      ')', '\x7b', '\x7d', '[', ']', '*', '?', '#', '~'] := by decide
  rw [decide_eq_true_eq, hchars] at hnone
  simp only [List.mem_cons, List.not_mem_nil, or_false, not_or] at hnone
  refine ordinary_iff.mpr ⟨?_, ?_, ?_, ?_⟩
  · simp [substitutes, hnone]
  · simp [blank, hnone]
  · simp [hnone]
  · simp [operators, hnone]

/-- The characters between quotes, with each quote shown apart. -/
theorem read_quoted (s : List Char) (pieces : List Piece) (rest : List Char) :
    read .single (.word pieces) ((s.flatMap fun c => if c = '\'' then "'\\''".toList else [c]) ++ '\'' :: rest) =
      read .bare (.word (pieces ++ s.map (⟨·, true⟩))) rest := by
  induction s generalizing pieces with
  | nil =>
    rw [List.map_nil, List.append_nil, List.flatMap_nil, List.nil_append, read_cons]
    simp [step]
  | cons c s ih =>
    have hpieces : pieces ++ (c :: s).map (⟨·, true⟩) = (pieces ++ [⟨c, true⟩]) ++ s.map (⟨·, true⟩) := by simp
    rw [hpieces, ← ih, List.flatMap_cons]
    by_cases hc : c = '\''
    · subst hc
      have hescape : "'\\''".toList = ['\'', '\\', '\'', '\''] := by decide
      simp only [if_true, hescape, List.cons_append, List.nil_append]
      rw [read_step (show step .single (.word pieces) '\'' = some ([], .bare, .word pieces) from rfl),
        read_step (show step .bare (.word pieces) '\\' = some ([], .escaped, .word pieces) from rfl),
        read_step (show step .escaped (.word pieces) '\'' = some ([], .bare, .word (pieces ++ [⟨'\'', true⟩])) from rfl),
        read_step (show step .bare (.word (pieces ++ [⟨'\'', true⟩])) '\'' =
          some ([], .single, .word (pieces ++ [⟨'\'', true⟩ ] ++ [])) from rfl), List.append_nil]
    · rw [if_neg hc, List.append_assoc, List.singleton_append, read_cons]
      simp [step, hc, Pending.put]

/-- A part that is shown becomes a word of its own. -/
theorem read_shellQuote (s rest : List Char) :
    read .bare .none (shellQuote s ++ rest) = read .bare (.word (shellWord s)) rest := by
  rw [shellQuote, shellWord]
  split
  · rename_i hplain
    obtain ⟨hne, hcontains⟩ := hplain
    have hordinary := ordinary_of_containsAny hcontains
    cases s with
    | nil => exact absurd rfl hne
    | cons c s =>
      obtain ⟨hc, hs⟩ := List.forall_mem_cons.mp hordinary
      rw [List.cons_append, read_cons, step_ordinary hc (by intro o; exact Pending.noConfusion)]
      simp only [Option.bind_some, Pending.pieces, List.nil_append, Option.map_id']
      rw [read_ordinary hs]
      simp [hcontains]
  · rename_i hquoted
    rw [List.cons_append, List.cons_append, List.append_assoc, List.singleton_append, read_cons]
    have hopen : step .bare .none '\'' = some ([], .single, .word []) := by decide
    simp only [hopen, Option.bind_some, List.nil_append, Option.map_id']
    rw [read_quoted, List.nil_append]
    simp [hquoted]

theorem inert_shellWord (s : List Char) : Inert (shellWord s) := by
  intro p hp
  obtain ⟨c, hc, rfl⟩ := List.mem_map.mp hp
  by_cases hplain : s ≠ [] ∧ containsAny s shellSignificant = false
  · exact .inr (ordinary_of_containsAny hplain.2 c hc)
  · exact .inl (by simp only [decide_eq_false hplain, Bool.not_false])

theorem read_join (s : List Char) (parts : List (List Char)) :
    read .bare .none (join (shellQuote s :: parts.map shellQuote) [' ']) =
      some ((s :: parts).map fun s => .word (shellWord s)) := by
  induction parts generalizing s with
  | nil =>
    have hend := read_shellQuote s []
    rw [List.append_nil] at hend
    rw [List.map_nil, join, List.intercalate_singleton, hend]
    rfl
  | cons s' parts ih =>
    have hjoin : join (shellQuote s :: (s' :: parts).map shellQuote) [' '] =
        shellQuote s ++ ' ' :: join (shellQuote s' :: parts.map shellQuote) [' '] := by
      rw [join, join, List.map_cons, List.intercalate_cons_cons, List.append_assoc, List.singleton_append]
    rw [hjoin, read_shellQuote, read_cons]
    simp [step, substitutes, blank, operators, ih]

theorem map_shellWord (s : List Char) : (shellWord s).map Piece.char = s := by
  rw [shellWord, List.map_map]
  exact List.map_id s

/-- **A shell reads a displayed command as its name and arguments, one word each, in which nothing is
special; so it has these fields whatever files and users there are.** -/
theorem Display_fields (c : Cmd) :
    ∃ words : List (List Piece), tokens c.Display = some (words.map .word) ∧ (∀ word ∈ words, Inert word) ∧
      (words.map fun word => word.map Piece.char) = c.Name :: c.Args ∧
      ∀ host, fields host c.Display = some (c.Name :: c.Args) := by
  have htokens : tokens c.Display = some (((c.Name :: c.Args).map shellWord).map .word) := by
    rw [List.map_map]
    exact read_join c.Name c.Args
  have hinert : ∀ word ∈ (c.Name :: c.Args).map shellWord, Inert word := by
    intro word hword
    obtain ⟨s, -, rfl⟩ := List.mem_map.mp hword
    exact inert_shellWord s
  have hchars : (((c.Name :: c.Args).map shellWord).map fun word => word.map Piece.char) = c.Name :: c.Args := by
    rw [List.map_map]
    exact (List.map_congr_left fun s _ => map_shellWord s).trans (List.map_id _)
  refine ⟨(c.Name :: c.Args).map shellWord, htokens, hinert, hchars, fun host => ?_⟩
  rw [fields_inert htokens hinert host, hchars]

end Marshal.Startup
