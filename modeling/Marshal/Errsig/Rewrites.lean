import Marshal.Errsig
import Marshal.Lib.Matching

/-! The rewrites of a line.

What both the numbers and the normal form of a line need: the kinds of characters, and
quoted text. The pattern for it goes by hand from quote to quote (`replaceFrom_reQuoted`). -/
namespace Marshal.Errsig
open Regex Pat

/-- The rewrites of a line, one after the other. -/
def rewritten (rs : List (Pat × String)) (s : List Char) : List Char :=
  rs.foldl (fun s r => r.1.replaceAll s r.2.toList) s

theorem Normalize_eq (lib : Library) (s : String) :
    Normalize lib s = String.ofList (lower lib (trimSpace (rewritten rewrites s.toList))) := rfl

theorem rewritten_append (rs rs' : List (Pat × String)) (s : List Char) :
    rewritten (rs ++ rs') s = rewritten rs' (rewritten rs s) := List.foldl_append

/-! ### Kinds of characters -/

theorem digit_not_letter {c : Char} (h : digit c = true) : letter c = false := by
  simp only [digit, letter, decide_eq_true_eq, Bool.or_eq_false_iff, decide_eq_false_iff_not, Char.le_def,
    UInt32.le_iff_toNat_le] at h ⊢
  have hletters : 'a'.val.toNat = 97 ∧ 'A'.val.toNat = 65 ∧ '9'.val.toNat = 57 := by decide
  omega

theorem digit_hexDigit {c : Char} (h : digit c = true) : hexDigit c = true := by simp [hexDigit, h]

theorem space_not_digit {d : Char} (hd : digit d = true) : space d = false := by
  rw [← Bool.not_eq_true]
  intro hspace
  simp only [space, decide_eq_true_eq, List.mem_cons, List.not_mem_nil, or_false] at hspace
  rcases hspace with rfl | rfl | rfl | rfl | rfl <;> exact absurd hd (by decide)

theorem digit_ne {c d : Char} (hc : digit c = false) (hd : digit d = true) : d ≠ c := by
  intro heq
  rw [heq, hc] at hd
  cases hd

/-! ### Unsigned numbers -/

def Number (n : List Char) : Prop := n ≠ [] ∧ ∀ c ∈ n, digit c = true

instance (n : List Char) : Decidable (Number n) :=
  inferInstanceAs (Decidable (n ≠ [] ∧ ∀ c ∈ n, digit c = true))

theorem head_number {n rest : List Char} (h : Number n) : (n ++ rest).head?.any word = true := by
  obtain ⟨hne, hdigits⟩ := h
  cases n with
  | nil => exact absurd rfl hne
  | cons c n => simp [word, hdigits c List.mem_cons_self]

/-! ### Quoted text -/

def isQuote (c : Char) : Bool := c ∈ ['"', '\'', '\x60']

theorem quoted_other {q c : Char} (h : c ≠ q) (behind : Option Char) (rest : List Char) :
    (quoted q).ends { behind := behind, ahead := c :: rest } = [] := by
  have hchar : (char q).ends { behind := behind, ahead := c :: rest } = [] := by simp [char, ends, h]
  rw [quoted, all, List.foldr_cons, ends, hchar, List.flatMap_nil]

theorem quoted_open {q : Char} {rest : List Char} (h : q ∉ rest) (behind : Option Char) :
    (quoted q).ends { behind := behind, ahead := q :: rest } = [] := by
  refine List.eq_nil_iff_forall_not_mem.mpr fun t ht => ?_
  obtain ⟨u, hu, ht⟩ := mem_all_cons.mp ht
  obtain ⟨v, hv, ht⟩ := mem_all_cons.mp ht
  obtain ⟨w, hw, -⟩ := mem_all_cons.mp ht
  have hrest : u.ahead = rest := by
    simp only [char, ends, beq_self_eq_true, if_true, List.mem_singleton] at hu
    rw [hu]
  obtain ⟨l, hl, -, -⟩ := ends_taken _ u v hv
  have hq : q ∈ v.ahead := by
    simp only [char, ends] at hw
    split at hw
    · exact absurd hw List.not_mem_nil
    · rename_i c more hahead
      split at hw
      · rename_i hc
        rw [hahead, eq_of_beq hc]
        exact List.mem_cons_self
      · exact absurd hw List.not_mem_nil
  exact h (hrest ▸ hl ▸ List.mem_append_right l hq)

theorem quoted_closed {q : Char} {body : List Char} (h : q ∉ body) (behind : Option Char) (rest : List Char) :
    (quoted q).first { behind := behind, ahead := q :: body ++ q :: rest } =
      some (Place.after { behind := behind, ahead := q :: body ++ q :: rest } (q :: body ++ [q]) rest) := by
  have hopen := first_one (· == q) (s := { behind := behind, ahead := q :: body ++ q :: rest }) rfl
    (beq_self_eq_true q)
  have hbody := first_star (fun c => c != q) (l := body) (q :: rest)
    (fun c hc => bne_iff_ne.mpr fun heq => h (heq ▸ hc)) (by simp)
    (s := Place.after { behind := behind, ahead := q :: body ++ q :: rest } [q] (body ++ q :: rest)) rfl
  rw [after_cons] at hbody
  have hclose := first_one (· == q)
    (s := Place.after { behind := behind, ahead := q :: body ++ q :: rest } (q :: body) (q :: rest)) rfl
    (beq_self_eq_true q)
  rw [after_append] at hclose
  exact first_seq hopen (first_seq hbody (first_seq hclose (q := .empty) rfl))

/-- A quote that is closed is replaced with all up to its end. -/
theorem reQuoted_closed {c : Char} (hc : isQuote c = true) {body : List Char} (h : c ∉ body) (behind : Option Char)
    (rest : List Char) : reQuoted.width behind ((c :: body ++ [c]) ++ rest) = some (c :: body ++ [c]).length := by
  refine width_of_first ?_
  have htext : c :: body ++ [c] ++ rest = c :: body ++ c :: rest := by simp
  have hclosed := quoted_closed h behind rest
  rw [htext]
  simp only [isQuote, decide_eq_true_eq, List.mem_cons, List.not_mem_nil, or_false] at hc
  rcases hc with rfl | rfl | rfl
  · exact first_or_left hclosed
  · exact (first_or_right (quoted_other (by decide) behind _)).trans (first_or_left hclosed)
  · exact (first_or_right (quoted_other (by decide) behind _)).trans
      ((first_or_right (quoted_other (by decide) behind _)).trans hclosed)

theorem reQuoted_none {c : Char} {rest : List Char} (h : ¬ (isQuote c = true ∧ c ∈ rest)) (behind : Option Char) :
    reQuoted.width behind (c :: rest) = none := by
  have hquoted : ∀ q, isQuote q = true → (quoted q).ends { behind := behind, ahead := c :: rest } = [] := by
    intro q hq
    by_cases hcq : c = q
    · subst hcq
      exact quoted_open (fun hmem => h ⟨hq, hmem⟩) behind
    · exact quoted_other hcq behind rest
  refine width_none ?_
  exact List.append_eq_nil_iff.mpr ⟨hquoted '"' (by decide),
    List.append_eq_nil_iff.mpr ⟨hquoted '\'' (by decide), hquoted '\x60' (by decide)⟩⟩

/-- The text with `new` for what is quoted; inside quotes, only the closing quote counts. -/
def unquoted (new : List Char) : Option Char → List Char → List Char
  | _, [] => []
  | some q, c :: rest => if c = q then unquoted new none rest else unquoted new (some q) rest
  | none, c :: rest =>
    if isQuote c = true ∧ c ∈ rest then new ++ unquoted new (some c) rest else c :: unquoted new none rest

theorem unquoted_close (new : List Char) {q : Char} {body : List Char} (h : q ∉ body) (rest : List Char) :
    unquoted new (some q) (body ++ q :: rest) = unquoted new none rest := by
  induction body with
  | nil => simp [unquoted]
  | cons c body ih =>
    rw [List.mem_cons, not_or] at h
    rw [List.cons_append, unquoted, if_neg (Ne.symm h.1), ih h.2]

theorem replaceFrom_reQuoted (new : List Char) (behind : Option Char) (text : List Char) :
    reQuoted.replaceFrom new behind 0 text = unquoted new none text := by
  induction hlength : text.length using Nat.strongRecOn generalizing behind text with
  | _ k ih =>
    cases text with
    | nil => rfl
    | cons c rest =>
      rw [List.length_cons] at hlength
      by_cases hquote : isQuote c = true ∧ c ∈ rest
      · obtain ⟨body, more, rfl, hbody⟩ := List.eq_append_cons_of_mem hquote.2
        have hwidth := reQuoted_closed hquote.1 hbody behind more
        have hreplace := replaceFrom_match (by simp) hwidth new
        have htext : c :: body ++ [c] ++ more = c :: (body ++ c :: more) := by simp
        rw [htext] at hreplace
        rw [hreplace, unquoted, if_pos hquote, unquoted_close new hbody]
        refine congrArg (new ++ ·) (ih more.length ?_ _ more rfl)
        rw [← hlength, List.length_append, List.length_cons]
        omega
      · rw [replaceFrom_cons, reQuoted_none hquote, unquoted, if_neg hquote]
        exact congrArg (c :: ·) (ih rest.length (by omega) _ rest rfl)

end Marshal.Errsig
