import Marshal.Lib.UnitFile
import Mathlib.Algebra.Order.BigOperators.Group.List
import Mathlib.Algebra.Order.Group.Nat
import Mathlib.Algebra.Order.Ring.Nat

/-! The values in a systemd unit file.

A value is split into words at whitespace. A quote opens at the beginning of a word only and
its closing quote ends the word; escapes are those of the documented table. `%` begins a
specifier. In a command line a dollar sign can begin a variable, and a bare semicolon
separates commands. A value that the rules do not cover has no meaning here. -/
namespace UnitValue
open UnitFile Separator

/-! ### Escapes -/

def digit (c : Char) : Option Nat :=
  if '0' ≤ c ∧ c ≤ '9' then some (c.toNat - '0'.toNat)
  else if 'a' ≤ c ∧ c ≤ 'f' then some (c.toNat - 'a'.toNat + 10)
  else if 'A' ≤ c ∧ c ≤ 'F' then some (c.toNat - 'A'.toNat + 10)
  else none

/-- The number in the first so many digits. -/
def coded (base digits : Nat) (s : List Char) : Option Nat :=
  if digits ≤ s.length then
    (s.take digits).foldlM (fun n c => (digit c).bind fun d => if d < base then some (base * n + d) else none) 0
  else none

def byte (n : Nat) : Option (List Char) := if n < 256 then some [Char.ofNat n] else none

/-- The bytes of a code point. -/
def rune (n : Nat) : Option (List Char) :=
  if n.isValidChar then some ((String.utf8EncodeChar (Char.ofNat n)).map fun b => Char.ofNat b.toNat) else none

def escapes : List (Char × Char) :=
  [('a', '\x07'), ('b', '\x08'), ('f', '\x0c'), ('n', '\n'), ('r', '\r'), ('t', '\t'), ('v', '\x0b'), ('\\', '\\'),
    ('"', '"'), ('\'', '\''), ('s', ' ')]

/-- What an escape stands for, by the characters behind the backslash, and how many of them belong to it. -/
def unescape (extra : List Char) : List Char → Option (List Char × Nat)
  | [] => none
  | c :: rest =>
    if c ∈ extra then some ([c], 1)
    else match escapes.lookup c with
      | some d => some ([d], 1)
      | none =>
        if c = 'x' then ((coded 16 2 rest).bind byte).map fun bytes => (bytes, 3)
        else if c = 'u' then ((coded 16 4 rest).bind rune).map fun bytes => (bytes, 5)
        else if c = 'U' then ((coded 16 8 rest).bind rune).map fun bytes => (bytes, 9)
        else ((coded 8 3 (c :: rest)).bind byte).map fun bytes => (bytes, 3)

theorem coded_length {base digits n : Nat} {s : List Char} (h : coded base digits s = some n) : digits ≤ s.length := by
  rw [coded] at h
  split at h
  · assumption
  · cases h

theorem byte_length {n : Nat} {bytes : List Char} (h : byte n = some bytes) : bytes.length = 1 := by
  rw [byte] at h
  split at h
  · rw [← Option.some.inj h]
    rfl
  · cases h

theorem rune_length {n : Nat} {bytes : List Char} (h : rune n = some bytes) : bytes.length ≤ 4 := by
  rw [rune] at h
  split at h
  · rw [← Option.some.inj h, List.length_map, String.length_utf8EncodeChar]
    exact Char.utf8Size_le_four _
  · cases h

/-- An escape is longer than what it stands for. -/
theorem unescape_length {extra s bytes : List Char} {n : Nat} (h : unescape extra s = some (bytes, n)) :
    bytes.length ≤ n ∧ n ≤ s.length := by
  have hcoded : ∀ {base digits : Nat} {t : List Char} {meaning : Nat → Option (List Char)} {limit k : Nat},
      (∀ m bs, meaning m = some bs → bs.length ≤ limit) → limit ≤ k →
      (((coded base digits t).bind meaning).map fun bytes => (bytes, k)) = some (bytes, n) →
      bytes.length ≤ n ∧ n = k ∧ digits ≤ t.length := by
    intro base digits t meaning limit k hmeaning hlimit hsome
    obtain ⟨bs, hbs, heq⟩ := Option.map_eq_some_iff.mp hsome
    obtain ⟨m, hm, hbytes⟩ := Option.bind_eq_some_iff.mp hbs
    obtain ⟨rfl, rfl⟩ := Prod.mk.inj heq
    exact ⟨(hmeaning m _ hbytes).trans hlimit, rfl, coded_length hm⟩
  cases s with
  | nil => cases h
  | cons c rest =>
    have hone : ∀ d : Char, some ([d], 1) = some (bytes, n) → bytes.length ≤ n ∧ n ≤ (c :: rest).length := by
      intro d hd
      obtain ⟨rfl, rfl⟩ := Prod.mk.inj (Option.some.inj hd)
      exact ⟨Nat.le_refl _, by rw [List.length_cons]; omega⟩
    rw [unescape] at h
    split at h
    · exact hone c h
    · split at h
      · exact hone _ h
      · split at h
        · obtain ⟨hlength, rfl, hdigits⟩ := hcoded (fun m bs hm => (byte_length hm).le) (by omega) h
          exact ⟨hlength, Nat.succ_le_succ hdigits⟩
        · split at h
          · obtain ⟨hlength, rfl, hdigits⟩ := hcoded (fun m bs hm => rune_length hm) (by omega) h
            exact ⟨hlength, Nat.succ_le_succ hdigits⟩
          · split at h
            · obtain ⟨hlength, rfl, hdigits⟩ := hcoded (fun m bs hm => rune_length hm) (by omega) h
              exact ⟨hlength, Nat.succ_le_succ hdigits⟩
            · obtain ⟨hlength, rfl, hdigits⟩ := hcoded (fun m bs hm => (byte_length hm).le) (by omega) h
              exact ⟨hlength, hdigits⟩

/-! ### Words -/

structure Word where
  text : List Char
  /-- Written without quotes and escapes. -/
  bare : Bool
  deriving DecidableEq, Repr

/-- Where the reader stands: between words, in one without quotes, in quotes, or behind a closing quote. -/
inductive Mode where
  | between
  | bare
  | quoted (q : Char)
  | closed
  deriving DecidableEq, Repr

def quote (c : Char) : Bool := c == '"' || c == '\''

/-- One character before the rest: the words it ends, how reading goes on, and how many more characters it takes. -/
def step (extra : List Char) (mode : Mode) (word : Word) (c : Char) (rest : List Char) :
    Option (List Word × Mode × Word × Nat) :=
  match mode with
  | .between =>
    if white c then some ([], .between, word, 0)
    else if quote c then some ([], .quoted c, ⟨[], false⟩, 0)
    else if c = '\\' then (unescape extra rest).map fun e => ([], .bare, ⟨e.1, false⟩, e.2)
    else some ([], .bare, ⟨[c], true⟩, 0)
  | .bare =>
    if white c then some ([word], .between, word, 0)
    else if quote c then none
    else if c = '\\' then (unescape extra rest).map fun e => ([], .bare, ⟨word.text ++ e.1, false⟩, e.2)
    else some ([], .bare, ⟨word.text ++ [c], word.bare⟩, 0)
  | .quoted q =>
    if c = q then some ([], .closed, word, 0)
    else if c = '\\' then (unescape extra rest).map fun e => ([], .quoted q, ⟨word.text ++ e.1, false⟩, e.2)
    else some ([], .quoted q, ⟨word.text ++ [c], word.bare⟩, 0)
  | .closed => if white c then some ([word], .between, word, 0) else none

/-- At the end of the text; no quote may be left open. -/
def close (word : Word) : Mode → Option (List Word)
  | .between => some []
  | .quoted _ => none
  | .bare | .closed => some [word]

/-- The words of a text of which so many characters are taken already. -/
def read (extra : List Char) : Mode → Word → Nat → List Char → Option (List Word)
  | mode, word, _, [] => close word mode
  | mode, word, n + 1, _ :: rest => read extra mode word n rest
  | mode, word, 0, c :: rest =>
    (step extra mode word c rest).bind fun s => (read extra s.2.1 s.2.2.1 s.2.2.2 rest).map fun words => s.1 ++ words

def words (extra s : List Char) : Option (List Word) := read extra .between ⟨[], true⟩ 0 s

theorem read_cons (extra : List Char) (mode : Mode) (word : Word) (c : Char) (rest : List Char) :
    read extra mode word 0 (c :: rest) =
      (step extra mode word c rest).bind fun s =>
        (read extra s.2.1 s.2.2.1 s.2.2.2 rest).map fun words => s.1 ++ words := rfl

theorem read_skip (extra : List Char) (mode : Mode) (word : Word) (n : Nat) (c : Char) (rest : List Char) :
    read extra mode word (n + 1) (c :: rest) = read extra mode word n rest := rfl

/-- In quotes an escape is read as what it stands for, and not at all if it stands for nothing. -/
theorem read_escape {q : Char} (hq : q ≠ '\\') (extra : List Char) (word : Word) (rest : List Char) :
    read extra (.quoted q) word 0 ('\\' :: rest) =
      (unescape extra rest).bind fun e => read extra (.quoted q) ⟨word.text ++ e.1, false⟩ e.2 rest := by
  rw [read_cons, step, if_neg hq.symm, if_pos rfl, Option.bind_map]
  refine Option.bind_congr fun e _ => ?_
  rw [Function.comp_apply]
  simp only [List.nil_append, Option.map_id']

theorem words_dropWhile (extra s : List Char) : words extra (s.dropWhile white) = words extra s := by
  induction s with
  | nil => rfl
  | cons c s ih =>
    rw [List.dropWhile_cons]
    split
    · rename_i hwhite
      rw [ih, words, words, read_cons, step, if_pos hwhite, Option.bind_some]
      simp only [List.nil_append, Option.map_id']
    · rfl

/-! ### What words cost -/

section Cost
variable {extra s : List Char} {mode : Mode} {word : Word} {out : List Word}

/-- The characters that a word takes at least, with one to end it. -/
def Word.weight (w : Word) : Nat := w.text.length + 1 + if w.bare then 0 else 1

def weight (ws : List Word) : Nat := (ws.map Word.weight).sum

theorem weight_append (ws ws' : List Word) : weight (ws ++ ws') = weight ws + weight ws' := by
  rw [weight, List.map_append, List.sum_append]
  rfl

/-- What the word that is being read costs so far. -/
def owed : Mode → Word → Nat
  | .between, _ => 1
  | _, word => word.weight

theorem weight_escape (before : Word) {m mode' : Mode} {word' : Word} {n limit : Nat} (hm : ∀ w, owed m w = w.weight)
    (hbefore : before.text.length + 1 ≤ limit)
    (h : ((unescape extra s).map fun e => (([] : List Word), m, (⟨before.text ++ e.1, false⟩ : Word), e.2)) =
      some (out, mode', word', n)) : weight out + owed mode' word' ≤ limit + 1 + n ∧ n ≤ s.length := by
  obtain ⟨e, he, heq⟩ := Option.map_eq_some_iff.mp h
  obtain ⟨hbytes, hn⟩ := unescape_length he
  simp only [Prod.mk.injEq] at heq
  obtain ⟨rfl, rfl, rfl, rfl⟩ := heq
  refine ⟨?_, hn⟩
  rw [hm]
  simp only [weight, List.map_nil, List.sum_nil, Word.weight, List.length_append, Bool.false_eq_true, if_false]
  omega

theorem step_weight {c : Char} {mode' : Mode} {word' : Word} {n : Nat}
    (h : step extra mode word c s = some (out, mode', word', n)) :
    weight out + owed mode' word' ≤ owed mode word + 1 + n ∧ n ≤ s.length := by
  have hweight : word.text.length + 1 ≤ word.weight := by rw [Word.weight]; omega
  have hplain : ∀ (out₀ : List Word) (mode₀ : Mode) (word₀ : Word),
      some (out₀, mode₀, word₀, 0) = some (out, mode', word', n) →
      weight out₀ + owed mode₀ word₀ ≤ owed mode word + 1 →
      weight out + owed mode' word' ≤ owed mode word + 1 + n ∧ n ≤ s.length := by
    intro out₀ mode₀ word₀ hsome hle
    simp only [Option.some.injEq, Prod.mk.injEq] at hsome
    obtain ⟨rfl, rfl, rfl, rfl⟩ := hsome
    exact ⟨hle, Nat.zero_le _⟩
  have hput : ∀ m : Mode, (∀ w, owed m w = w.weight) →
      weight [] + owed m ⟨word.text ++ [c], word.bare⟩ ≤ word.weight + 1 := by
    intro m hm
    simp only [hm, weight, List.map_nil, List.sum_nil, Word.weight, List.length_append, List.length_singleton]
    omega
  cases mode with
  | between =>
    simp only [step] at h
    split at h
    · exact hplain _ _ _ h (by simp [weight, owed])
    · split at h
      · exact hplain _ _ _ h (by simp [weight, owed, Word.weight])
      · split at h
        · exact weight_escape ⟨[], true⟩ (fun _ => rfl) (Nat.le_refl _) h
        · exact hplain _ _ _ h (by simp [weight, owed, Word.weight])
  | bare =>
    simp only [step] at h
    split at h
    · exact hplain _ _ _ h (by simp [weight, owed])
    · split at h
      · cases h
      · split at h
        · exact weight_escape word (fun _ => rfl) hweight h
        · exact hplain _ _ _ h (hput .bare fun _ => rfl)
  | quoted q =>
    simp only [step] at h
    split at h
    · exact hplain _ _ _ h (by simp [weight, owed])
    · split at h
      · exact weight_escape word (fun _ => rfl) hweight h
      · exact hplain _ _ _ h (hput (.quoted q) fun _ => rfl)
  | closed =>
    simp only [step] at h
    split at h
    · exact hplain _ _ _ h (by simp [weight, owed])
    · cases h

/-- Words cost no more than the text they are read from: what one step costs, and induction on the text. -/
theorem read_weight {n : Nat} (hn : n ≤ s.length) {ws : List Word} (h : read extra mode word n s = some ws) :
    weight ws + n ≤ owed mode word + s.length := by
  induction s generalizing mode word n ws with
  | nil =>
    obtain rfl : n = 0 := Nat.le_zero.mp hn
    rw [read] at h
    cases mode with
    | between =>
      rw [← Option.some.inj h]
      exact Nat.zero_le _
    | quoted q => cases h
    | bare | closed =>
      rw [← Option.some.inj h]
      simp [weight, owed]
  | cons c rest ih =>
    rw [List.length_cons] at hn ⊢
    cases n with
    | succ n =>
      rw [read_skip] at h
      have hrest := ih (Nat.le_of_succ_le_succ hn) h
      omega
    | zero =>
      rw [read_cons] at h
      obtain ⟨⟨out, mode', word', n⟩, hstep, hread⟩ := Option.bind_eq_some_iff.mp h
      obtain ⟨ws', hws', rfl⟩ := Option.map_eq_some_iff.mp hread
      obtain ⟨hout, hn'⟩ := step_weight hstep
      have hrest := ih hn' hws'
      rw [weight_append]
      dsimp only at hrest ⊢
      omega

theorem words_weight {ws : List Word} (h : words extra s = some ws) : weight ws ≤ s.length + 1 := by
  have hread := read_weight (Nat.zero_le _) h
  rw [owed] at hread
  omega

end Cost

/-! ### Bare words -/

/-- Without quotes and escapes the character stands for itself. -/
def ordinary (c : Char) : Bool := !(white c || quote c || c == '\\')

/-- A word that can be written bare. -/
def Plain (w : List Char) : Prop := w ≠ [] ∧ ∀ c ∈ w, ordinary c = true

section Bare
variable {extra s : List Char} {mode : Mode} {word : Word} {out : List Word}

theorem ordinary_iff {c : Char} : ordinary c = true ↔ white c = false ∧ quote c = false ∧ c ≠ '\\' := by
  simp [ordinary, and_assoc]

theorem step_plain {c : Char} {mode' : Mode} {word' : Word} {n : Nat}
    (h : step extra mode word c s = some (out, mode', word', n))
    (hword : mode ≠ .between → word.bare = true → mode = .bare ∧ Plain word.text) :
    (∀ w ∈ out, w.bare = true → Plain w.text) ∧
      (mode' ≠ .between → word'.bare = true → mode' = .bare ∧ Plain word'.text) := by
  have hescape : ∀ (before : Word) (m : Mode),
      ((unescape extra s).map fun e => (([] : List Word), m, (⟨before.text ++ e.1, false⟩ : Word), e.2)) =
        some (out, mode', word', n) → out = [] ∧ word'.bare = false := by
    intro before m hsome
    obtain ⟨e, -, heq⟩ := Option.map_eq_some_iff.mp hsome
    simp only [Prod.mk.injEq] at heq
    obtain ⟨rfl, -, rfl, -⟩ := heq
    exact ⟨rfl, rfl⟩
  have hsplit : ∀ {out₀ : List Word} {mode₀ : Mode} {word₀ : Word},
      some (out₀, mode₀, word₀, 0) = some (out, mode', word', n) → out = out₀ ∧ mode' = mode₀ ∧ word' = word₀ := by
    intro out₀ mode₀ word₀ hsome
    simp only [Option.some.injEq, Prod.mk.injEq] at hsome
    obtain ⟨rfl, rfl, rfl, -⟩ := hsome
    exact ⟨rfl, rfl, rfl⟩
  cases mode with
  | between =>
    simp only [step] at h
    split at h
    · obtain ⟨rfl, rfl, rfl⟩ := hsplit h
      exact ⟨List.forall_mem_nil _, fun hne => absurd rfl hne⟩
    · rename_i hwhite
      split at h
      · obtain ⟨rfl, rfl, rfl⟩ := hsplit h
        exact ⟨List.forall_mem_nil _, fun _ hbare => Bool.noConfusion hbare⟩
      · rename_i hquote
        split at h
        · obtain ⟨rfl, hbare⟩ := hescape ⟨[], true⟩ .bare h
          exact ⟨List.forall_mem_nil _, fun _ htrue => absurd htrue (by rw [hbare]; exact Bool.false_ne_true)⟩
        · rename_i hback
          obtain ⟨rfl, rfl, rfl⟩ := hsplit h
          refine ⟨List.forall_mem_nil _, fun _ _ => ⟨rfl, List.cons_ne_nil _ _, fun d hd => ?_⟩⟩
          rw [List.mem_singleton.mp hd]
          exact ordinary_iff.mpr ⟨Bool.eq_false_iff.mpr hwhite, Bool.eq_false_iff.mpr hquote, hback⟩
  | bare =>
    have hplain : word.bare = true → Plain word.text := fun hbare => (hword (by decide) hbare).2
    simp only [step] at h
    split at h
    · obtain ⟨rfl, rfl, rfl⟩ := hsplit h
      exact ⟨List.forall_mem_singleton.mpr hplain, fun hne => absurd rfl hne⟩
    · rename_i hwhite
      split at h
      · cases h
      · rename_i hquote
        split at h
        · obtain ⟨rfl, hbare⟩ := hescape word .bare h
          exact ⟨List.forall_mem_nil _, fun _ htrue => absurd htrue (by rw [hbare]; exact Bool.false_ne_true)⟩
        · rename_i hback
          obtain ⟨rfl, rfl, rfl⟩ := hsplit h
          refine ⟨List.forall_mem_nil _, fun _ hbare => ⟨rfl, ?_, fun d hd => ?_⟩⟩
          · exact List.append_ne_nil_of_left_ne_nil (hplain hbare).1 _
          · rcases List.mem_append.mp hd with hd | hd
            · exact (hplain hbare).2 d hd
            · rw [List.mem_singleton.mp hd]
              exact ordinary_iff.mpr ⟨Bool.eq_false_iff.mpr hwhite, Bool.eq_false_iff.mpr hquote, hback⟩
  | quoted q =>
    have hquoted : word.bare = false := by
      cases hbare : word.bare with
      | false => rfl
      | true => exact absurd (hword Mode.noConfusion hbare).1 Mode.noConfusion
    simp only [step] at h
    split at h
    · obtain ⟨rfl, rfl, rfl⟩ := hsplit h
      exact ⟨List.forall_mem_nil _, fun _ htrue => absurd htrue (by rw [hquoted]; exact Bool.false_ne_true)⟩
    · split at h
      · obtain ⟨rfl, hbare⟩ := hescape word (.quoted q) h
        exact ⟨List.forall_mem_nil _, fun _ htrue => absurd htrue (by rw [hbare]; exact Bool.false_ne_true)⟩
      · obtain ⟨rfl, rfl, rfl⟩ := hsplit h
        refine ⟨List.forall_mem_nil _, fun _ htrue => absurd htrue ?_⟩
        rw [hquoted]
        exact Bool.false_ne_true
  | closed =>
    simp only [step] at h
    split at h
    · obtain ⟨rfl, rfl, rfl⟩ := hsplit h
      refine ⟨List.forall_mem_singleton.mpr fun hbare => ?_, fun hne => absurd rfl hne⟩
      exact absurd (hword Mode.noConfusion hbare).1 Mode.noConfusion
    · cases h

/-- Words that are read bare can be written so. -/
theorem read_plain {n : Nat} {ws : List Word} (h : read extra mode word n s = some ws)
    (hword : mode ≠ .between → word.bare = true → mode = .bare ∧ Plain word.text) :
    ∀ w ∈ ws, w.bare = true → Plain w.text := by
  induction s generalizing mode word n ws with
  | nil =>
    rw [read] at h
    cases mode with
    | between =>
      rw [← Option.some.inj h]
      exact List.forall_mem_nil _
    | quoted q => cases h
    | bare | closed =>
      rw [← Option.some.inj h]
      exact List.forall_mem_singleton.mpr fun hbare => (hword Mode.noConfusion hbare).2
  | cons c rest ih =>
    cases n with
    | succ n =>
      rw [read_skip] at h
      exact ih h hword
    | zero =>
      rw [read_cons] at h
      obtain ⟨⟨out, mode', word', n⟩, hstep, hread⟩ := Option.bind_eq_some_iff.mp h
      obtain ⟨ws', hws', rfl⟩ := Option.map_eq_some_iff.mp hread
      obtain ⟨hout, hword'⟩ := step_plain hstep hword
      exact List.forall_mem_append.mpr ⟨hout, ih hws' hword'⟩

/-- Ordinary characters go on with a word as they are. -/
theorem read_ordinary {w : List Char} (hw : ∀ c ∈ w, ordinary c = true) (text rest : List Char) (bare : Bool) :
    read extra .bare ⟨text, bare⟩ 0 (w ++ rest) = read extra .bare ⟨text ++ w, bare⟩ 0 rest := by
  induction w generalizing text with
  | nil => rw [List.nil_append, List.append_nil]
  | cons c w ih =>
    obtain ⟨hc, hw⟩ := List.forall_mem_cons.mp hw
    obtain ⟨hwhite, hquote, hback⟩ := ordinary_iff.mp hc
    have hstep : step extra .bare ⟨text, bare⟩ c (w ++ rest) = some ([], .bare, ⟨text ++ [c], bare⟩, 0) := by
      simp [step, hwhite, hquote, hback]
    rw [List.cons_append, read_cons, hstep, Option.bind_some]
    simp only [List.nil_append, Option.map_id']
    rw [ih hw, List.append_assoc, List.singleton_append]

theorem read_word {w : List Char} (hw : Plain w) (word : Word) (rest : List Char) :
    read extra .between word 0 (w ++ rest) = read extra .bare ⟨w, true⟩ 0 rest := by
  obtain ⟨hne, hall⟩ := hw
  cases w with
  | nil => exact absurd rfl hne
  | cons c w =>
    obtain ⟨hc, hw⟩ := List.forall_mem_cons.mp hall
    obtain ⟨hwhite, hquote, hback⟩ := ordinary_iff.mp hc
    have hstep : step extra .between word c (w ++ rest) = some ([], .bare, ⟨[c], true⟩, 0) := by
      simp [step, hwhite, hquote, hback]
    rw [List.cons_append, read_cons, hstep, Option.bind_some]
    simp only [List.nil_append, Option.map_id']
    exact read_ordinary hw [c] rest true

theorem read_join {w : List Char} {ws : List (List Char)} (h : ∀ w' ∈ w :: ws, Plain w') (word : Word) :
    read extra .between word 0 ([' '].intercalate (w :: ws)) = some ((w :: ws).map (⟨·, true⟩)) := by
  induction ws generalizing w word with
  | nil =>
    have hread : read extra .between word 0 (w ++ []) = _ := read_word (h w List.mem_cons_self) word []
    rw [List.append_nil] at hread
    rw [List.intercalate_singleton, hread]
    rfl
  | cons w' ws ih =>
    obtain ⟨hw, hws⟩ := List.forall_mem_cons.mp h
    rw [List.intercalate_cons_cons, List.append_assoc, List.singleton_append, read_word hw, read_cons]
    have hstep : step extra .bare ⟨w, true⟩ ' ' ([' '].intercalate (w' :: ws)) =
        some ([⟨w, true⟩], .between, ⟨w, true⟩, 0) := rfl
    rw [hstep, Option.bind_some, ih hws]
    rfl

end Bare

/-! ### Specifiers and variables -/

/-- A character as it is, or what stands for another text. -/
inductive Item where
  | text (c : Char)
  | specifier (c : Option Char)
  | variable (name : List Char)
  /-- The words of a variable's value. -/
  | fields (name : List Char)
  deriving DecidableEq, Repr

/-- What a character begins before the rest, and how many characters of it belong to that. -/
abbrev Opens := Char → List Char → Option (Item × Nat)

/-- Behind `%`. -/
def specifier : List Char → Item × Nat
  | [] => (.specifier none, 0)
  | c :: _ => (if c = '%' then .text '%' else .specifier (some c), 1)

/-- Behind `$`, within a word. -/
def reference : List Char → Option (Item × Nat)
  | '$' :: _ => some (.text '$', 1)
  | '\x7b' :: rest => (cut '\x7d' rest).map fun p => (.variable p.1, p.1.length + 2)
  | _ => none

def specifierAt (c : Char) (rest : List Char) : Option (Item × Nat) := if c = '%' then some (specifier rest) else none

def commandAt (c : Char) (rest : List Char) : Option (Item × Nat) :=
  if c = '$' then reference rest else specifierAt c rest

/-- The items of a text of which so many characters are taken already. -/
def expand (opens : Opens) : Nat → List Char → List Item
  | _, [] => []
  | n + 1, _ :: rest => expand opens n rest
  | 0, c :: rest => match opens c rest with
    | some (item, n) => item :: expand opens n rest
    | none => .text c :: expand opens 0 rest

/-- A word of a command line; a variable without braces is a word of its own. -/
def argument (word : List Char) : List Item :=
  match word with
  | '$' :: rest =>
    if rest.head? = some '$' ∨ rest.head? = some '\x7b' then expand commandAt 0 word else [.fields rest]
  | _ => expand commandAt 0 word

section Expand
variable {opens : Opens} {s l : List Char}

/-- What is begun stays within the text, and a character stands for more than itself. -/
def Fits (opens : Opens) : Prop :=
  ∀ c rest item n, opens c rest = some (item, n) → n ≤ rest.length ∧ (n = 0 → ∀ d, item ≠ .text d)

/-- Nothing begins in the text. -/
def Literal (opens : Opens) (s : List Char) : Prop := ∀ front c rest, s = front ++ c :: rest → opens c rest = none

theorem literal_cons {c : Char} : Literal opens (c :: s) ↔ opens c s = none ∧ Literal opens s := by
  constructor
  · intro h
    exact ⟨h [] c s rfl, fun front d rest hs => h (c :: front) d rest (by rw [hs, List.cons_append])⟩
  · intro h front d rest hs
    obtain ⟨hc, hs'⟩ := h
    cases front with
    | nil =>
      obtain ⟨rfl, rfl⟩ := List.cons.inj hs
      exact hc
    | cons e front => exact hs' front d rest (List.cons.inj hs).2

theorem expand_literal (h : Literal opens s) : expand opens 0 s = s.map .text := by
  induction s with
  | nil => rfl
  | cons c s ih =>
    obtain ⟨hc, hs⟩ := literal_cons.mp h
    rw [expand, hc]
    dsimp only
    rw [ih hs, List.map_cons]

theorem expand_length (hopens : Fits opens) {n : Nat} (hn : n ≤ s.length) :
    (expand opens n s).length + n ≤ s.length := by
  induction s generalizing n with
  | nil =>
    rw [expand, List.length_nil, Nat.zero_add]
    exact hn
  | cons c s ih =>
    rw [List.length_cons] at hn ⊢
    cases n with
    | succ n =>
      have hrest := ih (Nat.le_of_succ_le_succ hn)
      rw [expand]
      omega
    | zero =>
      rw [expand]
      split
      · rename_i item n hitem
        have hrest := ih (hopens _ _ _ _ hitem).1
        rw [List.length_cons]
        omega
      · have hrest := ih (Nat.zero_le _)
        rw [List.length_cons]
        omega

/-- A text that is read as characters is these characters, or is longer. -/
theorem expand_text (hopens : Fits opens) (h : expand opens 0 s = l.map .text) :
    l.length < s.length ∨ (l = s ∧ Literal opens s) := by
  induction s generalizing l with
  | nil =>
    obtain rfl : l = [] := List.map_eq_nil_iff.mp h.symm
    refine .inr ⟨rfl, fun front c rest hnil => ?_⟩
    exact absurd hnil.symm (List.append_ne_nil_of_right_ne_nil _ (List.cons_ne_nil _ _))
  | cons c s ih =>
    rw [expand] at h
    split at h
    · rename_i item n hitem
      obtain ⟨hn, htext⟩ := hopens _ _ _ _ hitem
      cases l with
      | nil => cases h
      | cons d l =>
        rw [List.map_cons] at h
        obtain ⟨rfl, hl⟩ := List.cons.inj h
        have hrest := expand_length hopens hn
        rw [hl, List.length_map] at hrest
        have hpos : n ≠ 0 := fun hzero => htext hzero d rfl
        left
        rw [List.length_cons, List.length_cons]
        omega
    · rename_i hnone
      cases l with
      | nil => cases h
      | cons d l =>
        rw [List.map_cons] at h
        obtain ⟨hd, hl⟩ := List.cons.inj h
        obtain rfl : c = d := Item.text.inj hd
        rcases ih hl with hlt | ⟨rfl, hs⟩
        · exact .inl (Nat.succ_lt_succ hlt)
        · exact .inr ⟨rfl, literal_cons.mpr ⟨hnone, hs⟩⟩

theorem fits_specifierAt : Fits specifierAt := by
  intro c rest item n h
  rw [specifierAt] at h
  split at h
  · cases rest with
    | nil =>
      rw [specifier, Option.some.injEq, Prod.mk.injEq] at h
      obtain ⟨rfl, rfl⟩ := h
      exact ⟨Nat.le_refl _, fun _ d => Item.noConfusion⟩
    | cons d rest =>
      rw [specifier, Option.some.injEq, Prod.mk.injEq] at h
      obtain ⟨-, rfl⟩ := h
      exact ⟨by rw [List.length_cons]; omega, fun hzero => absurd hzero Nat.one_ne_zero⟩
  · cases h

theorem fits_commandAt : Fits commandAt := by
  intro c rest item n h
  rw [commandAt] at h
  split at h
  · unfold reference at h
    split at h
    · rw [Option.some.injEq, Prod.mk.injEq] at h
      obtain ⟨-, rfl⟩ := h
      exact ⟨by rw [List.length_cons]; omega, fun hzero => absurd hzero Nat.one_ne_zero⟩
    · rename_i rest
      obtain ⟨⟨name, after⟩, hcut, heq⟩ := Option.map_eq_some_iff.mp h
      rw [Prod.mk.injEq] at heq
      obtain ⟨-, rfl⟩ := heq
      refine ⟨?_, fun hzero => absurd hzero (Nat.succ_ne_zero _)⟩
      rw [(cut_eq_some.mp hcut).2, List.length_cons, List.length_append, List.length_cons]
      dsimp only
      omega
    · cases h
  · exact fits_specifierAt _ _ _ _ h

theorem literal_iff_suffix : Literal opens s ↔ ∀ c rest, c :: rest <:+ s → opens c rest = none := by
  constructor
  · intro h c rest hsuffix
    obtain ⟨front, hfront⟩ := hsuffix
    exact h front c rest hfront.symm
  · intro h front c rest hs
    exact h c rest ⟨front, hs.symm⟩

theorem literal_specifierAt : Literal specifierAt s ↔ '%' ∉ s := by
  constructor
  · intro h hmem
    obtain ⟨front, rest, hs⟩ := List.append_of_mem hmem
    cases h front '%' rest hs
  · intro h front c rest hs
    refine if_neg fun hc => h ?_
    rw [hs, hc]
    exact List.mem_append_right _ List.mem_cons_self

/-- In a command line, moreover, no dollar signs stand side by side and no variable is named in braces. -/
theorem literal_commandAt : Literal commandAt s ↔
    '%' ∉ s ∧ ¬ ['$', '$'] <:+: s ∧ ∀ name, ¬ '$' :: '\x7b' :: (name ++ ['\x7d']) <:+: s := by
  constructor
  · intro h
    refine ⟨fun hmem => ?_, fun hpart => ?_, fun name hpart => ?_⟩
    · obtain ⟨front, rest, hs⟩ := List.append_of_mem hmem
      cases h front '%' rest hs
    · obtain ⟨front, rest, hs⟩ := hpart
      cases h front '$' ('$' :: rest) (by rw [← hs]; simp)
    · obtain ⟨front, rest, hs⟩ := hpart
      have hnone : cut '\x7d' (name ++ '\x7d' :: rest) = none := by
        have hlit := h front '$' ('\x7b' :: (name ++ '\x7d' :: rest)) (by rw [← hs]; simp)
        exact Option.map_eq_none_iff.mp hlit
      exact cut_eq_none.mp hnone (List.mem_append_right _ List.mem_cons_self)
  · intro h front c rest hs
    obtain ⟨hpercent, hdollars, hbraces⟩ := h
    rw [commandAt]
    split
    · rename_i hc
      unfold reference
      split
      · rename_i rest
        exact absurd ⟨front, rest, by rw [hs, hc]; simp⟩ hdollars
      · rename_i rest
        refine Option.map_eq_none_iff.mpr (cut_eq_none.mpr fun hmem => ?_)
        obtain ⟨name, after, hrest⟩ := List.append_of_mem hmem
        exact hbraces name ⟨front, after, by rw [hs, hc, hrest]; simp⟩
      · rfl
    · exact literal_specifierAt.mpr hpercent front c rest hs

/-- A word of a command line that stands for itself. -/
def Verbatim (w : List Char) : Prop :=
  Literal commandAt w ∧ ∀ rest, w = '$' :: rest → rest.head? = some '$' ∨ rest.head? = some '\x7b'

theorem argument_verbatim (h : Verbatim s) : argument s = s.map .text := by
  obtain ⟨hlit, hhead⟩ := h
  unfold argument
  split
  · rename_i rest
    rw [if_pos (hhead rest rfl)]
    exact expand_literal hlit
  · exact expand_literal hlit

theorem argument_text (h : argument s = l.map .text) : l.length < s.length ∨ (l = s ∧ Verbatim s) := by
  unfold argument at h
  split at h
  · rename_i rest
    split at h
    · rename_i hhead
      rcases expand_text fits_commandAt h with hlt | ⟨hl, hlit⟩
      · exact .inl hlt
      · refine .inr ⟨hl, hlit, fun rest' hrest => ?_⟩
        rw [← (List.cons.inj hrest).2]
        exact hhead
    · cases l with
      | nil => cases h
      | cons c l => cases (List.cons.inj h).1
  · rename_i hhead
    rcases expand_text fits_commandAt h with hlt | ⟨hl, hlit⟩
    · exact .inl hlt
    · exact .inr ⟨hl, hlit, fun rest hrest => absurd hrest (hhead rest)⟩

end Expand

/-! ### Command lines -/

def separator (w : Word) : Bool := w.bare && w.text == [';']

/-- The words between separators. -/
def separated : List Word → List (List Word)
  | [] => [[]]
  | w :: ws => if separator w then [] :: separated ws else (separated ws).modifyHead (w :: ·)

structure Command where
  /-- The characters in front of the path that say how it is run. -/
  flags : List Char
  argv : List (List Item)
  deriving DecidableEq, Repr

def flag (c : Char) : Bool := c ∈ ['@', '-', ':', '+', '!', '|']

def command : List Word → Option Command
  | [] => none
  | w :: ws => some ⟨w.text.takeWhile flag, argument (w.text.dropWhile flag) :: ws.map fun w => argument w.text⟩

def commands (value : List Char) : Option (List Command) :=
  (words [';'] value).map fun ws => (separated ws).filterMap command

section Commands
variable {value : List Char} {ws group : List Word} {argv : List (List Char)}

theorem separated_ne_nil (ws : List Word) : separated ws ≠ [] := by
  induction ws with
  | nil => exact List.cons_ne_nil _ _
  | cons w ws ih =>
    rw [separated]
    split
    · exact List.cons_ne_nil _ _
    · cases hgroups : separated ws with
      | nil => exact absurd hgroups ih
      | cons g gs => exact List.cons_ne_nil _ _

theorem flatten_separated (ws : List Word) : (separated ws).flatten = ws.filter (!separator ·) := by
  induction ws with
  | nil => rfl
  | cons w ws ih =>
    rw [separated]
    split
    · rename_i hsep
      rw [List.flatten_cons, List.nil_append, ih, List.filter_cons_of_neg (by simp [hsep])]
    · rename_i hsep
      rw [List.filter_cons_of_pos (by simp [hsep]), ← ih]
      cases hgroups : separated ws with
      | nil => exact absurd hgroups (separated_ne_nil ws)
      | cons g gs => rfl

theorem separated_eq_self (h : ∀ w ∈ ws, separator w = false) : separated ws = [ws] := by
  induction ws with
  | nil => rfl
  | cons w ws ih =>
    obtain ⟨hw, hws⟩ := List.forall_mem_cons.mp h
    rw [separated, hw, ih hws]
    rfl

/-- Where there is one command, its words are all that are no separators. -/
theorem flatten_of_single {groups : List (List Word)} {c : Command} (h : groups.filterMap command = [c]) :
    command groups.flatten = some c := by
  have hnone : ∀ groups : List (List Word), groups.filterMap command = [] → groups.flatten = [] := by
    intro groups hgroups
    refine List.flatten_eq_nil_iff.mpr fun group hgroup => ?_
    have hcommand := List.filterMap_eq_nil_iff.mp hgroups group hgroup
    cases group with
    | nil => rfl
    | cons w ws => cases hcommand
  induction groups with
  | nil => cases h
  | cons group groups ih =>
    cases group with
    | nil => exact ih h
    | cons w ws =>
      obtain ⟨hc, hrest⟩ := List.cons.inj h
      rw [List.flatten_cons, hnone groups hrest, List.append_nil, ← hc]
      rfl

/-- The characters of the arguments, with one to end each. -/
def size (argv : List (List Char)) : Nat := (argv.map fun a => a.length + 1).sum

theorem length_intercalate (a : List Char) (argv : List (List Char)) :
    ([' '].intercalate (a :: argv)).length + 1 = size (a :: argv) := by
  induction argv generalizing a with
  | nil => simp [size]
  | cons b argv ih =>
    have hrest := ih b
    rw [List.intercalate_cons_cons, List.length_append, List.length_append, List.length_singleton]
    simp only [size, List.map_cons, List.sum_cons] at hrest ⊢
    omega

/-- Arguments that are characters take no more room than their words; if the words take no more either, they
are written bare and stand for themselves. -/
theorem size_le_weight (h : (group.map fun w => argument w.text) = argv.map fun a => a.map Item.text) :
    size argv ≤ weight group ∧ (weight group ≤ size argv →
      argv = group.map Word.text ∧ ∀ w ∈ group, w.bare = true ∧ Verbatim w.text) := by
  induction group generalizing argv with
  | nil =>
    obtain rfl : argv = [] := List.map_eq_nil_iff.mp h.symm
    exact ⟨Nat.le_refl _, fun _ => ⟨rfl, List.forall_mem_nil _⟩⟩
  | cons w group ih =>
    cases argv with
    | nil => cases h
    | cons a argv =>
      obtain ⟨ha, hargv⟩ := List.cons.inj h
      obtain ⟨hsize, hself⟩ := ih hargv
      have hweight : weight (w :: group) = w.weight + weight group := rfl
      have hadd : size (a :: argv) = a.length + 1 + size argv := rfl
      have hw : w.text.length + 1 ≤ w.weight := by rw [Word.weight]; omega
      rcases argument_text ha with hlt | ⟨htext, hverbatim⟩
      · refine ⟨by omega, fun hle => ?_⟩
        omega
      · have hlength : a.length = w.text.length := by rw [htext]
        refine ⟨by omega, fun hle => ?_⟩
        have hbare : w.bare = true := by
          cases hbare : w.bare with
          | true => rfl
          | false =>
            have hquoted : w.weight = w.text.length + 1 + 1 := by rw [Word.weight, hbare]; rfl
            omega
        obtain ⟨hargv, hgroup⟩ := hself (by omega)
        exact ⟨by rw [List.map_cons, htext, hargv], List.forall_mem_cons.mpr ⟨⟨hbare, hverbatim⟩, hgroup⟩⟩

/-- An argument that can be written as it is. -/
structure Simple (a : List Char) : Prop where
  plain : Plain a
  verbatim : Verbatim a
  notSeparator : a ≠ [';']

theorem weight_filter (p : Word → Bool) (ws : List Word) : weight (ws.filter p) ≤ weight ws :=
  List.Sublist.sum_le_sum (List.filter_sublist.map _) fun _ _ => Nat.zero_le _

/-- A text no longer than the arguments with blanks between them is one command of these only if it is as long
and each of them can be written as it is. -/
theorem simple_of_commands {a : List Char} (h : commands value = some [⟨[], (a :: argv).map fun a => a.map Item.text⟩])
    (hlength : value.length ≤ ([' '].intercalate (a :: argv)).length) :
    value.length = ([' '].intercalate (a :: argv)).length ∧ ∀ b ∈ a :: argv, Simple b := by
  obtain ⟨ws, hws, hcommands⟩ := Option.map_eq_some_iff.mp h
  have hcommand := flatten_of_single hcommands
  rw [flatten_separated] at hcommand
  have hargs : ((ws.filter (!separator ·)).map fun w => argument w.text) = (a :: argv).map fun a => a.map Item.text := by
    cases hgroup : ws.filter (!separator ·) with
    | nil => rw [hgroup] at hcommand; cases hcommand
    | cons w group =>
      rw [hgroup, command, Option.some.injEq, Command.mk.injEq] at hcommand
      obtain ⟨hflags, hargv⟩ := hcommand
      have hdrop : w.text.dropWhile flag = w.text := by
        have hsplit := List.takeWhile_append_dropWhile (p := flag) (l := w.text)
        rwa [hflags, List.nil_append] at hsplit
      rw [hdrop] at hargv
      exact hargv
  obtain ⟨hsize, hself⟩ := size_le_weight hargs
  have hwords := words_weight hws
  have hfilter := weight_filter (!separator ·) ws
  have hjoined := length_intercalate a argv
  obtain ⟨heq, hgroup⟩ := hself (by omega)
  refine ⟨by omega, fun b hb => ?_⟩
  rw [heq] at hb
  obtain ⟨w, hw, rfl⟩ := List.mem_map.mp hb
  obtain ⟨hbare, hverbatim⟩ := hgroup w hw
  obtain ⟨hmem, hsep⟩ := List.mem_filter.mp hw
  refine ⟨?_, hverbatim, fun hsemi => ?_⟩
  · exact read_plain hws (fun hne => absurd rfl hne) w hmem hbare
  · simp [separator, hbare, hsemi] at hsep

theorem commands_simple {a : List Char} (h : ∀ b ∈ a :: argv, Simple b) (hflag : a.head?.any flag = false) :
    commands ([' '].intercalate (a :: argv)) = some [⟨[], (a :: argv).map fun a => a.map Item.text⟩] := by
  have hwords : words [';'] ([' '].intercalate (a :: argv)) = some ((a :: argv).map (⟨·, true⟩)) :=
    read_join (fun b hb => (h b hb).plain) _
  have hseparated : separated ((a :: argv).map (⟨·, true⟩)) = [(a :: argv).map (⟨·, true⟩)] := by
    refine separated_eq_self fun w hw => ?_
    obtain ⟨b, hb, rfl⟩ := List.mem_map.mp hw
    simp [separator, (h b hb).notSeparator]
  have hargument : ∀ b ∈ a :: argv, argument b = b.map Item.text := fun b hb => argument_verbatim (h b hb).verbatim
  have htake : a.takeWhile flag = [] ∧ a.dropWhile flag = a := by
    cases a with
    | nil => exact ⟨rfl, rfl⟩
    | cons c a =>
      have hc : flag c = false := hflag
      simp [hc]
  obtain ⟨ha, hargv⟩ := List.forall_mem_cons.mp hargument
  rw [commands, hwords, Option.map_some, hseparated, List.map_cons]
  simp only [List.filterMap_cons, List.filterMap_nil, command, htake.1, htake.2, List.map_map, List.map_cons, ha]
  congr 4
  exact List.map_congr_left hargv

end Commands

/-! ### Environments -/

def assignment (w : Word) : Option (List Char × List Item) :=
  (cut '=' w.text).map fun p => (p.1, expand specifierAt 0 p.2)

def assignments (value : List Char) : Option (List (List Char × List Item)) :=
  (words [] value).bind fun ws => ws.mapM assignment

/-- What the directives of one name set together; an empty value takes back those before it. -/
def settings {α : Type*} (parse : List Char → Option (List α)) (values : List (List Char)) : Option (List α) :=
  values.foldlM (fun before value => if value = [] then some [] else (parse value).map fun a => before ++ a) []

section Settings
variable {α : Type*} {parse : List Char → Option (List α)} {v w : List Char} {a b : List α}

theorem settings_one (hv : v ≠ []) : settings parse [v] = parse v := by
  simp [settings, hv]

theorem settings_two (hv : v ≠ []) (hw : w ≠ []) :
    settings parse [v, w] = (parse v).bind fun a => (parse w).map fun b => a ++ b := by
  simp [settings, hv, hw]

/-- Where two directives set anything, the second one is not empty. -/
theorem settings_both (hv : v ≠ []) {e : α} (h : settings parse [v, w] = some (e :: b)) :
    ∃ a c, parse v = some a ∧ parse w = some c ∧ a ++ c = e :: b := by
  by_cases hw : w = []
  · subst hw
    simp only [settings, List.foldlM_cons, List.foldlM_nil, hv, if_false, if_true, Option.bind_eq_bind] at h
    obtain ⟨a, -, ha⟩ := Option.bind_eq_some_iff.mp h
    cases ha
  · rw [settings_two hv hw] at h
    obtain ⟨a, ha, hmap⟩ := Option.bind_eq_some_iff.mp h
    obtain ⟨c, hc, heq⟩ := Option.map_eq_some_iff.mp hmap
    exact ⟨a, c, ha, hc, heq⟩

/-- With no more than one directive behind it, what the first one sets comes first. -/
theorem settings_head {values : List (List Char)} (hv : v ≠ []) (hvalues : values.length ≤ 1) {e : α}
    (h : settings parse (v :: values) = some (e :: b)) : ∃ a c, parse v = some a ∧ a ++ c = e :: b := by
  match values, hvalues with
  | [], _ =>
    rw [settings_one hv] at h
    exact ⟨e :: b, [], h, List.append_nil _⟩
  | [w], _ =>
    obtain ⟨a, c, ha, -, heq⟩ := settings_both hv h
    exact ⟨a, c, ha, heq⟩

end Settings

end UnitValue
