import Mathlib.Data.Finset.Lattice.Fold
import Marshal.Lib.Keyed
import Marshal.Lib.Lines
import Marshal.Lib.Trim
import Marshal.Pm2.Env

/-! Env files written and read back.

The writer puts a key and a value on a line as they are; the reader trims them, and gives a
meaning to quotes, to a `#` in front and to the word `export`. What is read back is the
environment exactly if no entry has anything of that (`dotenv_trip_iff`). -/
namespace Marshal.Pm2
open Config
open Errsig (unicodeSpace)

/-! ### Entries that a line stands for -/

/-- A key that the reader takes as it is. -/
structure PlainKey (k : List Char) : Prop where
  nonempty : k ≠ []
  trimmed : Trim.Trimmed unicodeSpace k
  noEquals : '=' ∉ k
  noNewline : '\n' ∉ k
  noHash : k.head? ≠ some '#'
  noExport : ¬ "export ".toList <+: k

/-- The value stands between two quotes of one kind. -/
def Quoted (v : List Char) : Prop :=
  2 ≤ v.length ∧ v.head? = v.getLast? ∧ (v.head? = some '"' ∨ v.head? = some '\'')

/-- A value that the reader takes as it is. -/
structure PlainValue (v : List Char) : Prop where
  trimmed : Trim.Trimmed unicodeSpace v
  noNewline : '\n' ∉ v
  unquoted : ¬ Quoted v

def line (e : String × String) : List Char := e.1.toList ++ '=' :: e.2.toList

/-! ### What the reader makes of one line -/

variable {k v raw : List Char}

/-- Behind a key, a line is trimmed within its value. -/
theorem trim_line (hk : k ≠ []) (htrim : Trim.Trimmed unicodeSpace k) (v : List Char) :
    ∃ w, Trim.trim unicodeSpace (k ++ '=' :: v) = k ++ '=' :: w ∧
      Trim.trim unicodeSpace w = Trim.trim unicodeSpace v := by
  obtain ⟨front, back, hfront, hback, hv⟩ := Trim.split_trim unicodeSpace v
  have hhead : ∀ s, ∀ c ∈ (k ++ s).head?, unicodeSpace c = false := by
    intro s c hc
    rw [List.head?_append_of_ne_nil _ hk] at hc
    exact htrim.1 c hc
  have hnil : ∀ c ∈ ([] : List Char), unicodeSpace c = true := fun c hc => absurd hc List.not_mem_nil
  by_cases hempty : Trim.trim unicodeSpace v = []
  · refine ⟨[], ?_, hempty.symm⟩
    have hblank : ∀ c ∈ v, unicodeSpace c = true := by
      rw [hv, hempty, List.append_nil]
      intro c hc
      exact (List.mem_append.mp hc).elim (hfront c) (hback c)
    have hdrop := Trim.trim_append hnil hblank (s := k ++ ['='])
    rw [List.nil_append, List.append_assoc, List.singleton_append] at hdrop
    rw [hdrop]
    refine Trim.trim_eq_self ⟨hhead _, ?_⟩
    intro c hc
    rw [List.getLast?_append_of_ne_nil _ (by simp)] at hc
    obtain rfl : '=' = c := by simpa using hc
    decide
  · refine ⟨front ++ Trim.trim unicodeSpace v, ?_, ?_⟩
    · have hdrop := Trim.trim_append hnil hback (s := k ++ '=' :: (front ++ Trim.trim unicodeSpace v))
      have hsame : k ++ '=' :: v = [] ++ (k ++ '=' :: (front ++ Trim.trim unicodeSpace v)) ++ back := by
        conv_lhs => rw [hv]
        simp
      rw [hsame, hdrop]
      refine Trim.trim_eq_self ⟨hhead _, ?_⟩
      intro c hc
      have hend : k ++ '=' :: (front ++ Trim.trim unicodeSpace v) =
          (k ++ '=' :: front) ++ Trim.trim unicodeSpace v := by simp
      rw [hend, List.getLast?_append_of_ne_nil _ hempty] at hc
      exact (Trim.trimmed_trim unicodeSpace v).2 c hc
    · have hdrop := Trim.trim_append hfront hnil (s := Trim.trim unicodeSpace v)
      rw [List.append_nil] at hdrop
      rw [hdrop]
      exact Trim.trim_eq_self (Trim.trimmed_trim unicodeSpace v)

/-- `export ` in front of a line is in front of its key. -/
theorem export_word (k w : List Char) :
    "export ".toList.isPrefixOf (k ++ '=' :: w) = true ↔ "export ".toList <+: k := by
  rw [List.isPrefixOf_iff_prefix]
  constructor
  · rintro ⟨rest, hrest⟩
    rcases List.append_eq_append_iff.mp hrest with ⟨more, hmore, -⟩ | ⟨more, hmore, hback⟩
    · exact ⟨more, hmore.symm⟩
    · -- A key that ends within the word leaves its `=` there.
      cases more with
      | nil => exact ⟨[], by rw [hmore]; simp⟩
      | cons c more =>
        obtain ⟨rfl, -⟩ := List.cons.inj hback
        have hin : '=' ∈ "export ".toList := by
          rw [hmore]
          exact List.mem_append_right k List.mem_cons_self
        exact absurd hin (by decide)
  · intro hpre
    exact hpre.trans (List.prefix_append k _)

/-- Trimming takes nothing from the part before the first `=` but spaces. -/
theorem takeWhile_trim_le (s : List Char) :
    ((Trim.trim unicodeSpace s).takeWhile (· != '=')).length ≤ (s.takeWhile (· != '=')).length := by
  obtain ⟨front, back, hfront, -, hs⟩ := Trim.split_trim unicodeSpace s
  have hspace : ∀ c ∈ front, (c != '=') = true := by
    intro c hc
    have hsep := hfront c hc
    rw [bne_iff_ne]
    rintro rfl
    exact absurd hsep (by decide)
  conv_rhs => rw [hs, List.append_assoc, List.takeWhile_append_of_pos hspace, List.takeWhile_append]
  split <;> simp only [List.length_append] <;> omega

theorem unquote_length_le (v : List Char) : (unquote v).length ≤ v.length := by
  unfold unquote
  split
  · simp only [List.length_dropLast, List.length_tail]
    omega
  · exact le_refl _

theorem unquote_eq_self_iff : unquote v = v ↔ ¬ Quoted v := by
  unfold unquote
  constructor
  · intro h hquoted
    unfold Quoted at hquoted
    rw [if_pos hquoted] at h
    have hlength := congrArg List.length h
    have htwo := hquoted.1
    simp only [List.length_dropLast, List.length_tail] at hlength
    omega
  · intro h
    exact if_neg h

/-- A value is read as it is if it is trimmed and not quoted. -/
theorem unquote_trim_iff :
    unquote (Trim.trim unicodeSpace v) = v ↔ Trim.Trimmed unicodeSpace v ∧ ¬ Quoted v := by
  rw [← unquote_eq_self_iff, ← Trim.trim_eq_self_iff]
  constructor
  · intro h
    have hlength := congrArg List.length h
    have hunquote := unquote_length_le (Trim.trim unicodeSpace v)
    have htrim : Trim.trim unicodeSpace v = v := Trim.trim_eq_of_length (by omega)
    rw [htrim] at h
    exact ⟨htrim, h⟩
  · rintro ⟨htrim, h⟩
    rw [htrim, h]

/-- The line of a key that nothing stands in front of is an entry of the key. -/
theorem parseLine_own (hk : k ≠ []) (htrim : Trim.Trimmed unicodeSpace k) (hkey : '=' ∉ k)
    (hhash : k.head? ≠ some '#') (hexport : ¬ "export ".toList <+: k) (v : List Char) :
    parseLine (k ++ '=' :: v) =
      some (String.ofList k, String.ofList (unquote (Trim.trim unicodeSpace v))) := by
  obtain ⟨w, hline, hw⟩ := trim_line hk htrim v
  have hsame : Trim.trim unicodeSpace (k ++ '=' :: w) = k ++ '=' :: w := by
    rw [← hline]
    exact Trim.trim_eq_self (Trim.trimmed_trim unicodeSpace _)
  have hhead : (k ++ '=' :: w).head? = k.head? := List.head?_append_of_ne_nil _ hk
  have hcomment : ¬ (k ++ '=' :: w = [] ∨ k.head? = some '#') := by simp [hhash]
  obtain ⟨htake, hdrop⟩ := Lines.takeWhile_line hkey w
  have htrimSpace : ∀ s, Errsig.trimSpace s = Trim.trim unicodeSpace s := fun _ => rfl
  unfold parseLine
  simp only [htrimSpace, hline, hhead]
  rw [if_neg hcomment, if_neg fun hpre => hexport ((export_word k w).mp hpre), hsame, htake, hdrop, List.drop_one, List.tail_cons, hw,
    Trim.trim_eq_self htrim, if_neg hk, if_neg (by simp)]

/-- The line of a key without `=` is a comment, an entry of a shorter key, or an entry of the key. -/
theorem parseLine_line (hk : k ≠ []) (htrim : Trim.Trimmed unicodeSpace k) (hkey : '=' ∉ k) (v : List Char)
    {e : String × String} (h : parseLine (k ++ '=' :: v) = some e) :
    e.1.toList.length < k.length ∨
      e = (String.ofList k, String.ofList (unquote (Trim.trim unicodeSpace v))) ∧
        k.head? ≠ some '#' ∧ ¬ "export ".toList <+: k := by
  obtain ⟨w, hline, -⟩ := trim_line hk htrim v
  have hhead : (k ++ '=' :: w).head? = k.head? := List.head?_append_of_ne_nil _ hk
  have htrimSpace : ∀ s, Errsig.trimSpace s = Trim.trim unicodeSpace s := fun _ => rfl
  by_cases hhash : k.head? = some '#'
  · unfold parseLine at h
    simp only [htrimSpace, hline, hhead] at h
    rw [if_pos (Or.inr hhash)] at h
    cases h
  · by_cases hexport : "export ".toList <+: k
    · left
      unfold parseLine at h
      simp only [htrimSpace, hline] at h
      rw [if_pos ((export_word k w).mpr hexport)] at h
      obtain ⟨k', rfl⟩ := hexport
      rw [List.append_assoc, List.drop_left] at h
      split at h
      · cases h
      · split at h
        · cases h
        · split at h <;> cases h
          have hkeyLength := Trim.length_trim_le unicodeSpace
            ((Trim.trim unicodeSpace (k' ++ '=' :: w)).takeWhile (· != '='))
          have hpart := takeWhile_trim_le (k' ++ '=' :: w)
          have hshort : '=' ∉ k' := fun hin => hkey (List.mem_append_right _ hin)
          rw [(Lines.takeWhile_line hshort w).1] at hpart
          have hword : "export ".toList.length = 7 := rfl
          simp only [String.toList_ofList, List.length_append]
          omega
    · right
      rw [parseLine_own hk htrim hkey hhash hexport v] at h
      exact ⟨(Option.some.inj h).symm, hhash, hexport⟩

theorem unquote_subset (v : List Char) : unquote v ⊆ v := by
  unfold unquote
  split
  · exact fun c hc => List.mem_of_mem_tail (List.mem_of_mem_dropLast hc)
  · exact fun c hc => hc

/-- An entry of a line is made of the line's characters, and its key is trimmed. -/
theorem parseLine_parts {e : String × String} (h : parseLine raw = some e) :
    e.1.toList ≠ [] ∧ Trim.Trimmed unicodeSpace e.1.toList ∧ '=' ∉ e.1.toList ∧
      e.1.toList ⊆ raw ∧ e.2.toList ⊆ raw := by
  have htrimSpace : ∀ s, Errsig.trimSpace s = Trim.trim unicodeSpace s := fun _ => rfl
  have hsub : ∀ s, Trim.trim unicodeSpace s ⊆ s := Trim.trim_subset unicodeSpace
  unfold parseLine at h
  simp only [htrimSpace] at h
  split at h
  · cases h
  · have hword : (if "export ".toList.isPrefixOf (Trim.trim unicodeSpace raw) then
        (Trim.trim unicodeSpace raw).drop "export ".toList.length else Trim.trim unicodeSpace raw) ⊆ raw := by
      split
      · exact fun c hc => hsub raw (List.mem_of_mem_drop hc)
      · exact hsub raw
    have hrest := List.Subset.trans (hsub _) hword
    generalize Trim.trim unicodeSpace (if "export ".toList.isPrefixOf (Trim.trim unicodeSpace raw) then
      (Trim.trim unicodeSpace raw).drop "export ".toList.length else Trim.trim unicodeSpace raw) = text at h hrest
    split at h
    · cases h
    · split at h <;> cases h
      rename_i hkey
      simp only [String.toList_ofList]
      refine ⟨hkey, Trim.trimmed_trim unicodeSpace _, ?_, ?_, ?_⟩
      · intro hin
        have hnot := List.mem_takeWhile_imp (hsub _ hin)
        exact absurd hnot (by decide)
      · exact fun c hc => hrest ((List.takeWhile_prefix _).subset (hsub _ hc))
      · exact fun c hc => hrest ((List.dropWhile_suffix _).subset
          (List.mem_of_mem_drop (hsub _ (unquote_subset _ hc))))

/-! ### The whole file -/

/-- The entries of a file's lines, in its order. -/
def entries (data : String) : Env := (data.toList.splitOn '\n').filterMap parseLine

/-- The order in which entries are written. -/
def inKeyOrder (env : Env) : Env := env.insertionSort fun e e' => e.1 ≤ e'.1

theorem lookup_put (out : Env) (e : String × String) (k : String) :
    (put out e).lookup k = if k = e.1 then some e.2 else out.lookup k := by
  unfold put
  rw [List.lookup_cons]
  by_cases h : k = e.1
  · simp [h]
  · have hne : (k == e.1) = false := by simpa using h
    rw [hne, if_neg h]
    simp only
    induction out with
    | nil => rfl
    | cons d rest ih =>
      rw [List.filter_cons, List.lookup_cons]
      split
      · rw [List.lookup_cons, ih]
      · rename_i hd
        have hkey : d.1 = e.1 := by simpa using hd
        rw [hkey, hne, ih]

theorem lookup_parseDotEnv (data : String) (k : String) :
    (parseDotEnv data).lookup k = (Keyed.first Prod.fst (entries data).reverse k).map Prod.snd := by
  have hfold := @Keyed.get_foldl _ _ _ Prod.fst Env (Option String) put (fun out k => out.lookup k)
    (fun e => some e.2) lookup_put (entries data) [] k
  unfold parseDotEnv
  rw [← entries, hfold]
  cases Keyed.first Prod.fst (entries data).reverse k <;> rfl

theorem renderDotEnv_lines (env : Env) :
    (renderDotEnv env).toList = Lines.joined '\n' ((inKeyOrder env).map line) := by
  unfold renderDotEnv Lines.joined
  rw [String.toList_ofList, List.flatMap_map]
  rfl

/-- Without newlines in them, the entries of an environment are the lines of its file. -/
theorem entries_render {env : Env} (h : ∀ e ∈ env, '\n' ∉ line e) :
    entries (renderDotEnv env) = (inKeyOrder env).filterMap (parseLine ∘ line) := by
  have hlines : ∀ l ∈ (inKeyOrder env).map line, '\n' ∉ l := by
    intro l hl
    obtain ⟨e, he, rfl⟩ := List.mem_map.mp hl
    exact h e ((List.perm_insertionSort _ env).subset he)
  have hcut := Lines.cut_joined hlines []
  rw [List.append_nil] at hcut
  unfold entries
  rw [renderDotEnv_lines, Lines.splitOn_eq, hcut, List.filterMap_append, List.filterMap_append,
    List.filterMap_map]
  have hend : parseLine [] = none := by decide
  simp [Lines.cut, hend]

/-- What is read back stands on a line, and was written. -/
theorem mem_entries {env : Env} (hnodup : (env.map Prod.fst).Nodup) (h : Survives env) {e : String × String}
    (he : e ∈ env) : e ∈ entries (renderDotEnv env) := by
  obtain ⟨k, v⟩ := e
  have hlookup := h k
  rw [(Keyed.lookup_eq_some_iff hnodup).mpr he, lookup_parseDotEnv, Option.map_eq_some_iff] at hlookup
  obtain ⟨e, hfirst, rfl⟩ := hlookup
  obtain ⟨hmem, rfl⟩ := Keyed.mem_of_first hfirst
  exact List.mem_reverse.mp hmem

/-- Where every line is an entry of its own key, the whole environment is read. -/
theorem survives_of_own {env : Env} (hnodup : (env.map Prod.fst).Nodup)
    (hown : ∀ e ∈ env, parseLine (line e) = some e ∧ '\n' ∉ line e) : Survives env := by
  have hperm : (inKeyOrder env).reverse.Perm env :=
    (List.reverse_perm _).trans (List.perm_insertionSort _ env)
  have hentries : entries (renderDotEnv env) = inKeyOrder env := by
    rw [entries_render fun e he => (hown e he).2]
    have hsome : (inKeyOrder env).filterMap (parseLine ∘ line) = (inKeyOrder env).filterMap some :=
      List.filterMap_congr fun e he => (hown e ((List.perm_insertionSort _ env).subset he)).1
    rw [hsome, List.filterMap_some]
  intro k
  rw [lookup_parseDotEnv, hentries, Keyed.lookup_eq_first,
    Keyed.first_perm ((hperm.map Prod.fst).nodup_iff.mpr hnodup) hperm]

/-- In an environment that is read back every line is an entry of its own key: the longest key is on no
other line, and so on downwards. -/
theorem own_of_survives {env : Env} (hnodup : (env.map Prod.fst).Nodup) (h : Survives env) :
    ∀ e ∈ env, parseLine (line e) = some e ∧ '\n' ∉ line e := by
  have hparts : ∀ e ∈ env, e.1.toList ≠ [] ∧ Trim.Trimmed unicodeSpace e.1.toList ∧ '=' ∉ e.1.toList ∧
      '\n' ∉ line e := by
    intro e he
    obtain ⟨raw, hraw, hparse⟩ := List.mem_filterMap.mp (mem_entries hnodup h he)
    obtain ⟨hne, htrim, hkey, hsub, hsub'⟩ := parseLine_parts hparse
    have hnone := Lines.notMem_splitOn hraw
    refine ⟨hne, htrim, hkey, fun hin => ?_⟩
    rcases List.mem_append.mp hin with hin | hin
    · exact hnone (hsub hin)
    · rcases List.mem_cons.mp hin with hin | hin
      · exact absurd hin (by decide)
      · exact hnone (hsub' hin)
  have hentries := entries_render fun e he => (hparts e he).2.2.2
  have hfrom : ∀ e ∈ env, parseLine (line e) = some e ∨
      ∃ e' ∈ env, e.1.toList.length < e'.1.toList.length ∧ parseLine (line e') = some e := by
    intro e he
    have hmem := mem_entries hnodup h he
    rw [hentries] at hmem
    obtain ⟨e', he', hparse⟩ := List.mem_filterMap.mp hmem
    have hin : e' ∈ env := (List.perm_insertionSort _ env).subset he'
    obtain ⟨hne, htrim, hkey, -⟩ := hparts e' hin
    rcases parseLine_line hne htrim hkey e'.2.toList hparse with hshort | ⟨hown, -⟩
    · exact Or.inr ⟨e', hin, hshort, hparse⟩
    · have hsame : e = e' := by
        refine List.inj_on_of_nodup_map hnodup he hin ?_
        rw [hown, String.ofList_toList]
      left
      rwa [← hsame] at hparse
  obtain ⟨longest, hlongest⟩ : ∃ longest, ∀ e ∈ env, e.1.toList.length ≤ longest :=
    ⟨env.toFinset.sup fun e => e.1.toList.length, fun e he =>
      Finset.le_sup (f := fun e : String × String => e.1.toList.length) (List.mem_toFinset.mpr he)⟩
  have hdown : ∀ n, ∀ e ∈ env, longest ≤ e.1.toList.length + n → parseLine (line e) = some e := by
    intro n
    induction n with
    | zero =>
      intro e he hlong
      rcases hfrom e he with hown | ⟨e', he', hshort, -⟩
      · exact hown
      · have hbound := hlongest e' he'
        omega
    | succ n ih =>
      intro e he hlong
      rcases hfrom e he with hown | ⟨e', he', hshort, hparse⟩
      · exact hown
      · have hown := ih e' he' (by omega)
        rw [hparse, Option.some.injEq] at hown
        rw [hown] at hshort
        exact absurd hshort (Nat.lt_irrefl _)
  exact fun e he => ⟨hdown longest e he (Nat.le_add_left _ _), (hparts e he).2.2.2⟩

theorem parseLine_own_iff {e : String × String} :
    (parseLine (line e) = some e ∧ '\n' ∉ line e) ↔ PlainKey e.1.toList ∧ PlainValue e.2.toList := by
  obtain ⟨k, v⟩ := e
  constructor
  · rintro ⟨hparse, hnewline⟩
    obtain ⟨hne, htrim, hkey, -⟩ := parseLine_parts hparse
    simp only [line, List.mem_append, List.mem_cons, not_or] at hnewline
    rcases parseLine_line hne htrim hkey v.toList hparse with hshort | ⟨hown, hhash, hexport⟩
    · exact absurd hshort (Nat.lt_irrefl _)
    · have hvalue := congrArg String.toList (congrArg Prod.snd hown)
      rw [String.toList_ofList] at hvalue
      obtain ⟨hvtrim, hquoted⟩ := unquote_trim_iff.mp hvalue.symm
      exact ⟨⟨hne, htrim, hkey, hnewline.1, hhash, hexport⟩, ⟨hvtrim, hnewline.2.2, hquoted⟩⟩
  · rintro ⟨hk, hv⟩
    have hvalue := unquote_trim_iff.mpr ⟨hv.trimmed, hv.unquoted⟩
    refine ⟨?_, ?_⟩
    · rw [line, parseLine_own hk.nonempty hk.trimmed hk.noEquals hk.noHash hk.noExport, hvalue,
        String.ofList_toList, String.ofList_toList]
    · simp [line, hk.noNewline, hv.noNewline]

/-- **An environment is read back from its file exactly when every key and every value is trimmed and on
one line, no key has an `=`, begins with a `#` or with the word `export`, and no value is quoted.** -/
theorem dotenv_trip_iff (env : Env) (hnodup : (env.map Prod.fst).Nodup) :
    Survives env ↔ ∀ e ∈ env, PlainKey e.1.toList ∧ PlainValue e.2.toList := by
  simp only [← parseLine_own_iff]
  exact ⟨own_of_survives hnodup, survives_of_own hnodup⟩

/-- An address with `=` in it comes back. -/
theorem dotenv_trip_url : Survives [("URL", "db://host?a=1")] := by
  refine (dotenv_trip_iff [("URL", "db://host?a=1")] (by decide)).mpr ?_
  intro e he
  obtain rfl := List.mem_singleton.mp he
  exact ⟨⟨by decide, Trim.trim_eq_self_iff.mp (by decide), by decide, by decide, by decide, by decide⟩,
    ⟨Trim.trim_eq_self_iff.mp (by decide), by decide, by simp [Quoted]⟩⟩

/-- A secret with quotes of its own is another one afterwards, and a key may hide another's value. -/
theorem dotenv_trip_changes : ¬ Survives [("TOKEN", "\"secret\"")] ∧
    (parseDotEnv (renderDotEnv [("TOKEN", "\"secret\"")])).lookup "TOKEN" = some "secret" ∧
    ¬ Survives [("A", "1"), ("export A", "2")] ∧
    (parseDotEnv (renderDotEnv [("A", "1"), ("export A", "2")])).lookup "A" = some "2" := by
  have hquotes : (parseDotEnv (renderDotEnv [("TOKEN", "\"secret\"")])).lookup "TOKEN" = some "secret" := by
    decide +kernel
  have hexport : (parseDotEnv (renderDotEnv [("A", "1"), ("export A", "2")])).lookup "A" = some "2" := by
    decide +kernel
  refine ⟨fun h => ?_, hquotes, fun h => ?_, hexport⟩
  · exact absurd (hquotes.symm.trans (h "TOKEN")) (by decide)
  · exact absurd (hexport.symm.trans (h "A")) (by decide)

end Marshal.Pm2
