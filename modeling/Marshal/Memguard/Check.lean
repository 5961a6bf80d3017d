import Marshal.Lib.Keyed
import Marshal.Memguard

/-! One tick of the memory guard.

The samples are a map, and the loop over them takes its entries in any order. An instance
that comes to the threshold fires for its app, which clears the app's counters in the
middle of the loop: an instance visited later starts a new one. So the order matters
exactly where an app that fires has two instances over its limit (`order_free_iff`). -/
namespace Marshal.Memguard

/-- So many over-limit samples in a row, and the app is restarted. -/
def defaultThreshold : Nat := 3

/-- A restart, and what is logged of it. -/
structure Fire where
  name : String
  label : String
  mem : Nat
  limit : Nat
  deriving DecidableEq, Repr

/-- The counters and the restarts so far, in the loop over the samples. -/
structure Visit where
  breach : Table String Nat
  fires : List Fire := []

def Visit.fired (v : Visit) (name : String) : Prop := name ∈ v.fires.map Fire.name

instance (v : Visit) (name : String) : Decidable (v.fired name) :=
  inferInstanceAs (Decidable (name ∈ v.fires.map Fire.name))

/-- A label's counter; one that is absent reads 0. -/
def count (breach : Table String Nat) (label : String) : Nat := (breach.get label).getD 0

/-- One turn of the loop, for a label and its resident memory. -/
def visit (limits : Table String Nat) (v : Visit) (sample : String × Nat) : Visit :=
  let label := sample.1
  let name := appName label
  match limits.get name with
  | none => v
  | some limit =>
    if sample.2 ≤ limit then { v with breach := v.breach.del label }
    else
      let breach := v.breach.set label (count v.breach label + 1)
      if count v.breach label + 1 < defaultThreshold ∨ v.fired name then { v with breach := breach }
      else
        { breach := breach.discard fun l _ => appName l == name
          fires := v.fires ++ [⟨name, label, sample.2, limit⟩] }

namespace Guard

/-- The loop, with the samples in the order they are visited. -/
def visits (g : Guard) (order : List (String × Nat)) : Visit :=
  order.foldl (visit g.limits) { breach := g.breach }

/-- One tick. -/
def Check (g : Guard) (order : List (String × Nat)) : Guard := { g with breach := (g.visits order).breach }

/-- The apps that a tick restarts. -/
def restarts (g : Guard) (order : List (String × Nat)) : List String :=
  (g.visits order).fires.map Fire.name

end Guard

/-! ### One app in the loop -/

/-- The label's app has a limit and the memory is over it. -/
def Over (limits : Table String Nat) (sample : String × Nat) : Prop :=
  ∃ limit, limits.get (appName sample.1) = some limit ∧ limit < sample.2

/-- The sample brings its label to the threshold. -/
def Due (limits breach : Table String Nat) (sample : String × Nat) : Prop :=
  Over limits sample ∧ defaultThreshold ≤ count breach sample.1 + 1

instance (limits : Table String Nat) (sample : String × Nat) : Decidable (Over limits sample) :=
  match h : limits.get (appName sample.1) with
  | none => isFalse (by simp [Over, h])
  | some limit => decidable_of_iff (limit < sample.2) (by simp [Over, h])

instance (limits breach : Table String Nat) (sample : String × Nat) :
    Decidable (Due limits breach sample) := inferInstanceAs (Decidable (_ ∧ _))

variable {limits : Table String Nat} {v : Visit} {sample : String × Nat} {name : String}

/-- A sample counts, deletes its counter, or leaves the counters as they are; and it may fire. -/
inductive Visited (limits : Table String Nat) (v : Visit) (sample : String × Nat) : Visit → Prop where
  | unlimited (h : limits.get (appName sample.1) = none) : Visited limits v sample v
  | under {limit : Nat} (h : limits.get (appName sample.1) = some limit) (hmem : sample.2 ≤ limit) :
      Visited limits v sample { v with breach := v.breach.del sample.1 }
  | counted (h : Over limits sample) (hnot : ¬ Due limits v.breach sample ∨ v.fired (appName sample.1)) :
      Visited limits v sample
        { v with breach := v.breach.set sample.1 (count v.breach sample.1 + 1) }
  | fires {fire : Fire} (h : Due limits v.breach sample) (hnot : ¬ v.fired (appName sample.1))
      (hname : fire.name = appName sample.1) :
      Visited limits v sample
        { breach := (v.breach.set sample.1 (count v.breach sample.1 + 1)).discard
            fun l _ => appName l == appName sample.1
          fires := v.fires ++ [fire] }

theorem visit_cases (limits : Table String Nat) (v : Visit) (sample : String × Nat) :
    Visited limits v sample (visit limits v sample) := by
  unfold visit
  simp only
  split
  · rename_i hlimit
    exact .unlimited hlimit
  · rename_i limit hlimit
    split
    · rename_i hmem
      exact .under hlimit hmem
    · rename_i hmem
      have hover : Over limits sample := ⟨limit, hlimit, Nat.lt_of_not_le hmem⟩
      split
      · rename_i hcount
        refine .counted hover (hcount.imp (fun h hdue => ?_) id)
        exact absurd hdue.2 (Nat.not_le_of_lt h)
      · rename_i hcount
        obtain ⟨hcount, hfired⟩ := not_or.mp hcount
        exact .fires ⟨hover, Nat.le_of_not_lt hcount⟩ hfired rfl

/-- What one sample makes of its label's counter while the app does not fire. -/
def tick (limits breach : Table String Nat) (sample : String × Nat) : Option Nat :=
  match limits.get (appName sample.1) with
  | none => breach.get sample.1
  | some limit => if sample.2 ≤ limit then none else some (count breach sample.1 + 1)

/-- What the samples make of a label's counter while its app does not fire. -/
def tally (limits breach : Table String Nat) (order : List (String × Nat)) (label : String) : Option Nat :=
  match Keyed.first Prod.fst order label with
  | none => breach.get label
  | some sample => tick limits breach sample

theorem tick_over {breach : Table String Nat} (h : Over limits sample) :
    tick limits breach sample = some (count breach sample.1 + 1) := by
  obtain ⟨limit, hlimit, hmem⟩ := h
  simp only [tick, hlimit, if_neg (Nat.not_le_of_lt hmem)]

/-- One turn that does not fire for the app `name`. -/
theorem visit_quiet (hquiet : appName sample.1 = name → ¬ Due limits v.breach sample ∨ v.fired name) :
    ((visit limits v sample).fired name ↔ v.fired name) ∧
      ∀ label, appName label = name → (visit limits v sample).breach.get label =
        if label = sample.1 then tick limits v.breach sample else v.breach.get label := by
  have hcases := visit_cases limits v sample
  generalize visit limits v sample = v' at hcases ⊢
  cases hcases with
  | unlimited h =>
    refine ⟨Iff.rfl, fun label _ => ?_⟩
    split
    · rename_i hlabel
      simp only [tick, h, hlabel]
    · rfl
  | @under limit h hmem =>
    refine ⟨Iff.rfl, fun label _ => ?_⟩
    rw [Table.get_del]
    simp only [tick, h, if_pos hmem]
  | counted h _ =>
    refine ⟨Iff.rfl, fun label _ => ?_⟩
    rw [Table.get_set, tick_over h]
  | fires h hnot hname =>
    have hother : appName sample.1 ≠ name := by
      intro heq
      rcases hquiet heq with hdue | hfired
      · exact hdue h
      · exact hnot (heq ▸ hfired)
    refine ⟨?_, fun label hlabel => ?_⟩
    · unfold Visit.fired
      simp [hname, hother.symm]
    · have hne : label ≠ sample.1 := fun heq => hother (heq ▸ hlabel)
      have hkeep : (appName label == appName sample.1) = false := by simpa [hlabel] using hother.symm
      rw [if_neg hne, Table.get_discard, Table.get_set, if_neg hne]
      cases v.breach.get label <;> simp [hkeep]

/-- The turn that fires clears the app's counters. -/
theorem visit_fires (h : Due limits v.breach sample) (hnot : ¬ v.fired (appName sample.1)) :
    (visit limits v sample).fired (appName sample.1) ∧
      ∀ label, appName label = appName sample.1 → (visit limits v sample).breach.get label = none := by
  have hcases := visit_cases limits v sample
  generalize visit limits v sample = v' at hcases ⊢
  cases hcases with
  | unlimited hnone =>
    obtain ⟨limit, hlimit, -⟩ := h.1
    rw [hnone] at hlimit
    cases hlimit
  | under hlimit hmem =>
    obtain ⟨limit, hlimit', hover⟩ := h.1
    rw [hlimit, Option.some.injEq] at hlimit'
    omega
  | counted _ hcase => exact absurd hcase (by simp [h, hnot])
  | fires _ _ hname =>
    refine ⟨by simp [Visit.fired, hname], fun label hlabel => ?_⟩
    rw [Table.get_discard]
    simp [hlabel]

/-- Turns that do not fire for the app: each of its labels has its tally. -/
theorem visits_quiet {order : List (String × Nat)} (hnodup : (order.map Prod.fst).Nodup)
    (hquiet : ∀ s ∈ order, appName s.1 = name → ¬ Due limits v.breach s ∨ v.fired name) :
    ((order.foldl (visit limits) v).fired name ↔ v.fired name) ∧
      ∀ label, appName label = name →
        (order.foldl (visit limits) v).breach.get label = tally limits v.breach order label := by
  induction order generalizing v with
  | nil => exact ⟨Iff.rfl, fun _ _ => rfl⟩
  | cons s rest ih =>
    obtain ⟨hs, hrest⟩ := List.nodup_cons.mp hnodup
    obtain ⟨hfired, hget⟩ := visit_quiet (hquiet s List.mem_cons_self)
    -- a label of the rest is not the one just visited, so it still has its counter
    have hcount : ∀ label, label ∈ rest.map Prod.fst → appName label = name →
        (visit limits v s).breach.get label = v.breach.get label := by
      intro label hlabel hname
      rw [hget label hname, if_neg fun heq : label = s.1 => hs (heq ▸ hlabel)]
    obtain ⟨hfired', htally⟩ := ih hrest fun s' hs' hname => by
      have hsame := hcount s'.1 (List.mem_map_of_mem hs') hname
      rw [hfired]
      unfold Due count
      rw [hsame]
      exact hquiet s' (List.mem_cons_of_mem s hs') hname
    refine ⟨hfired'.trans hfired, fun label hname => ?_⟩
    rw [List.foldl_cons, htally label hname]
    unfold tally
    rw [Keyed.first_cons]
    by_cases hlabel : s.1 = label
    · subst hlabel
      rw [Keyed.first_eq_none.mpr fun e he (heq : e.1 = s.1) => hs (heq ▸ List.mem_map_of_mem he),
        if_pos rfl]
      show (visit limits v s).breach.get s.1 = _
      rw [hget s.1 hname, if_pos rfl]
    · rw [if_neg hlabel]
      cases hfirst : Keyed.first Prod.fst rest label with
      | none =>
        show (visit limits v s).breach.get label = _
        rw [hget label hname, if_neg (Ne.symm hlabel)]
      | some e =>
        obtain ⟨he, rfl⟩ := Keyed.mem_of_first hfirst
        have hsame := hcount e.1 (List.mem_map_of_mem he) hname
        show tick limits (visit limits v s).breach e = tick limits v.breach e
        simp only [tick, count, hsame]

/-! ### One tick -/

variable {g : Guard} {order : List (String × Nat)}

/-- The app is not restarted where none of its samples is due. -/
theorem Guard.check_quiet (hnodup : (order.map Prod.fst).Nodup)
    (hquiet : ∀ s ∈ order, appName s.1 = name → ¬ Due g.limits g.breach s) :
    name ∉ g.restarts order ∧ ∀ label, appName label = name →
      (g.Check order).breach.get label = tally g.limits g.breach order label := by
  have hvisits := @visits_quiet g.limits { breach := g.breach } name order hnodup
    fun s hs hname => .inl (hquiet s hs hname)
  refine ⟨fun hfired => ?_, hvisits.2⟩
  exact absurd (hvisits.1.mp hfired) (by simp [Visit.fired])

/-- The first due sample restarts its app, and those after it count from nothing. -/
theorem Guard.check_fires {before after : List (String × Nat)}
    (hnodup : ((before ++ sample :: after).map Prod.fst).Nodup)
    (hquiet : ∀ s ∈ before, appName s.1 = appName sample.1 → ¬ Due g.limits g.breach s)
    (hdue : Due g.limits g.breach sample) :
    appName sample.1 ∈ g.restarts (before ++ sample :: after) ∧
      ∀ label, appName label = appName sample.1 →
        (g.Check (before ++ sample :: after)).breach.get label = tally g.limits ∅ after label := by
  rw [List.map_append, List.map_cons, List.nodup_append, List.nodup_cons] at hnodup
  obtain ⟨hbefore, ⟨-, hafter⟩, hapart⟩ := hnodup
  obtain ⟨hfired, htally⟩ := @visits_quiet g.limits { breach := g.breach } (appName sample.1) before hbefore
    fun s hs hname => .inl (hquiet s hs hname)
  have hunseen : Keyed.first Prod.fst before sample.1 = none :=
    Keyed.first_eq_none.mpr fun e he heq => hapart e.1 (List.mem_map_of_mem he) sample.1 (by simp) heq
  have hsame : (before.foldl (visit g.limits) { breach := g.breach }).breach.get sample.1 =
      g.breach.get sample.1 := by
    rw [htally sample.1 rfl, tally, hunseen]
  have hdue' : Due g.limits (before.foldl (visit g.limits) { breach := g.breach }).breach sample := by
    unfold Due count
    rw [hsame]
    exact hdue
  obtain ⟨hfires, hcleared⟩ := visit_fires hdue' (hfired.not.mpr (by simp [Visit.fired]))
  obtain ⟨hfired', htally'⟩ := @visits_quiet g.limits _ (appName sample.1) after hafter
    fun _ _ _ => .inr hfires
  have hsplit : g.visits (before ++ sample :: after) = after.foldl (visit g.limits)
      (visit g.limits (before.foldl (visit g.limits) { breach := g.breach }) sample) := by
    rw [Guard.visits, List.foldl_append, List.foldl_cons]
  unfold Guard.restarts Guard.Check
  rw [hsplit]
  refine ⟨hfired'.mpr hfires, fun label hlabel => ?_⟩
  rw [htally' label hlabel]
  unfold tally
  cases hfirst : Keyed.first Prod.fst after label with
  | none => exact hcleared label hlabel
  | some e =>
    obtain ⟨-, rfl⟩ := Keyed.mem_of_first hfirst
    simp only [tick, count, hcleared e.1 hlabel, Table.get_empty]

/-- Some sample of the app is due: a first one is. -/
theorem first_due {limits breach : Table String Nat} (h : ∃ s ∈ order, appName s.1 = name ∧ Due limits breach s) :
    ∃ before s after, order = before ++ s :: after ∧ appName s.1 = name ∧ Due limits breach s ∧
      ∀ s' ∈ before, appName s'.1 = name → ¬ Due limits breach s' := by
  obtain ⟨s, hs, hname, hdue⟩ := h
  let due (s : String × Nat) : Bool := decide (appName s.1 = name ∧ Due limits breach s)
  have hfound : (order.find? due).isSome = true :=
    List.find?_isSome.mpr ⟨s, hs, decide_eq_true ⟨hname, hdue⟩⟩
  obtain ⟨first, hfirst⟩ := Option.isSome_iff_exists.mp hfound
  obtain ⟨hdue, before, after, horder, hbefore⟩ := List.find?_eq_some_iff_append.mp hfirst
  obtain ⟨hname, hdue⟩ := of_decide_eq_true hdue
  refine ⟨before, first, after, horder, hname, hdue, fun s' hs' hname' hdue' => ?_⟩
  have hnot := hbefore s' hs'
  rw [show due s' = true from decide_eq_true ⟨hname', hdue'⟩] at hnot
  cases hnot

/-! ### The calls on a guard -/

/-- A check visits the samples in some order. -/
inductive Call where
  | setLimit (app : String) (bytes : Nat)
  | remove (app : String)
  | check (order : List (String × Nat))

/-- The guard afterwards, and the apps restarted. -/
def Guard.call (g : Guard) : Call → Guard × List String
  | .setLimit app bytes => (g.SetLimit app bytes, [])
  | .remove app => (g.Remove app, [])
  | .check order => (g.Check order, g.restarts order)

/-- What calls one after the other restart. -/
def Guard.answers (g : Guard) : List Call → List (List String)
  | [] => []
  | c :: rest => (g.call c).2 :: (g.call c).1.answers rest

/-- The same limits and the same counters. -/
structure Same (g g' : Guard) : Prop where
  limits : g.limits.get = g'.limits.get
  breach : g.breach.get = g'.breach.get

theorem set_same {t t' : Table String Nat} (h : t.get = t'.get) (k : String) (v : Nat) :
    (t.set k v).get = (t'.set k v).get := by
  funext k'
  rw [Table.get_set, Table.get_set, h]

theorem del_same {t t' : Table String Nat} (h : t.get = t'.get) (k : String) :
    (t.del k).get = (t'.del k).get := by
  funext k'
  rw [Table.get_del, Table.get_del, h]

theorem discard_same {t t' : Table String Nat} (h : t.get = t'.get) (p : String → Nat → Bool) :
    (t.discard p).get = (t'.discard p).get := by
  funext k'
  rw [Table.get_discard, Table.get_discard, h]

theorem visit_same {limits limits' : Table String Nat} {v v' : Visit} (hlimits : limits.get = limits'.get)
    (hbreach : v.breach.get = v'.breach.get) (hfires : v.fires = v'.fires) (sample : String × Nat) :
    (visit limits v sample).breach.get = (visit limits' v' sample).breach.get ∧
      (visit limits v sample).fires = (visit limits' v' sample).fires := by
  unfold visit Visit.fired count
  simp only [hlimits, hbreach, hfires]
  split
  · exact ⟨hbreach, hfires⟩
  · split
    · exact ⟨del_same hbreach _, rfl⟩
    · split
      · exact ⟨set_same hbreach _ _, rfl⟩
      · exact ⟨discard_same (set_same hbreach _ _) _, rfl⟩

theorem visits_same {limits limits' : Table String Nat} {v v' : Visit} (hlimits : limits.get = limits'.get)
    (hbreach : v.breach.get = v'.breach.get) (hfires : v.fires = v'.fires) (order : List (String × Nat)) :
    (order.foldl (visit limits) v).breach.get = (order.foldl (visit limits') v').breach.get ∧
      (order.foldl (visit limits) v).fires = (order.foldl (visit limits') v').fires := by
  induction order generalizing v v' with
  | nil => exact ⟨hbreach, hfires⟩
  | cons s rest ih =>
    obtain ⟨hbreach', hfires'⟩ := visit_same hlimits hbreach hfires s
    exact ih hbreach' hfires'

theorem Guard.Remove_breach (g : Guard) (app label : String) :
    (g.Remove app).breach.get label = if appName label = app then none else g.breach.get label := by
  have hdiscard : (g.Remove app).breach = g.breach.discard fun l _ => appName l == app := by
    simp only [Guard.Remove, Table.discard, beq_iff_eq]
  rw [hdiscard, Table.get_discard]
  by_cases h : appName label = app
  · simp [h]
  · cases g.breach.get label <;> simp [h]

theorem Same.call {g g' : Guard} (h : Same g g') (c : Call) :
    (g.call c).2 = (g'.call c).2 ∧ Same (g.call c).1 (g'.call c).1 := by
  cases c with
  | setLimit app bytes =>
    refine ⟨rfl, ?_, h.breach⟩
    show (if bytes = 0 then g.limits.del app else g.limits.set app bytes).get =
      (if bytes = 0 then g'.limits.del app else g'.limits.set app bytes).get
    split
    · exact del_same h.limits app
    · exact set_same h.limits app bytes
  | remove app =>
    refine ⟨rfl, del_same h.limits app, ?_⟩
    funext label
    show (g.Remove app).breach.get label = (g'.Remove app).breach.get label
    rw [Guard.Remove_breach, Guard.Remove_breach, h.breach]
  | check order =>
    obtain ⟨hbreach, hfires⟩ := @visits_same g.limits g'.limits { breach := g.breach } { breach := g'.breach }
      h.limits h.breach rfl order
    exact ⟨congrArg (List.map Fire.name) hfires, h.limits, hbreach⟩

/-- Guards that say the same restart the same apps at every later call. -/
theorem Same.answers {g g' : Guard} (h : Same g g') (calls : List Call) : g.answers calls = g'.answers calls := by
  induction calls generalizing g g' with
  | nil => rfl
  | cons c rest ih =>
    obtain ⟨hanswer, hsame⟩ := h.call c
    unfold Guard.answers
    rw [hanswer, ih hsame]

/-! ### Any order -/

/-- Any two orders of the samples restart the same apps, leave the same counters, so that all later
calls are answered alike, and leave no counter of an app that is restarted. -/
def Guard.OrderFree (g : Guard) (samples : Table String Nat) : Prop :=
  ∀ o o' : List (String × Nat), o.Perm samples.toList → o'.Perm samples.toList →
    (∀ name, name ∈ g.restarts o ↔ name ∈ g.restarts o') ∧
    (g.Check o).breach.get = (g.Check o').breach.get ∧
    (∀ calls, (g.Check o).answers calls = (g.Check o').answers calls) ∧
    ∀ name ∈ g.restarts o, ∀ label, appName label = name → (g.Check o).breach.get label = none

/-- Where an app that fires has one instance over its limit, its counters are gone after the tick. -/
theorem Guard.fires_alone {samples : Table String Nat} (horder : order.Perm samples.toList)
    (hone : ∀ s ∈ samples.toList, Due g.limits g.breach s → ∀ s' ∈ samples.toList,
      appName s'.1 = appName s.1 → Over g.limits s' → s' = s)
    (hdue : ∃ s ∈ order, appName s.1 = name ∧ Due g.limits g.breach s) :
    name ∈ g.restarts order ∧ ∀ label, appName label = name → (g.Check order).breach.get label = none := by
  have hnodup : (order.map Prod.fst).Nodup := (horder.map Prod.fst).nodup_iff.mpr samples.nodup_keys
  obtain ⟨before, s, after, rfl, rfl, hdue, hbefore⟩ := first_due hdue
  obtain ⟨hrestarted, htally⟩ := Guard.check_fires hnodup hbefore hdue
  refine ⟨hrestarted, fun label hlabel => ?_⟩
  rw [htally label hlabel]
  unfold tally
  cases hfirst : Keyed.first Prod.fst after label with
  | none => rfl
  | some e =>
    obtain ⟨he, rfl⟩ := Keyed.mem_of_first hfirst
    have hnot : ¬ Over g.limits e := by
      intro hover
      have heq := hone s (horder.mem_iff.mp (by simp)) hdue e (horder.mem_iff.mp (by simp [he])) hlabel hover
      rw [heq] at he
      rw [List.map_append, List.map_cons, List.nodup_append, List.nodup_cons] at hnodup
      exact hnodup.2.1.1 (List.mem_map_of_mem he)
    show tick g.limits ∅ e = none
    unfold tick
    split
    · rfl
    · rename_i limit hlimit
      exact if_pos (Nat.le_of_not_lt fun hmem => hnot ⟨limit, hlimit, hmem⟩)

/-- **A tick does not depend on the order of its samples exactly if no app with an instance that
comes to the threshold has another instance over the limit.** -/
theorem order_free_iff (g : Guard) (samples : Table String Nat) :
    g.OrderFree samples ↔
      ∀ s ∈ samples.toList, Due g.limits g.breach s → ∀ s' ∈ samples.toList,
        appName s'.1 = appName s.1 → Over g.limits s' → s' = s := by
  constructor
  · intro hfree s hs hdue s' hs' hname hover
    by_contra hne
    -- the instance that fires is visited first, the other one after it
    have hperm : (s :: samples.toList.erase s).Perm samples.toList := (List.perm_cons_erase hs).symm
    have hmem : s' ∈ samples.toList.erase s := (List.mem_erase_of_ne hne).mpr hs'
    have hnodup : ((s :: samples.toList.erase s).map Prod.fst).Nodup :=
      (hperm.map Prod.fst).nodup_iff.mpr samples.nodup_keys
    obtain ⟨hrestarted, htally⟩ := @Guard.check_fires s g [] _ hnodup (by simp) hdue
    have hgone := (hfree _ _ hperm hperm).2.2.2 _ hrestarted s'.1 hname
    rw [← List.nil_append (s :: samples.toList.erase s), htally s'.1 hname] at hgone
    have hfirst : Keyed.first Prod.fst (samples.toList.erase s) s'.1 = some s' :=
      (Keyed.first_eq_some (List.nodup_cons.mp hnodup).2).mpr ⟨hmem, rfl⟩
    rw [tally, hfirst] at hgone
    simp only [tick_over hover] at hgone
    cases hgone
  · intro hone o o' ho ho'
    have hnodup : (o.map Prod.fst).Nodup := (ho.map Prod.fst).nodup_iff.mpr samples.nodup_keys
    have hnodup' : (o'.map Prod.fst).Nodup := (ho'.map Prod.fst).nodup_iff.mpr samples.nodup_keys
    have hoo' : o.Perm o' := ho.trans ho'.symm
    have happ : ∀ name, (name ∈ g.restarts o ↔ name ∈ g.restarts o') ∧
        (∀ label, appName label = name → (g.Check o).breach.get label = (g.Check o').breach.get label) ∧
        (name ∈ g.restarts o → ∀ label, appName label = name → (g.Check o).breach.get label = none) := by
      intro name
      by_cases hdue : ∃ s ∈ o, appName s.1 = name ∧ Due g.limits g.breach s
      · have hdue' : ∃ s ∈ o', appName s.1 = name ∧ Due g.limits g.breach s :=
          hdue.imp fun s h => ⟨hoo'.mem_iff.mp h.1, h.2⟩
        obtain ⟨hr, hgone⟩ := Guard.fires_alone ho hone hdue
        obtain ⟨hr', hgone'⟩ := Guard.fires_alone ho' hone hdue'
        refine ⟨iff_of_true hr hr', fun label hlabel => ?_, fun _ => hgone⟩
        rw [hgone label hlabel, hgone' label hlabel]
      · have hquiet : ∀ s ∈ o, appName s.1 = name → ¬ Due g.limits g.breach s :=
          fun s hs hname h => hdue ⟨s, hs, hname, h⟩
        obtain ⟨hr, htally⟩ := Guard.check_quiet hnodup hquiet
        obtain ⟨hr', htally'⟩ := Guard.check_quiet hnodup'
          fun s hs => hquiet s (hoo'.mem_iff.mpr hs)
        refine ⟨iff_of_false hr hr', fun label hlabel => ?_, fun h => absurd h hr⟩
        rw [htally label hlabel, htally' label hlabel]
        unfold tally
        rw [Keyed.first_perm hnodup hoo']
    have hbreach : (g.Check o).breach.get = (g.Check o').breach.get :=
      funext fun label => (happ (appName label)).2.1 label rfl
    exact ⟨fun name => (happ name).1, hbreach, Same.answers ⟨rfl, hbreach⟩, fun name => (happ name).2.2⟩

/-- The app web has one instance that is a sample away from the threshold. -/
def nearLimit : Guard := (((({} : Guard).SetLimit "web" 100).Check [("web#0", 200)]).Check [("web#0", 200)])

/-- Both of its instances are over the limit. -/
def bothOver : Table String Nat := ((∅ : Table String Nat).set "web#0" 200).set "web#1" 200

/-- The other instance has a counter after the restart or none, as it is visited second or first. -/
theorem order_matters :
    ¬ nearLimit.OrderFree bothOver ∧
    nearLimit.restarts [("web#0", 200), ("web#1", 200)] = ["web"] ∧
    (nearLimit.Check [("web#0", 200), ("web#1", 200)]).breach.get "web#1" = some 1 ∧
    (nearLimit.Check [("web#1", 200), ("web#0", 200)]).breach.get "web#1" = none := by
  have hkept : (nearLimit.Check [("web#0", 200), ("web#1", 200)]).breach.get "web#1" = some 1 := by
    decide +kernel
  have hgone : (nearLimit.Check [("web#1", 200), ("web#0", 200)]).breach.get "web#1" = none := by
    decide +kernel
  refine ⟨fun hfree => ?_, by decide +kernel, hkept, hgone⟩
  have hsame := (hfree [("web#0", 200), ("web#1", 200)] [("web#1", 200), ("web#0", 200)]
    (by decide +kernel) (by decide +kernel)).2.1
  rw [hsame, hgone] at hkept
  cases hkept

end Marshal.Memguard
