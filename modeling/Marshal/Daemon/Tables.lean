import Marshal.Daemon.Service
import Marshal.Lib.Keyed

/-! The tables beside the manager.

The guard's limits and the registry's policies are those of the managed apps (`Tracks`)
as long as no operation sets them for an app that is not taken in, takes an app in
without setting them, or takes an app out without removing its limit (`Keeps`). What the
tables need of an app are its `settings`. -/
namespace Marshal.Memguard
open Daemon

/-- The name before the last `#` is the app's. -/
@[simp] theorem appName_label (name : String) (idx : Nat) : appName (Manager.label name idx) = name := by
  have hrev : (Manager.label name idx).toList.reverse =
      (toString idx).toList.reverse ++ '#' :: name.toList.reverse := by
    simp [Manager.label]
  have hdigits : ∀ c ∈ (toString idx).toList.reverse, (c != '#') = true := by
    intro c hc
    rw [bne_iff_ne]
    rintro rfl
    exact Manager.hash_notMem_toString idx (List.mem_reverse.mp hc)
  unfold appName
  rw [hrev, List.dropWhile_append_of_pos hdigits]
  simp

/-- What is held for a limit of so many bytes. -/
def limitOf (bytes : Nat) : Option Nat := if bytes = 0 then none else some bytes

theorem limitOf_eq_some {bytes limit : Nat} : limitOf bytes = some limit ↔ bytes = limit ∧ 0 < limit := by
  unfold limitOf
  split <;> simp only [reduceCtorEq, Option.some.injEq, false_iff, not_and] <;> omega

theorem limitOf_inj {b b' : Nat} (h : limitOf b = limitOf b') : b = b' := by
  unfold limitOf at h
  split at h <;> split at h <;> simp_all

theorem Guard.SetLimit_limits (g : Guard) (app name : String) (bytes : Nat) :
    (g.SetLimit app bytes).limits.get name =
      if name = app then limitOf bytes else g.limits.get name := by
  unfold SetLimit limitOf
  by_cases hzero : bytes = 0
  · simp only [hzero, if_true, Table.get_del]
  · simp only [hzero, if_false, Table.get_set]

end Marshal.Memguard

namespace Marshal.Daemon
open Config Memguard

/-- The first app of a name. -/
def named (apps : List App) (name : String) : Option App := Keyed.first App.name apps name

/-- The settings the side tables hold of an app: its limit and its policy. -/
def settings (policy : Logs.Policy) (app : App) : Nat × Logs.Policy :=
  (app.maxMemoryRestart, logPolicy app policy)

namespace Manager

/-- Names tell the apps apart and are those of the specs. -/
structure WellNamed (m : Manager) : Prop where
  names : (m.Specs.map (·.name)).Nodup
  spec : ∀ a ∈ m.apps, a.spec.name = a.name

theorem wellNamed_new : WellNamed {} := ⟨List.nodup_nil, by simp⟩

theorem taken_iff {m : Manager} (hm : m.WellNamed) (name : String) :
    m.apps.any (·.name == name) = (named m.Specs name).isSome := by
  refine Bool.eq_iff_iff.mpr ?_
  rw [List.any_eq_true]
  constructor
  · intro h
    obtain ⟨a, ha, hname⟩ := h
    rw [Option.isSome_iff_ne_none]
    intro hnone
    refine Keyed.first_eq_none.mp hnone a.spec (List.mem_map.mpr ⟨a, ha, rfl⟩) ?_
    rw [hm.spec a ha]
    exact beq_iff_eq.mp hname
  · intro h
    obtain ⟨spec, hspec⟩ := Option.isSome_iff_exists.mp h
    obtain ⟨hmem, hname⟩ := Keyed.mem_of_first hspec
    obtain ⟨a, ha, rfl⟩ := List.mem_map.mp hmem
    exact ⟨a, ha, beq_iff_eq.mpr ((hm.spec a ha).symm.trans hname)⟩

theorem Add_Specs {m : Manager} (hm : m.WellNamed) (app : App) : (m.call (.add app)).Specs =
    if (named m.Specs app.name).isSome then m.Specs
    else m.Specs ++ [{ app with id := m.assignID app }] := by
  show (m.Add app).Specs = _
  rw [← taken_iff hm]
  cases htaken : m.apps.any (·.name == app.name) with
  | true =>
    rw [Add_taken htaken]
    rfl
  | false =>
    unfold Specs
    rw [(Add_new htaken).1, List.map_append]
    rfl

theorem Add_answer {m : Manager} (hm : m.WellNamed) (app : App) :
    (∃ text, (m.call (.add app)).answer = .error text) ↔ (named m.Specs app.name).isSome := by
  show (∃ text, (m.Add app).answer = .error text) ↔ _
  rw [← taken_iff hm]
  cases htaken : m.apps.any (·.name == app.name) with
  | true =>
    rw [Add_taken htaken]
    exact ⟨fun _ => rfl, fun _ => ⟨alreadyExists, rfl⟩⟩
  | false =>
    unfold Add
    rw [if_neg (by simp [htaken])]
    simp [answer, finish]

theorem wellNamed_Add {m : Manager} (hm : m.WellNamed) (app : App) : (m.call (.add app)).WellNamed := by
  refine ⟨?_, ?_⟩
  · rw [Add_Specs hm]
    split
    · exact hm.names
    · rename_i hfree
      rw [List.map_append, List.nodup_append]
      refine ⟨hm.names, List.nodup_singleton _, ?_⟩
      intro name hname other hother heq
      rw [List.map_singleton, List.mem_singleton] at hother
      obtain ⟨held, hheld, rfl⟩ := List.mem_map.mp hname
      rw [Option.not_isSome_iff_eq_none] at hfree
      exact Keyed.first_eq_none.mp hfree held hheld (heq.trans hother)
  · show ∀ a ∈ (m.Add app).apps, _
    cases htaken : m.apps.any (·.name == app.name) with
    | true =>
      rw [Add_taken htaken]
      exact hm.spec
    | false =>
      rw [(Add_new htaken).1]
      intro a ha
      rcases List.mem_append.mp ha with ha | ha
      · exact hm.spec a ha
      · rw [List.mem_singleton.mp ha]
        rfl

theorem wellNamed_of_map {m t : Manager} (hm : m.WellNamed)
    (h : t.apps.map (fun a => (a.name, a.spec.name)) = m.apps.map fun a => (a.name, a.spec.name)) :
    t.WellNamed := by
  refine ⟨?_, ?_⟩
  · have hnames : t.Specs.map (·.name) = m.Specs.map (·.name) := by
      simpa [Specs, List.map_map, Function.comp_def] using congrArg (List.map Prod.snd) h
    rw [hnames]
    exact hm.names
  · intro a ha
    have hmem : (a.name, a.spec.name) ∈ m.apps.map fun a => (a.name, a.spec.name) :=
      h ▸ List.mem_map.mpr ⟨a, ha, rfl⟩
    obtain ⟨b, hb, heq⟩ := List.mem_map.mp hmem
    rw [Prod.mk.injEq] at heq
    rw [← heq.1, ← heq.2]
    exact hm.spec b hb

theorem wellNamed_filter {m t : Manager} (hm : m.WellNamed) {p : ManagedApp → Bool}
    (h : t.apps = m.apps.filter p) : t.WellNamed := by
  refine ⟨hm.names.sublist ?_, ?_⟩
  · unfold Specs
    rw [h]
    exact (List.filter_sublist.map _).map _
  · intro a ha
    rw [h] at ha
    exact hm.spec a (List.mem_of_mem_filter ha)

/-! ### Settings by name -/

/-- The settings of the managed app of a name. -/
def row (m : Manager) (policy : Logs.Policy) (name : String) : Option (Nat × Logs.Policy) :=
  (named m.Specs name).map (settings policy)

theorem row_eq_some {m : Manager} (hm : m.WellNamed) {policy : Logs.Policy} {name : String}
    {r : Nat × Logs.Policy} :
    m.row policy name = some r ↔ ∃ a ∈ m.apps, a.name = name ∧ settings policy a.spec = r := by
  unfold row named
  rw [Option.map_eq_some_iff]
  constructor
  · intro h
    obtain ⟨spec, hspec, rfl⟩ := h
    obtain ⟨hmem, rfl⟩ := Keyed.mem_of_first hspec
    obtain ⟨a, ha, rfl⟩ := List.mem_map.mp hmem
    exact ⟨a, ha, (hm.spec a ha).symm, rfl⟩
  · intro h
    obtain ⟨a, ha, rfl, rfl⟩ := h
    exact ⟨a.spec, (Keyed.first_eq_some hm.names).mpr
      ⟨List.mem_map.mpr ⟨a, ha, rfl⟩, hm.spec a ha⟩, rfl⟩

theorem row_Add {m : Manager} (hm : m.WellNamed) (policy : Logs.Policy) (app : App) (name : String) :
    (m.call (.add app)).row policy name =
      (m.row policy name).or (if app.name = name then some (settings policy app) else none) := by
  unfold row
  rw [Add_Specs hm]
  split
  · rename_i htaken
    by_cases hname : app.name = name
    · obtain ⟨held, hheld⟩ := Option.isSome_iff_exists.mp htaken
      rw [← hname, hheld]
      rfl
    · rw [if_neg hname, Option.or_none]
  · unfold named
    rw [Keyed.first_append, Keyed.first_singleton, Option.map_or]
    congr 1
    show Option.map _ (if app.name = name then _ else _) = _
    split <;> rfl

theorem row_step {m t : Manager} {a : Action} (hkeeps : keepsList a = true) (h : m.step a = some t)
    (policy : Logs.Policy) (name : String) : t.row policy name = m.row policy name := by
  have hrow : ∀ u : Manager, u.row policy name =
      (Keyed.first Prod.fst (u.apps.map fun a => (a.spec.name, settings policy a.spec)) name).map
        Prod.snd := by
    intro u
    unfold row named Keyed.first Specs
    rw [List.find?_map, List.find?_map, Option.map_map, Option.map_map]
    rfl
  have hlasting : Lasting fun a => (a.spec.name, settings policy a.spec) :=
    ⟨fun _ _ => rfl, fun _ _ => rfl⟩
  rw [hrow, hrow, hlasting.step hkeeps h]

theorem wellNamed_step {m t : Manager} {a : Action} (hkeeps : keepsList a = true)
    (h : m.step a = some t) (hm : m.WellNamed) : t.WellNamed := by
  have hlasting : Lasting fun a => (a.name, a.spec.name) := ⟨fun _ _ => rfl, fun _ _ => rfl⟩
  exact wellNamed_of_map hm (hlasting.step hkeeps h)

/-- Of the apps added one after the other, the first of a free name is taken in. -/
theorem addAll_row {m : Manager} (hm : m.WellNamed) (policy : Logs.Policy) (apps : List App) :
    (m.addAll apps).1.WellNamed ∧ ∀ name, (m.addAll apps).1.row policy name =
      (m.row policy name).or ((named apps name).map (settings policy)) := by
  induction apps generalizing m with
  | nil => exact ⟨hm, fun name => (Option.or_none).symm⟩
  | cons app rest ih =>
    obtain ⟨hnamed, hrow⟩ := ih (wellNamed_Add hm app)
    refine ⟨hnamed, ?_⟩
    intro name
    rw [addAll, hrow, row_Add hm, Option.or_assoc]
    congr 1
    unfold named
    rw [Keyed.first_cons]
    split <;> rfl

end Manager

/-! ### The tables -/

namespace Service

/-- The side tables are those of the managed apps. -/
structure Tracks (s : Service) : Prop where
  limits : ∀ name bytes, s.guard.limits.get name = some bytes ↔
    ∃ app ∈ s.mgr.Specs, app.name = name ∧ app.maxMemoryRestart = bytes ∧ 0 < bytes
  policies : ∀ app ∈ s.mgr.Specs, ∀ idx,
    s.logs.policyFor (Manager.label app.name idx) = logPolicy app s.logPolicyDefault

/-- The same, read by name. -/
structure InStep (s : Service) : Prop where
  limit : ∀ name, s.guard.limits.get name =
    (s.mgr.row s.logPolicyDefault name).bind fun r => limitOf r.1
  policy : ∀ name r, s.mgr.row s.logPolicyDefault name = some r →
    s.logs.policyFor (Manager.label name 0) = r.2

theorem policyFor_label (r : Logs.Policies) (name : String) (idx : Nat) :
    r.policyFor (Manager.label name idx) = r.policyFor (Manager.label name 0) := by
  unfold Logs.Policies.policyFor
  rw [appName_label, appName_label]

theorem tracks_iff {s : Service} (hm : s.mgr.WellNamed) : s.Tracks ↔ s.InStep := by
  have hspec : ∀ app, app ∈ s.mgr.Specs ↔ named s.mgr.Specs app.name = some app := by
    intro app
    unfold named
    rw [Keyed.first_eq_some hm.names]
    exact ⟨fun h => ⟨h, rfl⟩, fun h => h.1⟩
  have hlimit : ∀ name bytes, ((s.mgr.row s.logPolicyDefault name).bind fun r => limitOf r.1) =
      some bytes ↔ ∃ app ∈ s.mgr.Specs, app.name = name ∧ app.maxMemoryRestart = bytes ∧ 0 < bytes := by
    intro name bytes
    unfold Manager.row
    simp only [Option.bind_eq_some_iff, Option.map_eq_some_iff, limitOf_eq_some]
    constructor
    · intro h
      obtain ⟨r, ⟨app, happ, rfl⟩, hbytes, hpos⟩ := h
      obtain ⟨hmem, hname⟩ := Keyed.mem_of_first happ
      exact ⟨app, hmem, hname, hbytes, hpos⟩
    · intro h
      obtain ⟨app, hmem, rfl, hbytes, hpos⟩ := h
      exact ⟨_, ⟨app, (hspec app).mp hmem, rfl⟩, hbytes, hpos⟩
  constructor
  · intro h
    refine ⟨?_, ?_⟩
    · intro name
      apply Option.ext
      intro bytes
      rw [hlimit]
      exact h.limits name bytes
    · intro name r hr
      obtain ⟨app, happ, rfl⟩ := Option.map_eq_some_iff.mp hr
      obtain ⟨hmem, rfl⟩ := Keyed.mem_of_first happ
      exact h.policies app hmem 0
  · intro h
    refine ⟨?_, ?_⟩
    · intro name bytes
      rw [h.limit, hlimit]
    · intro app happ idx
      rw [policyFor_label]
      exact h.policy app.name _ (by rw [Manager.row, (hspec app).mp happ]; rfl)

end Service
end Marshal.Daemon
