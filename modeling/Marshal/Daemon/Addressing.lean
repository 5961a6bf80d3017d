import Marshal.Daemon.Focus

/-! Addressing an app by its name.

A call by an addressable name starts out focused on the app and ends so: every
instance of the app is called and no other app is touched (`Exact`). By a name that is
not addressable, some operation does otherwise. -/
namespace Marshal.Daemon
open Config Supervisor
namespace Manager

/-! ### The call of an operation -/

theorem target_of_single {m : Manager} (hm : Single m) {k : Nat} {a : ManagedApp} {n : String}
    (hget : m.apps[k]? = some a) (hname : a.name = n) : Target m k a n := by
  have hbound : ∀ b ∈ m.apps, ∀ h ∈ b.insts, h.inst < m.workers.length := by
    intro b hb h hh
    obtain ⟨x, hx, -⟩ := hm.slots.linked b hb h hh
    exact (List.getElem?_eq_some_iff.mp hx).1
  have ha := List.mem_of_getElem? hget
  refine ⟨hget, hname, ?_, hbound a ha, ?_⟩
  · rintro h hh ⟨b, hb, hne, h', hh', heq⟩
    obtain ⟨x, hx, hkey⟩ := hm.slots.linked a ha h hh
    obtain ⟨y, hy, hkey'⟩ := hm.slots.linked b hb h' hh'
    rw [heq, hx, Option.some.injEq] at hy
    subst hy
    have hnames := (Prod.mk.inj (hkey.symm.trans hkey')).1
    exact hne (hnames.symm.trans hname)
  · rintro w ⟨b, hb, -, h, hh, rfl⟩
    exact hbound b hb h hh

/-- Whether an operation leaves its app in the list. -/
def keepsListed : Op → Bool
  | .delete _ => false
  | _ => true

section Call
variable {m : Manager} {k : Nat} {a : ManagedApp} {n : String}

theorem mem_collect_single {apps : List ManagedApp} {a : ManagedApp} (hget : apps[k]? = some a)
    {x : ManagedInstance} : x ∈ collectInstances apps [k] ↔ x ∈ a.insts := by
  rw [mem_collectInstances]
  constructor
  · rintro ⟨p, hp, b, hb, hx⟩
    rw [List.mem_singleton.mp hp, hget, Option.some.injEq] at hb
    rw [hb]
    exact hx
  · intro hx
    exact ⟨k, by simp, a, hget, hx⟩

/-- An operation that starts with the list as it is, or with one app changed in place. -/
theorem focus_listed {op : Op} {u : Manager} {todo : List Instr} (htarget : Target m k a n)
    (hworkers : u.workers = m.workers) (hresults : u.results = m.results)
    (hrun : u.running = some ⟨op, todo⟩)
    (hothers : ∀ b ∈ m.apps, b.name ≠ n → b ∈ u.apps) (hmap : u.apps.map idName = m.apps.map idName)
    (hinsts : ∀ b, u.apps[k]? = some b → b.insts = a.insts)
    (hplan : Plan (Foreign m n) op k n true todo)
    (hdue : ∀ j h, a.insts[j]? = some h → Due k j h u todo) : Focus m op k a n true u := by
  have hcalls : ∀ w, u.calls w = m.calls w := by
    intro w
    simp [calls, hworkers]
  refine { length := Nat.le_of_eq (by rw [hworkers]), calls := fun w _ => hcalls w,
           mono := fun w => Nat.le_of_eq (hcalls w).symm, others := hothers, list := ?_,
           gone := by simp, running := ?_, idle := ?_ }
  · intro _
    refine ⟨hmap, fun b hb h hh => ?_⟩
    rw [hinsts b hb] at hh
    exact htarget.own h hh
  · intro o todo' hrun'
    rw [hrun] at hrun'
    cases hrun'
    exact ⟨rfl, hresults, hplan, fun j h hh => .inr (hdue j h hh)⟩
  · intro hidle
    rw [hrun] at hidle
    cases hidle

theorem focus_same {op : Op} {todo : List Instr} (htarget : Target m k a n)
    (hplan : Plan (Foreign m n) op k n true todo)
    (hdue : ∀ j h, a.insts[j]? = some h → Due k j h m todo) :
    Focus m op k a n true { m with running := some ⟨op, todo⟩ } := by
  refine focus_listed htarget rfl rfl rfl (fun b hb _ => hb) rfl ?_ hplan hdue
  intro b hb
  have hb : m.apps[k]? = some b := hb
  rw [htarget.get, Option.some.injEq] at hb
  rw [hb]

theorem due_stop {j : Nat} {h : ManagedInstance} {u : Manager} {insts : List ManagedInstance}
    {more : List Instr} (hh : h ∈ insts) : Due k j h u (stopInstances insts ++ more) :=
  .inl (List.mem_append_left _ (List.mem_append_left _ (List.mem_map.mpr ⟨h, hh, rfl⟩)))

theorem plan_describe {op : Op} : Plan (Foreign m n) op k n true [.describe n] :=
  plan_last ⟨rfl, rfl⟩ rfl rfl

theorem plan_fresh {op : Op} (hop : ∀ sel, op ≠ .reload sel) :
    Plan (Foreign m n) op k n true [.fresh [k], .describe n] := by
  show Plan _ _ _ _ _ ([.fresh [k]] ++ [.describe n])
  refine plan_describe.prepend ?_
  intro i hi
  rw [List.mem_singleton.mp hi]
  exact ⟨⟨rfl, rfl, hop⟩, rfl, rfl⟩

theorem reloadSlots_single (hget : m.apps[k]? = some a) :
    m.reloadSlots [k] = (List.range a.spec.instances.toNat).map fun idx => .reloadSlot k idx := by
  simp [reloadSlots, hget]

theorem plan_reload {slots : Nat} : Plan (Foreign m n) (.reload n) k n true
    ((List.range slots).map (fun idx => .reloadSlot k idx) ++ [.describe n]) := by
  refine ⟨?_, ?_, _, _, rfl, rfl, ?_⟩
  · intro i hi
    rcases List.mem_append.mp hi with hi | hi
    · obtain ⟨idx, -, rfl⟩ := List.mem_map.mp hi
      exact ⟨rfl, rfl, n, rfl⟩
    · rw [List.mem_singleton.mp hi]
      exact ⟨rfl, rfl⟩
  · have hturns : turns ((List.range slots).map (fun idx => .reloadSlot k idx) ++ [.describe n]) =
        List.range slots := by
      simp [turns, turn, List.filterMap_append, List.filterMap_map, Function.comp_def]
    rw [hturns]
    exact List.nodup_range
  · intro i hi
    obtain ⟨idx, -, rfl⟩ := List.mem_map.mp hi
    rfl

/-- The app's environment is changed in place. -/
theorem focus_updateEnv {env : List (String × String)} (htarget : Target m k a n)
    (hres : resolve m.apps n = .ok [k]) :
    Focus m (.updateEnv n env) k a n true (m.call (.updateEnv n env)) := by
  let a' : ManagedApp := { a with spec := { a.spec with env := env } }
  have happs : (m.apps.modify k fun a => { a with spec := { a.spec with env := env } }) =
      m.apps.set k a' := by
    rw [List.modify_eq_set_getElem?, htarget.get]
    rfl
  have hget : (m.apps.set k a')[k]? = some a' :=
    List.getElem?_set_self (List.getElem?_eq_some_iff.mp htarget.get).1
  simp only [call, UpdateEnv, hres, happs]
  refine focus_listed htarget rfl rfl rfl ?_ ?_ ?_ (plan_stop (plan_fresh (by simp)) ?_) ?_
  · intro b hb hne
    rcases mem_set_of_mem (b := a') htarget.get hb with rfl | hmem
    · exact absurd htarget.name hne
    · exact hmem
  · exact map_set_eq htarget.get rfl
  · intro b hb
    rw [show (m.apps.set k a')[k]? = some b from hb, Option.some.injEq] at hget
    rw [hget]
  · intro x hx
    exact htarget.own x ((mem_collect_single hget).mp hx)
  · intro j h hh
    exact due_stop ((mem_collect_single hget).mpr (List.mem_of_getElem? hh))

/-- The app is unlinked, and with it no app of another name. -/
theorem focus_delete (hrep : Represents m.apps) (htarget : Target m k a n)
    (hres : resolve m.apps n = .ok [k]) : Focus m (.delete n) k a n false (m.call (.delete n)) := by
  have hmem := List.mem_of_getElem? htarget.get
  have hsel : ([k].filterMap fun p => m.apps[p]?) = [a] := by simp [htarget.get]
  simp only [call, Delete, hres, hsel]
  refine { length := Nat.le_refl _, calls := fun _ _ => rfl, mono := fun _ => Nat.le_refl _,
           others := ?_, list := by simp, gone := ?_, running := ?_, idle := by simp }
  · intro b hb hne
    refine List.mem_filter.mpr ⟨hb, ?_⟩
    have hid : a.id ≠ b.id := by
      intro heq
      obtain rfl := List.inj_on_of_nodup_map hrep.ids hmem hb heq
      exact hne htarget.name
    simpa using hid
  · intro _ b hb hname
    obtain ⟨hb, hkeep⟩ := List.mem_filter.mp hb
    obtain rfl := app_unique hrep.names hmem hb (htarget.name.trans hname.symm)
    simp at hkeep
  · intro o todo hrun
    cases hrun
    refine ⟨rfl, rfl, plan_stop (plan_last trivial rfl rfl) ?_, ?_⟩
    · intro x hx
      exact htarget.own x ((mem_collect_single htarget.get).mp hx)
    · intro j h hh
      exact .inr (due_stop ((mem_collect_single htarget.get).mpr (List.mem_of_getElem? hh)))

theorem focus_call {op : Op} (hrep : Represents m.apps) (htarget : Target m k a n)
    (hres : resolve m.apps n = .ok [k]) (hop : selector op = some n) :
    Focus m op k a n (keepsListed op) (m.call op) := by
  have hinsts : ∀ x ∈ collectInstances m.apps [k], ¬ Foreign m n x.inst := fun x hx =>
    htarget.own x ((mem_collect_single htarget.get).mp hx)
  have hcollect : ∀ {j : Nat} {h : ManagedInstance}, a.insts[j]? = some h →
      h ∈ collectInstances m.apps [k] := fun hh =>
    (mem_collect_single htarget.get).mpr (List.mem_of_getElem? hh)
  cases op with
  | add | stopAll => cases hop
  | stop sel =>
    cases hop
    simp only [call, selected, hres]
    exact focus_same htarget (plan_stop plan_describe hinsts) fun j h hh => due_stop (hcollect hh)
  | restart sel =>
    cases hop
    simp only [call, selected, hres]
    exact focus_same htarget (plan_stop (plan_fresh (by simp)) hinsts)
      fun j h hh => due_stop (hcollect hh)
  | reload sel =>
    cases hop
    simp only [call, selected, hres, reloadSlots_single htarget.get]
    refine focus_same htarget plan_reload fun j h hh => ?_
    have hlt := (List.getElem?_eq_some_iff.mp hh).1
    rw [(hrep.each a (List.mem_of_getElem? htarget.get)).length] at hlt
    refine .inr (.inr ⟨List.mem_append_left _ ?_, a, htarget.get, hh⟩)
    exact List.mem_map.mpr ⟨j, List.mem_range.mpr hlt, rfl⟩
  | updateEnv name env =>
    cases hop
    exact focus_updateEnv htarget hres
  | resetCounters sel =>
    cases hop
    simp only [call, selected, hres]
    refine focus_same htarget (plan_describe.prepend ?_) fun j h hh => ?_
    · intro i hi
      obtain ⟨x, hx, rfl⟩ := List.mem_map.mp hi
      exact ⟨hinsts x hx, rfl, rfl⟩
    · exact .inr (.inl (List.mem_append_left _ (List.mem_map.mpr ⟨h, hcollect hh, rfl⟩)))
  | delete sel =>
    cases hop
    exact focus_delete hrep htarget hres

end Call

/-! ### Exactness -/

/-- While no operation is under way nothing but the instances moves. -/
theorem idle_run {m t : Manager} {more : List Action} (hidle : m.running = none)
    (hrun : machine.run m more = some t) (hmore : ∀ a ∈ more, ∀ o, a ≠ .call o) :
    t.apps = m.apps ∧ ∀ w, t.calls w = m.calls w := by
  have hend : t.running = none ∧ t.apps = m.apps ∧ ∀ w, t.calls w = m.calls w := by
    refine machine.along_invariant (C := fun _ a => ∀ o, a ≠ .call o)
      (I := fun u => u.running = none ∧ u.apps = m.apps ∧ ∀ w, u.calls w = m.calls w) ?_
      ⟨hidle, rfl, fun _ => rfl⟩ hrun (machine.along_of_mem (fun _ a ha => hmore a ha) _)
    intro u x v hC hI h
    have h : u.step x = some v := h
    obtain ⟨hrun, happs, hcalls⟩ := hI
    cases moves_of_step h with
    | @call o hidle => exact absurd rfl (hC o)
    | exec hrun' => rw [hrun] at hrun'; cases hrun'
    | worker hmove =>
      have hsame := calls_worker hmove
      rw [hmove.eq] at hsame ⊢
      exact ⟨hrun, happs, fun w => (hsame w).trans (hcalls w)⟩
    | cancelCtx => exact ⟨hrun, happs, hcalls⟩
  exact hend.2

theorem call_error {m : Manager} {op : Op} {n text : String} (hop : selector op = some n)
    (hres : resolve m.apps n = .error text) : m.call op = m.finish op (.error text) := by
  cases op with
  | add | stopAll => cases hop
  | stop sel | restart sel | reload sel | resetCounters sel =>
    cases hop
    simp only [call, selected, hres]
  | updateEnv name env =>
    cases hop
    simp only [call, UpdateEnv, hres]
  | delete sel =>
    cases hop
    simp only [call, Delete, hres]

theorem exact_of_addressable {m : Manager} {n : String} (hm : Single m) (h : Addressable m n)
    {op : Op} (hop : selector op = some n) : Exact m op n := by
  rcases resolve_addressable h with ⟨k, a, hget, hname, hres⟩ | ⟨hnone, hres⟩
  · have htarget := target_of_single hm hget hname
    have hfocus : ∀ more t, machine.run m (.call op :: more) = some t →
        (∀ a ∈ more, ∀ o, a ≠ .call o) → Focus m op k a n (keepsListed op) t := by
      intro more t hrun hmore
      obtain ⟨u, hcall, hrest⟩ := machine.run_cons.mp hrun
      obtain rfl := (step_call hcall).2
      exact machine.along_invariant (C := fun _ a => ∀ o, a ≠ .call o)
        (fun _ _ _ hC hI h => focus_step htarget hI hC h)
        (focus_call hm.sound.represents htarget hres hop) hrest
        (machine.along_of_mem (fun _ a ha => hmore a ha) _)
    refine ⟨fun hnone => absurd hname (hnone a (List.mem_of_getElem? hget)), ?_, ?_⟩
    · intro more t hrun hmore b hb hne
      have hf := hfocus more t hrun hmore
      exact ⟨hf.others b hb hne, fun x hx => hf.calls x.inst ⟨b, hb, hne, x, hx, rfl⟩⟩
    · intro b hb hbname more t hrun hmore hidle
      obtain rfl := app_unique hm.sound.represents.names (List.mem_of_getElem? hget) hb
        (hname.trans hbname.symm)
      have hf := hfocus more t hrun hmore
      refine (hf.idle hidle).imp id ?_
      rintro ⟨snaps, hresults, hdone⟩
      refine ⟨snaps, hresults, hdone, ?_⟩
      rintro ⟨sel, rfl⟩
      exact hf.gone rfl
  · have hcall := call_error hop hres
    refine ⟨fun _ => hcall, ?_, fun a ha hname => absurd hname (hnone a ha)⟩
    intro more t hrun hmore b hb hne
    obtain ⟨u, hfirst, hrest⟩ := machine.run_cons.mp hrun
    obtain rfl := (step_call hfirst).2
    rw [hcall] at hrest
    obtain ⟨happs, hcalls⟩ := idle_run (by simp) hrest hmore
    exact ⟨by rw [happs]; exact hb, fun x hx => hcalls x.inst⟩

/-- A deletion that hits an app of another name. -/
theorem not_exact_delete {m : Manager} (hidle : m.running = none) {n : String} {ps : List Nat}
    (hres : resolve m.apps n = .ok ps) {p : Nat} (hp : p ∈ ps) {b : ManagedApp}
    (hget : m.apps[p]? = some b) (hne : b.name ≠ n) : ¬ Exact m (.delete n) n := by
  intro h
  have hrun : machine.run m [.call (.delete n)] = some (m.call (.delete n)) := by
    refine machine.run_cons.mpr ⟨_, ?_, rfl⟩
    show m.step (.call (.delete n)) = _
    simp only [step, hidle]
  obtain ⟨hmem, -⟩ := h.others [] _ hrun (by simp) b (List.mem_of_getElem? hget) hne
  simp only [call, Delete, hres] at hmem
  obtain ⟨-, hkeep⟩ := List.mem_filter.mp hmem
  rw [Bool.not_eq_true', List.any_eq_false] at hkeep
  exact hkeep b (List.mem_filterMap.mpr ⟨p, hp, hget⟩) (by simp)

theorem addressable_of_exact {m : Manager} (hm : Single m) (hidle : m.running = none) {n : String}
    (h : ∀ op, selector op = some n → Exact m op n) : Addressable m n := by
  have hdelete := h (.delete n) rfl
  have honly : ∀ ps, resolve m.apps n = .ok ps → ∀ p ∈ ps, ∀ b, m.apps[p]? = some b → b.name = n := by
    intro ps hres p hp b hget
    by_contra hne
    exact not_exact_delete hidle hres hp hget hne hdelete
  refine ⟨?_, ?_⟩
  · rintro rfl
    have hall := honly _ (resolve_all m.apps)
    cases happs : m.apps with
    | nil =>
      -- The keyword selects nothing, and the operation is not refused.
      have habsent := hdelete.absent (by simp [happs])
      have hrunning := congrArg Manager.running habsent
      simp [call, Delete, resolve_all] at hrunning
    | cons a rest =>
      rw [happs] at hall
      have hnames := hm.sound.represents.names
      rw [happs] at hnames
      have ha := hall 0 (by simp) a rfl
      cases rest with
      | nil => exact ⟨a, rfl, ha⟩
      | cons b more =>
        have hb := hall 1 (by simp) b rfl
        simp [ha, hb] at hnames
  · intro a ha hid
    obtain ⟨p, hp⟩ := List.mem_iff_getElem?.mp ha
    have hall : n ≠ "all" := by
      rintro rfl
      rw [atoi_all] at hid
      cases hid
    cases hfind : m.apps.findIdx? (·.id == a.id) with
    | none => simpa using List.findIdx?_eq_none_iff.mp hfind a ha
    | some q =>
      obtain ⟨b, hb, hbid⟩ := findIdx?_get hfind
      obtain rfl := List.inj_on_of_nodup_map hm.sound.represents.ids (List.mem_of_getElem? hb) ha
        (beq_iff_eq.mp hbid)
      refine honly [q] ?_ q (by simp) b hb
      simp only [resolve, if_neg hall, hid, hfind]

/-- **An operation called with a name affects exactly the app of that name, where the name is
not read as anything else.** In every state between operations that a manager reaches before
its ids run out: the operations called with `n` all answer, without a panic, having called each
instance of the app named `n` and nothing of any other app, or refuse and change nothing if
there is none, if and only if `n` is not the keyword `all` with other apps or with none beside
it, and not the id of an app of another name. -/
theorem named_exact {as : List Action} {m : Manager} (hrun : machine.run {} as = some m)
    (hfresh : machine.Along FreshID {} as) (hidle : m.running = none) (n : String) :
    (∀ op, selector op = some n → Exact m op n) ↔ Addressable m n := by
  have hm := single_run hrun hfresh
  exact ⟨addressable_of_exact hm hidle, fun h op hop => exact_of_addressable hm h hop⟩

/-- Two apps, and the second bears the id of the first as its name. -/
def numericName : List Action :=
  [.call (.add { name := "web", cmd := "web", id := 1 }), .call (.add { name := "1", cmd := "one" })]

theorem named_exact_web :
    ∃ m, machine.run {} numericName = some m ∧ Exact m (.restart "web") "web" :=
  ⟨_, rfl, (@named_exact numericName _ rfl (by decide) rfl "web").mpr ⟨by simp, by decide⟩ _ rfl⟩

/-- The name and the instances that the validation of a definition asks for. -/
def validSpec : Action → Bool
  | .call (.add app) => validAppName app.name && 1 ≤ app.instances
  | _ => true

/-- A deletion of the app named `1` deletes the app with the id 1. -/
theorem deletes_by_id :
    ¬ ∀ (as : List Action) (m : Manager) (n : String), machine.run {} as = some m →
      (∀ a ∈ as, validSpec a = true) → m.running = none → validAppName n = true →
      ∀ op, selector op = some n → Exact m op n := by
  intro h
  have hexact := h numericName _ "1" rfl (by decide) rfl (by decide) (.delete "1") rfl
  obtain ⟨hmem, -⟩ := hexact.others [] _ rfl (by simp) _ (List.mem_cons_self ..) (by decide)
  exact absurd hmem (by decide)

/-- A new environment for the app named `all`, where there is none. -/
example : (call {} (.updateEnv "all" [])).results = [(.updateEnv "all" [], .panic)] := rfl

end Manager
end Marshal.Daemon
