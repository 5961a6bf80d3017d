import Marshal.Daemon.Plans

/-! An operation under way keeps to its app.

Every other app stays as it is until the answer, and each instance of the app is
called or due to be (`Focus`). Each instruction keeps this, and so do the steps that
other goroutines take in between. -/
namespace Marshal.Daemon
open Config Supervisor
namespace Manager

/-! ### The operation stays with its app -/

/-- The app at position `k` bears the name, and its instances are its own. -/
structure Target (m : Manager) (k : Nat) (a : ManagedApp) (n : String) : Prop where
  get : m.apps[k]? = some a
  name : a.name = n
  own : ∀ h ∈ a.insts, ¬ Foreign m n h.inst
  bound : ∀ h ∈ a.insts, h.inst < m.workers.length
  foreign : ∀ w, Foreign m n w → w < m.workers.length

/-- A reload cut off by the end of the base context. -/
def Cut (m : Manager) (op : Op) (t : Manager) : Prop :=
  (∃ sel, op = .reload sel) ∧ t.ctxDone = true ∧ t.results = (op, .error canceled) :: m.results

/-- The call to the instance in slot `j` is still to come. -/
def Due (k j : Nat) (h : ManagedInstance) (u : Manager) (todo : List Instr) : Prop :=
  .cancel h.inst ∈ todo ∨ .resetCounters h.inst ∈ todo ∨
    (.reloadSlot k j ∈ todo ∧ ∃ b, u.apps[k]? = some b ∧ b.insts[j]? = some h)

/-- Where an operation on the app at position `k` stands: other apps are as they were, and each
instance of this app was called or is still to be. -/
structure Focus (m : Manager) (op : Op) (k : Nat) (a : ManagedApp) (n : String) (listed : Bool)
    (u : Manager) : Prop where
  length : m.workers.length ≤ u.workers.length
  calls : ∀ w, Foreign m n w → u.calls w = m.calls w
  mono : ∀ w, m.calls w ≤ u.calls w
  others : ∀ b ∈ m.apps, b.name ≠ n → b ∈ u.apps
  list : listed = true → u.apps.map idName = m.apps.map idName ∧
    ∀ b, u.apps[k]? = some b → ∀ h ∈ b.insts, ¬ Foreign m n h.inst
  gone : listed = false → ∀ b ∈ u.apps, b.name ≠ n
  running : ∀ o todo, u.running = some ⟨o, todo⟩ → o = op ∧ u.results = m.results ∧
    Plan (Foreign m n) op k n listed todo ∧
    ∀ j h, a.insts[j]? = some h → m.calls h.inst < u.calls h.inst ∨ Due k j h u todo
  idle : u.running = none → Cut m op u ∨ ∃ snaps, u.results = (op, .ok snaps) :: m.results ∧
    ∀ h ∈ a.insts, m.calls h.inst < u.calls h.inst

section Focus
variable {m u t : Manager} {op : Op} {k : Nat} {a : ManagedApp} {n : String} {listed : Bool}

/-- An instruction that only steps on. -/
theorem Focus.skip {i : Instr} {rest : List Instr} (h : Focus m op k a n listed u)
    (hrun : u.running = some ⟨op, i :: rest⟩) (hfinal : isFinal i = false)
    (hcancel : ∀ w, .cancel w ≠ i) (hreset : ∀ w, .resetCounters w ≠ i)
    (hslot : ∀ p j, .reloadSlot p j ≠ i) : Focus m op k a n listed (u.proceed op rest) := by
  obtain ⟨-, hresults, hplan, hdue⟩ := h.running op _ hrun
  refine { length := h.length, calls := h.calls, mono := h.mono, others := h.others, list := h.list,
           gone := h.gone, running := ?_, idle := by simp }
  intro o todo hrun'
  cases hrun'
  refine ⟨rfl, hresults, hplan.tail hfinal, ?_⟩
  intro j x hx
  refine (hdue j x hx).imp id ?_
  rintro (hmem | hmem | ⟨hmem, hb⟩)
  · exact .inl (by simpa [hcancel] using hmem)
  · exact .inr (.inl (by simpa [hreset] using hmem))
  · exact .inr (.inr ⟨by simpa [hslot] using hmem, hb⟩)

/-- A call to an instance of the app. -/
theorem Focus.touch {i : Instr} {rest : List Instr} {w : Nat} {f : Instance → Instance}
    (htarget : Target m k a n) (h : Focus m op k a n listed u)
    (hrun : u.running = some ⟨op, i :: rest⟩) (hi : i = .cancel w ∨ i = .resetCounters w) :
    Focus m op k a n listed ((u.touch w f).proceed op rest) := by
  obtain ⟨-, hresults, hplan, hdue⟩ := h.running op _ hrun
  have hw : ¬ Foreign m n w := by
    have := hplan.allowed i (by simp)
    rcases hi with rfl | rfl <;> exact this
  have hlt : ∀ v, m.calls v < u.calls v → m.calls v < (u.touch w f).calls v :=
    fun v hv => Nat.lt_of_lt_of_le hv (calls_le_touch f v)
  refine { length := ?_, calls := ?_, mono := ?_, others := h.others, list := h.list,
           gone := h.gone, running := ?_, idle := by simp }
  · simpa using h.length
  · intro v hv
    have hne : v ≠ w := fun heq => hw (heq ▸ hv)
    exact (calls_touch_ne hne f).trans (h.calls v hv)
  · intro v
    exact Nat.le_trans (h.mono v) (calls_le_touch f v)
  · intro o todo hrun'
    cases hrun'
    refine ⟨rfl, hresults, hplan.tail (by rcases hi with rfl | rfl <;> rfl), ?_⟩
    intro j x hx
    -- The instance called is one of the app's or none of its.
    have hcalled : x.inst = w → m.calls x.inst < ((u.touch w f).proceed op rest).calls x.inst := by
      intro heq
      have hbound : x.inst < u.workers.length :=
        Nat.lt_of_lt_of_le (htarget.bound x (List.mem_of_getElem? hx)) h.length
      have hself := calls_touch_self (f := f) hbound
      show m.calls x.inst < (u.touch w f).calls x.inst
      rw [← heq, hself]
      exact Nat.lt_succ_of_le (h.mono x.inst)
    rcases hdue j x hx with hdone | hmem | hmem | ⟨hmem, hb⟩
    · exact .inl (hlt _ hdone)
    · rcases List.mem_cons.mp hmem with heq | hmem
      · rcases hi with rfl | rfl
        · cases heq
          exact .inl (hcalled rfl)
        · cases heq
      · exact .inr (.inl hmem)
    · rcases List.mem_cons.mp hmem with heq | hmem
      · rcases hi with rfl | rfl
        · cases heq
        · cases heq
          exact .inl (hcalled rfl)
      · exact .inr (.inr (.inl hmem))
    · refine .inr (.inr (.inr ⟨?_, hb⟩))
      rcases hi with rfl | rfl <;> simpa using hmem

/-- The app gets new instances, in the slots of `hkeep` others than the one to be reloaded. -/
theorem Focus.start {i : Instr} {rest rest' : List Instr} {b : ManagedApp}
    {insts : List ManagedInstance} {started : List Worker} (htarget : Target m k a n)
    (h : Focus m op k a n listed u) (hlisted : listed = true)
    (hrun : u.running = some ⟨op, i :: rest⟩) (hget : u.apps[k]? = some b)
    (happs : t.apps = u.apps.set k { b with insts := insts })
    (hworkers : t.workers = u.workers ++ started) (hresults : t.results = u.results)
    (hrunning : t.running = some ⟨op, rest'⟩)
    (hinsts : ∀ x ∈ insts, x ∈ b.insts ∨ u.workers.length ≤ x.inst)
    (hplan : Plan (Foreign m n) op k n listed rest')
    (hdue : ∀ j x, a.insts[j]? = some x → Due k j x u (i :: rest) → Due k j x t rest') :
    Focus m op k a n listed t := by
  obtain ⟨-, hres, -, hold⟩ := h.running op _ hrun
  obtain ⟨hnames, hown⟩ := h.list hlisted
  have hcalls : ∀ w, u.calls w ≤ t.calls w := calls_le_append hworkers
  have hmap : t.apps.map idName = u.apps.map idName := by
    rw [happs]
    exact map_set_eq hget rfl
  have hbname : b.name = n := by
    have hk : (u.apps.map idName)[k]? = some (idName b) := by simp [hget]
    rw [hnames] at hk
    have ha : (m.apps.map idName)[k]? = some (idName a) := by simp [htarget.get]
    have heq := congrArg Prod.snd (Option.some.inj (hk.symm.trans ha))
    exact (heq : b.name = a.name).trans htarget.name
  refine { length := ?_, calls := ?_, mono := ?_, others := ?_, list := ?_, gone := ?_,
           running := ?_, idle := ?_ }
  · rw [hworkers, List.length_append]
    exact Nat.le_trans h.length (Nat.le_add_right _ _)
  · intro w hw
    have hlt := Nat.lt_of_lt_of_le (htarget.foreign w hw) h.length
    rw [calls_append hworkers hlt]
    exact h.calls w hw
  · intro w
    exact Nat.le_trans (h.mono w) (hcalls w)
  · intro c hc hne
    rw [happs]
    rcases mem_set_of_mem (b := { b with insts := insts }) hget (h.others c hc hne) with rfl | hmem
    · exact absurd hbname hne
    · exact hmem
  · intro _
    refine ⟨hmap.trans hnames, ?_⟩
    intro c hc x hx
    have hlt := (List.getElem?_eq_some_iff.mp hget).1
    rw [happs, List.getElem?_set_self hlt, Option.some.injEq] at hc
    subst hc
    rcases hinsts x hx with hmem | hge
    · exact hown b hget x hmem
    · intro hforeign
      have := htarget.foreign _ hforeign
      have := h.length
      omega
  · intro hgone
    rw [hlisted] at hgone
    cases hgone
  · intro o todo hrun'
    rw [hrunning] at hrun'
    cases hrun'
    refine ⟨rfl, hresults.trans hres, hplan, ?_⟩
    intro j x hx
    rcases hold j x hx with hdone | hpending
    · exact .inl (Nat.lt_of_lt_of_le hdone (hcalls _))
    · exact .inr (hdue j x hx hpending)
  · intro hidle
    rw [hrunning] at hidle
    cases hidle

/-- The last instruction answers. -/
theorem Focus.finish {snaps : List InstanceSnapshot} {i : Instr} {rest : List Instr}
    (h : Focus m op k a n listed u) (hrun : u.running = some ⟨op, i :: rest⟩)
    (hi : isFinal i = true) : Focus m op k a n listed (u.finish op (.ok snaps)) := by
  obtain ⟨-, hresults, hplan, hdue⟩ := h.running op _ hrun
  obtain rfl := hplan.final hi
  refine { length := h.length, calls := h.calls, mono := h.mono, others := h.others, list := h.list,
           gone := h.gone, running := by simp, idle := ?_ }
  intro _
  refine .inr ⟨snaps, by rw [finish_results, hresults], ?_⟩
  intro x hx
  obtain ⟨j, hj⟩ := List.mem_iff_getElem?.mp hx
  rcases hdue j x hj with hdone | hmem | hmem | ⟨hmem, -⟩
  · exact hdone
  · rw [← List.mem_singleton.mp hmem] at hi
    cases hi
  · rw [← List.mem_singleton.mp hmem] at hi
    cases hi
  · rw [← List.mem_singleton.mp hmem] at hi
    cases hi

/-- A description of the name answers without an error while its app is listed. -/
theorem describe_listed (htarget : Target m k a n) (h : Focus m op k a n listed u)
    (hlisted : listed = true) : ∃ snaps, u.Describe n = .ok snaps := by
  unfold Describe
  split
  · rename_i hres
    obtain ⟨-, -, hnone⟩ := resolve_error hres
    have hmem : idName a ∈ u.apps.map idName := by
      rw [(h.list hlisted).1]
      exact List.mem_map.mpr ⟨a, List.mem_of_getElem? htarget.get, rfl⟩
    obtain ⟨b, hb, hpair⟩ := List.mem_map.mp hmem
    exact absurd ((Prod.mk.inj hpair).2.trans htarget.name) (hnone b hb)
  · exact ⟨_, rfl⟩

theorem Focus.at (htarget : Target m k a n) (h : Focus m op k a n listed u)
    (hlisted : listed = true) : ∃ b, u.apps[k]? = some b := by
  have hk : (u.apps.map idName)[k]? = some (idName a) := by
    rw [(h.list hlisted).1]
    simp [htarget.get]
  rw [List.getElem?_map, Option.map_eq_some_iff] at hk
  obtain ⟨b, hb, -⟩ := hk
  exact ⟨b, hb⟩

theorem Focus.fresh {ps : List Nat} {rest : List Instr} (htarget : Target m k a n)
    (h : Focus m op k a n listed u) (hrun : u.running = some ⟨op, .fresh ps :: rest⟩) :
    Focus m op k a n listed ((ps.foldl freshApp u).proceed op rest) := by
  obtain ⟨-, hresults, hplan, -⟩ := h.running op _ hrun
  obtain ⟨hlisted, rfl, hop⟩ := hplan.allowed _ (List.mem_cons_self ..)
  obtain ⟨b, hb⟩ := h.at htarget hlisted
  obtain ⟨happs, hworkers⟩ := freshApp_get hb
  have hres : (u.freshApp k).results = u.results := by
    unfold freshApp
    split <;> rfl
  refine h.start htarget hlisted hrun hb happs hworkers hres rfl ?_ (hplan.tail rfl) ?_
  · intro x hx
    obtain ⟨idx, -, rfl⟩ := List.mem_map.mp hx
    exact .inr (Nat.le_add_right _ _)
  · rintro j x hx (hmem | hmem | ⟨hmem, -⟩)
    · exact .inl (by simpa using hmem)
    · exact .inr (.inl (by simpa using hmem))
    · obtain ⟨-, -, sel, hreload⟩ := hplan.allowed _ hmem
      exact absurd hreload (hop sel)

theorem Focus.replace {p idx : Nat} {rest : List Instr} (htarget : Target m k a n)
    (h : Focus m op k a n listed u) (hrun : u.running = some ⟨op, .replace p idx :: rest⟩) :
    Focus m op k a n listed
      ((u.replaceSlot p idx).proceed op (.online u.workers.length :: .checkCtx :: rest)) := by
  obtain ⟨-, hresults, hplan, -⟩ := h.running op _ hrun
  obtain ⟨hlisted, rfl, hreload⟩ := hplan.allowed _ (List.mem_cons_self ..)
  obtain ⟨b, hb⟩ := h.at htarget hlisted
  let new : ManagedInstance := ⟨idx, label b.spec.name idx, u.workers.length⟩
  let insts := if idx < b.insts.length then b.insts.set idx new else b.insts ++ [new]
  have happs : (u.replaceSlot p idx).apps = u.apps.set p { b with insts := insts } := by
    simp [replaceSlot, hb, insts, new]
  have hworkers : (u.replaceSlot p idx).workers = u.workers ++ [worker b.spec idx u.ctxDone] := by
    simp [replaceSlot, hb]
  have hres : (u.replaceSlot p idx).results = u.results := by
    simp [replaceSlot, hb]
  have hfresh : idx ∉ turns rest := (List.nodup_cons.mp hplan.nodup).1
  refine h.start htarget hlisted hrun hb happs hworkers hres rfl ?_ ?_ ?_
  · intro x hx
    simp only [insts] at hx
    split at hx
    · rcases List.mem_or_eq_of_mem_set hx with hx | rfl
      · exact .inl hx
      · exact .inr (Nat.le_refl _)
    · rcases List.mem_append.mp hx with hx | hx
      · exact .inl hx
      · rw [List.mem_singleton.mp hx]
        exact .inr (Nat.le_refl _)
  · show Plan _ _ _ _ _ ([.online u.workers.length, .checkCtx] ++ rest)
    refine (hplan.tail rfl).prepend ?_
    intro i hi
    rcases List.mem_cons.mp hi with rfl | hi
    · exact ⟨trivial, rfl, rfl⟩
    · rw [List.mem_singleton.mp hi]
      exact ⟨hreload, rfl, rfl⟩
  · rintro j x hx (hmem | hmem | ⟨hmem, c, hc, hslot⟩)
    · exact .inl (by simpa using hmem)
    · exact .inr (.inl (by simpa using hmem))
    · have hrest : .reloadSlot p j ∈ rest := by simpa using hmem
      -- Another slot than the one that was replaced.
      have hne : idx ≠ j := by
        rintro rfl
        exact hfresh (List.mem_filterMap.mpr ⟨_, hrest, rfl⟩)
      obtain rfl : b = c := Option.some.inj (hb.symm.trans hc)
      have hlt := (List.getElem?_eq_some_iff.mp hb).1
      refine .inr (.inr ⟨by simpa using hrest, { b with insts := insts }, ?_, ?_⟩)
      · show (u.replaceSlot p idx).apps[p]? = _
        rw [happs, List.getElem?_set_self hlt]
      · show insts[j]? = some x
        simp only [insts]
        split
        · rw [List.getElem?_set_ne hne]
          exact hslot
        · exact Growing.keep hslot

theorem Focus.reloadSlot {p idx : Nat} {rest : List Instr} (htarget : Target m k a n)
    (h : Focus m op k a n listed u) (hrun : u.running = some ⟨op, .reloadSlot p idx :: rest⟩) :
    Focus m op k a n listed
      (u.proceed op (stopInstances (u.slot p idx) ++ .replace p idx :: rest)) := by
  obtain ⟨-, hresults, hplan, hdue⟩ := h.running op _ hrun
  obtain ⟨hlisted, rfl, hreload⟩ := hplan.allowed _ (List.mem_cons_self ..)
  obtain ⟨b, hb⟩ := h.at htarget hlisted
  have hslot : u.slot p idx = (b.insts[idx]?).toList := by
    simp [slot, hb]
  refine { length := h.length, calls := h.calls, mono := h.mono, others := h.others, list := h.list,
           gone := h.gone, running := ?_, idle := by simp }
  intro o todo hrun'
  cases hrun'
  refine ⟨rfl, hresults, plan_stop ?_ ?_, ?_⟩
  · refine ⟨?_, hplan.nodup, ?_⟩
    · intro i hi
      rcases List.mem_cons.mp hi with rfl | hi
      · exact ⟨hlisted, rfl, hreload⟩
      · exact hplan.allowed i (List.mem_cons_of_mem _ hi)
    · obtain ⟨pre, last, heq, hlast, hpre⟩ := (hplan.tail rfl).ends
      refine ⟨.replace p idx :: pre, last, by rw [heq]; rfl, hlast, ?_⟩
      intro i hi
      rcases List.mem_cons.mp hi with rfl | hi
      · rfl
      · exact hpre i hi
  · intro x hx
    rw [hslot, Option.mem_toList] at hx
    exact (h.list hlisted).2 b hb x (List.mem_of_getElem? hx)
  · intro j x hx
    refine (hdue j x hx).imp id ?_
    rintro (hmem | hmem | ⟨hmem, c, hc, hat⟩)
    · exact .inl (List.mem_append_right _ (by simpa using hmem))
    · exact .inr (.inl (List.mem_append_right _ (by simpa using hmem)))
    · obtain rfl : b = c := Option.some.inj (hb.symm.trans hc)
      rcases List.mem_cons.mp hmem with heq | hmem
      · cases heq
        refine .inl (List.mem_append_left _ (List.mem_append_left _ (List.mem_map.mpr ⟨x, ?_, rfl⟩)))
        rw [hslot, Option.mem_toList]
        exact hat
      · exact .inr (.inr ⟨List.mem_append_right _ (by simp [hmem]), b, hb, hat⟩)

theorem focus_exec (htarget : Target m k a n) (h : Focus m op k a n listed u) {o : Op}
    {todo : List Instr} (hrun : u.running = some ⟨o, todo⟩) (hexec : Executes u o todo t) :
    Focus m op k a n listed t := by
  obtain ⟨rfl, hresults, hplan, -⟩ := h.running o todo hrun
  cases hexec with
  | cancel => exact h.touch htarget hrun (.inl rfl)
  | resetCounters => exact h.touch htarget hrun (.inr rfl)
  | wait | online | goOn => exact h.skip hrun rfl (by simp) (by simp) (by simp)
  | fresh => exact h.fresh htarget hrun
  | replace => exact h.replace htarget hrun
  | reloadSlot => exact h.reloadSlot htarget hrun
  | abort hctx =>
    refine { length := h.length, calls := h.calls, mono := h.mono, others := h.others,
             list := h.list, gone := h.gone, running := by simp, idle := ?_ }
    intro _
    exact .inl ⟨hplan.allowed .checkCtx (by simp), hctx, by rw [finish_results, hresults]⟩
  | describe =>
    obtain ⟨hlisted, rfl⟩ := hplan.allowed _ (List.mem_cons_self ..)
    obtain ⟨snaps, hsnaps⟩ := describe_listed htarget h hlisted
    rw [hsnaps]
    exact h.finish hrun rfl
  | answer => exact h.finish hrun rfl

theorem focus_step {x : Action} (htarget : Target m k a n) (h : Focus m op k a n listed u)
    (hcall : ∀ o, x ≠ .call o) (hstep : u.step x = some t) : Focus m op k a n listed t := by
  cases moves_of_step hstep with
  | @call o hidle => exact absurd rfl (hcall o)
  | exec hrun hexec => exact focus_exec htarget h hrun hexec
  | worker hmove =>
    have hcalls := calls_worker hmove
    have hlength := (evolves_worker hmove).length
    rw [hmove.eq] at hcalls hlength ⊢
    exact {
      length := by rw [hlength]; exact h.length
      calls := fun w hw => (hcalls w).trans (h.calls w hw)
      mono := fun w => by rw [hcalls w]; exact h.mono w
      others := h.others
      list := h.list
      gone := h.gone
      running := fun o todo hrun => by
        obtain ⟨ho, hresults, hplan, hdue⟩ := h.running o todo hrun
        refine ⟨ho, hresults, hplan, fun j x hx => ?_⟩
        rw [hcalls]
        exact hdue j x hx
      idle := fun hidle => (h.idle hidle).imp id fun hok => by
        obtain ⟨snaps, hresults, hdone⟩ := hok
        exact ⟨snaps, hresults, fun x hx => by rw [hcalls]; exact hdone x hx⟩ }
  | cancelCtx =>
    exact {
      length := h.length
      calls := h.calls
      mono := h.mono
      others := h.others
      list := h.list
      gone := h.gone
      running := h.running
      idle := fun hidle => (h.idle hidle).imp (fun hcut => ⟨hcut.1, rfl, hcut.2.2⟩) id }

end Focus

end Manager
end Marshal.Daemon
