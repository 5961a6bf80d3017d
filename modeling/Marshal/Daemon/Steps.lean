import Marshal.Daemon.Manager
import Marshal.Lib.Growing

/-! What a step of the manager can do.

An operation under way executes one instruction (`Executes`), an instance moves on
its own (`WorkerMoves`), a caller takes the lock or the base context ends. The list
of apps changes in a call, by `fresh` and by `replace` only; the instances change in
a call that starts some, by an instruction that names them and by their own steps. -/
namespace Marshal.Daemon
open Config Supervisor
namespace Manager

/-! ### Instructions -/

inductive Executes (m : Manager) (op : Op) : List Instr → Manager → Prop
  | cancel {w : Nat} {rest : List Instr} : Executes m op (.cancel w :: rest)
    ((m.touch w fun i => { i with done := true }).proceed op rest)
  | wait {w : Nat} {rest : List Instr} (hdone : m.isDone w = true) :
    Executes m op (.wait w :: rest) (m.proceed op rest)
  | fresh {ps : List Nat} {rest : List Instr} :
    Executes m op (.fresh ps :: rest) ((ps.foldl freshApp m).proceed op rest)
  | reloadSlot {p idx : Nat} {rest : List Instr} : Executes m op (.reloadSlot p idx :: rest)
    (m.proceed op (stopInstances (m.slot p idx) ++ .replace p idx :: rest))
  | replace {p idx : Nat} {rest : List Instr} : Executes m op (.replace p idx :: rest)
    ((m.replaceSlot p idx).proceed op (.online m.workers.length :: .checkCtx :: rest))
  | online {w : Nat} {rest : List Instr} : Executes m op (.online w :: rest) (m.proceed op rest)
  | abort {rest : List Instr} (hctx : m.ctxDone = true) :
    Executes m op (.checkCtx :: rest) (m.finish op (.error canceled))
  | goOn {rest : List Instr} (hctx : m.ctxDone = false) :
    Executes m op (.checkCtx :: rest) (m.proceed op rest)
  | resetCounters {w : Nat} {rest : List Instr} : Executes m op (.resetCounters w :: rest)
    ((m.touch w Instance.ResetCounters).proceed op rest)
  | describe {sel : String} {rest : List Instr} :
    Executes m op (.describe sel :: rest) (m.finish op (m.Describe sel))
  | answer {snaps : List InstanceSnapshot} {rest : List Instr} :
    Executes m op (.answer snaps :: rest) (m.finish op (.ok snaps))

theorem executes_of_execute {m t : Manager} {op : Op} {todo : List Instr}
    (h : m.execute op todo = some t) : Executes m op todo t := by
  cases todo with
  | nil => cases h
  | cons instr rest =>
    cases instr with
    | cancel w => cases h; exact .cancel
    | wait w =>
      simp only [execute, Option.ite_none_right_eq_some, Option.some.injEq] at h
      obtain ⟨hdone, rfl⟩ := h
      exact .wait hdone
    | fresh ps => cases h; exact .fresh
    | reloadSlot p idx => cases h; exact .reloadSlot
    | replace p idx => cases h; exact .replace
    | online w => cases h; exact .online
    | checkCtx =>
      simp only [execute] at h
      cases hctx : m.ctxDone with
      | true =>
        simp only [hctx, if_true, Option.some.injEq] at h
        subst h
        exact .abort hctx
      | false =>
        simp only [hctx, Bool.false_eq_true, if_false, Option.some.injEq] at h
        subst h
        exact .goOn hctx
    | resetCounters w => cases h; exact .resetCounters
    | describe sel => cases h; exact .describe
    | answer snaps => cases h; exact .answer

/-! ### Steps -/

/-- An instance takes a step of its own. -/
structure WorkerMoves (m : Manager) (w : Nat) (a : Instance.Action) (t : Manager) (x : Worker)
    (i : Instance) : Prop where
  own : m.ownStep a = true
  get : m.workers[w]? = some x
  step : x.inst.step a = some i
  eq : t = { m with workers := m.workers.set w { x with inst := i } }

inductive Moves (m : Manager) : Action → Manager → Prop
  | call {op : Op} (hidle : m.running = none) : Moves m (.call op) (m.call op)
  | exec {op : Op} {todo : List Instr} {t : Manager} (hrunning : m.running = some ⟨op, todo⟩)
      (hexec : Executes m op todo t) : Moves m .exec t
  | worker {w : Nat} {a : Instance.Action} {t : Manager} {x : Worker} {i : Instance}
      (hmove : WorkerMoves m w a t x i) : Moves m (.worker w a) t
  | cancelCtx : Moves m .cancelCtx { m with ctxDone := true }

theorem moves_of_step {m t : Manager} {a : Action} (h : m.step a = some t) : Moves m a t := by
  cases a with
  | call op =>
    simp only [step] at h
    split at h <;> simp only [Option.some.injEq, reduceCtorEq] at h
    rename_i hidle
    subst h
    exact .call hidle
  | exec =>
    simp only [step] at h
    split at h
    · cases h
    · rename_i r hrunning
      exact .exec hrunning (executes_of_execute h)
  | worker w a =>
    simp only [step] at h
    split at h
    · rename_i hown
      cases hget : m.workers[w]? with
      | none => simp [hget] at h
      | some x =>
        cases hstep : x.inst.step a with
        | none => simp [hget, hstep] at h
        | some i =>
          simp only [hget, hstep, Option.bind_eq_bind, Option.bind_some, Option.pure_def,
            Option.some.injEq] at h
          exact .worker ⟨hown, hget, hstep, h.symm⟩
    · cases h
  | cancelCtx =>
    simp only [step, Option.some.injEq] at h
    subst h
    exact .cancelCtx

theorem step_call {m t : Manager} {op : Op} (h : m.step (.call op) = some t) :
    m.running = none ∧ t = m.call op := by
  cases moves_of_step h with
  | call hidle => exact ⟨hidle, rfl⟩

/-! ### What the parts of an operation leave alone -/

section Frames
variable (m : Manager) (op : Op)

@[simp] theorem finish_apps (outcome : Outcome) : (m.finish op outcome).apps = m.apps := rfl
@[simp] theorem finish_workers (outcome : Outcome) : (m.finish op outcome).workers = m.workers := rfl
@[simp] theorem finish_running (outcome : Outcome) : (m.finish op outcome).running = none := rfl
@[simp] theorem finish_ctxDone (outcome : Outcome) : (m.finish op outcome).ctxDone = m.ctxDone := rfl
@[simp] theorem finish_results (outcome : Outcome) :
    (m.finish op outcome).results = (op, outcome) :: m.results := rfl

@[simp] theorem proceed_apps (todo : List Instr) : (m.proceed op todo).apps = m.apps := rfl
@[simp] theorem proceed_workers (todo : List Instr) : (m.proceed op todo).workers = m.workers := rfl
@[simp] theorem proceed_running (todo : List Instr) :
    (m.proceed op todo).running = some ⟨op, todo⟩ := rfl
@[simp] theorem proceed_ctxDone (todo : List Instr) : (m.proceed op todo).ctxDone = m.ctxDone := rfl
@[simp] theorem proceed_results (todo : List Instr) : (m.proceed op todo).results = m.results := rfl

@[simp] theorem touch_apps (w : Nat) (f : Instance → Instance) : (m.touch w f).apps = m.apps := rfl
@[simp] theorem touch_ctxDone (w : Nat) (f : Instance → Instance) :
    (m.touch w f).ctxDone = m.ctxDone := rfl
@[simp] theorem touch_results (w : Nat) (f : Instance → Instance) :
    (m.touch w f).results = m.results := rfl
@[simp] theorem touch_length (w : Nat) (f : Instance → Instance) :
    (m.touch w f).workers.length = m.workers.length := by
  simp [touch]

end Frames

/-! ### A successful `Add` -/

/-- The app `Add` appends, with the handles on its new instances. -/
def addedApp (m : Manager) (app : App) : ManagedApp :=
  let spec := { app with id := m.assignID app }
  ⟨m.assignID app, app.name, spec, (startInstances m.workers.length m.ctxDone spec).2⟩

theorem Add_taken {m : Manager} {app : App} (h : m.apps.any (·.name == app.name) = true) :
    m.Add app = m.finish (.add app) (.error alreadyExists) := by
  unfold Add
  rw [if_pos h]

theorem Add_new {m : Manager} {app : App} (h : m.apps.any (·.name == app.name) = false) :
    (m.Add app).apps = m.apps ++ [m.addedApp app] ∧
    (m.Add app).workers = m.workers ++
      (startInstances m.workers.length m.ctxDone { app with id := m.assignID app }).1 ∧
    (m.Add app).running = none ∧ (m.Add app).ctxDone = m.ctxDone := by
  unfold Add
  rw [if_neg (by simp [h])]
  exact ⟨rfl, rfl, rfl, rfl⟩

theorem Add_running (m : Manager) (app : App) : (m.Add app).running = none := by
  cases h : m.apps.any (·.name == app.name) with
  | true => rw [Add_taken h, finish_running]
  | false => exact (Add_new h).2.2.1

end Manager
end Marshal.Daemon
