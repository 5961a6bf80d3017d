import Mathlib.Data.List.Nodup
import Marshal.Config

/-! Selectors.

Every operation names its apps by one string: the keyword `all`, an id, or a name,
tried in this order. -/
namespace Marshal.Daemon
open Config

/-- The value of a digit string. -/
def digits : List Char → Option Nat
  | [] => none
  | c :: rest =>
    if (c :: rest).all Char.isDigit then
      some ((c :: rest).foldl (fun n d => n * 10 + (d.toNat - 48)) 0)
    else none

/-- `strconv.Atoi`: an optional sign and digits, within 64 bits. -/
def Atoi (s : String) : Option Int :=
  match s.toList with
  | '-' :: rest => do
    let n ← digits rest
    if -(n : Int) < -2 ^ 63 then none else some (-(n : Int))
  | '+' :: rest => do
    let n ← digits rest
    if (n : Int) < 2 ^ 63 then some n else none
  | rest => do
    let n ← digits rest
    if (n : Int) < 2 ^ 63 then some n else none

/-- A handle on one instance; `inst` is its position among all instances ever started. -/
structure ManagedInstance where
  instanceID : Nat
  label : String
  inst : Nat
  deriving DecidableEq, Repr

structure ManagedApp where
  id : Int
  name : String
  spec : App
  insts : List ManagedInstance
  deriving DecidableEq, Repr

def notMatched : String := "no app matching %q"

/-- The name match. -/
def resolveName (apps : List ManagedApp) (sel : String) : Except String (List Nat) :=
  match apps.findIdx? (·.name == sel) with
  | some k => .ok [k]
  | none => .error notMatched

/-- The positions of the selected apps in the list: `all`, else an id match, else a name match. -/
def resolve (apps : List ManagedApp) (sel : String) : Except String (List Nat) :=
  if sel = "all" then .ok (List.range apps.length)
  else match Atoi sel with
    | some id => match apps.findIdx? (·.id == id) with
      | some k => .ok [k]
      | none => resolveName apps sel
    | none => resolveName apps sel

/-- The instances of the apps at these positions. -/
def collectInstances (apps : List ManagedApp) (ps : List Nat) : List ManagedInstance :=
  ps.flatMap fun p => match apps[p]? with
    | some a => a.insts
    | none => []

/-- The largest id in use, 0 if none is larger. -/
def maxAppID (apps : List ManagedApp) : Int :=
  apps.foldl (fun top a => if a.id > top then a.id else top) 0

def idTaken (apps : List ManagedApp) (id : Int) : Bool := apps.any (·.id == id)

/-! ### What a selector resolves to -/

theorem findIdx?_get {α : Type*} {l : List α} {q : α → Bool} {p : Nat}
    (h : l.findIdx? q = some p) : ∃ a, l[p]? = some a ∧ q a = true := by
  obtain ⟨hlt, hq, -⟩ := List.findIdx?_eq_some_iff_getElem.mp h
  exact ⟨l[p], List.getElem?_eq_getElem hlt, hq⟩

theorem resolveName_ok {apps : List ManagedApp} {sel : String} {ps : List Nat}
    (h : resolveName apps sel = .ok ps) : ∃ p a, ps = [p] ∧ apps[p]? = some a ∧ a.name = sel := by
  unfold resolveName at h
  split at h
  · rename_i p hfind
    obtain ⟨a, hget, hq⟩ := findIdx?_get hfind
    cases h
    exact ⟨p, a, rfl, hget, by simpa using hq⟩
  · cases h

theorem resolveName_error {apps : List ManagedApp} {sel text : String}
    (h : resolveName apps sel = .error text) : text = notMatched ∧ ∀ a ∈ apps, a.name ≠ sel := by
  unfold resolveName at h
  split at h
  · cases h
  · rename_i hfind
    cases h
    refine ⟨rfl, fun a ha => ?_⟩
    simpa using List.findIdx?_eq_none_iff.mp hfind a ha

theorem resolve_all (apps : List ManagedApp) : resolve apps "all" = .ok (List.range apps.length) :=
  rfl

theorem resolve_cases {apps : List ManagedApp} {sel : String} {ps : List Nat}
    (h : resolve apps sel = .ok ps) :
    (sel = "all" ∧ ps = List.range apps.length) ∨ ∃ p a, ps = [p] ∧ apps[p]? = some a ∧
      sel ≠ "all" ∧ (Atoi sel = some a.id ∨ a.name = sel) := by
  unfold resolve at h
  split at h
  · rename_i hall
    cases h
    exact .inl ⟨hall, rfl⟩
  · rename_i hall
    refine .inr ?_
    split at h
    · rename_i id hid
      split at h
      · rename_i p hfind
        obtain ⟨a, hget, hq⟩ := findIdx?_get hfind
        cases h
        exact ⟨p, a, rfl, hget, hall, .inl (by rw [hid, beq_iff_eq.mp hq])⟩
      · obtain ⟨p, a, hps, hget, hname⟩ := resolveName_ok h
        exact ⟨p, a, hps, hget, hall, .inr hname⟩
    · obtain ⟨p, a, hps, hget, hname⟩ := resolveName_ok h
      exact ⟨p, a, hps, hget, hall, .inr hname⟩

/-- No app is selected only where no app has the name. -/
theorem resolve_error {apps : List ManagedApp} {sel text : String}
    (h : resolve apps sel = .error text) :
    sel ≠ "all" ∧ text = notMatched ∧ ∀ a ∈ apps, a.name ≠ sel := by
  unfold resolve at h
  split at h
  · cases h
  · rename_i hall
    refine ⟨hall, ?_⟩
    split at h
    · split at h
      · cases h
      · exact resolveName_error h
    · exact resolveName_error h

theorem resolve_nodup {apps : List ManagedApp} {sel : String} {ps : List Nat}
    (h : resolve apps sel = .ok ps) : ps.Nodup := by
  rcases resolve_cases h with ⟨-, rfl⟩ | ⟨q, a, rfl, -⟩
  · exact List.nodup_range
  · exact List.nodup_singleton q

theorem mem_collectInstances {apps : List ManagedApp} {ps : List Nat} {x : ManagedInstance} :
    x ∈ collectInstances apps ps ↔ ∃ p ∈ ps, ∃ a, apps[p]? = some a ∧ x ∈ a.insts := by
  unfold collectInstances
  rw [List.mem_flatMap]
  constructor
  · rintro ⟨p, hp, hx⟩
    cases hget : apps[p]? with
    | none => simp [hget] at hx
    | some a => exact ⟨p, hp, a, hget, by simpa [hget] using hx⟩
  · rintro ⟨p, hp, a, hget, hx⟩
    exact ⟨p, hp, by simpa [hget] using hx⟩

end Marshal.Daemon
