import Mathlib.Algebra.Group.Int.Defs
import Mathlib.Data.List.Basic

/-! JSON values and their members.

A record is written as an object with a member for each field; a field may be left
out where it has its zero value (`omitempty`). It is read member by member (`field`):
a missing member, and a null, leave the zero value. -/

inductive Json where
  | null
  | bool (b : Bool)
  | num (n : Int)
  | str (s : String)
  | arr (items : List Json)
  | obj (members : List (String × Json))

namespace Json
variable {α : Type*}

/-! ### Members -/

abbrev Members := List (String × Json)

/-- A member, left out if there is no value for it. -/
def omitempty (key : String) : Option Json → Members
  | none => []
  | some v => [(key, v)]

def field (members : Members) (key : String) (zero : α) (decode : Json → Option α) : Option α :=
  match members.lookup key with
  | none => some zero
  | some v => decode v

@[simp] theorem lookup_omitempty (key key' : String) (v : Option Json) :
    (omitempty key' v).lookup key = if key = key' then v else none := by
  by_cases h : key = key'
  · subst h
    cases v <;> simp [omitempty]
  · have hne : (key == key') = false := by simpa using h
    cases v <;> simp [omitempty, List.lookup_cons, h, hne]

theorem field_some {members : Members} {key : String} {zero x : α} {decode : Json → Option α} {v : Json}
    (hlookup : members.lookup key = some v) (hdecode : decode v = some x) :
    field members key zero decode = some x := by
  simp only [field, hlookup, hdecode]

/-- A field that is left out where its value is the zero value. -/
theorem field_optional {members : Members} {key : String} {zero x : α} {decode : Json → Option α}
    {v : Option Json} (hlookup : members.lookup key = v) (hzero : v = none → x = zero)
    (hdecode : ∀ w, v = some w → decode w = some x) : field members key zero decode = some x := by
  unfold field
  rw [hlookup]
  cases v with
  | none => rw [hzero rfl]
  | some w => exact hdecode w rfl

/-! ### Values of the Go types -/

def int64 : Json → Option Int
  | .null => some 0
  | .num n => if -2 ^ 63 ≤ n ∧ n < 2 ^ 63 then some n else none
  | _ => none

def string : Json → Option String
  | .null => some ""
  | .str s => some s
  | _ => none

def boolean : Json → Option Bool
  | .null => some false
  | .bool b => some b
  | _ => none

def strings : Json → Option (List String)
  | .null => some []
  | .arr items => items.mapM string
  | _ => none

def stringMember (m : String × Json) : Option (String × String) :=
  (string m.2).map fun s => (m.1, s)

def stringMap : Json → Option (List (String × String))
  | .null => some []
  | .obj members => members.mapM stringMember
  | _ => none

/-- A value behind a pointer, which a null leaves nil. -/
def pointer (decode : Json → Option α) : Json → Option (Option α)
  | .null => some none
  | v => (decode v).map some

theorem int64_num {n : Int} (h : -2 ^ 63 ≤ n ∧ n < 2 ^ 63) : int64 (.num n) = some n := if_pos h

theorem strings_arr (l : List String) : strings (.arr (l.map .str)) = some l := by
  show (l.map Json.str).mapM string = some l
  induction l with
  | nil => rfl
  | cons s rest ih => simp [string, ih]

theorem stringMap_obj (l : List (String × String)) :
    stringMap (.obj (l.map fun m => (m.1, .str m.2))) = some l := by
  show (l.map fun m => (m.1, Json.str m.2)).mapM stringMember = some l
  induction l with
  | nil => rfl
  | cons m rest ih =>
    have hm : stringMember (m.1, Json.str m.2) = some m := rfl
    simp only [List.map_cons, List.mapM_cons, hm, ih]
    rfl

theorem pointer_some {decode : Json → Option α} {v : Json} {x : α} (hnull : v ≠ .null)
    (h : decode v = some x) : pointer decode v = some (some x) := by
  cases v with
  | null => exact absurd rfl hnull
  | bool | num | str | arr | obj =>
    show (decode _).map some = _
    rw [h]
    rfl

end Json
