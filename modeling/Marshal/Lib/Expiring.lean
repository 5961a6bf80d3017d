import Marshal.Lib.Table

/-! Tables whose entries expire.

An entry shows as long as the clock is before its expiry. Dead entries may stay in a table
or be dropped from it, so two tables with the same entries may differ in them; what
matters is that they show the same (`Agree`), now and at any later time. -/
namespace Expiring
variable {κ ν : Type} [DecidableEq κ] (expiry : ν → Int)

def live (now : Int) (v : ν) : Bool := now < expiry v

/-- What a table shows. -/
def look (t : Table κ ν) (now : Int) (k : κ) : Option ν := (t.get k).filter (live expiry now)

/-- The table without its dead entries. -/
def purge (t : Table κ ν) (now : Int) : Table κ ν := t.discard fun _ v => !live expiry now v

def Agree (t u : Table κ ν) (now : Int) : Prop := ∀ k, look expiry t now k = look expiry u now k

variable {expiry} {t u : Table κ ν} {now now' : Int}

/-- What is dead stays dead. -/
theorem filter_later (h : now ≤ now') (o : Option ν) :
    (o.filter (live expiry now)).filter (live expiry now') = o.filter (live expiry now') := by
  cases o with
  | none => rfl
  | some v =>
    by_cases hv : now' < expiry v
    · have hearlier : now < expiry v := by omega
      simp [Option.filter_some, live, hv, hearlier]
    · by_cases hearlier : now < expiry v <;> simp [Option.filter_some, live, hv, hearlier]

theorem look_set (t : Table κ ν) (now : Int) (k k' : κ) (v : ν) :
    look expiry (t.set k v) now k' =
      if k' = k then (some v).filter (live expiry now) else look expiry t now k' := by
  unfold look
  rw [Table.get_set]
  split <;> rfl

theorem look_del (t : Table κ ν) (now : Int) (k k' : κ) :
    look expiry (t.del k) now k' = if k' = k then none else look expiry t now k' := by
  unfold look
  rw [Table.get_del]
  split <;> rfl

theorem get_purge (t : Table κ ν) (now : Int) (k : κ) :
    (purge expiry t now).get k = look expiry t now k := by
  unfold purge look
  rw [Table.get_discard]
  simp

theorem agree_purge (t : Table κ ν) (now : Int) : Agree expiry (purge expiry t now) t now := by
  intro k
  show ((purge expiry t now).get k).filter _ = _
  rw [get_purge]
  exact filter_later (Int.le_refl now) _

theorem Agree.trans {w : Table κ ν} (h : Agree expiry t u now) (h' : Agree expiry u w now) :
    Agree expiry t w now := fun k => (h k).trans (h' k)

theorem Agree.later (h : Agree expiry t u now) (hle : now ≤ now') : Agree expiry t u now' := by
  intro k
  show (t.get k).filter _ = (u.get k).filter _
  rw [← filter_later hle (t.get k), ← filter_later hle (u.get k)]
  exact congrArg (fun o => o.filter (live expiry now')) (h k)

end Expiring
