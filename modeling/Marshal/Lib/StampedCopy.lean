import Mathlib.Tactic.TypeStar

/-! A shared record, replaced as a whole, and a copy of it kept up to date by its stamp.

The holder of the copy looks at the record's stamp, fetches the record some time later
and takes it over under the stamp it saw. Once the record has a property, under a
stamp newer than any the holder knows, whatever comes to carry such a stamp has been
taken from the record since and has the property as well (`Settled`). -/
namespace StampedCopy

structure Stamped (α : Type*) where
  value : α
  stamp : Nat

/-- The record has the property and a stamp from `m` on. The copy, and what has been fetched
for it, have the property if their stamp is from `m` on. -/
structure Settled {α : Type*} (P : α → Prop) (m : Nat) (shared copy : Stamped α)
    (fetched : Option (Stamped α)) : Prop where
  since : m ≤ shared.stamp
  shared : P shared.value
  copy : m ≤ copy.stamp → P copy.value
  fetched : ∀ f, fetched = some f → m ≤ f.stamp → P f.value

namespace Settled
variable {α : Type*} {P : α → Prop} {m : Nat} {shared copy new : Stamped α}
  {fetched : Option (Stamped α)}

/-- A record under a stamp that the holder of the copy has not seen. -/
theorem settle (hP : P shared.value) (hcopy : copy.stamp < shared.stamp)
    (hfetched : ∀ f, fetched = some f → f.stamp < shared.stamp) :
    Settled P shared.stamp shared copy fetched where
  since := Nat.le_refl _
  shared := hP
  copy := fun hle => absurd hcopy (Nat.not_lt.mpr hle)
  fetched := fun f hf hle => absurd (hfetched f hf) (Nat.not_lt.mpr hle)

/-- The record is replaced, under a stamp that is no older. -/
theorem publish (h : Settled P m shared copy fetched) (hstamp : shared.stamp ≤ new.stamp)
    (hP : P new.value) : Settled P m new copy fetched :=
  ⟨Nat.le_trans h.since hstamp, hP, h.copy, h.fetched⟩

/-- The copy is changed in place. -/
theorem edit (h : Settled P m shared copy fetched) {value : α} (hP : P copy.value → P value) :
    Settled P m shared ⟨value, copy.stamp⟩ fetched :=
  ⟨h.since, h.shared, fun hle => hP (h.copy hle), h.fetched⟩

/-- The copy becomes what the record is, under whatever stamp. -/
theorem reread (h : Settled P m shared copy fetched) (stamp : Nat) :
    Settled P m shared ⟨shared.value, stamp⟩ fetched :=
  ⟨h.since, h.shared, fun _ => h.shared, h.fetched⟩

/-- The record is fetched, under a stamp seen before. -/
theorem fetch (h : Settled P m shared copy fetched) (stamp : Nat) :
    Settled P m shared copy (some ⟨shared.value, stamp⟩) where
  since := h.since
  shared := h.shared
  copy := h.copy
  fetched := fun _ hf _ => Option.some.inj hf ▸ h.shared

theorem drop (h : Settled P m shared copy fetched) : Settled P m shared copy none where
  since := h.since
  shared := h.shared
  copy := h.copy
  fetched := fun _ hf => nomatch hf

/-- The copy is replaced by what has been fetched for it. -/
theorem takeOver (h : Settled P m shared copy (some new)) : Settled P m shared new none where
  since := h.since
  shared := h.shared
  copy := h.fetched new rfl
  fetched := fun _ hf => nomatch hf

end Settled

end StampedCopy
