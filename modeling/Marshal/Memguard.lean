import Marshal.Lib.Table

/-! The memory guard's tables. -/
namespace Marshal.Memguard

/-- `name#idx` without the index. -/
def appName (label : String) : String :=
  match label.toList.reverse.dropWhile (· != '#') with
  | [] => label
  | _ :: rest => String.ofList rest.reverse

/-- Memory limits by app name, breach streaks by instance label. -/
structure Guard where
  limits : Table String Nat := ∅
  breach : Table String Nat := ∅

namespace Guard

/-- No bytes is no limit. -/
def SetLimit (g : Guard) (app : String) (bytes : Nat) : Guard :=
  { g with limits := if bytes = 0 then g.limits.del app else g.limits.set app bytes }

def Remove (g : Guard) (app : String) : Guard where
  limits := g.limits.del app
  breach := g.breach.toList.foldl
    (fun t entry => if appName entry.1 = app then t.del entry.1 else t) g.breach

/-- Removing several apps removes the limits of exactly these. -/
theorem foldl_Remove_limits (g : Guard) (names : List String) (name : String) :
    (names.foldl Remove g).limits.get name =
      if name ∈ names then none else g.limits.get name := by
  have hlimits : (names.foldl Remove g).limits = names.foldl Table.del g.limits := by
    induction names generalizing g with
    | nil => rfl
    | cons app rest ih => exact ih (g.Remove app)
  rw [hlimits, Table.get_foldl_del]

end Guard
end Marshal.Memguard
