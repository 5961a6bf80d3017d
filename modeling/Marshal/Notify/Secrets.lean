import Mathlib.Data.List.Sort
import Marshal.Lib.JsonText
import Marshal.Lib.Keyed
import Marshal.Lib.Utf8

/-! A channel's secrets as text.

They are written as a JSON object with its members in the order of their keys, and read back
as they were (`unmarshal_marshal`). -/
namespace Marshal.Notify.Secrets
open JsonText (Value)

/-- `json.Marshal` of the map. -/
def marshal (secrets : Table String String) : List UInt8 :=
  Utf8.encode (JsonText.object ((secrets.toList.insertionSort fun a b => a.1 ≤ b.1).map fun e =>
    (JsonText.escape e.1.toList, JsonText.escape e.2.toList)))

/-- One member into a map of strings; a null leaves the empty string. -/
def member (t : Table String String) (m : List Char × Value) : Option (Table String String) :=
  match m.2 with
  | .str raw => some (t.set (String.ofList (JsonText.unquote m.1)) (String.ofList (JsonText.unquote raw)))
  | .null => some (t.set (String.ofList (JsonText.unquote m.1)) "")
  | _ => none

/-- `json.Unmarshal` into a map of strings. -/
def unmarshal (text : List UInt8) : Option (Table String String) :=
  match JsonText.read (Utf8.lossy text) with
  | some (.obj ms) => ms.foldlM member ∅
  | some .null => some ∅
  | _ => none

theorem foldlM_member (es : List (String × String)) (t : Table String String) :
    (es.map fun e => (JsonText.escape e.1.toList, Value.str (JsonText.escape e.2.toList))).foldlM member t =
      some (es.foldl (fun t e => t.set e.1 e.2) t) := by
  induction es generalizing t with
  | nil => rfl
  | cons e rest ih =>
    rw [List.map_cons, List.foldlM_cons, List.foldl_cons, ← ih]
    simp only [member, JsonText.unquote_escape, String.ofList_toList, Option.bind_eq_bind, Option.bind_some]

theorem unmarshal_marshal (secrets : Table String String) :
    ∃ t, unmarshal (marshal secrets) = some t ∧ t.get = secrets.get := by
  have hsorted : (secrets.toList.insertionSort fun a b => a.1 ≤ b.1).Perm secrets.toList := List.perm_insertionSort _ _
  unfold unmarshal marshal
  generalize (secrets.toList.insertionSort fun a b => a.1 ≤ b.1) = es at hsorted ⊢
  refine ⟨es.foldl (fun t e => t.set e.1 e.2) ∅, ?_, ?_⟩
  · have hliteral : ∀ m ∈ es.map fun e => (JsonText.escape e.1.toList, JsonText.escape e.2.toList),
        JsonText.Literal m.1 ∧ JsonText.Literal m.2 := by
      intro m hm
      obtain ⟨e, -, rfl⟩ := List.mem_map.mp hm
      exact ⟨JsonText.literal_escape _, JsonText.literal_escape _⟩
    have hread := JsonText.read_object hliteral
    rw [Utf8.lossy_encode, hread, List.map_map]
    exact foldlM_member es ∅
  · have hnodup : (es.map Prod.fst).Nodup := (hsorted.map Prod.fst).nodup_iff.mpr secrets.nodup_keys
    funext k
    refine Option.ext fun v => ?_
    rw [Keyed.get_foldl_set Prod.snd hnodup, ← Table.mem_toList, ← hsorted.mem_iff]
    constructor
    · intro h
      obtain ⟨e, he, rfl, rfl⟩ := h
      exact he
    · intro h
      exact ⟨(k, v), h, rfl, rfl⟩

end Marshal.Notify.Secrets
