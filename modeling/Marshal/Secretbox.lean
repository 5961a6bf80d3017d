import Marshal.Lib.Base64
import Marshal.Lib.Utf8

/-! Secrets sealed under the server's master key.

The key comes from the environment or from a file that the first start makes. What the cipher
does is given; it decrypts what it encrypted (`Lawful`), so what is sealed under a key is
opened under it (`Open_Seal`). -/
namespace Marshal.Secretbox

/-- The 32 bytes of a master key. -/
abbrev Key := { bytes : List UInt8 // bytes.length = 32 }

/-- AES-256-GCM: of a key, a nonce and a text. -/
structure Cipher where
  encrypt : Key → List UInt8 → List UInt8 → List UInt8
  decrypt : Key → List UInt8 → List UInt8 → Option (List UInt8)

/-- What is known of it; a tag makes every ciphertext longer than its text. -/
structure Lawful (C : Cipher) : Prop where
  decrypt_encrypt : ∀ key nonce text, C.decrypt key nonce (C.encrypt key nonce text) = some text
  encrypt_ne_nil : ∀ key nonce text, C.encrypt key nonce text ≠ []

/-- The bytes of a key, if they are as many. -/
def FromKey (bytes : List UInt8) : Option Key := if h : bytes.length = 32 then some ⟨bytes, h⟩ else none

/-- The key from `MARSHAL_MASTER_KEY` or `master.key`, and that file as it is then. Where there is
neither, a key is drawn and saved, which may fail. -/
def Load (env : String) (file : Option (List UInt8)) (drawn : Option Key) (saved : Bool) :
    Option (Key × Option (List UInt8)) :=
  if env ≠ "" then ((Base64.decode env.toList).bind FromKey).map fun key => (key, file)
  else match file with
    | some bytes => (FromKey bytes).map fun key => (key, file)
    | none => match drawn with
      | none => none
      | some key => if saved then some (key, some key.1) else none

section Seal
variable (C : Cipher) (key : Key)

/-- Nonce and ciphertext in base64. -/
def Seal (nonce text : List UInt8) : String × String :=
  (String.ofList (Base64.encode nonce), String.ofList (Base64.encode (C.encrypt key nonce text)))

def Open (nonceB64 cipherB64 : String) : Option (List UInt8) := do
  let nonce ← Base64.decode nonceB64.toList
  let text ← Base64.decode cipherB64.toList
  C.decrypt key nonce text

variable {C key}

theorem Open_Seal (hC : Lawful C) (nonce text : List UInt8) :
    Open C key (Seal C key nonce text).1 (Seal C key nonce text).2 = some text := by
  simp only [Open, Seal, String.toList_ofList, Base64.decode_encode, Option.bind_eq_bind, Option.bind_some]
  exact hC.decrypt_encrypt key nonce text

theorem Seal_ne_empty (hC : Lawful C) (nonce text : List UInt8) : (Seal C key nonce text).2 ≠ "" := by
  intro h
  have hnil := congrArg String.toList h
  rw [Seal, String.toList_ofList] at hnil
  exact hC.encrypt_ne_nil key nonce text (Base64.encode_eq_nil hnil)

end Seal

/-- A key that was loaded is loaded again, whatever is drawn then. -/
theorem Load_again {env : String} {file file' : Option (List UInt8)} {drawn : Option Key} {saved : Bool} {key : Key}
    (h : Load env file drawn saved = some (key, file')) (drawn' : Option Key) (saved' : Bool) :
    Load env file' drawn' saved' = some (key, file') := by
  unfold Load at h ⊢
  by_cases henv : env ≠ ""
  · rw [if_pos henv, Option.map_eq_some_iff] at h
    obtain ⟨k, hk, heq⟩ := h
    cases heq
    rw [if_pos henv, hk]
    rfl
  · rw [if_neg henv] at h ⊢
    cases hfile : file with
    | some bytes =>
      rw [hfile, Option.map_eq_some_iff] at h
      obtain ⟨k, hk, heq⟩ := h
      cases heq
      simp only [hk, Option.map_some]
    | none =>
      rw [hfile] at h
      cases drawn with
      | none => cases h
      | some k =>
        cases saved with
        | false => cases h
        | true =>
          cases h
          have hkey : FromKey key.1 = some key := dif_pos key.2
          simp only [hkey, Option.map_some]

end Marshal.Secretbox
