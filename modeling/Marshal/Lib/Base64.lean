import Mathlib.Data.List.Basic

/-! Bytes as base64 text.

Three bytes are four characters, and what is left over is filled up with `=`. Line ends in a text
are skipped. What is encoded is decoded again (`decode_encode`). -/
namespace Base64

def alphabet : List Char := "ABCDEFGHIJKLMNOPQRSTUVWXYZabcdefghijklmnopqrstuvwxyz0123456789+/".toList

/-- The character of six bits. -/
def char (n : Nat) : Char := alphabet.getD n '='

def value (c : Char) : Option Nat := alphabet.findIdx? (· == c)

def encode : List UInt8 → List Char
  | [] => []
  | [a] => [char (a.toNat / 4), char (a.toNat % 4 * 16), '=', '=']
  | [a, b] => [char (a.toNat / 4), char (a.toNat % 4 * 16 + b.toNat / 16), char (b.toNat % 16 * 4), '=']
  | a :: b :: c :: rest =>
    char (a.toNat / 4) :: char (a.toNat % 4 * 16 + b.toNat / 16) :: char (b.toNat % 16 * 4 + c.toNat / 64) ::
      char (c.toNat % 64) :: encode rest

/-- The first byte of four characters, and in the next two the second and the third. -/
def byte₁ (x y : Nat) : UInt8 := .ofNat (x * 4 + y / 16)
def byte₂ (y z : Nat) : UInt8 := .ofNat (y % 16 * 16 + z / 4)
def byte₃ (z w : Nat) : UInt8 := .ofNat (z % 4 * 64 + w)

def decodeFrom : List Char → Option (List UInt8)
  | [] => some []
  | a :: b :: c :: d :: rest => do
    let x ← value a
    let y ← value b
    if c = '=' then
      if d = '=' ∧ rest = [] then some [byte₁ x y] else none
    else
      let z ← value c
      if d = '=' then
        if rest = [] then some [byte₁ x y, byte₂ y z] else none
      else
        let w ← value d
        let more ← decodeFrom rest
        some (byte₁ x y :: byte₂ y z :: byte₃ z w :: more)
  | _ => none

def decode (s : List Char) : Option (List UInt8) := decodeFrom (s.filter fun c => c ≠ '\r' ∧ c ≠ '\n')

theorem char_plain : ∀ n < 64, value (char n) = some n ∧ char n ≠ '=' ∧ char n ≠ '\r' ∧ char n ≠ '\n' := by
  decide +kernel

theorem byte_eq {a : UInt8} {n : Nat} (h : n = a.toNat) : UInt8.ofNat n = a := by
  rw [h, UInt8.ofNat_toNat]

theorem decodeFrom_encode (bs : List UInt8) : decodeFrom (encode bs) = some bs := by
  induction bs using encode.induct with
  | case1 => rfl
  | case2 a =>
    have ha := a.toNat_lt
    obtain ⟨hx, -⟩ := char_plain (a.toNat / 4) (by omega)
    obtain ⟨hy, -⟩ := char_plain (a.toNat % 4 * 16) (by omega)
    have hbyte : byte₁ (a.toNat / 4) (a.toNat % 4 * 16) = a := byte_eq (by omega)
    simp [encode, decodeFrom, hx, hy, hbyte]
  | case3 a b =>
    have ha := a.toNat_lt
    have hb := b.toNat_lt
    obtain ⟨hx, -⟩ := char_plain (a.toNat / 4) (by omega)
    obtain ⟨hy, -⟩ := char_plain (a.toNat % 4 * 16 + b.toNat / 16) (by omega)
    obtain ⟨hz, hpad, -⟩ := char_plain (b.toNat % 16 * 4) (by omega)
    have hbyte₁ : byte₁ (a.toNat / 4) (a.toNat % 4 * 16 + b.toNat / 16) = a := byte_eq (by omega)
    have hbyte₂ : byte₂ (a.toNat % 4 * 16 + b.toNat / 16) (b.toNat % 16 * 4) = b := byte_eq (by omega)
    simp [encode, decodeFrom, hx, hy, hz, hpad, hbyte₁, hbyte₂]
  | case4 a b c rest ih =>
    have ha := a.toNat_lt
    have hb := b.toNat_lt
    have hc := c.toNat_lt
    obtain ⟨hx, -⟩ := char_plain (a.toNat / 4) (by omega)
    obtain ⟨hy, -⟩ := char_plain (a.toNat % 4 * 16 + b.toNat / 16) (by omega)
    obtain ⟨hz, hpad, -⟩ := char_plain (b.toNat % 16 * 4 + c.toNat / 64) (by omega)
    obtain ⟨hw, hpad', -⟩ := char_plain (c.toNat % 64) (by omega)
    have hbyte₁ : byte₁ (a.toNat / 4) (a.toNat % 4 * 16 + b.toNat / 16) = a := byte_eq (by omega)
    have hbyte₂ : byte₂ (a.toNat % 4 * 16 + b.toNat / 16) (b.toNat % 16 * 4 + c.toNat / 64) = b := byte_eq (by omega)
    have hbyte₃ : byte₃ (b.toNat % 16 * 4 + c.toNat / 64) (c.toNat % 64) = c := byte_eq (by omega)
    simp [encode, decodeFrom, hx, hy, hz, hw, hpad, hpad', hbyte₁, hbyte₂, hbyte₃, ih]

theorem encode_lines (bs : List UInt8) : ∀ c ∈ encode bs, c ≠ '\r' ∧ c ≠ '\n' := by
  have hpad : '=' ≠ '\r' ∧ '=' ≠ '\n' := by decide
  have hplain : ∀ n < 64, char n ≠ '\r' ∧ char n ≠ '\n' := fun n hn => (char_plain n hn).2.2
  induction bs using encode.induct with
  | case1 => exact fun c hc => absurd hc List.not_mem_nil
  | case2 a =>
    have ha := a.toNat_lt
    simp only [encode, List.forall_mem_cons]
    exact ⟨hplain _ (by omega), hplain _ (by omega), hpad, hpad, fun c hc => absurd hc List.not_mem_nil⟩
  | case3 a b =>
    have ha := a.toNat_lt
    have hb := b.toNat_lt
    simp only [encode, List.forall_mem_cons]
    exact ⟨hplain _ (by omega), hplain _ (by omega), hplain _ (by omega), hpad, fun c hc => absurd hc List.not_mem_nil⟩
  | case4 a b c rest ih =>
    have ha := a.toNat_lt
    have hb := b.toNat_lt
    have hc := c.toNat_lt
    simp only [encode, List.forall_mem_cons]
    exact ⟨hplain _ (by omega), hplain _ (by omega), hplain _ (by omega), hplain _ (by omega), ih⟩

theorem decode_encode (bs : List UInt8) : decode (encode bs) = some bs := by
  have hself : (encode bs).filter (fun c => c ≠ '\r' ∧ c ≠ '\n') = encode bs :=
    List.filter_eq_self.mpr fun c hc => decide_eq_true (encode_lines bs c hc)
  rw [decode, hself]
  exact decodeFrom_encode bs

theorem encode_eq_nil {bs : List UInt8} (h : encode bs = []) : bs = [] := by
  have hdecoded := decode_encode bs
  rw [h] at hdecoded
  exact (Option.some.inj hdecoded).symm

end Base64
