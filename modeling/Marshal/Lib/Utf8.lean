import Mathlib.Data.List.Basic

/-! Bytes read as text.

Text is read character by character; a byte no character starts with is read as the
replacement character. So what is read is written back as it was exactly when it is
UTF-8 (`encode_lossy_iff`). -/
namespace Utf8

def encode (cs : List Char) : List UInt8 := cs.flatMap String.utf8EncodeChar

/-- The character that the bytes start with. -/
def first (bs : List UInt8) : Option Char := bs.toByteArray.utf8DecodeChar? 0

/-- So many bytes belong to the character just read. -/
def lossyFrom : Nat → List UInt8 → List Char
  | _, [] => []
  | n + 1, _ :: bs => lossyFrom n bs
  | 0, b :: bs => match first (b :: bs) with
    | some c => c :: lossyFrom (c.utf8Size - 1) bs
    | none => '\uFFFD' :: lossyFrom 0 bs

def lossy (bs : List UInt8) : List Char := lossyFrom 0 bs

theorem first_encodeChar (c : Char) (rest : List UInt8) :
    first (String.utf8EncodeChar c ++ rest) = some c := by
  unfold first
  rw [List.toByteArray_append]
  exact ByteArray.utf8DecodeChar?_utf8EncodeChar_append

theorem lossyFrom_append (l rest : List UInt8) : lossyFrom l.length (l ++ rest) = lossyFrom 0 rest := by
  induction l with
  | nil => rfl
  | cons b l ih => exact ih

theorem lossy_encodeChar (c : Char) (rest : List UInt8) :
    lossy (String.utf8EncodeChar c ++ rest) = c :: lossy rest := by
  have hlen := String.length_utf8EncodeChar c
  have hfirst := first_encodeChar c rest
  cases hbytes : String.utf8EncodeChar c with
  | nil =>
    have hpos := c.utf8Size_pos
    rw [hbytes] at hlen
    exact absurd hlen (Nat.ne_of_lt hpos)
  | cons b l =>
    rw [hbytes] at hlen hfirst
    have hl : c.utf8Size - 1 = l.length := by
      rw [← hlen, List.length_cons, Nat.add_sub_cancel]
    rw [List.cons_append] at hfirst ⊢
    simp only [lossy, lossyFrom, hfirst, hl, lossyFrom_append]

theorem lossy_encode (cs : List Char) : lossy (encode cs) = cs := by
  induction cs with
  | nil => rfl
  | cons c cs ih =>
    show lossy (String.utf8EncodeChar c ++ encode cs) = c :: cs
    rw [lossy_encodeChar, ih]

theorem length_le_encode (cs : List Char) : cs.length ≤ (encode cs).length := by
  induction cs with
  | nil => exact Nat.le_refl 0
  | cons c cs ih =>
    have hpos := c.utf8Size_pos
    rw [encode, List.flatMap_cons, ← encode, List.length_append, String.length_utf8EncodeChar, List.length_cons]
    omega

theorem encode_lossy_iff {bs : List UInt8} : encode (lossy bs) = bs ↔ bs.toByteArray.IsValidUTF8 := by
  constructor
  · intro h
    exact ⟨lossy bs, by rw [List.utf8Encode, ← encode, h]⟩
  · rintro ⟨cs, hcs⟩
    have hbytes : bs = encode cs := by
      simpa [List.utf8Encode, encode] using congrArg (fun b => b.data.toList) hcs
    rw [hbytes, lossy_encode]

/-! ### ASCII -/

/-- An ASCII byte stands for its own character. -/
theorem mem_encodeChar {b : UInt8} (hb : b.toNat < 128) {c : Char} (h : b ∈ String.utf8EncodeChar c) :
    c.toNat = b.toNat := by
  have hbyte : ∀ n k : Nat, 0 < n → 128 ≤ k → k + n ≤ 256 → ∀ v, b ≠ UInt8.ofNat (v % n + k) := by
    intro n k hn hk hsum v heq
    have hmod := Nat.mod_lt v hn
    rw [heq, UInt8.toNat_ofNat', Nat.mod_eq_of_lt (by omega)] at hb
    omega
  have hmore := hbyte 0x40 0x80 (by decide) (by decide) (by decide)
  rw [← Char.toNat_val]
  unfold String.utf8EncodeChar at h
  dsimp only at h
  split at h
  · rw [List.mem_singleton] at h
    rw [h, UInt8.toNat_ofNat', Nat.mod_eq_of_lt (by omega)]
  · exfalso
    split at h
    · have hfirst := hbyte 0x20 0xc0 (by decide) (by decide) (by decide)
      simp only [List.mem_cons, List.not_mem_nil, hmore, hfirst, or_self] at h
    · split at h
      · have hfirst := hbyte 0x10 0xe0 (by decide) (by decide) (by decide)
        simp only [List.mem_cons, List.not_mem_nil, hmore, hfirst, or_self] at h
      · have hfirst := hbyte 0x08 0xf0 (by decide) (by decide) (by decide)
        simp only [List.mem_cons, List.not_mem_nil, hmore, hfirst, or_self] at h

theorem mem_encode {b : UInt8} (hb : b.toNat < 128) {cs : List Char} (h : b ∈ encode cs) :
    ∃ c ∈ cs, c.toNat = b.toNat := by
  obtain ⟨c, hc, hbyte⟩ := List.mem_flatMap.mp h
  exact ⟨c, hc, mem_encodeChar hb hbyte⟩

/-- A text begins with the byte of an ASCII character only where it begins with that character. -/
theorem head_encode {d : Char} {b : UInt8} (hd : String.utf8EncodeChar d = [b]) (cs : List Char) :
    (encode cs).head? = some b ↔ cs.head? = some d := by
  cases cs with
  | nil => simp [encode]
  | cons c cs =>
    show (String.utf8EncodeChar c ++ encode cs).head? = some b ↔ some c = some d
    constructor
    · intro h
      obtain ⟨rest, hrest⟩ := List.head?_eq_some_iff.mp h
      have hc := first_encodeChar c (encode cs)
      have hfirst := first_encodeChar d rest
      rw [hd, List.singleton_append, ← hrest, hc] at hfirst
      exact hfirst
    · intro h
      cases h
      rw [hd]
      rfl

/-- The bytes of a text, each as the character of its number. -/
def bytes (cs : List Char) : List Char := (encode cs).map Char.ofUInt8

theorem bytes_append (cs cs' : List Char) : bytes (cs ++ cs') = bytes cs ++ bytes cs' := by
  rw [bytes, encode, List.flatMap_append, List.map_append]
  rfl

theorem toUInt8_ofUInt8 (b : UInt8) : (Char.ofUInt8 b).toUInt8 = b := by
  refine UInt8.toNat_inj.mp ?_
  have hb := b.toNat_lt
  show (UInt32.toUInt8 b.toUInt32).toNat = b.toNat
  simp

theorem encodeChar_ascii {c : Char} (hc : c.toNat < 128) : String.utf8EncodeChar c = [c.toUInt8] := by
  have hle : c.val.toNat ≤ 0x7f := Nat.le_of_lt_succ hc
  unfold String.utf8EncodeChar
  dsimp only
  rw [if_pos hle]
  congr 1

theorem ofUInt8_toUInt8 {c : Char} (hc : c.toNat < 128) : Char.ofUInt8 c.toUInt8 = c := by
  have hlt : c.val.toNat < 256 := Nat.lt_trans hc (by decide)
  refine Char.toNat_inj.mp ?_
  show (UInt32.toUInt8 c.val).toUInt32.toNat = c.val.toNat
  rw [UInt8.toNat_toUInt32, UInt32.toNat_toUInt8, Nat.mod_eq_of_lt hlt]

theorem encode_ascii {cs : List Char} (h : ∀ c ∈ cs, c.toNat < 128) : encode cs = cs.map Char.toUInt8 := by
  induction cs with
  | nil => rfl
  | cons c cs ih =>
    obtain ⟨hc, hcs⟩ := List.forall_mem_cons.mp h
    rw [encode, List.flatMap_cons, encodeChar_ascii hc, List.map_cons, ← ih hcs]
    rfl

/-- An ASCII text is its own bytes. -/
theorem bytes_ascii {cs : List Char} (h : ∀ c ∈ cs, c.toNat < 128) : bytes cs = cs := by
  rw [bytes, encode_ascii h, List.map_map]
  refine (List.map_congr_left fun c hc => ?_).trans (List.map_id cs)
  exact ofUInt8_toUInt8 (h c hc)

theorem ofUInt8_inj {b b' : UInt8} (h : Char.ofUInt8 b = Char.ofUInt8 b') : b = b' := by
  have hval : ∀ b : UInt8, (Char.ofUInt8 b).toNat = b.toNat := fun b => UInt8.toNat_toUInt32 b
  have hnat := congrArg Char.toNat h
  rw [hval, hval] at hnat
  exact UInt8.toNat_inj.mp hnat

theorem bytes_inj {cs cs' : List Char} (h : bytes cs = bytes cs') : cs = cs' := by
  have hencode : encode cs = encode cs' := List.map_injective_iff.mpr (fun _ _ => ofUInt8_inj) h
  rw [← lossy_encode cs, hencode, lossy_encode]

theorem head_bytes {d : Char} {b : UInt8} (hd : String.utf8EncodeChar d = [b]) (hb : Char.ofUInt8 b = d)
    (cs : List Char) : (bytes cs).head? = some d ↔ cs.head? = some d := by
  rw [← head_encode hd cs, bytes, List.head?_map, Option.map_eq_some_iff]
  constructor
  · intro h
    obtain ⟨b', hb', heq⟩ := h
    rw [hb', ofUInt8_inj (heq.trans hb.symm)]
  · intro h
    exact ⟨b, h, hb⟩

end Utf8
