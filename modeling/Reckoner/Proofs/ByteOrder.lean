import Reckoner.Text.Utf8

/-!
# The order of texts and the order of their bytes

Texts are compared character by character, and the bytes that encode them byte by byte. Both orders
are the same: a character of more bytes has a greater first byte, and among characters of equally
many bytes the higher bits come first.

Main statement: `Text.encode_lt_encode`.
-/

set_option autoImplicit false

namespace Reckoner.Text

/-- The bytes of an array, read from some place on behind the bytes already read. -/
theorem toList_loop (bytes : ByteArray) (i : Nat) (read : List UInt8) :
    ByteArray.toList.loop bytes i read = read.reverse ++ bytes.data.toList.drop i := by
  fun_induction ByteArray.toList.loop bytes i read with
  | case1 i read hlt ih =>
    have hi : i < bytes.data.toList.length := by simpa using hlt
    rw [ih, List.drop_eq_getElem_cons hi]
    simp [ByteArray.get!, hlt]
  | case2 i read hge =>
    rw [List.drop_eq_nil_of_le (by simpa using Nat.le_of_not_lt hge), List.append_nil]

/-- A text is encoded character by character. -/
theorem encode_eq_flatMap (text : String) :
    encode text = text.toList.flatMap String.utf8EncodeChar := by
  have hbytes : text.toUTF8 = (text.toList.flatMap String.utf8EncodeChar).toByteArray := by
    conv => lhs; rw [← String.ofList_toList (s := text), String.toUTF8_eq_toByteArray]
    rfl
  rw [encode, hbytes, ByteArray.toList, toList_loop]
  simp

/-- Bytes are compared as the numbers they stand for. -/
theorem ofNat_cons_lt_iff {a b : Nat} {s t : List UInt8} (ha : a < 256) (hb : b < 256) :
    UInt8.ofNat a :: s < UInt8.ofNat b :: t ↔ a < b ∨ a = b ∧ s < t := by
  rw [List.cons_lt_cons_iff, UInt8.lt_iff_toNat_lt, ← UInt8.toNat_inj,
    UInt8.toNat_ofNat_of_lt' ha, UInt8.toNat_ofNat_of_lt' hb]

/-! ### Characters by the number of their bytes -/

/-- The bytes of a code point: one, two, three or four of them, as its size asks for. -/
inductive Encodes (code : Nat) : List UInt8 → Prop where
  | one (high : code < 0x80) : Encodes code [.ofNat code]
  | two (low : 0x80 ≤ code) (high : code < 0x800) :
    Encodes code [.ofNat (code / 64 + 0xc0), .ofNat (code % 64 + 0x80)]
  | three (low : 0x800 ≤ code) (high : code < 0x10000) :
    Encodes code [.ofNat (code / 4096 + 0xe0), .ofNat (code / 64 % 64 + 0x80),
      .ofNat (code % 64 + 0x80)]
  | four (low : 0x10000 ≤ code) (high : code < 0x110000) :
    Encodes code [.ofNat (code / 262144 + 0xf0), .ofNat (code / 4096 % 64 + 0x80),
      .ofNat (code / 64 % 64 + 0x80), .ofNat (code % 64 + 0x80)]

/-- A character is encoded by its code point. -/
theorem encodes_utf8EncodeChar (c : Char) : Encodes c.val.toNat (String.utf8EncodeChar c) := by
  have hbound : c.val.toNat < 0x110000 := by
    have hvalid : c.val.toNat.isValidChar := c.valid
    simp only [Nat.isValidChar] at hvalid
    omega
  unfold String.utf8EncodeChar
  dsimp only
  generalize c.val.toNat = code at hbound
  by_cases hone : code ≤ 0x7f
  · rw [if_pos hone]
    exact .one (by omega)
  by_cases htwo : code ≤ 0x7ff
  · rw [if_neg hone, if_pos htwo, Nat.mod_eq_of_lt (by omega : code / 64 < 0x20)]
    exact .two (by omega) (by omega)
  by_cases hthree : code ≤ 0xffff
  · rw [if_neg hone, if_neg htwo, if_pos hthree,
      Nat.mod_eq_of_lt (by omega : code / 4096 < 0x10)]
    exact .three (by omega) (by omega)
  · rw [if_neg hone, if_neg htwo, if_neg hthree,
      Nat.mod_eq_of_lt (by omega : code / 262144 < 0x08)]
    exact .four (by omega) hbound

section Order

variable {v w : Nat} (hlt : v < w) (s t : List UInt8)
include hlt

/-- A greater first byte decides. -/
theorem first_lt (hw : w < 256) : UInt8.ofNat v :: s < UInt8.ofNat w :: t :=
  (ofNat_cons_lt_iff (Nat.lt_trans hlt hw) hw).mpr (Or.inl hlt)

/-- Characters of two bytes are in the order of their codes. -/
theorem two_lt (hw : w < 0x800) :
    .ofNat (v / 64 + 0xc0) :: .ofNat (v % 64 + 0x80) :: s <
      .ofNat (w / 64 + 0xc0) :: UInt8.ofNat (w % 64 + 0x80) :: t := by
  have hfirst : v / 64 ≤ w / 64 := Nat.div_le_div_right (Nat.le_of_lt hlt)
  simp (disch := omega) only [ofNat_cons_lt_iff]
  omega

/-- Characters of three bytes are in the order of their codes. -/
theorem three_lt (hw : w < 0x10000) :
    .ofNat (v / 4096 + 0xe0) :: .ofNat (v / 64 % 64 + 0x80) :: .ofNat (v % 64 + 0x80) :: s <
      .ofNat (w / 4096 + 0xe0) :: .ofNat (w / 64 % 64 + 0x80) ::
        UInt8.ofNat (w % 64 + 0x80) :: t := by
  have hfirst : v / 4096 ≤ w / 4096 := Nat.div_le_div_right (Nat.le_of_lt hlt)
  have hsecond : v / 64 ≤ w / 64 := Nat.div_le_div_right (Nat.le_of_lt hlt)
  simp (disch := omega) only [ofNat_cons_lt_iff]
  omega

/-- Characters of four bytes are in the order of their codes. -/
theorem four_lt (hw : w < 0x110000) :
    .ofNat (v / 262144 + 0xf0) :: .ofNat (v / 4096 % 64 + 0x80) :: .ofNat (v / 64 % 64 + 0x80) ::
        .ofNat (v % 64 + 0x80) :: s <
      .ofNat (w / 262144 + 0xf0) :: .ofNat (w / 4096 % 64 + 0x80) ::
        .ofNat (w / 64 % 64 + 0x80) :: UInt8.ofNat (w % 64 + 0x80) :: t := by
  have hfirst : v / 262144 ≤ w / 262144 := Nat.div_le_div_right (Nat.le_of_lt hlt)
  have hsecond : v / 4096 ≤ w / 4096 := Nat.div_le_div_right (Nat.le_of_lt hlt)
  have hthird : v / 64 ≤ w / 64 := Nat.div_le_div_right (Nat.le_of_lt hlt)
  simp (disch := omega) only [ofNat_cons_lt_iff]
  omega

/-- A smaller code point has smaller bytes, whatever follows: fewer of them, with a smaller first
one, or equally many. -/
theorem Encodes.append_lt {bytes bytes' : List UInt8} (hv : Encodes v bytes)
    (hw : Encodes w bytes') : bytes ++ s < bytes' ++ t := by
  cases hv with
  | one hvHigh =>
    cases hw with
    | one hwHigh => exact first_lt hlt _ _ (by omega)
    | two hwLow hwHigh => exact first_lt (by omega) _ _ (by omega)
    | three hwLow hwHigh => exact first_lt (by omega) _ _ (by omega)
    | four hwLow hwHigh => exact first_lt (by omega) _ _ (by omega)
  | two hvLow hvHigh =>
    cases hw with
    | one hwHigh => omega
    | two hwLow hwHigh => exact two_lt hlt s t hwHigh
    | three hwLow hwHigh => exact first_lt (by omega) _ _ (by omega)
    | four hwLow hwHigh => exact first_lt (by omega) _ _ (by omega)
  | three hvLow hvHigh =>
    cases hw with
    | one hwHigh => omega
    | two hwLow hwHigh => omega
    | three hwLow hwHigh => exact three_lt hlt s t hwHigh
    | four hwLow hwHigh => exact first_lt (by omega) _ _ (by omega)
  | four hvLow hvHigh =>
    cases hw with
    | one hwHigh => omega
    | two hwLow hwHigh => omega
    | three hwLow hwHigh => omega
    | four hwLow hwHigh => exact four_lt hlt s t hwHigh

end Order

/-- A smaller character has smaller bytes, whatever follows. -/
theorem utf8EncodeChar_append_lt {c d : Char} (h : c < d) (s t : List UInt8) :
    String.utf8EncodeChar c ++ s < String.utf8EncodeChar d ++ t :=
  Encodes.append_lt h s t (encodes_utf8EncodeChar c) (encodes_utf8EncodeChar d)

/-! ### Texts -/

/-- A smaller text has smaller bytes. -/
theorem encode_lt_encode {a b : String} (h : a < b) : encode a < encode b := by
  rw [String.lt_iff] at h
  rw [encode_eq_flatMap, encode_eq_flatMap]
  generalize a.toList = s at h
  generalize b.toList = t at h
  induction s generalizing t with
  | nil =>
    cases t with
    | nil => exact absurd h (by simp)
    | cons d t =>
      have hpos : 0 < ((d :: t).flatMap String.utf8EncodeChar).length := by
        have hsize := d.utf8Size_pos
        simp only [List.flatMap_cons, List.length_append, String.length_utf8EncodeChar]
        omega
      obtain ⟨byte, bytes, hbytes⟩ := List.exists_cons_of_length_pos hpos
      rw [hbytes]
      exact List.nil_lt_cons byte bytes
  | cons c s ih =>
    cases t with
    | nil => exact absurd h (by simp)
    | cons d t =>
      rw [List.flatMap_cons, List.flatMap_cons]
      rcases List.cons_lt_cons_iff.mp h with hlt | ⟨rfl, hlt⟩
      · exact utf8EncodeChar_append_lt hlt _ _
      · exact List.append_left_lt (ih t hlt)

end Reckoner.Text
