import Mathlib

/-!
# Text in UTF-16 and UTF-8

A text is a list of characters. What is not text is decoded with replacement
characters.
-/
namespace PxpRpc.Lib

abbrev Utf16 := List UInt16

/-- The units of a character. -/
def utf16Units (c : Char) : Utf16 :=
  if c.toNat < 0x10000 then [UInt16.ofNat c.toNat]
  else [UInt16.ofNat (0xd800 + (c.toNat - 0x10000) / 0x400), UInt16.ofNat (0xdc00 + (c.toNat - 0x10000) % 0x400)]

def toUtf16 (text : List Char) : Utf16 := text.flatMap utf16Units

def IsHigh (u : UInt16) : Prop := 0xd800 ≤ u.toNat ∧ u.toNat < 0xdc00

def IsLow (u : UInt16) : Prop := 0xdc00 ≤ u.toNat ∧ u.toNat < 0xe000

instance (u : UInt16) : Decidable (IsHigh u) := inferInstanceAs (Decidable (_ ∧ _))

instance (u : UInt16) : Decidable (IsLow u) := inferInstanceAs (Decidable (_ ∧ _))

/-- A unit by itself; a surrogate becomes a question mark. -/
def unitChar (u : UInt16) : Char := if IsHigh u ∨ IsLow u then '?' else Char.ofNat u.toNat

def fromUtf16 : Utf16 → List Char
  | [] => []
  | [u] => [unitChar u]
  | u :: v :: us =>
    if IsHigh u ∧ IsLow v then
      Char.ofNat (0x10000 + (u.toNat - 0xd800) * 0x400 + (v.toNat - 0xdc00)) :: fromUtf16 us
    else unitChar u :: fromUtf16 (v :: us)

/-- The same with any other character in place of a surrogate. -/
def fromUtf16With (replacement : Char) : Utf16 → List Char
  | [] => []
  | [u] => [if IsHigh u ∨ IsLow u then replacement else Char.ofNat u.toNat]
  | u :: v :: us =>
    if IsHigh u ∧ IsLow v then
      Char.ofNat (0x10000 + (u.toNat - 0xd800) * 0x400 + (v.toNat - 0xdc00)) :: fromUtf16With replacement us
    else (if IsHigh u ∨ IsLow u then replacement else Char.ofNat u.toNat) :: fromUtf16With replacement (v :: us)

def toUtf8 (text : List Char) : List UInt8 := text.flatMap String.utf8EncodeChar

/-- Every byte that no character starts with gives a replacement character. -/
def fromUtf8Within : Nat → List UInt8 → List Char
  | 0, _ | _, [] => []
  | fuel + 1, b :: bs =>
    match (b :: bs).toByteArray.utf8DecodeChar? 0 with
    | some c => c :: fromUtf8Within fuel ((b :: bs).drop c.utf8Size)
    | none => Char.ofNat 0xfffd :: fromUtf8Within fuel bs

def fromUtf8 (bs : List UInt8) : List Char := fromUtf8Within bs.length bs

theorem fromUtf16With_cons {replacement : Char} {u : UInt16} (h : ¬ IsHigh u) (us : Utf16) :
    fromUtf16With replacement (u :: us) =
      (if IsHigh u ∨ IsLow u then replacement else Char.ofNat u.toNat) :: fromUtf16With replacement us := by
  cases us with
  | nil => rfl
  | cons v us => rw [fromUtf16With, if_neg fun hp => h hp.1]

theorem char_ranges (c : Char) : c.toNat < 0xd800 ∨ 0xdfff < c.toNat ∧ c.toNat < 0x110000 := c.valid

/-- A text is read back from its UTF-16 form: it has no surrogate to replace. -/
theorem fromUtf16With_toUtf16 (replacement : Char) (text : List Char) :
    fromUtf16With replacement (toUtf16 text) = text := by
  induction text with
  | nil => rfl
  | cons c text ih =>
    have hc := char_ranges c
    rw [toUtf16, List.flatMap_cons, ← toUtf16, utf16Units]
    split
    · rename_i hlt
      have hn : (UInt16.ofNat c.toNat).toNat = c.toNat := by simp; omega
      have hhigh : ¬ IsHigh (UInt16.ofNat c.toNat) := by rw [IsHigh, hn]; omega
      have hlow : ¬ IsLow (UInt16.ofNat c.toNat) := by rw [IsLow, hn]; omega
      rw [List.singleton_append, fromUtf16With_cons hhigh, ih, if_neg (not_or.mpr ⟨hhigh, hlow⟩), hn,
        Char.ofNat_toNat]
    · rename_i hge
      have hu : (UInt16.ofNat (0xd800 + (c.toNat - 0x10000) / 0x400)).toNat = 0xd800 + (c.toNat - 0x10000) / 0x400 := by
        simp; omega
      have hv : (UInt16.ofNat (0xdc00 + (c.toNat - 0x10000) % 0x400)).toNat = 0xdc00 + (c.toNat - 0x10000) % 0x400 := by
        simp; omega
      have hpair : IsHigh (UInt16.ofNat (0xd800 + (c.toNat - 0x10000) / 0x400)) ∧
          IsLow (UInt16.ofNat (0xdc00 + (c.toNat - 0x10000) % 0x400)) := by
        rw [IsHigh, IsLow, hu, hv]; omega
      have hcode : 0x10000 + (0xd800 + (c.toNat - 0x10000) / 0x400 - 0xd800) * 0x400 +
          (0xdc00 + (c.toNat - 0x10000) % 0x400 - 0xdc00) = c.toNat := by omega
      rw [List.cons_append, List.singleton_append, fromUtf16With, if_pos hpair, ih, hu, hv, hcode, Char.ofNat_toNat]

theorem fromUtf16_eq (s : Utf16) : fromUtf16 s = fromUtf16With '?' s := by
  induction s using fromUtf16.induct with
  | case1 => rfl
  | case2 u => rfl
  | case3 u v us hp ih => rw [fromUtf16, fromUtf16With, if_pos hp, if_pos hp, ih]
  | case4 u v us hp ih => rw [fromUtf16, fromUtf16With, if_neg hp, if_neg hp, ih, unitChar]

theorem fromUtf16_toUtf16 (text : List Char) : fromUtf16 (toUtf16 text) = text := by
  rw [fromUtf16_eq, fromUtf16With_toUtf16]

theorem fromUtf8Within_toUtf8 (text : List Char) :
    ∀ {fuel : Nat}, (toUtf8 text).length ≤ fuel → fromUtf8Within fuel (toUtf8 text) = text := by
  induction text with
  | nil => intro fuel _; cases fuel <;> rfl
  | cons c text ih =>
    intro fuel hf
    have hlen := String.length_utf8EncodeChar c
    have hpos := c.utf8Size_pos
    rw [toUtf8, List.flatMap_cons, ← toUtf8] at hf ⊢
    rw [List.length_append] at hf
    obtain ⟨fuel, rfl⟩ : ∃ n, fuel = n + 1 := ⟨fuel - 1, by omega⟩
    obtain ⟨b, bs, hb⟩ : ∃ b bs, String.utf8EncodeChar c = b :: bs := List.exists_cons_of_length_pos (by omega)
    have hdec : (String.utf8EncodeChar c ++ toUtf8 text).toByteArray.utf8DecodeChar? 0 = some c := by
      rw [List.toByteArray_append, ByteArray.utf8DecodeChar?_utf8EncodeChar_append]
    have hdrop : (String.utf8EncodeChar c ++ toUtf8 text).drop c.utf8Size = toUtf8 text := List.drop_left' hlen
    rw [hb, List.cons_append] at hdec hdrop ⊢
    rw [fromUtf8Within, hdec]
    simp only [hdrop]
    rw [ih (by omega)]

/-- A text is read back from its UTF-8 form. -/
theorem fromUtf8_toUtf8 (text : List Char) : fromUtf8 (toUtf8 text) = text :=
  fromUtf8Within_toUtf8 text le_rfl

end PxpRpc.Lib
