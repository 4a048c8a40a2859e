import Excerpt.Text.Utf8

/-!
# Excerpt — the bytes of a text are read as the text

Reading bytes never fails, and it puts U+FFFD where they are not UTF-8. The bytes of a text are, so nothing is
replaced: each character is read back from the one to four bytes that are written for it, whatever follows them.

* **`Utf8.decodeLossy_one`** … **`Utf8.decodeLossy_four`** — the forms of the bytes that spell one character.
* **`Utf8.decodeLossy_utf8EncodeChar_append`** — the bytes of a character are read as the character.
* **`Utf8.decodeLossy_encode`** — and the bytes of a text as the text.
-/

namespace Excerpt.Utf8

/-! ## The forms of a character -/

theorem between_iff {low high a : UInt8} :
    (low ≤ a && a ≤ high) = true ↔ low.toNat ≤ a.toNat ∧ a.toNat ≤ high.toNat := by
  rw [Bool.and_eq_true, decide_eq_true_iff, decide_eq_true_iff, UInt8.le_iff_toNat_le, UInt8.le_iff_toNat_le]

theorem isContinuation_iff {b : UInt8} : isContinuation b = true ↔ 0x80 ≤ b.toNat ∧ b.toNat ≤ 0xBF := between_iff

/-- The second of three bytes: after the lowest and the highest first byte some are left out. -/
theorem isSecondOfThree_of_le {a b : UInt8} (hb : 0x80 ≤ b.toNat ∧ b.toNat ≤ 0xBF)
    (hlow : a.toNat = 0xE0 → 0xA0 ≤ b.toNat) (hhigh : a.toNat = 0xED → b.toNat ≤ 0x9F) :
    isSecondOfThree a b = true := by
  unfold isSecondOfThree
  split
  · next ha => exact between_iff.mpr ⟨hlow (congrArg UInt8.toNat ha), hb.2⟩
  · split
    · next ha => exact between_iff.mpr ⟨hb.1, hhigh (congrArg UInt8.toNat ha)⟩
    · exact isContinuation_iff.mpr hb

theorem isSecondOfFour_of_le {a b : UInt8} (hb : 0x80 ≤ b.toNat ∧ b.toNat ≤ 0xBF)
    (hlow : a.toNat = 0xF0 → 0x90 ≤ b.toNat) (hhigh : a.toNat = 0xF4 → b.toNat ≤ 0x8F) :
    isSecondOfFour a b = true := by
  unfold isSecondOfFour
  split
  · next ha => exact between_iff.mpr ⟨hlow (congrArg UInt8.toNat ha), hb.2⟩
  · split
    · next ha => exact between_iff.mpr ⟨hb.1, hhigh (congrArg UInt8.toNat ha)⟩
    · exact isContinuation_iff.mpr hb

section Forms

variable {a b c d : UInt8} (s : List UInt8)

theorem decodeLossy_one (ha : a.toNat < 0x80) : decodeLossy (a :: s) = Char.ofNat a.toNat :: decodeLossy s := by
  have hone : a < 0x80 := UInt8.lt_iff_toNat_lt.mpr ha
  rw [decodeLossy.eq_def]
  dsimp only
  rw [if_pos hone]

theorem decodeLossy_two (ha : 0xC2 ≤ a.toNat ∧ a.toNat ≤ 0xDF) (hb : isContinuation b = true) :
    decodeLossy (a :: b :: s) = Char.ofNat (a.toNat % 0x20 * 0x40 + payload b) :: decodeLossy s := by
  have hone : ¬ a < 0x80 := fun h => absurd (UInt8.lt_iff_toNat_lt.mp h) (by simp; omega)
  have htwo : (0xC2 ≤ a && a ≤ 0xDF) = true := between_iff.mpr ha
  rw [decodeLossy, if_neg hone, if_pos htwo, if_pos hb]

theorem decodeLossy_three (ha : 0xE0 ≤ a.toNat ∧ a.toNat ≤ 0xEF) (hb : isSecondOfThree a b = true)
    (hc : isContinuation c = true) :
    decodeLossy (a :: b :: c :: s) =
      Char.ofNat (a.toNat % 0x10 * 0x1000 + payload b * 0x40 + payload c) :: decodeLossy s := by
  have hone : ¬ a < 0x80 := fun h => absurd (UInt8.lt_iff_toNat_lt.mp h) (by simp; omega)
  have htwo : ¬ (0xC2 ≤ a && a ≤ 0xDF) = true := fun h => absurd (between_iff.mp h) (by simp; omega)
  have hthree : (0xE0 ≤ a && a ≤ 0xEF) = true := between_iff.mpr ha
  rw [decodeLossy, if_neg hone, if_neg htwo, if_pos hthree]
  dsimp only
  rw [if_pos hb, if_pos hc]

theorem decodeLossy_four (ha : 0xF0 ≤ a.toNat ∧ a.toNat ≤ 0xF4) (hb : isSecondOfFour a b = true)
    (hc : isContinuation c = true) (hd : isContinuation d = true) :
    decodeLossy (a :: b :: c :: d :: s) =
      Char.ofNat (a.toNat % 0x08 * 0x40000 + payload b * 0x1000 + payload c * 0x40 + payload d) ::
        decodeLossy s := by
  have hone : ¬ a < 0x80 := fun h => absurd (UInt8.lt_iff_toNat_lt.mp h) (by simp; omega)
  have htwo : ¬ (0xC2 ≤ a && a ≤ 0xDF) = true := fun h => absurd (between_iff.mp h) (by simp; omega)
  have hthree : ¬ (0xE0 ≤ a && a ≤ 0xEF) = true := fun h => absurd (between_iff.mp h) (by simp; omega)
  have hfour : (0xF0 ≤ a && a ≤ 0xF4) = true := between_iff.mpr ha
  rw [decodeLossy, if_neg hone, if_neg htwo, if_neg hthree, if_pos hfour]
  dsimp only
  rw [if_pos hb, if_pos hc, if_pos hd]

end Forms

/-! ## The bytes of a text -/

theorem toNat_ofNat {n : Nat} (h : n < 0x100) : (UInt8.ofNat n).toNat = n := UInt8.toNat_ofNat_of_lt' h

/-- The bytes behind the first one hold six bits each. -/
theorem toNat_trailing (n : Nat) : (UInt8.ofNat (n % 0x40 + 0x80)).toNat = n % 0x40 + 0x80 :=
  toNat_ofNat (by omega)

theorem isContinuation_trailing (n : Nat) : isContinuation (UInt8.ofNat (n % 0x40 + 0x80)) = true := by
  rw [isContinuation_iff, toNat_trailing]
  omega

theorem payload_trailing (n : Nat) : payload (UInt8.ofNat (n % 0x40 + 0x80)) = n % 0x40 := by
  rw [payload, toNat_trailing]
  omega

/-- A character is no surrogate, and below the end of the code space. -/
theorem toNat_bounds (c : Char) : c.toNat < 0xD800 ∨ 0xDFFF < c.toNat ∧ c.toNat < 0x110000 := c.valid

/-- **The bytes of a character are read as the character**, whatever follows them. -/
theorem decodeLossy_utf8EncodeChar_append (c : Char) (s : List UInt8) :
    decodeLossy (String.utf8EncodeChar c ++ s) = c :: decodeLossy s := by
  have hvalid := toNat_bounds c
  unfold String.utf8EncodeChar
  rw [show c.val.toNat = c.toNat from rfl]
  dsimp only
  split
  · have ha : (UInt8.ofNat c.toNat).toNat = c.toNat := toNat_ofNat (by omega)
    rw [List.singleton_append, decodeLossy_one s (by omega), ha, Char.ofNat_toNat]
  split
  · have ha := toNat_ofNat (n := c.toNat / 64 % 0x20 + 0xc0) (by omega)
    have hsum : (c.toNat / 64 % 0x20 + 0xc0) % 0x20 * 0x40 + c.toNat % 0x40 = c.toNat := by omega
    rw [List.cons_append, List.singleton_append, decodeLossy_two s (by omega) (isContinuation_trailing _),
      payload_trailing, ha, hsum, Char.ofNat_toNat]
  split
  · have ha := toNat_ofNat (n := c.toNat / 4096 % 0x10 + 0xe0) (by omega)
    have hb := toNat_trailing (c.toNat / 64)
    have hsum : (c.toNat / 4096 % 0x10 + 0xe0) % 0x10 * 0x1000 + c.toNat / 64 % 0x40 * 0x40 +
        c.toNat % 0x40 = c.toNat := by omega
    have hsecond := isSecondOfThree_of_le (a := UInt8.ofNat (c.toNat / 4096 % 0x10 + 0xe0))
      (b := UInt8.ofNat (c.toNat / 64 % 0x40 + 0x80)) (by omega) (by omega) (by omega)
    rw [List.cons_append, List.cons_append, List.singleton_append,
      decodeLossy_three s (by omega) hsecond (isContinuation_trailing _), payload_trailing, payload_trailing, ha, hsum,
      Char.ofNat_toNat]
  · have ha := toNat_ofNat (n := c.toNat / 262144 % 0x08 + 0xf0) (by omega)
    have hb := toNat_trailing (c.toNat / 4096)
    have hsum : (c.toNat / 262144 % 0x08 + 0xf0) % 0x08 * 0x40000 + c.toNat / 4096 % 0x40 * 0x1000 +
        c.toNat / 64 % 0x40 * 0x40 + c.toNat % 0x40 = c.toNat := by omega
    have hsecond := isSecondOfFour_of_le (a := UInt8.ofNat (c.toNat / 262144 % 0x08 + 0xf0))
      (b := UInt8.ofNat (c.toNat / 4096 % 0x40 + 0x80)) (by omega) (by omega) (by omega)
    rw [List.cons_append, List.cons_append, List.cons_append, List.singleton_append,
      decodeLossy_four s (by omega) hsecond (isContinuation_trailing _) (isContinuation_trailing _), payload_trailing,
      payload_trailing, payload_trailing, ha, hsum, Char.ofNat_toNat]

/-- **The bytes of a text are read as the text.** -/
theorem decodeLossy_encode (s : Text) : decodeLossy (encode s) = s := by
  induction s with
  | nil => rw [encode, List.flatMap_nil, decodeLossy]
  | cons c s ih =>
    have happend := decodeLossy_utf8EncodeChar_append c (encode s)
    rw [ih] at happend
    rwa [encode, List.flatMap_cons]

end Excerpt.Utf8
