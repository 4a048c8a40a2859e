import Excerpt.Number.Binary64
import Excerpt.Proofs.Text.Trimming
import Mathlib.Algebra.Group.Nat.Defs

/-!
# Excerpt — whole numbers in binary floating point

A whole number below 2^53 is read without rounding, whether a zero stands behind its point or no point at all. So the
order of what is read is the order of the numbers.

* **`Binary64.magnitudeOfRatio_mul`** — a quotient that comes out even is not rounded.
* **`Binary64.magnitudeOfNat_lt`** — greater numbers have greater patterns.
* **`Binary64.SpellsInt`**, **`Binary64.exists_read?_of_spellsInt`** — the numerals of whole numbers, and how they are
  read.
* **`Binary64.orderKey_lt_iff`** — they are ordered as the numbers are.
-/

namespace Excerpt.Binary64

/-! ## Natural numbers -/

/-- The magnitude of a natural number below 2^53: the number is shifted until its first binary digit has the place that
adds one to the exponent. -/
def magnitudeOfNat (n : Nat) : Nat :=
  if n = 0 then 0 else (n.log2 + 1022) * 2 ^ 52 + n * 2 ^ (52 - n.log2)

theorem divNearestEven_mul {d : Nat} (hd : 0 < d) (q : Nat) : divNearestEven (q * d) d = q := by
  unfold divNearestEven
  simp [Nat.mul_div_cancel q hd, hd]

/-- The first binary digit of a quotient that comes out even. -/
theorem floorLog2_mul {n d : Nat} (hn : 0 < n) (hd : 0 < d) : floorLog2 (n * d) d = n.log2 := by
  have hnself := Nat.log2_self_le hn.ne'
  have hdself := Nat.log2_self_le hd.ne'
  have hnlt := @Nat.lt_log2_self n
  have hdlt := @Nat.lt_log2_self d
  have hprod : n * d ≠ 0 := (Nat.mul_pos hn hd).ne'
  -- the product has one binary digit more than the factors say, or it has not
  have hlow : n.log2 + d.log2 ≤ (n * d).log2 := by
    rw [Nat.le_log2 hprod, Nat.pow_add]
    exact Nat.mul_le_mul hnself hdself
  have hhigh : (n * d).log2 < n.log2 + d.log2 + 2 := by
    rw [Nat.log2_lt hprod, show n.log2 + d.log2 + 2 = (n.log2 + 1) + (d.log2 + 1) by omega, Nat.pow_add]
    exact Nat.mul_lt_mul_of_lt_of_lt hnlt hdlt
  obtain ⟨k, hk, hcases⟩ : ∃ k : Nat, (((n * d).log2 : Int) - (d.log2 : Int)) = k ∧ (k = n.log2 ∨ k = n.log2 + 1) :=
    ⟨(n * d).log2 - d.log2, by omega, by omega⟩
  unfold floorLog2
  rw [hk]
  have hshift : (-(k : Int)).toNat = 0 := by omega
  simp only [Int.toNat_natCast, hshift, Nat.shiftLeft_eq, Nat.pow_zero, Nat.mul_one]
  rcases hcases with rfl | rfl
  · rw [if_pos]
    rw [Nat.mul_comm]
    exact Nat.mul_le_mul_right d hnself
  · rw [if_neg]
    · omega
    · rw [Nat.mul_comm, Nat.not_le]
      exact Nat.mul_lt_mul_of_pos_right hnlt hd

/-- The magnitude of a natural number has one of two binary orders of greatness, by where the first digit is. -/
theorem magnitudeOfNat_bounds {n : Nat} (hn : 0 < n) (hsmall : n < 2 ^ 53) :
    (n.log2 + 1023) * 2 ^ 52 ≤ magnitudeOfNat n ∧ magnitudeOfNat n < (n.log2 + 1024) * 2 ^ 52 := by
  have hlog : n.log2 < 53 := (Nat.log2_lt hn.ne').mpr hsmall
  have hlow : 2 ^ 52 ≤ n * 2 ^ (52 - n.log2) := by
    calc 2 ^ 52 = 2 ^ n.log2 * 2 ^ (52 - n.log2) := by rw [← Nat.pow_add, Nat.add_sub_cancel' (by omega)]
      _ ≤ n * 2 ^ (52 - n.log2) := Nat.mul_le_mul_right _ (Nat.log2_self_le hn.ne')
  have hhigh : n * 2 ^ (52 - n.log2) < 2 ^ 53 := by
    calc n * 2 ^ (52 - n.log2) < 2 ^ (n.log2 + 1) * 2 ^ (52 - n.log2) :=
          Nat.mul_lt_mul_of_pos_right Nat.lt_log2_self (Nat.two_pow_pos _)
      _ = 2 ^ 53 := by rw [← Nat.pow_add, show n.log2 + 1 + (52 - n.log2) = 53 by omega]
  unfold magnitudeOfNat
  rw [if_neg hn.ne']
  omega

theorem magnitudeOfNat_lt_signBit {n : Nat} (hsmall : n < 2 ^ 53) : magnitudeOfNat n < signBit := by
  rcases Nat.eq_zero_or_pos n with rfl | hn
  · decide
  · have hlog : n.log2 < 53 := (Nat.log2_lt hn.ne').mpr hsmall
    have hbounds := magnitudeOfNat_bounds hn hsmall
    rw [signBit, Nat.shiftLeft_eq]
    omega

/-- **A quotient that comes out even is not rounded**, if 53 binary digits are enough for it. -/
theorem magnitudeOfRatio_mul {n d : Nat} (hn : 0 < n) (hsmall : n < 2 ^ 53) (hd : 0 < d) :
    magnitudeOfRatio (n * d) d = magnitudeOfNat n := by
  have hlog : n.log2 < 53 := (Nat.log2_lt hn.ne').mpr hsmall
  have hfinite : magnitudeOfNat n ≤ infinityBits := by
    have hbounds := magnitudeOfNat_bounds hn hsmall
    rw [infinityBits, Nat.shiftLeft_eq]
    omega
  have hunit : max ((n.log2 : Int) - 52) (-1074) = (n.log2 : Int) - 52 := by omega
  have hdown : (-((n.log2 : Int) - 52)).toNat = 52 - n.log2 := by omega
  have hup : ((n.log2 : Int) - 52).toNat = 0 := by omega
  have hplace : ((n.log2 : Int) - 52 + 1074).toNat = n.log2 + 1022 := by omega
  have heven : n * d * 2 ^ (52 - n.log2) = n * 2 ^ (52 - n.log2) * d := Nat.mul_right_comm ..
  unfold magnitudeOfRatio
  simp only [floorLog2_mul hn hd, hunit, hdown, hup, hplace, Nat.shiftLeft_eq, Nat.pow_zero, Nat.mul_one, heven,
    divNearestEven_mul hd]
  rw [magnitudeOfNat, if_neg hn.ne'] at hfinite ⊢
  exact Nat.min_eq_right hfinite

/-- **Greater numbers have greater magnitudes.** -/
theorem magnitudeOfNat_lt {m n : Nat} (h : m < n) (hsmall : n < 2 ^ 53) : magnitudeOfNat m < magnitudeOfNat n := by
  have hn : 0 < n := Nat.zero_lt_of_lt h
  have hnbounds := magnitudeOfNat_bounds hn hsmall
  rcases Nat.eq_zero_or_pos m with rfl | hm
  · have hzero : magnitudeOfNat 0 = 0 := rfl
    omega
  · have hmbounds := magnitudeOfNat_bounds hm (h.trans hsmall)
    rcases Nat.lt_or_ge m.log2 n.log2 with hless | hmore
    · omega
    · -- the first digits have one place
      have hlog : m.log2 = n.log2 :=
        Nat.le_antisymm ((Nat.le_log2 hn.ne').mpr ((Nat.log2_self_le hm.ne').trans h.le)) hmore
      rw [magnitudeOfNat, magnitudeOfNat, if_neg hm.ne', if_neg hn.ne', hlog]
      exact Nat.add_lt_add_left (Nat.mul_lt_mul_of_pos_right h (Nat.two_pow_pos _)) _

/-- A natural number in decimal digits, with a zero behind the point or without one, is not rounded. -/
theorem magnitudeOfDecimal_eq {n zeros : Nat} (hsmall : n < 2 ^ 53) (hzeros : zeros ≤ 1) :
    magnitudeOfDecimal (n * 10 ^ zeros) (-zeros) = magnitudeOfNat n := by
  rcases Nat.eq_zero_or_pos n with rfl | hn
  · rw [Nat.zero_mul]
    rfl
  · have hten : 0 < 10 ^ zeros := Nat.pow_pos (by decide)
    have hlength : (digits (n * 10 ^ zeros)).length ≤ 17 := by
      refine (Nat.length_toDigits_le_iff (by decide) (by decide)).mpr ?_
      have hbound : 10 ^ zeros ≤ 10 ^ 1 := Nat.pow_le_pow_right (by decide) hzeros
      have hprod := Nat.mul_le_mul (Nat.le_of_lt hsmall) hbound
      omega
    have hne : n * 10 ^ zeros ≠ 0 := (Nat.mul_pos hn hten).ne'
    have hlow : ¬ (-(zeros : Int) + (digits (n * 10 ^ zeros)).length < -400) := by omega
    have hhigh : ¬ (400 < -(zeros : Int) + (digits (n * 10 ^ zeros)).length) := by omega
    have hexponent : (-(zeros : Int)).toNat = 0 := by omega
    have hback : (-(-(zeros : Int))).toNat = zeros := by omega
    unfold magnitudeOfDecimal
    simp only [hne, hlow, hhigh, hexponent, hback, decide_false, Bool.or_self, Bool.false_eq_true, if_false,
      Nat.pow_eq, Nat.pow_zero, Nat.mul_one]
    exact magnitudeOfRatio_mul hn hsmall hten

/-! ## Numerals -/

/-- The text is a run of digits, behind which `.0` may stand, and spells the natural number, which is below 2^53. -/
structure SpellsNat (s : Text) (n : Nat) : Prop where
  small : n < 2 ^ 53
  digits : ∃ run, run ≠ [] ∧ (∀ c ∈ run, c.isDigit = true) ∧ ofDigits run = n ∧ (s = run ∨ s = run ++ ".0".toList)

/-- The text spells the whole number, behind a sign or without one. Zero has no minus sign. -/
inductive SpellsInt : Text → Int → Prop
  | unsigned {s : Text} {n : Nat} (h : SpellsNat s n) : SpellsInt s n
  | plus {s : Text} {n : Nat} (h : SpellsNat s n) : SpellsInt ('+' :: s) n
  | minus {s : Text} {n : Nat} (h : SpellsNat s n) (hpos : 0 < n) : SpellsInt ('-' :: s) (-n)

theorem ofDigits_append_zero (run : Text) : ofDigits (run ++ ['0']) = ofDigits run * 10 := by
  unfold ofDigits
  rw [List.foldl_append, List.foldl_cons, List.foldl_nil]
  exact Nat.mul_comm ..

/-- **The numeral of a natural number is read without rounding.** -/
theorem readMagnitude?_of_spellsNat {s : Text} {n : Nat} (h : SpellsNat s n) :
    readMagnitude? s = some (magnitudeOfNat n) := by
  obtain ⟨hsmall, run, hne, hrun, rfl, rfl | rfl⟩ := h
  · obtain ⟨htake, hdrop⟩ := Text.span_append (b := []) hrun (by simp)
    rw [List.append_nil] at htake hdrop
    have hmagnitude := @magnitudeOfDecimal_eq _ 0 hsmall (by decide)
    unfold readMagnitude?
    simpa [htake, hdrop, hne, readExponent?] using hmagnitude
  · have hpoint : ∀ c ∈ ".0".toList.head?, c.isDigit = false := by
      rintro c ⟨⟩
      rfl
    obtain ⟨htake, hdrop⟩ := Text.span_append hrun hpoint
    have hmagnitude := @magnitudeOfDecimal_eq _ 1 hsmall (by decide)
    have hzero : ['0'].takeWhile Char.isDigit = ['0'] ∧ ['0'].dropWhile Char.isDigit = [] := by decide
    unfold readMagnitude?
    rw [htake, hdrop]
    simpa [hne, hzero, readExponent?, ofDigits_append_zero] using hmagnitude

/-- A numeral begins with a digit, which is no sign and no letter. -/
theorem exists_cons_of_spellsNat {s : Text} {n : Nat} (h : SpellsNat s n) :
    ∃ c rest, s = c :: rest ∧ c.isDigit = true ∧ c.toLower = c := by
  obtain ⟨-, run, hne, hrun, -, hs⟩ := h
  obtain ⟨c, rest, rfl⟩ := List.exists_cons_of_ne_nil hne
  have hdigit : c.isDigit = true := hrun c List.mem_cons_self
  have hlower : c.toLower = c := by
    unfold Char.toLower
    rw [dif_neg]
    rintro ⟨hletter, -⟩
    have hbound : c.val ≤ '9'.val := by simpa using (Bool.and_eq_true_iff.mp hdigit).2
    exact absurd (UInt32.le_trans hletter hbound) (by decide)
  rcases hs with rfl | rfl
  · exact ⟨c, rest, rfl, hdigit, hlower⟩
  · exact ⟨c, rest ++ ".0".toList, rfl, hdigit, hlower⟩

/-- The numeral of a natural number is read behind a sign and without one. -/
theorem read?_of_spellsNat {s : Text} {n : Nat} (h : SpellsNat s n) :
    read? s = some (ofMagnitude false (magnitudeOfNat n)) ∧
      read? ('+' :: s) = some (ofMagnitude false (magnitudeOfNat n)) ∧
      read? ('-' :: s) = some (ofMagnitude true (magnitudeOfNat n)) := by
  have hmagnitude := readMagnitude?_of_spellsNat h
  obtain ⟨c, rest, rfl, hdigit, hlower⟩ := exists_cons_of_spellsNat h
  have hne : ∀ d : Char, d.isDigit = false → c ≠ d := by
    rintro d hd rfl
    exact Bool.false_ne_true (hd.symm.trans hdigit)
  have hword : ∀ d word, d.isDigit = false → (c :: rest).map Char.toLower ≠ d :: word := by
    intro d word hd heq
    exact hne d hd (hlower.symm.trans (List.cons.inj heq).1)
  have hinf : (c :: rest).map Char.toLower ≠ "inf".toList := hword 'i' _ rfl
  have hinfinity : (c :: rest).map Char.toLower ≠ "infinity".toList := hword 'i' _ rfl
  have hnan : (c :: rest).map Char.toLower ≠ "nan".toList := hword 'n' _ rfl
  have hplus := hne '+' rfl
  have hminus := hne '-' rfl
  unfold read?
  simp only [List.cons.injEq, hplus, hminus, false_and, false_imp_iff, implies_true, hinf, hinfinity, hnan, hmagnitude,
    decide_false, Bool.or_self, Bool.false_eq_true, if_false, Option.map_some, and_self]

/-! ## The order -/

theorem orderKey_ofMagnitude {negative : Bool} {magnitude : Nat} (h : magnitude < signBit) :
    (ofMagnitude negative magnitude).orderKey = if negative then -1 - (magnitude : Int) else magnitude := by
  unfold orderKey ofMagnitude
  cases negative with
  | true =>
    have hnot : ¬ signBit + magnitude < signBit := by omega
    simp only [if_true, if_neg hnot]
    omega
  | false => simp only [Bool.false_eq_true, if_false, if_pos h]

/-- The place of a whole number in the order of floating point numbers. -/
def orderKeyOfInt (v : Int) : Int := if v < 0 then -1 - (magnitudeOfNat v.natAbs : Int) else magnitudeOfNat v.natAbs

/-- Greater whole numbers come later. -/
theorem orderKeyOfInt_lt {v w : Int} (h : v < w) (hv : v.natAbs < 2 ^ 53) (hw : w.natAbs < 2 ^ 53) :
    orderKeyOfInt v < orderKeyOfInt w := by
  unfold orderKeyOfInt
  by_cases hwneg : w < 0
  · have hless := magnitudeOfNat_lt (show w.natAbs < v.natAbs by omega) hv
    rw [if_pos hwneg, if_pos (Int.lt_trans h hwneg)]
    omega
  rw [if_neg hwneg]
  by_cases hvneg : v < 0
  · rw [if_pos hvneg]
    omega
  · have hless := magnitudeOfNat_lt (show v.natAbs < w.natAbs by omega) hw
    rw [if_neg hvneg]
    omega

/-- **What the numeral of a whole number is read as.** -/
theorem exists_read?_of_spellsInt {s : Text} {v : Int} (h : SpellsInt s v) :
    v.natAbs < 2 ^ 53 ∧ ∃ x, read? s = some x ∧ x.orderKey = orderKeyOfInt v := by
  cases h with
  | @unsigned s n h =>
    refine ⟨h.small, _, (read?_of_spellsNat h).1, ?_⟩
    rw [orderKey_ofMagnitude (magnitudeOfNat_lt_signBit h.small)]
    rfl
  | @plus s n h =>
    refine ⟨h.small, _, (read?_of_spellsNat h).2.1, ?_⟩
    rw [orderKey_ofMagnitude (magnitudeOfNat_lt_signBit h.small)]
    rfl
  | @minus s n h hpos =>
    refine ⟨by simpa using h.small, _, (read?_of_spellsNat h).2.2, ?_⟩
    have hneg : -(n : Int) < 0 := by omega
    rw [orderKey_ofMagnitude (magnitudeOfNat_lt_signBit h.small), orderKeyOfInt, if_pos hneg, Int.natAbs_neg,
      Int.natAbs_natCast, if_pos rfl]

/-- **Numerals are ordered as the whole numbers are.** -/
theorem orderKey_lt_iff {s s' : Text} {v w : Int} {x y : Binary64} (hs : SpellsInt s v) (hs' : SpellsInt s' w)
    (hx : read? s = some x) (hy : read? s' = some y) : x.orderKey < y.orderKey ↔ v < w := by
  obtain ⟨hv, x', hx', hxkey⟩ := exists_read?_of_spellsInt hs
  obtain ⟨hw, y', hy', hykey⟩ := exists_read?_of_spellsInt hs'
  obtain rfl := Option.some.inj (hx.symm.trans hx')
  obtain rfl := Option.some.inj (hy.symm.trans hy')
  rw [hxkey, hykey]
  rcases Int.lt_trichotomy v w with hless | rfl | hmore
  · exact iff_of_true (orderKeyOfInt_lt hless hv hw) hless
  · exact iff_of_false (Int.lt_irrefl _) (Int.lt_irrefl _)
  · exact iff_of_false (Int.not_lt.mpr (Int.le_of_lt (orderKeyOfInt_lt hmore hw hv)))
      (Int.not_lt.mpr (Int.le_of_lt hmore))

/-- A numeral spells one whole number. -/
theorem SpellsInt.unique {s : Text} {v w : Int} (hv : SpellsInt s v) (hw : SpellsInt s w) : v = w := by
  obtain ⟨-, x, hx, -⟩ := exists_read?_of_spellsInt hv
  have hless := (orderKey_lt_iff hv hw hx hx).not.mp (Int.lt_irrefl _)
  have hmore := (orderKey_lt_iff hw hv hx hx).not.mp (Int.lt_irrefl _)
  omega

end Excerpt.Binary64
