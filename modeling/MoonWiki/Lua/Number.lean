import MoonWiki.Lua.Bytes

/-! Numerals: what `strtod` reads of a string. Values are exact; rounding to a double is
not modelled. -/
namespace Lua

def digitValue (b : Byte) : Nat := b.toNat - 48

/-- The value of a run of decimal digits. -/
def digitsValue (s : Bytes) : Nat := s.foldl (fun n b => 10 * n + digitValue b) 0

def hexValue (b : Byte) : Nat :=
  if isDigit b then b.toNat - 48
  else if isUpper b then b.toNat - 55
  else b.toNat - 87

/-- `string.char(tonumber(s, 16))` -/
def hexChar (s : Bytes) : Byte := UInt8.ofNat (s.foldl (fun n b => 16 * n + hexValue b) 0)

/-- A sign, and what follows it. -/
def takeSign : Bytes → Bool × Bytes
  | [] => (false, [])
  | b :: s =>
    if b = ch '-' then (true, s) else if b = ch '+' then (false, s) else (false, b :: s)

/-- The digits after a decimal point, if there is one. -/
def takeFraction : Bytes → Bytes × Bytes
  | [] => ([], [])
  | b :: s =>
    if b = ch '.' then (s.takeWhile isDigit, s.dropWhile isDigit) else ([], b :: s)

/-- An exponent part counts only when it has a digit. -/
def takeExponent : Bytes → Int × Bytes
  | [] => (0, [])
  | b :: s =>
    if b = ch 'e' ∨ b = ch 'E' then
      let (negative, s') := takeSign s
      match s'.takeWhile isDigit with
      | [] => (0, b :: s)
      | ds => (if negative then -(digitsValue ds : Int) else digitsValue ds, s'.dropWhile isDigit)
    else (0, b :: s)

def pow10 (e : Int) : Rat :=
  if 0 ≤ e then ((10 ^ e.toNat : Nat) : Rat) else 1 / ((10 ^ (-e).toNat : Nat) : Rat)

/-- The number a string stands for in arithmetic: a decimal numeral between blanks.
The conversion is a C function, so it stops at the first zero byte. -/
def toNumber (s : Bytes) : Option Rat :=
  let (negative, s₁) := takeSign ((cString s).dropWhile isSpace)
  let whole := s₁.takeWhile isDigit
  -- a lone point is no numeral
  let (fraction, s₂) := takeFraction (s₁.dropWhile isDigit)
  if whole = [] ∧ fraction = [] then none
  else
    let (e, s₃) := takeExponent s₂
    if s₃.dropWhile isSpace ≠ [] then none
    else
      let value := (digitsValue (whole ++ fraction) : Rat) * pow10 (e - fraction.length)
      some (if negative then -value else value)

/-- A non-empty string of decimal digits that reads as `n`. -/
def IsDecimal (s : Bytes) (n : Nat) : Prop :=
  s ≠ [] ∧ (∀ b ∈ s, isDigit b) ∧ digitsValue s = n

theorem digit_range {b : Byte} (h : isDigit b = true) : 48 ≤ b.toNat ∧ b.toNat ≤ 57 := by
  simpa [isDigit, UInt8.le_iff_toNat_le] using h

theorem isSpace_of_isDigit {b : Byte} (h : isDigit b = true) : isSpace b = false := by
  obtain ⟨hlo, hhi⟩ := digit_range h
  simp only [isSpace, Bool.or_eq_false_iff, beq_eq_false_iff_ne, ne_eq, Bool.and_eq_false_imp,
    decide_eq_true_eq, decide_eq_false_iff_not, UInt8.le_iff_toNat_le, UInt8.reduceToNat,
    UInt8.ext_iff]
  omega

theorem takeSign_of_isDigit {b : Byte} {s : Bytes} (h : isDigit b = true) :
    takeSign (b :: s) = (false, b :: s) := by
  have hr := digit_range h
  have hm : b ≠ ch '-' := by rintro rfl; revert hr; decide
  have hp : b ≠ ch '+' := by rintro rfl; revert hr; decide
  simp [takeSign, hm, hp]

/-- A decimal numeral is read as its value. -/
theorem toNumber_of_isDecimal {s : Bytes} {n : Nat} (h : IsDecimal s n) :
    toNumber s = some (n : Rat) := by
  obtain ⟨hne, hd, rfl⟩ := h
  have hc : cString s = s := cString_eq_self fun b hb h0 => by
    have := digit_range (hd b hb)
    simp [h0] at this
  have htake : s.takeWhile isDigit = s := List.takeWhile_eq_self_iff.mpr hd
  have hdrop : s.dropWhile isDigit = [] := List.dropWhile_eq_nil_iff.mpr hd
  obtain ⟨b, t, rfl⟩ := List.exists_cons_of_ne_nil hne
  have hb : isDigit b = true := hd b (by simp)
  have hspace : (b :: t).dropWhile isSpace = b :: t := by
    simp [isSpace_of_isDigit hb]
  simp [toNumber, hc, hspace, takeSign_of_isDigit hb, htake, hdrop, takeFraction, takeExponent,
    pow10]

theorem isDigit_ch {c : Char} (h : c.isDigit = true) : isDigit (ch c) = true := by
  have hlo : '0'.val.toNat = 48 := rfl
  have hhi : '9'.val.toNat = 57 := rfl
  simp only [Char.isDigit, ge_iff_le, Bool.and_eq_true, decide_eq_true_eq,
    UInt32.le_iff_toNat_le] at h
  simp only [isDigit, ch, Char.toNat, Bool.and_eq_true, decide_eq_true_eq, UInt8.le_iff_toNat_le,
    UInt8.toNat_ofNat', UInt8.reduceToNat]
  omega

theorem isDigit_decimal (n : Nat) : ∀ b ∈ decimal n, isDigit b = true := by
  intro b hb
  obtain ⟨c, hc, rfl⟩ := List.mem_map.mp hb
  exact isDigit_ch (Nat.isDigit_of_mem_toDigits (by decide) (by decide) hc)

end Lua
