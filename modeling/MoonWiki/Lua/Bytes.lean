import Mathlib

/-! Byte strings and the character tests of the C locale. -/
namespace Lua

abbrev Byte := UInt8

/-- A Lua string: any bytes, zeros included. -/
abbrev Bytes := List UInt8

/-- The byte of an ASCII character. -/
def ch (c : Char) : Byte := UInt8.ofNat c.toNat

/-- The bytes of a literal. -/
def str (s : String) : Bytes := s.toByteArray.data.toList

def isUpper (b : Byte) : Bool := 65 ≤ b && b ≤ 90
def isLower (b : Byte) : Bool := 97 ≤ b && b ≤ 122
def isDigit (b : Byte) : Bool := 48 ≤ b && b ≤ 57
def isAlpha (b : Byte) : Bool := isUpper b || isLower b
def isAlnum (b : Byte) : Bool := isAlpha b || isDigit b
def isSpace (b : Byte) : Bool := b == 32 || (9 ≤ b && b ≤ 13)
def isCntrl (b : Byte) : Bool := b < 32 || b == 127
def isPunct (b : Byte) : Bool := 33 ≤ b && b ≤ 126 && !isAlnum b
def isXDigit (b : Byte) : Bool := isDigit b || (65 ≤ b && b ≤ 70) || (97 ≤ b && b ≤ 102)

def toLower (b : Byte) : Byte := if isUpper b then b + 32 else b
def toUpper (b : Byte) : Byte := if isLower b then b - 32 else b

/-- `string.lower` -/
def lower (s : Bytes) : Bytes := s.map toLower

/-- `string.upper` -/
def upper (s : Bytes) : Bytes := s.map toUpper

/-- What a C function sees of a string passed as `const char*`. -/
def cString (s : Bytes) : Bytes := s.takeWhile (· ≠ 0)

/-- `string.rep` -/
def rep (s : Bytes) (n : Nat) : Bytes := (List.replicate n s).flatten

/-- `string.sub(s, -1)` -/
def lastByte (s : Bytes) : Bytes := s.drop (s.length - 1)

/-- The decimal text of a natural number, as `..` writes it. -/
def decimal (n : Nat) : Bytes := (Nat.toDigits 10 n).map ch

/-- Case analysis over all bytes, for properties that `decide` can evaluate. -/
theorem forall_byte {P : Byte → Prop} (h : ∀ n : Fin 256, P (UInt8.ofNat n.val)) (b : Byte) :
    P b := by
  have hb := h ⟨b.toNat, b.toNat_lt⟩
  simpa using hb

instance lawfulBEqBytes : LawfulBEq Bytes := inferInstance

/-- Bytes are looked for in the string, not among all bytes. -/
instance (priority := high) decidableForallMem (s : Bytes) (P : Byte → Prop) [DecidablePred P] :
    Decidable (∀ b ∈ s, P b) := List.decidableBAll P s

/-- Bytes that a test tells apart. -/
theorem ne_of_test {p : Byte → Bool} {b c : Byte} (hb : p b = true) (hc : p c = false) :
    b ≠ c := by
  rintro rfl
  rw [hb] at hc
  cases hc

theorem isAlnum_of_isUpper {b : Byte} (h : isUpper b = true) : isAlnum b = true := by
  simp [isAlnum, isAlpha, h]

theorem isAlnum_of_isLower {b : Byte} (h : isLower b = true) : isAlnum b = true := by
  simp [isAlnum, isAlpha, h]

theorem isUpper_not_isLower {b : Byte} (h : isUpper b) : isLower b = false := by
  simp only [isUpper, isLower, Bool.and_eq_true, Bool.and_eq_false_imp, decide_eq_true_eq,
    decide_eq_false_iff_not, UInt8.le_iff_toNat_le, UInt8.reduceToNat] at h ⊢
  omega

theorem isLower_not_isUpper {b : Byte} (h : isLower b) : isUpper b = false := by
  simp only [isUpper, isLower, Bool.and_eq_true, Bool.and_eq_false_imp, decide_eq_true_eq,
    decide_eq_false_iff_not, UInt8.le_iff_toNat_le, UInt8.reduceToNat] at h ⊢
  omega

theorem cString_append {s : Bytes} (h : ∀ b ∈ s, b ≠ 0) (t : Bytes) :
    cString (s ++ t) = s ++ cString t :=
  List.takeWhile_append_of_pos fun b hb => by simpa using h b hb

theorem cString_eq_self {s : Bytes} (h : ∀ b ∈ s, b ≠ 0) : cString s = s := by
  have happ := cString_append h []
  rwa [List.append_nil, show cString [] = [] from rfl, List.append_nil] at happ

/-- What a C function sees ends at the first zero byte. -/
theorem cString_zero {s : Bytes} (h : (0 : Byte) ∈ s) : ∃ r, s = cString s ++ 0 :: r := by
  induction s with
  | nil => cases h
  | cons b s ih =>
    by_cases hb : b = 0
    · exact ⟨s, by simp [cString, hb]⟩
    · rcases List.mem_cons.mp h with h0 | h0
      · exact absurd h0.symm hb
      · obtain ⟨r, hr⟩ := ih h0
        refine ⟨r, ?_⟩
        rw [cString, List.takeWhile_cons_of_pos (by simpa using hb)]
        exact congrArg (b :: ·) hr

theorem toLower_of_not_upper {b : Byte} (h : isUpper b = false) : toLower b = b := by
  simp [toLower, h]

theorem lower_eq_self {s : Bytes} (h : ∀ b ∈ s, isUpper b = false) : lower s = s := by
  induction s with
  | nil => rfl
  | cons b s ih =>
    rw [lower, List.map_cons, toLower_of_not_upper (h b (by simp))]
    exact congrArg (b :: ·) (ih fun c hc => h c (by simp [hc]))

end Lua
