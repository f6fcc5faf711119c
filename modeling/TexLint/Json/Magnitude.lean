/-!
# The size of JSON numbers

A number that is kept is kept as a binary floating-point number of 64 bits, and a number
that is too great for that is refused. What decides is not the exact value of the digits:
they are gathered into a whole number of 64 bits first, which is then scaled by a power
of ten, and each of these steps rounds on its own. This module does the same steps in
exact arithmetic.

## The model

* `Scaled` is a number while it is read: its significand and the power of ten that scales
  it. `Scaled.ofLexeme` drops the digits that do not fit into the significand.
* `nearestFloat` rounds a whole number to one with as many significant bits as a
  floating-point number has.
* `isFinite` says whether the scaled significand stays below `floatLimit`.
-/

namespace TexLint

namespace Json

/-- What a decimal digit counts. -/
def digitValue (c : Char) : Nat := c.toNat - '0'.toNat

/-- The number that a sequence of decimal digits stands for. -/
def naturalOf (digits : List Char) : Nat :=
  digits.foldl (fun n c => n * 10 + digitValue c) 0

/-- The number that the exponent of a number stands for. -/
def exponentOf : List Char → Int
  | '-' :: digits => -(naturalOf digits : Int)
  | '+' :: digits => naturalOf digits
  | digits => naturalOf digits

/-- The first number that is too great for a significand. -/
def significandLimit : Nat := Nat.pow 2 64

/-- Appends digits to a significand as long as the result fits. Gives the significand and
the digits that are left over. -/
def gather (significand : Nat) : List Char → Nat × List Char
  | [] => (significand, [])
  | c :: digits =>
    let next := significand * 10 + digitValue c
    if next < significandLimit then gather next digits else (significand, c :: digits)

/-- A significand stays within its limit. -/
theorem gather_lt {significand : Nat} (h : significand < significandLimit)
    (digits : List Char) : (gather significand digits).1 < significandLimit := by
  induction digits generalizing significand with
  | nil => exact h
  | cons c digits ih =>
    rw [gather]
    split
    · exact ih ‹_›
    · exact h

/-- The digits that are left over end the digits. -/
theorem gather_suffix (significand : Nat) (digits : List Char) :
    (gather significand digits).2 <:+ digits := by
  induction digits generalizing significand with
  | nil => exact List.suffix_rfl
  | cons c digits ih =>
    rw [gather]
    split
    · exact (ih _).trans (List.suffix_cons c digits)
    · exact List.suffix_rfl

/-- A significand and the power of ten that scales it. -/
structure Scaled where
  /-- The digits that are kept, as a whole number. -/
  significand : Nat
  /-- The exponent of the power of ten. -/
  exponent : Int
  deriving DecidableEq, Repr

/-- A number as it is read, without its sign. A digit before the point that does not fit
scales the number by ten, as do all that follow it up to the point. A digit behind the
point that does not fit ends the significand. -/
def Scaled.ofLexeme (lexeme : List Char) : Scaled :=
  let unsigned := lexeme.dropWhile (· == '-')
  let rest := unsigned.dropWhile Char.isDigit
  let fraction :=
    match rest with
    | '.' :: rest => rest.takeWhile Char.isDigit
    | _ => []
  let exponent := exponentOf ((rest.dropWhile fun c => c != 'e' && c != 'E').drop 1)
  let (whole, skipped) := gather 0 (unsigned.takeWhile Char.isDigit)
  let (significand, dropped) := gather whole fraction
  ⟨significand, skipped.length - (fraction.length - dropped.length : Nat) + exponent⟩

/-- The nearest whole number with at most 53 significant bits; of two that are as near,
the one whose last such bit is zero. -/
def nearestFloat (n : Nat) : Nat :=
  let unit := Nat.pow 2 (n.log2 - 52)
  let kept := n / unit
  let cut := 2 * (n % unit)
  if cut < unit || (cut == unit && kept % 2 == 0) then kept * unit else (kept + 1) * unit

/-- A number that has no more than 53 bits is its own nearest one. -/
theorem nearestFloat_of_lt {n : Nat} (h : n < Nat.pow 2 53) : nearestFloat n = n := by
  have hlog : n.log2 - 52 = 0 := by
    by_cases hn : n = 0
    · simp [hn]
    · have := (Nat.log2_lt hn).2 h
      omega
  simp [nearestFloat, hlog, Nat.mod_one]

/-- The first power of two that is infinite as a floating-point number. -/
def floatLimit : Nat := Nat.pow 2 1024

/-- The greatest power of ten that is finite as a floating-point number. -/
def greatestExponent : Nat := 308

/-- Whether a scaled number is finite as a floating-point number. A number that is scaled
down is, and so is nought. -/
def Scaled.isFinite (x : Scaled) : Bool :=
  x.significand == 0 || x.exponent < 0 ||
    x.exponent ≤ greatestExponent &&
      nearestFloat (nearestFloat x.significand * nearestFloat (Nat.pow 10 x.exponent.toNat)) <
        floatLimit

/-- Whether a number as it is written is finite as a floating-point number. -/
def isFinite (lexeme : String) : Bool := (Scaled.ofLexeme lexeme.toList).isFinite

end Json

end TexLint
