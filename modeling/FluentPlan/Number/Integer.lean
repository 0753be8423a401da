import FluentPlan.Text.Blank
import FluentPlan.Text.Digit

/-!
Whole numbers as texts. Digits of any script are read by their decimal value; writing uses the
digits `0` to `9`.
-/

namespace FluentPlan.Number

open Text

/-- The value of a run of decimal digits, most significant first, continuing from `acc`. -/
def digitsValue? (acc : Nat) : List Char → Option Nat
  | [] => some acc
  | c :: cs => (decimalValue? c).bind fun d => digitsValue? (10 * acc + d) cs

/-- The natural number that one or more decimal digits spell. -/
def readNatural? (cs : List Char) : Option Nat :=
  if cs.isEmpty then none else digitsValue? 0 cs

/-- The integer that an optional sign and one or more decimal digits spell. -/
def readInteger? : List Char → Option Int
  | '+' :: cs => (readNatural? cs).map Int.ofNat
  | '-' :: cs => (readNatural? cs).map fun n => -Int.ofNat n
  | cs => (readNatural? cs).map Int.ofNat

/-- The integer a text spells, blanks at either end apart. -/
def integerOfText? (s : String) : Option Int := readInteger? (trim isBlank s.toList)

/-- Whether a text is made of digits only, with or without place value. -/
def isDigits (cs : List Char) : Bool := !cs.isEmpty && cs.all isDigit

@[simp] theorem readNatural?_nil : readNatural? [] = none := rfl

@[simp] theorem readInteger?_nil : readInteger? [] = none := rfl

theorem digitsValue?_append (acc : Nat) (cs ds : List Char) :
    digitsValue? acc (cs ++ ds) = (digitsValue? acc cs).bind fun n => digitsValue? n ds := by
  induction cs generalizing acc with
  | nil => rfl
  | cons c cs ih =>
    cases h : decimalValue? c with
    | none => simp [digitsValue?, h]
    | some d => simp [digitsValue?, h, ih]

theorem digitsValue?_toDigits (n : Nat) : digitsValue? 0 (Nat.toDigits 10 n) = some n := by
  induction n using Nat.strongRecOn with
  | _ n ih =>
    by_cases h : n < 10
    · rw [Nat.toDigits_of_lt_base h]
      simp [digitsValue?, decimalValue?_digitChar n h]
    · have hd : n % 10 < 10 := Nat.mod_lt n (by decide)
      have hp : 0 < n / 10 := by omega
      have happ := Nat.toDigits_append_toDigits (b := 10) (n := n / 10) (d := n % 10)
        (by decide) hp hd
      rw [show 10 * (n / 10) + n % 10 = n by omega] at happ
      rw [← happ, digitsValue?_append, ih (n / 10) (by omega), Nat.toDigits_of_lt_base hd]
      simp only [Option.bind_some, digitsValue?, decimalValue?_digitChar _ hd, Option.some.injEq]
      omega

/-- Reading gives back what writing wrote. -/
theorem readNatural?_toString (n : Nat) : readNatural? (toString n).toList = some n := by
  have h : (toString n).toList = Nat.toDigits 10 n := by
    simp [toString, Nat.repr]
  have hne : (Nat.toDigits 10 n).isEmpty = false := by
    simp [Nat.toDigits_ne_nil]
  rw [h, readNatural?, hne]
  exact digitsValue?_toDigits n

end FluentPlan.Number
