/-!
# Numbers with a fixed count of decimals

The exact value of a double is `m * 2 ^ e`, so a decimal with a fixed count of places is a rounded
quotient of natural numbers. A half goes to the even neighbour.
-/

namespace TraceCoverage.Text

/-- The natural number nearest to `num / den`; a half goes to the even one. -/
def roundHalfEven (num den : Nat) : Nat :=
  let q := num / den
  let r := num % den
  if 2 * r < den then q
  else if den < 2 * r then q + 1
  else if q % 2 = 0 then q else q + 1

/-- A count of `10 ^ -places` written with its point. -/
def withPoint (places n : Nat) : String :=
  let whole := toString (n / Nat.pow 10 places)
  if places = 0 then whole
  else
    let digits := toString (n % Nat.pow 10 places)
    whole ++ "." ++ String.ofList (List.replicate (places - digits.length) '0') ++ digits

/-- The significand and the exponent of two of the magnitude of a finite double with these
bits. -/
def magnitude (bits : Nat) : Nat × Int :=
  let fraction := bits % Nat.pow 2 52
  let exponent : Nat := bits / Nat.pow 2 52 % Nat.pow 2 11
  if exponent = 0 then (fraction, -1074) else (fraction + Nat.pow 2 52, (exponent : Int) - 1075)

/-- `m * 2 ^ e` as a count of `10 ^ -places`. -/
def scaled (places m : Nat) : Int → Nat
  | .ofNat e => m * Nat.pow 2 e * Nat.pow 10 places
  | .negSucc e => roundHalfEven (m * Nat.pow 10 places) (Nat.pow 2 (e + 1))

/-- A double with `places` decimals. The sign is kept also where all digits are zero. -/
def fixed (places : Nat) (x : Float) : String :=
  if x.isNaN then "NaN"
  else
    let bits := x.toBits.toNat
    let sign := if bits < Nat.pow 2 63 then "" else "-"
    if x.isInf then sign ++ "inf"
    else
      let (m, e) := magnitude bits
      sign ++ withPoint places (scaled places m e)

end TraceCoverage.Text
