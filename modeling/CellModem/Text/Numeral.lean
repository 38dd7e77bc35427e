/-!
# Numerals

How whole numbers are read: one sign at most, then one or more digits and
nothing else. Leading zeros are free, and a numeral is refused if its value is
out of range, never wrapped around.
-/

namespace CellModem.Text

/-- The value of a digit below `radix`; letters count from ten,
in either case. -/
def digit? (radix : Nat) (c : Char) : Option Nat :=
  let value? : Option Nat :=
    if '0' ≤ c ∧ c ≤ '9' then some (c.toNat - '0'.toNat)
    else if 'a' ≤ c ∧ c ≤ 'z' then some (c.toNat - 'a'.toNat + 10)
    else if 'A' ≤ c ∧ c ≤ 'Z' then some (c.toNat - 'A'.toNat + 10)
    else none
  value?.filter (· < radix)

/-- The number that the digits write, the most significant one first. -/
def ofDigits (radix : Nat) (digits : List Nat) : Nat :=
  digits.foldl (fun n d => n * radix + d) 0

/-- Reads one or more digits. -/
def natural? (radix : Nat) (cs : List Char) : Option Nat :=
  if cs.isEmpty then none else (cs.mapM (digit? radix)).map (ofDigits radix)

/-- Reads a number below `2 ^ bits`, with an optional plus sign. -/
def unsigned? (radix bits : Nat) (s : String) : Option Nat :=
  let digits := match s.toList with
    | '+' :: cs => cs
    | cs => cs
  (natural? radix digits).filter (· < 1 <<< bits)

/-- Reads a number of `bits` bits in two's complement, with an optional sign. -/
def signed? (radix bits : Nat) (s : String) : Option Int :=
  let value? : Option Int := match s.toList with
    | '-' :: cs => (natural? radix cs).map (fun n => -(n : Int))
    | '+' :: cs => (natural? radix cs).map (fun n => (n : Int))
    | cs => (natural? radix cs).map (fun n => (n : Int))
  let bound : Nat := 1 <<< (bits - 1)
  value?.filter (fun i => -(bound : Int) ≤ i && i < (bound : Int))

end CellModem.Text
