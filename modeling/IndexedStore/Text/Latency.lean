/-! # Latencies as text

A latency is kept in nanoseconds and reported in microseconds with two decimal places. The quotient
is taken in binary with 53 significant bits, as reports of measured times commonly are, and what is
printed is that binary value: a decimal tie goes the way its binary neighbour lies.
-/
namespace IndexedStore.Text

/-- The integer nearest to `num / den`; of two, the even one. -/
def roundHalfEven (num den : Nat) : Nat :=
  let q := num / den
  let twice := 2 * (num % den)
  if twice < den then q
  else if den < twice then q + 1
  else if q % 2 = 0 then q else q + 1

/-- `mantissa * 2 ^ up / 2 ^ down`. -/
structure Dyadic where
  mantissa : Nat
  up : Nat
  down : Nat

/-- The value nearest to `num / den` that has 53 significant bits. -/
def nearestDyadic (num den : Nat) : Dyadic :=
  if num = 0 then ⟨0, 0, 0⟩ else
  -- the quotient lies between `2 ^ (a - b - 1)` and `2 ^ (a - b + 1)`
  let a := Nat.log2 num
  let b := Nat.log2 den
  let above := if num <<< b < den <<< a then 1 else 0
  let up := a - (b + 52 + above)
  let down := (b + 52 + above) - a
  ⟨roundHalfEven (num <<< down) (den <<< up), up, down⟩

def microseconds (ns : Nat) : String :=
  let whole := nearestDyadic ns 1
  let quotient := nearestDyadic (whole.mantissa <<< whole.up) (1000 <<< whole.down)
  let hundredths := roundHalfEven ((quotient.mantissa * 100) <<< quotient.up) (1 <<< quotient.down)
  let part := hundredths % 100
  toString (hundredths / 100) ++ "." ++ (if part < 10 then "0" else "") ++ toString part

end IndexedStore.Text
