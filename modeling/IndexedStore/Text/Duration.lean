/-! # Durations as text

A duration is written in the largest of seconds, milliseconds, microseconds and nanoseconds that is
not zero, with the exact fraction and no trailing zeros.
-/
namespace IndexedStore.Text

/-- The digits of `n` below a unit of `10 ^ width`, without trailing zeros. -/
def fractionDigits (width n : Nat) : String :=
  let digits := Nat.toDigits 10 n
  let padded := List.replicate (width - digits.length) '0' ++ digits
  String.ofList (padded.reverse.dropWhile (· == '0')).reverse

/-- A whole number of units with a fraction of `width` decimal places. -/
def decimal (width whole part : Nat) : String :=
  if part = 0 then toString whole else toString whole ++ "." ++ fractionDigits width part

def duration (ns : Nat) : String :=
  if 1000000000 ≤ ns then decimal 9 (ns / 1000000000) (ns % 1000000000) ++ "s"
  else if 1000000 ≤ ns then decimal 6 (ns / 1000000) (ns % 1000000) ++ "ms"
  else if 1000 ≤ ns then decimal 3 (ns / 1000) (ns % 1000) ++ "µs"
  else toString ns ++ "ns"

end IndexedStore.Text
