/-! Durations in words. -/
namespace Precedence.Console

/-- A number of units with a fraction of so many digits, without zeros at its end. -/
def decimalText (whole fraction digits : Nat) : String :=
  let ds := Nat.toDigits 10 fraction
  let padded := List.replicate (digits-ds.length) '0' ++ ds
  let kept := (padded.reverse.dropWhile (· == '0')).reverse
  Nat.repr whole ++ (if kept.isEmpty then "" else "." ++ String.ofList kept)

/-- A duration in the largest unit that it fills at least once. -/
def elapsedText (nanoseconds : Nat) : String :=
  if 1000000000 ≤ nanoseconds then
    decimalText (nanoseconds/1000000000) (nanoseconds%1000000000) 9 ++ "s"
  else if 1000000 ≤ nanoseconds then
    decimalText (nanoseconds/1000000) (nanoseconds%1000000) 6 ++ "ms"
  else if 1000 ≤ nanoseconds then
    decimalText (nanoseconds/1000) (nanoseconds%1000) 3 ++ "µs"
  else Nat.repr nanoseconds ++ "ns"

end Precedence.Console
