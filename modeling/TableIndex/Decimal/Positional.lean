/-!
# Positional decimal text

A number that is a whole multiple of a power of ten is written in full: a whole number without a
point, any other with as many places as it needs and no final zeros.
-/

namespace TableIndex.Decimal

def dropZeros : List Char → List Char
  | '0' :: cs => dropZeros cs
  | cs => cs

/-- The digits after the point of `part / 10 ^ places`, without final zeros. -/
def fractionDigits (part places : Nat) : List Char :=
  let digits := Nat.toDigits 10 part
  (dropZeros (List.replicate (places - digits.length) '0' ++ digits).reverse).reverse

/-- The number `n / 10 ^ places`. -/
def positional (n places : Nat) : String :=
  let whole := n / Nat.pow 10 places
  let part := n % Nat.pow 10 places
  if part = 0 then toString whole
  else toString whole ++ "." ++ String.ofList (fractionDigits part places)

end TableIndex.Decimal
