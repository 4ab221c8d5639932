namespace LineCalculator

/-- Unicode white space and the four ASCII information separators. -/
def isSeparator (c : Char) : Bool :=
  let n := c.toNat
  decide (9 ≤ n ∧ n ≤ 13) || decide (0x1C ≤ n ∧ n ≤ 0x20) || n == 0x85 || n == 0xA0 ||
    n == 0x1680 || decide (0x2000 ≤ n ∧ n ≤ 0x200A) || n == 0x2028 || n == 0x2029 ||
    n == 0x202F || n == 0x205F || n == 0x3000

def trimSeparators (text : List Char) : List Char :=
  ((text.dropWhile isSeparator).reverse.dropWhile isSeparator).reverse

end LineCalculator
