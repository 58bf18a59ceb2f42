/-!
Blank characters: those with the Unicode property White_Space.
-/

namespace LC3

def blankRanges : List (Nat × Nat) :=
  [(0x09, 0x0D), (0x20, 0x20), (0x85, 0x85), (0xA0, 0xA0), (0x1680, 0x1680), (0x2000, 0x200A),
   (0x2028, 0x2029), (0x202F, 0x202F), (0x205F, 0x205F), (0x3000, 0x3000)]

def isBlank (c : Char) : Bool := blankRanges.any fun (low, high) => low ≤ c.toNat && c.toNat ≤ high

/-- The text without the blanks at either end. -/
def trim (text : List Char) : List Char :=
  ((text.dropWhile isBlank).reverse.dropWhile isBlank).reverse

/-- The pieces of a text between commas, of which there is always one. -/
def splitCommas (text : List Char) : List (List Char) :=
  let (first, later) := text.foldr
    (fun c (first, later) => if c = ',' then ([], first :: later) else (c :: first, later)) ([], [])
  first :: later

end LC3
