import LimitBook.Text

namespace LimitBook.Text

def blanks : List UInt16 :=
  [0x09, 0x0A, 0x0B, 0x0C, 0x0D, 0x20, 0xA0, 0x1680, 0x2000, 0x2001, 0x2002, 0x2003, 0x2004,
    0x2005, 0x2006, 0x2007, 0x2008, 0x2009, 0x200A, 0x2028, 0x2029, 0x202F, 0x205F, 0x3000, 0xFEFF]

def isBlank (u : UInt16) : Bool := blanks.contains u

def trimWhere (p : UInt16 → Bool) (t : Text) : Text :=
  ((t.dropWhile p).reverse.dropWhile p).reverse

def trim (t : Text) : Text := trimWhere isBlank t

/-- An address as it is read: blanks and controls at its ends do not count, nor do tabs and line
ends anywhere. -/
def tidy (t : Text) : Text :=
  (trimWhere (· ≤ 0x20) t).filter fun u => u != 0x09 && u != 0x0A && u != 0x0D

end LimitBook.Text
