import LimitBook.Book
import LimitBook.Number.Format

namespace LimitBook.Depth

open Text

def columnWidth : Nat := 12

def digitsShown : Nat := 12

def ruleWidth : Nat := columnWidth * 2 + 3

def rule : Text := List.replicate ruleWidth (unit '-')

def amount (x : Float) : Text := Number.plain.format (Number.roundTo digitsShown x)

def bar : Text := " | "

def row (r : Book.Row Float) : Text :=
  padStart columnWidth (unit ' ') (amount r.price) ++ bar ++ amount r.totalQty

def title (symbol : Text) : Option Float → Text
  | none => unit ' ' :: symbol ++ [unit ' ']
  | some seq => unit ' ' :: symbol ++ ofString " #" ++ Number.plain.format seq ++ [unit ' ']

def banner (t : Text) : Text :=
  padEnd ruleWidth (unit '=') (padStart ((ruleWidth + t.length) / 2) (unit '=') t)

def lines (symbol : Text) (d : Book.Depth Float) (seq : Option Float) : List Text :=
  [banner (title symbol seq),
    padStart columnWidth (unit ' ') "Price" ++ bar ++ ofString "Quantity",
    ofString "ASKS"] ++
  d.asks.map row ++ [rule] ++ d.bids.map row ++
  [ofString "BIDS", List.replicate ruleWidth (unit '=')]

/-- A depth as a plain table: the asks on top from worst to best, the bids below from best to worst,
prices aligned at the bar. Numbers are shown to twelve significant digits, which hides the noise of
binary sums. -/
def table (symbol : Text) (d : Book.Depth Float) (seq : Option Float) : Text :=
  (lines symbol d seq).flatMap fun line => line ++ [0x0A]

end LimitBook.Depth
