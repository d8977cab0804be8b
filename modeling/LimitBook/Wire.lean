import LimitBook.Book
import LimitBook.Json

namespace LimitBook.Wire

def side (s : Side) : Json := .str s.name

/-- Ids travel as decimal text, for they may be wider than a double. -/
def party (p : Party) : Json := .str p.name

def fill (f : Fill Float) : Json :=
  .obj [
    ("passiveOrderId", party f.passive),
    ("aggressiveOrderId", party f.aggressive),
    ("price", .num f.price),
    ("quantity", .num f.quantity),
    ("aggressorSide", side f.aggressor),
    ("virtual", .bool f.virtual)]

def order (o : Order Float) : Json :=
  .obj [
    ("id", party o.party),
    ("side", side o.side),
    ("price", .num o.price),
    ("remainingQty", .num o.remaining),
    ("originalQty", .num o.original),
    ("filledQty", .num o.filled),
    ("symbol", .str o.symbol),
    ("timestamp", .num o.timestamp)]

def row (r : Book.Row Float) : Json :=
  .obj [("price", .num r.price), ("totalQty", .num r.totalQty), ("orderCount", .ofNat r.orders)]

def sequenceId (seq : Option Float) : Json := Json.ofOption .num seq

def depth (d : Book.Depth Float) : Json.Fields :=
  [("asks", Json.ofList row d.asks), ("bids", Json.ofList row d.bids)]

def update (u : LevelUpdate Float) : Json :=
  .obj [("side", side u.side), ("price", .num u.price), ("totalQty", .num u.totalQty)]

end LimitBook.Wire
