import LimitBook.Json.Printer

namespace LimitBook.Feed

inductive Request where
  | subscribe
  | unsubscribe
deriving DecidableEq, Repr

namespace Request

def name : Request → String
  | subscribe => "subscribe"
  | unsubscribe => "unsubscribe"

def toJson (r : Request) (channel instId : Text) : Json :=
  .obj [
    ("op", .str r.name),
    ("args", .arr [.obj [("channel", .str channel), ("instId", .str instId)]])]

def text (r : Request) (channel instId : Text) : Text := (r.toJson channel instId).print

end Request

end LimitBook.Feed
