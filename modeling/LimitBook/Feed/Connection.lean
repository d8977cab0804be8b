import LimitBook.ReadyState
import LimitBook.Text.Utf8

namespace LimitBook.Feed

/-- What arrives on a socket: the bytes of a message in one or more pieces, or a change of its
state. -/
inductive Arrival where
  | opened
  | message (pieces : List (List UInt8))
  | closed (code : Float) (reason : List UInt8)
  | failed (message : Text)

inductive Signal where
  | opened
  | message (text : Text)
  | closed (code : Float) (reason : Text)
  | failed (message : Text)

/-- The socket under a feed connection: it hands on what arrives as text, and sends only while it is
open. -/
structure Connection where
  url : Text
  state : ReadyState
  closes : Nat

namespace Connection

def create (url : Text) : Connection := ⟨url, .connecting, 0⟩

def receive (c : Connection) : Arrival → Connection × Signal
  | .opened => ({ c with state := .opened }, .opened)
  | .message pieces => (c, .message (Text.Utf8.decode pieces.flatten))
  | .closed code reason => ({ c with state := .closed }, .closed code (Text.Utf8.decode reason))
  | .failed message => (c, .failed message)

def send? (c : Connection) (text : Text) : Option Text :=
  if c.state = .opened then some text else none

def close (c : Connection) : Connection := { c with closes := c.closes + 1 }

end Connection

end LimitBook.Feed
