import LimitBook.Input.Numeric

namespace LimitBook

/-- What the text of a setting has to be. -/
inductive Rule where
  | any
  | nonempty
  | oneOf (options : List String)
  | address
  | whole (range : Input.Range)

namespace Rule

variable (isAddress : Text → Bool)

def issues : Rule → Text → List Input.Issue
  | any, _ => []
  | nonempty, t => if t.isEmpty then [.noText] else []
  | oneOf options, t => if options.any (Text.ofString · = t) then [] else [.notListed options t]
  | address, t => if isAddress t then [] else [.badAddress]
  | whole range, t =>
    match range.check (Number.ofText t) with
    | .ok _ => []
    | .error issues => issues

end Rule

structure Setting where
  name : String
  rule : Rule
  default : Option String

namespace Setting

def atLeast (n : Int) : Rule := .whole ⟨n, none⟩

def within (low high : Int) : Rule := .whole ⟨low, some high⟩

def modes : List String := ["development", "production", "test"]

def logLevels : List String := ["fatal", "error", "warn", "info", "debug", "trace", "silent"]

def flags : List String := ["true", "false", "1", "0"]

def channels : List String := ["books", "books-l2-tbt", "books50-l2-tbt"]

def mode : Setting := ⟨"NODE_ENV", .oneOf modes, some "development"⟩
def logLevel : Setting := ⟨"LOG_LEVEL", .oneOf logLevels, some "info"⟩
def host : Setting := ⟨"HOST", .any, some "0.0.0.0"⟩
def port : Setting := ⟨"PORT", within 0 65535, some "4000"⟩
def symbol : Setting := ⟨"BOOK_SYMBOL", .nonempty, some "BTC-USDT"⟩
def feedEnabled : Setting := ⟨"FEED_ENABLED", .oneOf flags, some "true"⟩
def feedUrl : Setting := ⟨"FEED_URL", .address, some "wss://ws.okx.com:8443/ws/v5/public"⟩
def feedChannel : Setting := ⟨"FEED_CHANNEL", .oneOf channels, some "books"⟩
def feedInstId : Setting := ⟨"FEED_INST_ID", .nonempty, none⟩
def reconnectDelay : Setting := ⟨"FEED_RECONNECT_DELAY_MS", atLeast 0, some "3000"⟩
def pingInterval : Setting := ⟨"FEED_PING_INTERVAL_MS", atLeast 0, some "25000"⟩
def maxSequenceFaults : Setting := ⟨"FEED_MAX_SEQUENCE_FAULTS", atLeast 1, some "3"⟩
def depthLevels : Setting := ⟨"DEPTH_LEVELS", within 1 100, some "5"⟩
def displayInterval : Setting := ⟨"DEPTH_DISPLAY_INTERVAL_MS", atLeast 0, some "0"⟩

def all : List Setting :=
  [mode, logLevel, host, port, symbol, feedEnabled, feedUrl, feedChannel, feedInstId,
    reconnectDelay, pingInterval, maxSequenceFaults, depthLevels, displayInterval]

end Setting

abbrev Environment := List (Text × Text)

namespace Setting

def given? (s : Setting) (env : Environment) : Option Text := env.lookup (Text.ofString s.name)

def text? (s : Setting) (env : Environment) : Option Text :=
  (s.given? env).orElse fun _ => s.default.map Text.ofString

def issues (isAddress : Text → Bool) (s : Setting) (env : Environment) : List Input.Issue :=
  match s.text? env with
  | some t => s.rule.issues isAddress t
  | none => []

def text (s : Setting) (env : Environment) : Text := (s.text? env).getD []

def nat (s : Setting) (env : Environment) : Nat :=
  (Number.truncate (Number.ofText (s.text env))).toNat

def isOn (s : Setting) (env : Environment) : Bool :=
  s.text env = Text.ofString "true" || s.text env = Text.ofString "1"

end Setting

end LimitBook
