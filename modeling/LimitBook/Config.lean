import LimitBook.Config.Address
import LimitBook.Config.Setting

namespace LimitBook

structure Config where
  mode : Text
  logLevel : Text
  host : Text
  port : Nat
  symbol : Text
  feedEnabled : Bool
  feedUrl : Text
  feedChannel : Text
  feedInstId : Option Text
  reconnectDelay : Nat
  pingInterval : Nat
  maxSequenceFaults : Nat
  depthLevels : Nat
  displayInterval : Nat

namespace Config

def instId (c : Config) : Text := c.feedInstId.getD c.symbol

structure Error where
  fields : List (String × List Text)

namespace Error

def message (e : Error) : Text :=
  Text.ofString "Invalid environment variables: " ++
    Text.join ", " (e.fields.map fun f => Text.ofString f.1)

def toJson (e : Error) : Json :=
  .obj (e.fields.map fun f => (Text.ofString f.1, Json.ofList .str f.2))

end Error

section Reading

variable (isAddress : Text → Bool) (env : Environment)

/-- The settings with issues, in the order of all settings. -/
def faults : List (String × List Text) :=
  Setting.all.filterMap fun s =>
    match s.issues isAddress env with
    | [] => none
    | issues => some (s.name, issues.map (·.message))

def ofTexts : Config where
  mode := Setting.mode.text env
  logLevel := Setting.logLevel.text env
  host := Setting.host.text env
  port := Setting.port.nat env
  symbol := Setting.symbol.text env
  feedEnabled := Setting.feedEnabled.isOn env
  feedUrl := Setting.feedUrl.text env
  feedChannel := Setting.feedChannel.text env
  feedInstId := Setting.feedInstId.text? env
  reconnectDelay := Setting.reconnectDelay.nat env
  pingInterval := Setting.pingInterval.nat env
  maxSequenceFaults := Setting.maxSequenceFaults.nat env
  depthLevels := Setting.depthLevels.nat env
  displayInterval := Setting.displayInterval.nat env

/-- The configuration read from named texts, by what is taken for an address. Whatever is wrong is
reported setting by setting, and names that no setting has do not count. -/
def read : Except Error Config :=
  match faults isAddress env with
  | [] => .ok (ofTexts env)
  | fields => .error ⟨fields⟩

end Reading

def ofEnvironment (env : Environment) : Except Error Config := read Address.isAddress env

def toJson (c : Config) : Json :=
  let instId : Json.Fields :=
    match c.feedInstId with
    | some t => [("FEED_INST_ID", .str t)]
    | none => []
  let fields : Json.Fields :=
    [("NODE_ENV", .str c.mode), ("LOG_LEVEL", .str c.logLevel), ("HOST", .str c.host),
      ("PORT", .ofNat c.port), ("BOOK_SYMBOL", .str c.symbol),
      ("FEED_ENABLED", .bool c.feedEnabled), ("FEED_URL", .str c.feedUrl),
      ("FEED_CHANNEL", .str c.feedChannel), ("FEED_RECONNECT_DELAY_MS", .ofNat c.reconnectDelay),
      ("FEED_PING_INTERVAL_MS", .ofNat c.pingInterval),
      ("FEED_MAX_SEQUENCE_FAULTS", .ofNat c.maxSequenceFaults),
      ("DEPTH_LEVELS", .ofNat c.depthLevels),
      ("DEPTH_DISPLAY_INTERVAL_MS", .ofNat c.displayInterval), ("feedInstId", .str c.instId)]
  .obj (fields ++ instId)

end Config

end LimitBook
