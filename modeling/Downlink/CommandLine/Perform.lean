import Downlink.CommandLine.Invocation
import Downlink.CommandLine.Outcome
import Downlink.Connection
import Downlink.Files
import Downlink.Layout.Table

/-!
# Carrying out command lines

The configuration is loaded first, whatever the command. Then each command answers from the files
and the network of its host.

* `Host.run`: the outcome of a command line.
-/

namespace Downlink.CommandLine

structure Host where
  files : Files
  network : Network
  /-- The path of the configuration that the environment names. -/
  configPath : Option String

namespace Host

def config (h : Host) (path : Option String) : Except Failure (Config × Layout) :=
  match path with
  | none => (Config.flight.check.mapError .ofLink).map (Config.flight, ·)
  | some path =>
    (h.files.config path).mapError (.forPurpose ("failed to load configuration '" ++ path ++ "'"))

/-- Receives at the configured address or at another one. -/
def listen (h : Host) (c : Config) (address : Option Address) : Except Failure Outcome := do
  let c := { c with bind := address.getD c.bind }
  let (listener, _) ← (Listener.ofConfig h.network c).mapError
    (.forPurpose ("failed to listen on " ++ c.bind.text))
  return .receiving listener

/-- Receives at the configured address or at another one, to record what comes. -/
def capture (h : Host) (c : Config) (output : String) (address : Option Address) :
    Except Failure Outcome := do
  let address := address.getD c.bind
  (h.network.bind address).mapError (.ofSystem ("failed to bind UDP capture socket at "
    ++ address.text ++ " (is another process using this port?)"))
  let _ ← (h.files.newCapture output).mapError
    (.forPurpose ("failed to create capture file '" ++ output ++ "'"))
  return .receiving ⟨address, c.receiveBuffer.toNat, 0⟩

def unlines (lines : List String) : String :=
  String.join (lines.map (· ++ "\n"))

def recordText (json : Bool) (r : Record) : String :=
  unlines (if json then [r.toJson.text] else r.lines)

def summaryText (json : Bool) (c : Counters) : String :=
  unlines (if json then [c.toJson.text] else "Replay complete" :: c.lines)

/-- Everything that a subscriber to a connection prints, and the counters at the end. -/
def transcript (json : Bool) (connection : Connection) (rate : UpdateRate) :
    List (Nat × String) :=
  (connection.subscribe 0 rate).map fun (time, item) =>
    match item with
    | some publication => (time, recordText json publication.record)
    | none => (time, summaryText json connection.run.counters)

def replay (h : Host) (c : Config) (l : Layout) (json : Bool) (path : String) (pace : Pace) :
    Except Failure Outcome := do
  let replay ← (h.files.replay path).mapError
    (.forPurpose ("failed to open capture '" ++ path ++ "'"))
  let replay := match pace with
    | .times speed => replay.withSpeed speed
    | .unpaced => replay.unpaced
  let connection := Connection.start (c.decoder l) c.loopOptions none (replay.source 0)
  return .finished (transcript json connection c.updateRate)

def frameText (json : Bool) (frame : Bytes) : String :=
  let digits := Hex.encode frame
  if json then (Json.object [("frame", .string digits), ("len", .int frame.length)]).text
  else digits

/-- Makes a frame from assignments, and prints or sends it. -/
def encode (h : Host) (c : Config) (l : Layout) (json : Bool) (assignments : List String)
    (target : Option Address) : Except Failure Outcome := do
  let frame ← (Assignment.frame l c.markers assignments).mapError .ofAssignment
  match target with
  | none => return .printed [unlines [frameText json frame]]
  | some address =>
    (h.network.bind .unspecified).mapError .ofRefusal
    (h.network.send address frame).mapError
      (.ofSystem ("failed to send frame to " ++ address.text))
    return .sent address frame

def schema (l : Layout) (json : Bool) : Outcome :=
  .printed [unlines (if json then [l.tableJson.linesText 0] else l.table)]

def perform (h : Host) (i : Invocation) : Except Failure Outcome := do
  let (c, l) ← h.config i.configPath
  match i.command with
  | .listen address _ _ => h.listen c address
  | .replay path pace => h.replay c l i.json path pace
  | .capture output address _ => h.capture c output address
  | .encode assignments target => h.encode c l i.json assignments target
  | .schema => return schema l i.json

def run (h : Host) (arguments : List String) : Outcome :=
  match Invocation.ofArguments h.configPath arguments with
  | .error stop => .stopped stop
  | .ok invocation => .ofExcept (h.perform invocation)

end Host

end Downlink.CommandLine
