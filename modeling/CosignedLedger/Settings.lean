/-!
# Settings

A rehearsal reads its settings from named texts; a text that is no number leaves the default.
-/

namespace CosignedLedger

structure NodeSettings where
  streamBuffer : Nat
  /-- The largest encoded block or chain that is decoded. -/
  maxBlockSize : Nat
  dataFolder : Option String
deriving DecidableEq

namespace NodeSettings

def default : NodeSettings := ⟨16, 4 * 1024 * 1024, none⟩

instance : Inhabited NodeSettings := ⟨default⟩

def forTesting : NodeSettings := ⟨1, 64 * 1024, none⟩

end NodeSettings

def programVersion : String := "0.1.0"

inductive SettingsError where
  | tooFewNodes (nodes : Nat)
  | zeroStreamBuffer
deriving DecidableEq

def SettingsError.message : SettingsError → String
  | tooFewNodes nodes => s!"SC_NODES must be at least 2, got {nodes}"
  | zeroStreamBuffer => "SC_STREAM_BUFFER must be positive"

structure Settings where
  nodes : Nat
  /-- Blocks made after the first. -/
  blocks : UInt64
  /-- Blocks between rotations of the authority; zero for none. -/
  rotation : UInt64
  seed : Option UInt64
  logFilter : String
  node : NodeSettings
deriving DecidableEq

namespace Settings

def default : Settings := ⟨4, 12, 4, none, "info", .default⟩

instance : Inhabited Settings := ⟨default⟩

/-- An authority needs a leader and another member, and streams must hold something. -/
def validate (s : Settings) : Except SettingsError Unit :=
  if s.nodes < 2 then .error (.tooFewNodes s.nodes)
  else if s.node.streamBuffer = 0 then .error .zeroStreamBuffer
  else .ok ()

def digitsValue (digits : List Char) : Nat :=
  digits.foldl (fun n d => 10 * n + (d.toNat - '0'.toNat)) 0

/-- A number below `2 ^ 64`: decimal digits, at least one, after an optional plus sign. -/
def parseWord (text : String) : Option UInt64 :=
  let digits := match text.toList with
    | '+' :: rest => rest
    | digits => digits
  if digits.isEmpty || !digits.all Char.isDigit then none
  else
    let n := digitsValue digits
    if n < UInt64.size then some (UInt64.ofNat n) else none

def names : List String :=
  ["SC_NODES", "SC_BLOCKS", "SC_ROTATE_EVERY", "SC_SEED", "SC_LOG", "SC_STREAM_BUFFER",
    "SC_DATA_DIR"]

def load (lookup : String → Option String) : Settings :=
  let word (name : String) : Option UInt64 := (lookup name).bind parseWord
  let d := default
  { nodes := ((word "SC_NODES").map (·.toNat)).getD d.nodes
    blocks := (word "SC_BLOCKS").getD d.blocks
    rotation := (word "SC_ROTATE_EVERY").getD d.rotation
    seed := word "SC_SEED"
    logFilter := (lookup "SC_LOG").getD d.logFilter
    node :=
      { streamBuffer := ((word "SC_STREAM_BUFFER").map (·.toNat)).getD d.node.streamBuffer
        maxBlockSize := d.node.maxBlockSize
        dataFolder := lookup "SC_DATA_DIR" } }

end Settings

end CosignedLedger
