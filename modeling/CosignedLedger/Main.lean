import CosignedLedger.Bls.Scheme
import CosignedLedger.Rehearsal.Basic

/-!
# The command line

Plays one rehearsal with settings from the environment. With a data folder, the late node's block
log is read from there before it and written back after it.
-/

namespace CosignedLedger.CommandLine

/-- Material for the key of one member, from one random string for the whole rehearsal. -/
def memberEntropy (fresh : Bytes) (epoch position : Nat) : Bytes :=
  (Sha256.hash (fresh ++ Bytes.ofNatLE 8 epoch ++ Bytes.ofNatLE 8 position)).bytes

def describe (r : RehearsalReport) : String :=
  let replicated := s!"Replicated {r.height + 1} block(s) across {r.authorities} authorities"
  let stored := s!"lagging node stored {r.caughtUp.inserted} new, {r.caughtUp.skipped} known"
  s!"{replicated}; {stored}"

def logFile? (s : Settings) : Option String :=
  match s.node.dataFolder.map Storage.fileIn with
  | some (.file path) => some path
  | _ => none

def loadDisk (file? : Option String) : IO Disk := do
  match file? with
  | none => return .empty
  | some file =>
    try
      let contents ← IO.FS.readBinFile file
      return (Disk.empty.write file contents.toList).2
    catch
      | .noFileOrDirectory .. => return .empty
      | e => throw e

def saveDisk (settings : Settings) (file? : Option String) (d : Disk) : IO Unit := do
  match file?, settings.node.dataFolder with
  | some file, some folder =>
    if let some (_, contents) := d.file? file then
      if folder ≠ "" then IO.FS.createDirAll folder
      IO.FS.writeBinFile file ⟨contents.toArray⟩
  | _, _ => return

def environment : IO (List (String × String)) := do
  let found ← Settings.names.mapM fun name => do return (← IO.getEnv name).map (name, ·)
  return found.filterMap id

def rehearse : IO UInt32 := do
  let given ← environment
  let settings := Settings.load fun name => given.lookup name
  let fresh ← IO.getRandomBytes 32
  let disk ← loadDisk (logFile? settings)
  let (result, disk) := Rehearsal.run Bls.scheme (memberEntropy fresh.toList) settings disk
  saveDisk settings (logFile? settings) disk
  match result with
  | .ok report =>
    IO.println (describe report)
    return 0
  | .error (.error e) =>
    IO.eprintln s!"Error: {e.message}"
    return 1
  | .error (.panic fault) =>
    IO.eprintln fault.message
    return 101

end CosignedLedger.CommandLine

def main : IO UInt32 := CosignedLedger.CommandLine.rehearse
