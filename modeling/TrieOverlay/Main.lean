import TrieOverlay.CommandLine
import TrieOverlay.Console

/-!
# The program

Runs the peers that the command line asks for, answers the lines of the standard input on the
standard output, and ends with the input.
-/

namespace TrieOverlay

/-- Writes why the program cannot start; its exit code. -/
def giveUp (message : String) : IO UInt32 := do
  IO.eprintln message
  return 2

/-- The settings of a peer. -/
def settingsOf (o : PeerOptions) : IO (Except Config.LoadError Config) := do
  match o.config with
  | none => return .ok (o.override .standard)
  | some file =>
    let path := Path.ofString file
    try
      let bytes ← IO.FS.readBinFile file
      return (Config.ofBytes path bytes.toList).map o.override
    catch _ =>
      return .error (.unreadable path)

/-- Answers lines until there are no more. -/
partial def converse (input output : IO.FS.Stream) (net : Network) : IO Unit := do
  let line ← input.getLine
  unless line.isEmpty do
    let (answer, net) := net.obey (.ofString line)
    output.putStrLn answer
    output.flush
    converse input output net

/-- Runs the peers of some options. -/
def runPeers (options : List PeerOptions) : IO UInt32 := do
  match (← options.mapM settingsOf).mapM id with
  | .error e => giveUp e.message
  | .ok settings =>
    match Network.start settings with
    | .error e => giveUp (e.cause.name ++ " at " ++ toString e.path)
    | .ok net =>
      converse (← IO.getStdin) (← IO.getStdout) net
      return 0

end TrieOverlay

/-- Runs the program on the words of the command line. -/
def main (words : List String) : IO UInt32 := do
  match TrieOverlay.PeerOptions.ofWords words with
  | .error e => TrieOverlay.giveUp (e.message ++ "\n" ++ TrieOverlay.PeerOptions.usage)
  | .ok options => TrieOverlay.runPeers options
