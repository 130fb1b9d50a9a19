import TraceCoverage.Cli.Command

/-!
# The program

Reads the files that the arguments name, runs the command on them and prints what it says. Listings
have to be there already, since no other program is started, and compressed traces are refused, since
no decoder is at hand.
-/

namespace TraceCoverage

def readTree (paths : List String) : IO FileTree := do
  let working := Place.ofPath (← IO.currentDir).toString
  let empty : FileTree := ({ working } : FileTree).put Scratch.directory .directory
  paths.foldlM
    (fun tree (path : String) => do
      try return tree.write path (← IO.FS.readBinFile path)
      catch
        | .inappropriateType .. => return tree.put path .directory
        | _ => return tree)
    empty

def noDecoder : Decoder := fun _ => { failure := some (.undecodable "no decoder at hand") }

def Warning.logLine (w : Warning) : String :=
  "WARN " ++ w.message ++ String.join (w.fields.map fun (k, v) => " " ++ k ++ "=" ++ v)

def CommandResult.show (c : CommandResult) (silent : Bool) : IO Unit := do
  unless silent do
    for w in c.workspace.warnings do IO.eprintln w.logLine
  if let some e := c.error then IO.eprintln ("ERROR " ++ e.message)
  IO.eprint c.stderr
  IO.print c.stdout

end TraceCoverage

open TraceCoverage in
def main (args : List String) : IO UInt32 := do
  match Arguments.parse args with
  | .error e =>
    e.result.show true
    return UInt32.ofNat e.exitCode
  | .ok a =>
    let before ← IO.monoMsNow
    let tree ← readTree a.analyze.paths
    let c := a.analyze.run a.silent (fun _ => none) noDecoder tree
    c.show a.silent
    let after ← IO.monoMsNow
    IO.print (a.metricsText c ((after - before).toFloat / 1000))
    return UInt32.ofNat c.exitCode
