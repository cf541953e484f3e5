/-
JointCircuit.Main — the command line.

The first argument names the command: one deals material to files, the
other evaluates the example among the parties of this process.
Everything is decided by the commands themselves; what is here reads
files and writes files and lines.
-/
import JointCircuit.Command.Demo
import JointCircuit.Transport.NetworkConfig

namespace JointCircuit

namespace Main

/-- Bytes from the operating system. -/
def drawSeed : IO Seed := do
  let bytes ← IO.getRandomBytes 32
  return (Seed.ofBytes? bytes.toList).getD (Vector.replicate 32 0)

/-- Print a line to the error stream and fail. -/
def fail (text : String) : IO UInt32 := do
  IO.eprintln text.trimAsciiEnd.toString
  return 1

/-- Deal to files. -/
def deal (arguments : List String) : IO UInt32 := do
  match Deal.command.read {} arguments with
  | .error error => fail error.message
  | .ok .help => IO.print Deal.command.helpText; return 0
  | .ok (.run draft) =>
    match Deal.options? draft with
    | none => fail (ArgumentError.optionsMissing []).message
    | some options =>
      match Deal.run options (← drawSeed) {} with
      | .error failure => fail failure.message
      | .ok files =>
        for (path, contents) in files.entries do
          IO.FS.writeBinFile path (ByteArray.mk contents.toArray)
        return 0

/-- The number of parties: that of the configured network, if there is one. -/
def countParties (options : DemoOptions) : IO (Option Nat) := do
  match options.config with
  | none => return some options.parties
  | some path => return (NetworkConfig.parse? (← IO.FS.readFile path)).map (·.parties)

/-- The files with the parties' dealt data, as far as they exist. -/
def readDealt (options : DemoOptions) : IO FileStore := do
  match options.precomputed with
  | none => return {}
  | some pattern =>
    let paths := (Demo.parties options).map (pathFor pattern)
    let entries ← paths.filterMapM fun (path : String) => do
      try
        let contents ← IO.FS.readBinFile path
        return some (path, contents.toList)
      catch _ => return none
    return { entries := entries }

/-- Print what a party computed. -/
def report (party : Nat) : Except Fault Demo.Report → IO Unit
  | .error fault => IO.println s!"party {party}: {fault.message}"
  | .ok r =>
    IO.println (s!"party {party}: {r.opened.map Fin.val} in {r.rounds} rounds, "
      ++ s!"{r.bytesSent} bytes sent")

/-- Evaluate the example. -/
def demo (arguments : List String) : IO UInt32 := do
  match Demo.command.read {} arguments with
  | .error error => fail error.message
  | .ok .help => IO.print Demo.command.helpText; return 0
  | .ok (.run draft) =>
    let options := Demo.options draft
    match ← countParties options with
    | none => fail "the network configuration cannot be read"
    | some parties =>
      let options := { options with parties }
      let files ← readDealt options
      let seeds ← (Demo.parties options).mapM fun _ => drawSeed
      let entropy (party : Nat) : Seed := seeds.getD (party - 1) (Vector.replicate 32 0)
      match Demo.overChannels options files entropy with
      | .error fault => fail fault.message
      | .ok reports =>
        for (outcome, i) in reports.zipIdx do
          report (i + 1) outcome
        return 0

end Main

end JointCircuit

/-- Run the command that the first argument names. -/
def main (arguments : List String) : IO UInt32 :=
  let dealer := JointCircuit.Deal.command.name
  let demo := JointCircuit.Demo.command.name
  match arguments with
  | name :: rest =>
    if name = dealer then JointCircuit.Main.deal rest
    else if name = demo then JointCircuit.Main.demo rest
    else JointCircuit.Main.fail s!"Unrecognized command: {name}"
  | [] => JointCircuit.Main.fail s!"Usage: {dealer}|{demo} [options]"
