import HostCode.CommandLine.Run

/-! # The program

Reads what the arguments ask for, and prints what the command leaves behind.
-/

open HostCode CommandLine

def printReport (r : Report) : IO UInt32 := do
  for o in r.output do
    IO.println o.render
  for l in r.log do
    IO.eprint l.render
  if let some message := r.failure then
    IO.eprintln message
  return r.status

def findEntry (path : String) : IO Entry := do
  if path = "" then return .directory
  match ← (IO.FS.readFile path).toBaseIO with
  | .ok text => return .text text
  | .error (.inappropriateType ..) => return .directory
  | .error _ => return .missing

def main (args : List String) : IO UInt32 := do
  match plan args with
  | .fail message => printReport { failure := some message }
  | .help => return 0
  | .demo o => printReport (demo o)
  | .encode o (.given text) => printReport (encode o text)
  | .encode o .standard => printReport (encode o (← (← IO.getStdin).readToEnd))
  | .encode o (.file path) =>
    let entries ← (stagesOf path).mapM fun (_, p) => return (p, ← findEntry p)
    printReport (encodeFile o (fun p => (entries.lookup p).getD .missing) path)
