import HostCode.CommandLine.File
import HostCode.CommandLine.Flags
import HostCode.Source.Program

/-! # Commands

One command writes the code of a program and its listing. The other shows a block before and
after its jump is patched.
-/

namespace HostCode.CommandLine

open Numeral

inductive Input
  | given (text : String)
  | file (path : String)
  | standard
  deriving DecidableEq, Repr

inductive Plan
  | fail (message : String)
  /-- To be told how the program is used. -/
  | help
  | encode (o : Options) (input : Input)
  | demo (o : Options)
  deriving DecidableEq, Repr

/-- The next row in a table of edit distances, for the byte `a`. Each cell comes from the
one to its left, the one above it and the one between the two. -/
def distanceRow (a : UInt8) : List UInt8 → List Nat → (left : Nat) → List Nat
  | b :: t, diagonal :: above :: row, left =>
    let cell := if a = b then diagonal else 1 + min diagonal (min above left)
    cell :: distanceRow a t (above :: row) cell
  | _, _, _ => []

/-- The edit distance between two words: insertions, deletions and replacements of bytes. -/
def distance (s t : String) : Nat :=
  let bytes := t.toUTF8.toList
  let rows := s.toUTF8.toList.foldl
    (fun (i, row) a => (i + 1, (i + 1) :: distanceRow a bytes row (i + 1)))
    (0, List.range (bytes.length + 1))
  rows.2.getLastD 0

def commands : List String := ["encode", "demo", "completion"]

/-- The commands that a word may have been meant for: two edits away, or started by it. -/
def suggestions (word : String) : List String :=
  let lower := word.toList.map Case.lower
  commands.filter fun c =>
    distance (String.ofList lower) c ≤ 2 || lower.isPrefixOf c.toList

def unknownCommand (word parent : String) : String :=
  "unknown command " ++ quote word ++ " for " ++ quote parent

def program : String := "jitasm"

def unknownWord (word : String) : String :=
  unknownCommand word program ++
    match suggestions word with
    | [] => ""
    | ss => "\n\nDid you mean this?\n" ++ String.join (ss.map fun s => "\t" ++ s ++ "\n")

def shells : List String := ["bash", "zsh", "fish", "powershell"]

/-- Goes on with the flags and the words of a command, unless help is asked for. -/
def withFlags (known : List Setting) (args : List String) (go : Options → List String → Plan) :
    Plan :=
  match readFlags known {} args with
  | .error h => .fail h.message
  | .ok (o, words) => if o.help then .help else go o words

/-- A request of a shell takes no words. -/
def planShell (shell : String) (args : List String) : Plan :=
  withFlags (.noDescriptions :: Setting.shared) args fun
    | _, [] => .help
    | _, word :: _ => .fail (unknownCommand word (program ++ " completion " ++ shell))

def plan (args : List String) : Plan :=
  let onlyHelp (args : List String) : Plan := withFlags Setting.shared args fun _ _ => .help
  match command? args with
  | none => onlyHelp args
  | some ("encode", rest) =>
    withFlags (.file :: Setting.shared) rest fun
      | o, [] => .encode o (if o.file = "" then .standard else .file o.file)
      | o, words => .encode o (.given ("\n".intercalate words))
  | some ("demo", rest) => withFlags Setting.shared rest fun o _ => .demo o
  | some ("help", rest) => onlyHelp rest
  | some ("completion", rest) =>
    match command? rest with
    | some (shell, others) =>
      if shells.contains shell then planShell shell others else onlyHelp rest
    | none => onlyHelp rest
  | some (word, rest) =>
    if ["__complete", "__completeNoDesc"].contains word then
      if rest.isEmpty then .fail "requires at least 1 arg(s), only received 0" else .help
    else .fail (unknownWord word)

inductive Output
  | line (l : Listing.Line)
  | pending (p : Pending)
  | note (text : String)
  | patched (target : GuestAddress) (host : HostAddress)
  deriving DecidableEq, Repr

def Output.render : Output → String
  | line l => l.render
  | pending p =>
    "; pending " ++ p.kind.name ++ " at " ++ paddedHex 4 p.site ++ " -> " ++ guestHex p.target
  | note text => "; " ++ text
  | patched target host => "; after patching " ++ guestHex target ++ " to " ++ hex host.toNat

/-- What a command leaves behind: its output, its log, and why it failed if it did. -/
structure Report where
  output : List Output := []
  log : List Log.Record := []
  failure : Option String := none

def Report.status (r : Report) : UInt32 := if r.failure.isSome then 1 else 0

def hostMode? (name : String) : Option HostMode :=
  match String.ofList (name.toList.map Case.lower) with
  | "narrow" => some .narrow
  | "wide" => some .wide
  | _ => none

def logger (o : Options) : Except String Log.Logger := do
  if o.logLevel = "" then return {}
  let level ← Log.Level.read o.logLevel
  let scopes ← Log.Scopes.read o.logScopes
  return ⟨some level, scopes⟩

/-- Memory of a command is never run, so its address is of no importance. -/
def workspace : CodeBuffer := { supply := .fresh .data 0x10000, growth := CodeBuffer.defaultGrowth }

def session (o : Options) : Except String Shared := do
  let some mode := hostMode? o.mode | throw ("invalid mode " ++ quote o.mode)
  let some baseRegister := Source.register? o.baseReg.toList
    | throw ("unknown register " ++ o.baseReg)
  let logger ← logger o
  let config : Config :=
    { mode, stateBase := o.stateBase, baseRegister, buffer := workspace, logger }
  match Session.new config {} with
  | (.ok s, registry) => return ⟨s, registry⟩
  | (.error e, _) => throw e.message

def listing (s : Session) : List Output :=
  ((s.asm.listing 0).toOption.getD []).map .line ++ s.pending.map .pending

def faultText : Fault → String
  | .misuse m => m.message
  | .allocation e => e.message
  | .jumpRange e => e.message
  | .outOfRange => "out of range"

/-- Ends a command that has come as far as `x`. -/
def finish (x : Shared) (output : List Output) (failure : Option String) : Report :=
  ⟨output, x.session.journal, failure⟩

/-- Translates a program and lists the code. The text of the program, or why there is none, is
looked at once the session is there. -/
def encodeFrom (o : Options) (text : Except String String) : Report :=
  match session o with
  | .error e => { failure := some e }
  | .ok x =>
    match text.bind fun t => (Source.readProgram o.stateBase t).mapError (·.message) with
    | .error e => finish x [] (some e)
    | .ok blocks =>
      match Source.translate blocks (x, ()) with
      | .ok (.ok ()) (x, _) => finish x (listing x.session) none
      | .ok (.error e) (x, _) => finish x [] (some e.message)
      | .error f (x, _) => finish x [] (some (faultText f))

def encode (o : Options) (text : String) : Report := encodeFrom o (.ok text)

/-- Translates the program in a file. A directory can be opened, but not read. -/
def encodeFile (o : Options) (find : String → Entry) (path : String) : Report :=
  match openFile find path with
  | .error e => { failure := some ("open " ++ path ++ ": " ++ e.message) }
  | .ok (.text t) => encode o t
  | .ok _ => encodeFrom o (.error ("read " ++ path ++ ": is a directory"))

def demoGuest : GuestAddress := 0x1000

def demoTarget : GuestAddress := 0xa0001000

def demoBlock : Source.Block where
  guest := demoGuest
  lines :=
    [.instruction { op := .mov, width := 32, dst := .reg (.gpr .ax), src := .imm 0x1234 32 },
      .goto demoTarget]

/-- Lists a block with a jump, before the jump is patched and after. -/
def demo (o : Options) : Report :=
  match session o with
  | .error e => { failure := some e }
  | .ok x =>
    match Source.translate [demoBlock] (x, ()) with
    | .error f (x, _) => finish x [] (some (faultText f))
    | .ok (.error e) (x, _) => finish x [] (some e.message)
    | .ok (.ok ()) (x, _) =>
      let before := .note "before patching" :: listing x.session
      let host := (x.session.hostAddress demoGuest).getD 0 + 0x10000
      match Shared.resolve demoTarget host x with
      | .error f x => finish x before (some (faultText f))
      | .ok (_, .error e) x => finish x before (some e.message)
      | .ok (_, .ok ()) x =>
        finish x (before ++ .patched demoTarget host :: listing x.session) none

end HostCode.CommandLine
