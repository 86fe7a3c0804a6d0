import HostCode.Text.Blank
import HostCode.Text.Quoted

/-! # Flags

The arguments of a command: flags with a value, in a long or a short form, and what remains.
Flags may stand anywhere, up to a double dash that ends them. A switch may be given without a
value, and the letters of several flags may share one dash.
-/

namespace HostCode.CommandLine

open Numeral

inductive Setting
  | mode | stateBase | baseReg | logLevel | logScopes | file | help | noDescriptions
  deriving DecidableEq, Repr

namespace Setting

def name : Setting → String
  | mode => "mode"
  | stateBase => "state-base"
  | baseReg => "base-reg"
  | logLevel => "log-level"
  | logScopes => "log-scopes"
  | file => "file"
  | help => "help"
  | noDescriptions => "no-descriptions"

def letter? : Setting → Option Char
  | mode => some 'm'
  | file => some 'f'
  | help => some 'h'
  | _ => none

def shared : List Setting := [mode, stateBase, baseReg, logLevel, logScopes, help]

/-- The value of a flag that is given without one. Only a switch may be. -/
def implied? : Setting → Option String
  | help | noDescriptions => some "true"
  | _ => none

def title (s : Setting) : String :=
  match s.letter? with
  | some c => "-" ++ String.singleton c ++ ", --" ++ s.name
  | none => "--" ++ s.name

end Setting

structure Options where
  mode : String := "wide"
  stateBase : UInt64 := 0x10000000
  baseReg : String := "R15"
  logLevel : String := ""
  logScopes : String := "all"
  file : String := ""
  help : Bool := false
  deriving DecidableEq, Repr

/-- Why the arguments are not read to their end. -/
inductive Halt
  | badSyntax (arg : String)
  | unknownFlag (name : String)
  | unknownLetter (c : Char) (letters : String)
  | needsArgument (arg : String)
  | letterNeedsArgument (c : Char) (letters : String)
  | invalidValue (s : Setting) (value : String) (trouble : Trouble)
  deriving DecidableEq, Repr

/-- How messages show the letter of a flag. Letters are single bytes, so a longer character
is shown by its first one. -/
def showLetter (c : Char) : String :=
  quoteOne (Char.ofNat (((String.singleton c).toUTF8.toList.head?.getD 0).toNat))

def Halt.message : Halt → String
  | badSyntax arg => "bad flag syntax: " ++ arg
  | unknownFlag name => "unknown flag: --" ++ name
  | unknownLetter c letters => "unknown shorthand flag: " ++ showLetter c ++ " in -" ++ letters
  | needsArgument arg => "flag needs an argument: " ++ arg
  | letterNeedsArgument c letters =>
    "flag needs an argument: " ++ showLetter c ++ " in -" ++ letters
  | invalidValue s value trouble =>
    "invalid argument " ++ quote value ++ " for " ++ quote s.title ++ " flag: strconv." ++
      (if s.implied?.isSome then "ParseBool" else "ParseUint") ++
      ": parsing " ++ quote value ++ ": " ++ match trouble with
        | .malformed => "invalid syntax"
        | .outOfRange => "value out of range"

def readSwitch (text : String) : Option Bool :=
  if ["1", "t", "T", "TRUE", "true", "True"].contains text then some true
  else if ["0", "f", "F", "FALSE", "false", "False"].contains text then some false
  else none

def Options.set (o : Options) (s : Setting) (value : String) : Except Halt Options :=
  match s with
  | .mode => .ok { o with mode := value }
  | .baseReg => .ok { o with baseReg := value }
  | .logLevel => .ok { o with logLevel := value }
  | .logScopes => .ok { o with logScopes := value }
  | .file => .ok { o with file := value }
  | .stateBase =>
    match readUnsigned 64 value.toList with
    | .ok n => .ok { o with stateBase := UInt64.ofNat n }
    | .error t => .error (.invalidValue s value t)
  | .help =>
    match readSwitch value with
    | some on => .ok { o with help := on }
    | none => .error (.invalidValue s value .malformed)
  | .noDescriptions =>
    if (readSwitch value).isSome then .ok o else .error (.invalidValue s value .malformed)

/-- An argument: a word, a flag, or the end of the flags. -/
inductive Arg
  | word
  | endOfFlags
  | long (name : List Char) (value : Option (List Char))
  | short (letters : List Char)
  | bad
  deriving DecidableEq, Repr

def Arg.ofString (s : String) : Arg :=
  match s.toList with
  | '-' :: '-' :: body =>
    match body with
    | [] => endOfFlags
    | c :: _ =>
      if c = '-' ∨ c = '=' then bad else
      let (name, value) := cutAt '=' body
      long name value
  | '-' :: c :: rest => short (c :: rest)
  | _ => word

/-- Reads the letters behind a dash. The last flag may take the next argument for its value,
and it is told if it does. Letters that start like the flags of a test are passed over. -/
def readLetters (known : List Setting) (next : Option String) (o : Options) :
    List Char → Except Halt (Options × Bool)
  | [] => .ok (o, false)
  | c :: letters =>
    let all := String.ofList (c :: letters)
    if "test.".toList.isPrefixOf (c :: letters) then .ok (o, false) else
    match known.find? (·.letter? == some c) with
    | none => .error (.unknownLetter c all)
    | some s =>
      match letters, s.implied?, next with
      | '=' :: v :: vs, _, _ => (o.set s (String.ofList (v :: vs))).map (·, false)
      | letters, some v, _ => (o.set s v).bind fun o => readLetters known next o letters
      | [], none, none => .error (.letterNeedsArgument c all)
      | [], none, some v => (o.set s v).map (·, true)
      | letters, none, _ => (o.set s (String.ofList letters)).map (·, false)

/-- Reads flags among the `known` ones, and collects the words in order. -/
def readFlags (known : List Setting) (o : Options) :
    List String → Except Halt (Options × List String)
  | [] => .ok (o, [])
  | arg :: args =>
    match Arg.ofString arg with
    | .word => (readFlags known o args).map fun (o, words) => (o, arg :: words)
    | .endOfFlags => .ok (o, args)
    | .bad => .error (.badSyntax arg)
    | .long name value =>
      match known.find? (·.name.toList == name) with
      | none => .error (.unknownFlag (String.ofList name))
      | some s =>
        match value.map String.ofList <|> s.implied? with
        | some v => (o.set s v).bind fun o => readFlags known o args
        | none =>
          match args with
          | [] => .error (.needsArgument arg)
          | v :: rest => (o.set s v).bind fun o => readFlags known o rest
    | .short letters =>
      match readLetters known args.head? o letters with
      | .error h => .error h
      | .ok (o, taken) =>
        match taken, args with
        | true, _ :: rest => readFlags known o rest
        | _, args => readFlags known o args

/-- An argument that is a flag whose value is the argument after it. -/
def expectsValue (s : String) : Bool :=
  match s.toList with
  | '-' :: '-' :: body => !body.contains '='
  | ['-', c] => c.utf8Size = 1 && c ≠ '='
  | _ => false

/-- The first word that is not the value of a flag, and the arguments without it. The last
argument is never taken for the command after a flag that wants a value. -/
def command? : List String → Option (String × List String)
  | [] => none
  | arg :: args =>
    if arg = "--" then none
    else if expectsValue arg then
      match args with
      | value :: next :: rest => do
        let (word, others) ← command? (next :: rest)
        return (word, arg :: value :: others)
      | _ => none
    else if arg ≠ "" && !(arg.toList.head? == some '-') then some (arg, args)
    else do
      let (word, others) ← command? args
      return (word, arg :: others)

end HostCode.CommandLine
