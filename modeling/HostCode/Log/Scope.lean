import HostCode.Text.Blank
import HostCode.Text.Case

/-! # Log scopes and levels

A scope is a part of the translator that reports what it does. A set of scopes is a set of
bits. Levels are numbers, of which some have names.
-/

namespace HostCode.Log

structure Scopes where
  bits : UInt64
  deriving DecidableEq, Repr

namespace Scopes

def block : Scopes := ⟨2⟩
def reloc : Scopes := ⟨4⟩
def buffer : Scopes := ⟨8⟩
def all : Scopes := ⟨0xffffffffffffffff⟩

def union (s t : Scopes) : Scopes := ⟨s.bits ||| t.bits⟩

def meets (s t : Scopes) : Bool := s.bits &&& t.bits != 0

def name (s : Scopes) : String :=
  if s = block then "block" else if s = reloc then "reloc" else if s = buffer then "buffer"
  else "<unknown=" ++ toString s.bits.toNat ++ ">"

/-- The names of the scopes in a set, from the lowest bit to the highest. -/
def render (s : Scopes) : String :=
  if s = all then "all" else
  let single := (List.range 64).map fun i => (⟨1 <<< UInt64.ofNat i⟩ : Scopes)
  "|".intercalate ((single.filter s.meets).map name)

def fields (s : List Char) : List (List Char) :=
  ((s.map fun c => if c = ',' then '|' else c).splitOn '|').filter (!·.isEmpty)

/-- Adds the scopes that are named. The name of all replaces what came before it. -/
def readFields (seen : Scopes) : List (List Char) → Except String Scopes
  | [] => .ok seen
  | f :: fs =>
    match String.ofList (trimBlanks f) with
    | "all" => readFields all fs
    | "block" => readFields (seen.union block) fs
    | "reloc" => readFields (seen.union reloc) fs
    | "buffer" => readFields (seen.union buffer) fs
    | _ => .error ("invalid log scope: " ++ String.ofList f)

def read (s : String) : Except String Scopes := readFields ⟨0⟩ (fields s.toList)

end Scopes

namespace Level

def trace : Int := -8
def debug : Int := -4
def info : Int := 0
def warn : Int := 4
def error : Int := 8

def read (s : String) : Except String Int :=
  match String.ofList (s.toList.map Case.upper) with
  | "TRACE" => .ok trace
  | "DEBUG" => .ok debug
  | "INFO" => .ok info
  | "WARN" | "WARNING" => .ok warn
  | "ERROR" => .ok error
  | _ => .error ("invalid level: " ++ s)

/-- A level is written as the nearest name that is not above it and the distance from there,
or from the lowest name if all are above it. Only the trace level itself has its name. -/
def render (l : Int) : String :=
  if l = trace then "TRACE"
  else if l < info then away "DEBUG" (l - debug)
  else if l < warn then away "INFO" (l - info)
  else if l < error then away "WARN" (l - warn)
  else away "ERROR" (l - error)
where
  away (base : String) (d : Int) : String :=
    if d = 0 then base else if d < 0 then base ++ toString d else base ++ "+" ++ toString d

end Level

end HostCode.Log
