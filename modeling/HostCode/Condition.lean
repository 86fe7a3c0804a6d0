/-! # Conditions

The sixteen conditions on the flags, in the order in which instructions number them. The
lowest bit of the number tells a condition from its opposite.
-/

namespace HostCode

inductive Flag
  | o | no | b | ae | e | ne | be | a | s | ns | p | np | l | ge | le | g
  deriving DecidableEq, Repr

namespace Flag

def all : List Flag := [o, no, b, ae, e, ne, be, a, s, ns, p, np, l, ge, le, g]

def code : Flag → BitVec 4
  | o => 0 | no => 1 | b => 2 | ae => 3 | e => 4 | ne => 5 | be => 6 | a => 7
  | s => 8 | ns => 9 | p => 10 | np => 11 | l => 12 | ge => 13 | le => 14 | g => 15

def name : Flag → String
  | o => "O" | no => "NO" | b => "B" | ae => "AE" | e => "E" | ne => "NE" | be => "BE" | a => "A"
  | s => "S" | ns => "NS" | p => "P" | np => "NP" | l => "L" | ge => "GE" | le => "LE" | g => "G"

def opposite : Flag → Flag
  | o => no | no => o | b => ae | ae => b | e => ne | ne => e | be => a | a => be
  | s => ns | ns => s | p => np | np => p | l => ge | ge => l | le => g | g => le

def ofName? (s : String) : Option Flag := all.find? (·.name == s)

end Flag

/-- When a jump is taken. Codes that mean nothing can be asked for, and are refused. -/
inductive Cond
  | flag (c : Flag)
  | always
  | unnamed (code : UInt8)
  deriving DecidableEq, Repr

namespace Cond

def name : Cond → String
  | flag c => c.name
  | always => "ALWAYS"
  | unnamed c => "Cond(" ++ toString c.toNat ++ ")"

def code : Cond → UInt8
  | flag c => UInt8.ofNat c.code.toNat
  | always => 255
  | unnamed c => c

def ofCode (c : UInt8) : Cond :=
  if c = 255 then always else
  match Flag.all[c.toNat]? with
  | some f => flag f
  | none => unnamed c

end Cond

end HostCode
