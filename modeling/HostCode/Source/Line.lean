import HostCode.Source.Operand

/-! # Lines of source text

A line is an operation, with a width or a condition after a point, and up to three operands.
Two further words jump to a guest address, always or on a condition.
-/

namespace HostCode.Source

open Numeral

inductive Line
  | goto (target : GuestAddress)
  | branch (c : Flag) (target : GuestAddress)
  | instruction (r : Request)
  deriving DecidableEq, Repr

def flagAfter? (word : String) (name : List Char) : Option Flag :=
  (word.toList.isPrefixOf? name).bind fun rest => Flag.ofName? (String.ofList rest)

/-- The operation of a name, which can have a condition in it. -/
def readOp (name : List Char) : Except ParseError Request :=
  match Op.ofName? (String.ofList name) with
  | some op => .ok { op }
  | none =>
    match flagAfter? "SET" name with
    | some c => .ok { op := .setcc, cond := .flag c }
    | none =>
      match flagAfter? "CMOV" name with
      | some c => .ok { op := .cmovcc, cond := .flag c }
      | none => .error (.operation name)

/-- The width after the point. Without one it is 32, except where only bytes are written. -/
def readWidth (op : Op) : Option (List Char) → Except ParseError UInt8
  | some text =>
    match readDecimal 8 text with
    | .ok n => .ok (UInt8.ofNat n)
    | .error _ => .error (.width text)
  | none => .ok (if op = .setcc then 0 else 32)

def readOperands (stateBase : HostAddress) (r : Request) (text : List Char) :
    Except ParseError Request := do
  if text.isEmpty then return r
  let parts := text.splitOn ','
  if 3 < parts.length then throw .tooManyOperands
  match ← parts.mapM fun p => readOperand stateBase (trimBlanks p) with
  | [d] => return { r with dst := d }
  | [d, s] => return { r with dst := d, src := s }
  | [d, s, a] => return { r with dst := d, src := s, aux := a }
  | _ => return r

def readLine (stateBase : HostAddress) (mnemonic rest : List Char) : Except ParseError Line := do
  let (name, suffix) := cutAt '.' (mnemonic.map Case.upper)
  if name = "GOTO".toList then return .goto (← readGuest rest)
  if name = "BRANCH".toList then
    let condition := suffix.getD []
    match Flag.ofName? (String.ofList condition) with
    | some c => return .branch c (← readGuest rest)
    | none => throw (.condition condition)
  let r ← readOp name
  let width ← readWidth r.op suffix
  return .instruction (← readOperands stateBase { r with width } rest)

end HostCode.Source
