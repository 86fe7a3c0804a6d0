import HostCode.Request
import HostCode.Text.Blank
import HostCode.Text.Case
import HostCode.Text.Quoted

/-! # Operands in source text

A register is written by its name, a constant as `$0x10` or `$-1:8`, memory as
`[bx+si*8-0x10]`, a state field as `state+0x10` and a full address as `@0x1000`.
-/

namespace HostCode.Source

open Numeral

inductive ParseError
  | guestAddress (text : List Char)
  | condition (text : List Char)
  | operation (name : List Char)
  | width (text : List Char)
  | tooManyOperands
  | missingOperand
  | address (text : List Char)
  | unterminated (text : List Char)
  | stateOffset (text : List Char)
  | register (text : List Char)
  | immediate (text : List Char)
  | immediateWidth (text : List Char)
  | subtracted (name : List Char)
  | tooManyRegisters
  | scale (text : List Char)
  | term (text : List Char)
  | displacement (value : Int64)
  | noRegister
  deriving DecidableEq, Repr

def ParseError.message : ParseError → String
  | guestAddress t => "invalid guest address " ++ quoted t
  | condition t => "invalid condition " ++ quoted t
  | operation t => "unknown instruction " ++ String.ofList t
  | width t => "invalid width " ++ quoted t
  | tooManyOperands => "too many operands"
  | missingOperand => "missing operand"
  | address t => "invalid address " ++ quoted t
  | unterminated t => "unterminated memory operand " ++ quoted t
  | stateOffset t => "invalid state offset " ++ quoted t
  | register t => "unknown register " ++ String.ofList t
  | immediate t => "invalid immediate " ++ quoted t
  | immediateWidth t => "invalid immediate width " ++ quoted t
  | subtracted t => "register " ++ String.ofList t ++ " cannot be subtracted"
  | tooManyRegisters => "too many registers"
  | scale t => "invalid scale " ++ quoted t
  | term t => "invalid memory term " ++ quoted t
  | displacement v => "displacement " ++ signedHex v.toInt ++ " does not fit in 32 bits"
  | noRegister => "memory operand without register"
where
  quoted (t : List Char) : String := quote (String.ofList t)

/-- Register names are read in either case. -/
def register? (text : List Char) : Option Register :=
  Register.ofName? (String.ofList (text.map Case.upper))

def withoutSpaces (text : List Char) : List Char := text.filter (· ≠ ' ')

def fitsBits (bits : Nat) (v : Int64) : Bool :=
  -((1 <<< (bits - 1) : Nat) : Int) ≤ v.toInt && v.toInt < (1 <<< (bits - 1) : Nat)

/-- The value of a constant, which may also be written as an unsigned number of 64 bits. -/
def readConstant (text : List Char) : Except ParseError Int64 :=
  match readSigned 64 text with
  | .ok v => .ok (Int64.ofInt v)
  | .error _ =>
    match readUnsigned 64 text with
    | .ok v => .ok (Int64.ofNat v)
    | .error _ => .error (.immediate text)

/-- A constant and its width after a colon. Without one it gets the least of 8, 32 and 64
bits that holds the value. -/
def readImmediate (text : List Char) : Except ParseError Operand := do
  let (value, width) := cutAt ':' text
  let v ← readConstant value
  match width with
  | none => return .imm v (if fitsBits 8 v then 8 else if fitsBits 32 v then 32 else 64)
  | some ['8'] => return .imm v 8
  | some ['1', '6'] => return .imm v 16
  | some ['3', '2'] => return .imm v 32
  | some ['6', '4'] => return .imm v 64
  | some other => throw (.immediateWidth other)

/-- What the terms of a memory operand add up to. -/
structure Terms where
  base : Register := .none
  index : Register := .none
  scale : UInt8 := 1
  disp : Int64 := 0
  deriving DecidableEq, Repr

/-- Adds a term. The first register without a factor is the base, and one more register can
be the index. -/
def Terms.add (t : Terms) (negative : Bool) (term : List Char) : Except ParseError Terms :=
  let (name, factor) := cutAt '*' term
  match register? name with
  | some r =>
    if negative then .error (.subtracted name)
    else if factor.isNone && t.base = .none then .ok { t with base := r }
    else if t.index ≠ .none then .error .tooManyRegisters
    else match factor with
      | none => .ok { t with index := r }
      | some f =>
        match readUnsigned 8 f with
        | .ok n => .ok { t with index := r, scale := UInt8.ofNat n }
        | .error _ => .error (.scale f)
  | none =>
    match readSigned 64 term with
    | .ok v =>
      let v := Int64.ofInt v
      .ok { t with disp := t.disp + if negative then -v else v }
    | .error _ => .error (.term term)

def isSign (c : Char) : Bool := c == '+' || c == '-'

theorem length_dropWhile_le (p : Char → Bool) (cs : List Char) :
    (cs.dropWhile p).length ≤ cs.length :=
  (List.dropWhile_sublist p).length_le

/-- Reads terms up to the end. A term goes on to the next sign, and its own sign is optional
at the start. -/
def readTerms (t : Terms) : List Char → Except ParseError Terms
  | [] => .ok t
  | c :: cs => do
    let word := cs.takeWhile (!isSign ·)
    let t ← t.add (c == '-') (if isSign c then word else c :: word)
    readTerms t (cs.dropWhile (!isSign ·))
termination_by cs => cs.length
decreasing_by
  have := length_dropWhile_le (!isSign ·) cs
  simp only [List.length_cons]
  omega

def readMemory (text : List Char) : Except ParseError Operand := do
  let t ← readTerms {} (withoutSpaces text)
  if !fitsBits 32 t.disp then throw (.displacement t.disp)
  if t.index = .none then
    if t.base = .none then throw .noRegister
    return .mem t.base .none 0 t.disp.toInt32
  else return .mem t.base t.index t.scale t.disp.toInt32

def stateWord : List Char := "state".toList

def readState (stateBase : HostAddress) (text : List Char) : Except ParseError Operand :=
  let rest := trimBlanks text
  if rest.isEmpty then .ok (.state stateBase) else
  match readSigned 64 (withoutSpaces rest) with
  | .ok v => .ok (.state (stateBase + (Int64.ofInt v).toUInt64))
  | .error _ => .error (.stateOffset rest)

def readOperand (stateBase : HostAddress) (text : List Char) : Except ParseError Operand :=
  match text with
  | [] => .error .missingOperand
  | '$' :: rest => readImmediate rest
  | '@' :: rest =>
    match readUnsigned 64 rest with
    | .ok a => .ok (.abs (UInt64.ofNat a))
    | .error _ => .error (.address rest)
  | '[' :: rest =>
    if rest.getLast? = some ']' then readMemory rest.dropLast else .error (.unterminated text)
  | _ =>
    if (text.take 5).map Case.lower = stateWord then readState stateBase (text.drop 5)
    else match register? text with
      | some r => .ok (.reg r)
      | none => .error (.register text)

def readGuest (text : List Char) : Except ParseError GuestAddress :=
  match readUnsigned 32 text with
  | .ok a => .ok (UInt32.ofNat a)
  | .error _ => .error (.guestAddress text)

end HostCode.Source
