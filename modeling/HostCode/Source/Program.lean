import HostCode.Session
import HostCode.Source.Line

/-! # Programs

A program is a list of blocks, each the lines that follow its heading. Lines in front of the
first heading belong to guest address zero. A semicolon starts a comment.
-/

namespace HostCode.Source

structure Block where
  guest : GuestAddress
  lines : List Line
  deriving DecidableEq, Repr

inductive ProgramError
  | heading (number : Nat) (cause : ParseError)
  | line (number : Nat) (text : List Char) (cause : ParseError)
  | tooLong
  deriving DecidableEq, Repr

def ProgramError.message : ProgramError → String
  | heading n cause => "line " ++ toString n ++ ": " ++ cause.message
  | line n text cause =>
    "line " ++ toString n ++ ": " ++ String.ofList text ++ ": " ++ cause.message
  | tooLong => "bufio.Scanner: token too long"

/-- What a line of a program is, if it is more than a comment. -/
inductive Item
  | heading (guest : GuestAddress)
  | line (l : Line)
  deriving DecidableEq, Repr

/-- Puts an item in front of the lines without a heading and the blocks that follow it. -/
def Item.join : Item → List Line × List Block → List Line × List Block
  | heading guest, (lines, blocks) => ([], ⟨guest, lines⟩ :: blocks)
  | line l, (lines, blocks) => (l :: lines, blocks)

/-- The blocks of a program. Lines without a heading make a block if there are any. -/
def blocksOf (items : List Item) : List Block :=
  match items.foldr Item.join ([], []) with
  | ([], blocks) => blocks
  | (lines, blocks) => ⟨0, lines⟩ :: blocks

def maxLine : Nat := 65535

/-- What is left of a line without its comment and the blanks around it. -/
def significant (text : List Char) : List Char := trimBlanks (cutAt ';' text).1

def isHeading (word : List Char) : Bool := word.map Case.foldAscii = "block".toList

def readItem (stateBase : HostAddress) (number : Nat) (text : List Char) :
    Except ProgramError (Option Item) :=
  if maxLine < (String.ofList text).utf8ByteSize then .error .tooLong else
  let content := significant text
  if content.isEmpty then .ok none else
  let (word, rest) := cutAt ' ' content
  let rest := trimBlanks (rest.getD [])
  if isHeading word then
    match readGuest rest with
    | .ok guest => .ok (some (.heading guest))
    | .error e => .error (.heading number e)
  else
    match readLine stateBase word rest with
    | .ok l => .ok (some (.line l))
    | .error e => .error (.line number content e)

def readItems (stateBase : HostAddress) (start : Nat) (lines : List (List Char)) :
    Except ProgramError (List Item) := do
  let items ← (lines.zipIdx start).mapM fun (text, number) => readItem stateBase number text
  return items.filterMap id

/-- Reads a program. A carriage return at the end of a line is a blank like others. -/
def readProgram (stateBase : HostAddress) (text : String) : Except ProgramError (List Block) := do
  return blocksOf (← readItems stateBase 1 (text.toList.splitOn '\n'))

/-! ## Translating programs -/

def Line.emit : Line → Attempt Assembler (Except Error Unit)
  | goto target => do
    Assembler.jumpToGuest target
    return .ok ()
  | branch c target => do
    Assembler.branchToGuest (.flag c) target
    return .ok ()
  | instruction r => Assembler.encode r

/-- Emits lines up to the first that fails. -/
def emitLines : List Line → Attempt Assembler (Except Error Unit)
  | [] => return .ok ()
  | l :: ls => do
    match ← l.emit with
    | .ok () => emitLines ls
    | .error e => return .error e

/-- Translates blocks up to the first that fails. -/
def translate : List Block → Attempt (Shared × Unit) (Except Error Unit)
  | [] => return .ok ()
  | b :: bs => do
    match ← Shared.block b.guest (Session.plain (emitLines b.lines)) with
    | .ok () => translate bs
    | .error e => return .error e

end HostCode.Source
