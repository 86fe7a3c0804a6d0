import HostCode.Listing
import HostCode.Log.Scope
import HostCode.Text.Quoted

/-! # Log records

A record has a level, a message and attributes. In text it is one line of pairs of a key and
a value, quoted where they could be misread.
-/

namespace HostCode.Log

open Numeral

inductive Value
  | text (s : String)
  | listing (ls : List Listing.Line)
  deriving DecidableEq, Repr

def Value.render : Value → String
  | text s => s
  | listing ls => Listing.render ls

structure Attr where
  key : String
  value : Value
  deriving DecidableEq, Repr

namespace Attr

def text (key s : String) : Attr := ⟨key, .text s⟩
def number (key : String) (n : Int) : Attr := text key (toString n)
def guest (a : GuestAddress) : Attr := text "guest" (guestHex a)
def host (a : HostAddress) : Attr := text "host" (hex a.toNat)
def offset (n : Int) : Attr := number "offset" n
def size (n : Int) : Attr := number "size" n

end Attr

structure Record where
  level : Int
  message : String
  attrs : List Attr
  deriving DecidableEq, Repr

/-- What is logged: records of the scopes at the level or above it, or nothing. -/
structure Logger where
  level : Option Int := none
  scopes : Scopes := .all
  deriving DecidableEq, Repr

namespace Logger

def enabled (g : Logger) (scope : Scopes) (level : Int) : Bool :=
  g.scopes.meets scope && match g.level with
    | some least => least ≤ level
    | none => false

/-- The record that is logged, if any. Its last attribute is the scope. -/
def record? (g : Logger) (scope : Scopes) (level : Int) (message : String) (attrs : List Attr) :
    Option Record :=
  if g.enabled scope level then some ⟨level, message, attrs ++ [.text "scope" scope.name]⟩
  else none

end Logger

/-- A text that would not stand out as one word. A backslash alone does no harm. -/
def needsQuotes (s : String) : Bool :=
  s.isEmpty || s.toList.any fun c =>
    if c.toNat < 0x80 then c.toNat < 0x20 || c == ' ' || c == '=' || c == '"'
    else c.toNat == 0xfffd || isBlank c || !isPrintable c

def word (s : String) : String := if needsQuotes s then quote s else s

def Record.render (r : Record) : String :=
  " ".intercalate
    (("level=" ++ word (Level.render r.level)) :: ("msg=" ++ word r.message) ::
      r.attrs.map fun a => word a.key ++ "=" ++ word a.value.render) ++ "\n"

end HostCode.Log
