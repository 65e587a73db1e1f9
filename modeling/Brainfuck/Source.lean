import Brainfuck.Bracket

/-! # Source text

Source text is read as UTF-8 bytes. Eight of the bytes are operators and all others are
comments, so no part of a multi-byte character is ever an operator. The brackets of the
operators have to balance; where they do not, one of them is reported.
-/

namespace Brainfuck

inductive Operator where
  | increment
  | decrement
  | left
  | right
  | write
  | read
  | loopStart
  | loopEnd
  deriving DecidableEq

namespace Operator

def ofByte? (b : UInt8) : Option Operator :=
  if b = 43 then some increment
  else if b = 45 then some decrement
  else if b = 60 then some left
  else if b = 62 then some right
  else if b = 46 then some write
  else if b = 44 then some read
  else if b = 91 then some loopStart
  else if b = 93 then some loopEnd
  else none

def toByte : Operator → UInt8
  | increment => 43
  | decrement => 45
  | left => 60
  | right => 62
  | write => 46
  | read => 44
  | loopStart => 91
  | loopEnd => 93

@[simp] theorem ofByte?_toByte (op : Operator) : ofByte? op.toByte = some op := by
  cases op <;> rfl

theorem ofByte?_eq_some_iff {b : UInt8} {op : Operator} :
    ofByte? b = some op ↔ b = op.toByte := by
  constructor
  · intro h
    grind [ofByte?, toByte]
  · rintro rfl
    exact ofByte?_toByte op

def bracket? : Operator → Option Bracket
  | loopStart => some .opening
  | loopEnd => some .closing
  | _ => none

end Operator

def operatorBytes (code : String) : List UInt8 :=
  code.toUTF8.data.toList.filter fun b => (Operator.ofByte? b).isSome

/-- A bracket without a partner, by its position among the bytes that were checked. -/
structure BracketMismatch where
  position : Nat
  bracket : Bracket
  deriving DecidableEq

def BracketMismatch.message (e : BracketMismatch) : String :=
  "unmatched '" ++ e.bracket.toChar.toString ++ "' at position " ++ e.position.repr

/-- The matching of the brackets among the bytes; other bytes only count for positions. -/
def matchBytes (bytes : List UInt8) : Matching :=
  .ofList (bytes.map fun b => (Operator.ofByte? b).bind Operator.bracket?)

/-- The bracket to report, if the brackets do not balance: the first unmatched opening one if
more of the unmatched ones open than close, the last unmatched closing one if more of them
close, and the first unmatched closing one if they are equally many. -/
def mismatch? (bytes : List UInt8) : Option BracketMismatch :=
  let m := matchBytes bytes
  if m.strays.length < m.waiting.length then
    m.waiting.getLast?.map (⟨·, .opening⟩)
  else if m.waiting.length < m.strays.length then
    m.strays.head?.map (⟨·, .closing⟩)
  else
    m.strays.getLast?.map (⟨·, .closing⟩)

end Brainfuck
