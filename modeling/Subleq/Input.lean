import Subleq.Text.Numeral
import Subleq.Text.Utf8

/-!
# Subleq.Input — what the port reads

Each time the port is read, the input replies with a number or with a fault. All replies are fixed
beforehand; a reply also says what the terminal shows while it is waited for.
-/

namespace Subleq

/-- Why a read of the port gives no number. -/
inductive InputFault where
  /-- A script of numbers is used up. -/
  | scriptEnded
  /-- The text of the terminal is used up. -/
  | textEnded
  /-- The user stopped the machine. -/
  | interrupted
  /-- A number at the terminal is too long to be converted. -/
  | tooManyDigits (cause : Text.TooManyDigits)
  /-- What comes from the terminal is no text. -/
  | encoding (cause : Text.Utf8.Fault)
  /-- The input itself misses a cell, as one does that reads from another data store. -/
  | uninitialized (address : Int)
deriving Repr, DecidableEq

/-- The text of a report that a cell was never written. -/
def uninitializedMessage (address : Int) : String := s!"read of uninitialized address {address}"

def InputFault.message : InputFault → String
  | .scriptEnded => "no more input"
  | .textEnded => "EOF when reading a line"
  | .interrupted => ""
  | .tooManyDigits cause => cause.message
  | .encoding cause => cause.message
  | .uninitialized address => uninitializedMessage address

/-- One answer of the input, and what the terminal shows in the course of it. -/
structure Reply where
  answer : Except InputFault Int
  shown : String := ""

/-- The stream of replies, and how many of them have been taken. -/
structure Input where
  replies : Nat → Reply
  taken : Nat := 0

namespace Input

/-- The next reply. -/
def next (i : Input) : Reply := i.replies i.taken

/-- The input after the next reply. -/
def advance (i : Input) : Input := { i with taken := i.taken + 1 }

/-- The replies of a list, and one and the same reply for ever after. -/
def ofList (replies : List Reply) (after : Reply) : Input :=
  let replies := replies.toArray
  { replies := fun n => (replies[n]?).getD after }

/-- A script of answers, after which there is no more input. -/
def ofScript (answers : List (Except InputFault Int)) : Input :=
  ofList (answers.map fun answer => { answer }) { answer := .error .scriptEnded }

theorem ofList_replies (replies : List Reply) (after : Reply) (n : Nat) :
    (ofList replies after).replies n = (replies[n]?).getD after := by
  simp [ofList]

end Input

end Subleq
