/-!
# Faults

A fault is no error of a program: it says that the interpreter was given something that it relies
on never to get.  Trees made by hand, and depths that were recorded by hand, reach them; programs
that went through the parser and the scope analysis are meant not to.
-/

namespace LoxLang

/-- What the interpreter relies on and did not find. -/
inductive Fault
  /-- A node or an operator of an unknown kind, or a return outside of every call. -/
  | unreachable
  /-- A depth that leads past the global frame. -/
  | pastGlobal
  /-- The tokens end without an end marker. -/
  | pastEnd
  /-- A frame that was to bind a name does not. -/
  | missingBinding
  /-- A superclass method was asked for at a place without a recorded depth. -/
  | unrecordedSuper
  /-- The frames of a superclass method hold no class, or no instance of one. -/
  | strayReceiver
deriving DecidableEq, Repr

/-- The text of a fault; a missing binding or record has none. -/
def Fault.message : Fault → Option String
  | unreachable => some "Unreachable code reached"
  | pastGlobal => some "Resolved distance walks past the global scope"
  | pastEnd => some "peeked past the end of the stream"
  | missingBinding => none
  | unrecordedSuper => none
  | strayReceiver => some ""

end LoxLang
