import LineCalculator.Error

namespace LineCalculator

/-- The bytes written so far, and how many there may be. -/
structure Sink where
  capacity : Option Nat
  written : Array UInt8
  deriving DecidableEq, Repr

namespace Sink

def empty (capacity : Option Nat) : Sink :=
  ⟨capacity, #[]⟩

def fitting (sink : Sink) (bytes : Array UInt8) : Array UInt8 :=
  match sink.capacity with
  | none => bytes
  | some capacity => bytes.take (capacity - sink.written.size)

def fits (sink : Sink) (bytes : Array UInt8) : Bool :=
  match sink.capacity with
  | none => true
  | some capacity => decide (sink.written.size + bytes.size ≤ capacity)

/-- The sink with as many of the bytes as fit. -/
def put (sink : Sink) (bytes : Array UInt8) : Sink :=
  ⟨sink.capacity, sink.written ++ sink.fitting bytes⟩

end Sink

abbrev Console :=
  ExceptT Error (StateM Sink)

namespace Console

def write (text : String) : Console Unit := do
  let bytes := text.toUTF8.data
  let fits ← modifyGet fun sink => (sink.fits bytes, sink.put bytes)
  unless fits do throw (.stream .bufferFull)

def writeLine (text : String) : Console Unit :=
  write (text ++ "\n")

end Console

end LineCalculator
