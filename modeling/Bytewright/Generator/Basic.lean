import Bytewright.Source.Compile
import Bytewright.Stream.Inversion
import Bytewright.Stream.Scope

/-!
# Generators

A generator builds the stream of one code unit.  Emitting is a state transformer that may fail; a
failure keeps what was emitted before it.

Comments give the effect on the value stack as `( before -- after )`, its top on the right.
-/

namespace Bytewright

/-- A stream under construction. -/
structure Generator where
  /-- The file that the unit and its fragments belong to. -/
  fileName : String
  ops : Stream := []
  labels : Labels := {}
  compiler : FragmentCompiler := sourceCompiler

/-- What extends a generator and may fail. -/
abbrev Emit := EStateM AssembleError Generator

namespace Generator

def append (g : Generator) (ops : Stream) : Generator := { g with ops := g.ops ++ ops }

def extend (ops : Stream) : Emit Unit := modify (·.append ops)

def push (op : Op) : Emit Unit := extend [op]

def newLabel : Emit Label := modifyGet fun g =>
  let (l, labels) := g.labels.fresh
  (l, { g with labels })

/-! ### Composite emitters -/

def globalsSlot : String := "_[f_globals]"

def helpersSlot : String := "_[helpers]"

def helpersGlobal : String := "__compiler_helpers"

/-- `( item_1 … item_n -- tuple )`; the empty tuple is a constant. -/
def buildTuple (n : UInt32) : Emit Unit :=
  push (if n = 0 then .const (.tuple []) else .count .buildTuple n)

/-- `( a b c -- c b a )` -/
def reverseThree : Emit Unit := extend [.bare .rotThree, .bare .rotTwo]

/-- `( -- globals )` -/
def loadGlobals : Emit Unit := extend [.name .loadGlobal "globals", plainCall 0]

/-- Caches the globals in a fast local. `( -- )` -/
def storeGlobalsToFast : Emit Unit := do
  loadGlobals
  push (.name .storeFast globalsSlot)

/-- `( -- globals )` -/
def loadGlobalsFromFast : Emit Unit := push (.name .loadFast globalsSlot)

/-- Loads a helper by its name. `( -- helper )` -/
def loadHelper (name : String) : Emit Unit :=
  extend [.name .loadGlobal helpersGlobal, .const (.str name), .bare .binarySubscr]

/-- Caches the helpers in a fast local. `( -- )` -/
def storeHelpersToFast : Emit Unit :=
  extend [.name .loadGlobal helpersGlobal, .name .storeFast helpersSlot]

/-- Loads a helper from the cache. `( -- helper )` -/
def loadHelperFromFast (name : String) : Emit Unit :=
  extend [.name .loadFast helpersSlot, .const (.str name), .bare .binarySubscr]

/-! ### Passes over the stream -/

/-- Resolves all dynamic names and answers with the parameters that this requires. -/
def resolveNames (available : List String) : Emit (List String) := modifyGet fun g =>
  let (required, ops) := Bytewright.resolveNames available g.ops
  (required, { g with ops })

/-- Replaces the stream by what a pass makes of it; a pass that fails changes nothing. -/
def transform (pass : Stream → Except AssembleError Stream) : Emit Unit := fun g =>
  match pass g.ops with
  | .ok ops => .ok () { g with ops }
  | .error e => .error e g

def injectTracing (nested : Bool) : Emit Unit :=
  transform (Bytewright.injectTracing · nested)

def injectInversion : Emit Unit := transform Bytewright.injectInversion

def toCode (g : Generator) (header : Header) : Except AssembleError Code :=
  assemble g.fileName g.ops header

end Generator

end Bytewright
