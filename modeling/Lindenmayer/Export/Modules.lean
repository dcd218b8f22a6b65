import Lindenmayer.Export.NameTable
import Lindenmayer.LSystem

/-! Words as strings of numbered modules, for programs that give modules an age and parameters.
A word has neither, so its modules are new and bare. -/

namespace Lindenmayer

structure Module where
  symbol : Nat
  age : Float
  parameters : List Float
deriving DecidableEq

namespace Module

def ofSymbol (n : Nat) : Module := ⟨n,0,[]⟩
def isBare (m : Module) : Bool := m.parameters.isEmpty && m.age == 0

end Module

structure ModuleString where
  modules : Array Module
  time : Float
deriving DecidableEq

namespace ModuleString

def sizeLimit : Nat := 1000000

def empty : ModuleString := ⟨#[],0⟩

def size (s : ModuleString) : Nat := s.modules.size

/-- Nothing if there is no room for one more. -/
def push? (s : ModuleString) (m : Module) : Option ModuleString :=
  if s.size < sizeLimit then some { s with modules := s.modules.push m } else none

def symbols (s : ModuleString) : List Nat := s.modules.toList.map Module.symbol

/-- The names of the modules, one after the other. -/
def spell (s : ModuleString) (t : NameTable) : List Word :=
  s.symbols.map fun n => (t.name? n).getD []

end ModuleString

/-- Why a word cannot be exported. -/
inductive ExportFailure
  | full
  | refused (c : Symbol) (why : NameTable.Refusal)
deriving DecidableEq

def ExportFailure.message : ExportFailure → String
  | .full => "symbios error: State capacity overflow"
  | .refused c why => s!"cannot intern symbol '{c}': {why.message}"

namespace NameTable

/-- Exports a word after what is there already. Names that came in stay, also after a failure. -/
def exportWord (t : NameTable) (s : ModuleString) :
    Word → NameTable × Except ExportFailure ModuleString
  | [] => (t,.ok s)
  | c::w =>
    match t.intern [c] with
    | (t,.error why) => (t,.error (.refused c why))
    | (t,.ok n) =>
      match s.push? (.ofSymbol n) with
      | none => (t,.error .full)
      | some s => t.exportWord s w

end NameTable

def LSystem.exportTo (s : LSystem) (t : NameTable) :
    NameTable × Except ExportFailure ModuleString :=
  t.exportWord .empty s.current

end Lindenmayer
