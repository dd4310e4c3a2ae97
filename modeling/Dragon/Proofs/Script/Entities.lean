import Dragon.Script.OfTyped

/-!
# What has a name in a script

Variables and iterators, functions and their parameters, objects and what constructs them, whatever
the depth.
-/
namespace Dragon

namespace Script.Entity

/-- The number of a symbol, or of the object that a field belongs to. -/
def number : Entity → Nat
  | symbol id => id
  | field owner _ => owner

/-- The place of a field in its object. -/
def place : Entity → Nat
  | symbol _ => 0
  | field _ index => index

def ofVar (v : Var) : Entity := symbol v.id

def ofParam (p : ForgeParam) : Entity := symbol p.id

def ofField (f : Field) : Entity := field f.owner f.index

end Script.Entity

namespace Typed

open Script (Entity)

mutual

def Stmt.entities : Stmt → List Entity
  | .declare _ v _ => [.ofVar v]
  | .function f body => .symbol f.id :: f.params.map .ofVar ++ blockEntities body
  | .object .matter ref fields _ _ => .symbol ref.id :: fields.map fun f => .ofField f.field
  | .object .guild ref _ parameters methods =>
    .symbol ref.id :: (parameters.getD []).map .ofParam ++ methodsEntities methods
  | .branch _ body alternate => blockEntities body ++ alternate.entities
  | .while_ _ body | .repeat_ _ body => blockEntities body
  | .range iterator _ _ _ body | .foreignRange iterator _ _ _ body | .forEach iterator _ body =>
    .ofVar iterator :: blockEntities body
  | .print _ | .increment _ | .decrement _ | .assign .. | .return_ _ | .shortReturn | .break_
  | .call _ | .expr _ | .bare .. | .misplaced .. => []

def blockEntities : List Stmt → List Entity
  | [] => []
  | s :: rest => s.entities ++ blockEntities rest

def methodsEntities : List Method → List Entity
  | [] => []
  | .mk f body :: rest => f.params.map .ofVar ++ blockEntities body ++ methodsEntities rest

def Alternate.entities : Alternate → List Entity
  | .none => []
  | .block body => blockEntities body
  | .chain _ body alternate => blockEntities body ++ alternate.entities

end

end Typed

end Dragon
