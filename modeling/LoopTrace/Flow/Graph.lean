import LoopTrace.Code.Routine

/-!
# Flow graphs

A routine's blocks and edges as a graph. Nodes are numbered in execution order. An edge taken by a jump
leads back to the head of the loop, one taken when a branch finds its match leaves the trace, and all
others fall through.
-/

namespace LoopTrace

/-- What an edge is taken for. -/
inductive EdgeKind where
  | fallthrough
  | guardFailure
  | loopBack
  deriving DecidableEq, Repr

/-- The label of an edge in the exported graph. -/
def EdgeKind.label : EdgeKind → String
  | .fallthrough => "fallthrough"
  | .guardFailure => "guard failure"
  | .loopBack => "loop back"

/-- An edge between two nodes. -/
structure Edge where
  origin : Nat
  target : Nat
  kind : EdgeKind
  deriving DecidableEq, Repr

/-- The graph of a routine. -/
structure FlowGraph where
  /-- The id of each node's block. -/
  nodes : List BlockId
  edges : List Edge
  deriving DecidableEq, Repr

namespace Block

/-- The blocks to which the block jumps. -/
def jumpTargets (b : Block) : List BlockId :=
  b.code.filterMap fun
    | .jump target => target
    | _ => none

/-- The blocks to which the block branches when a match is found. -/
def matchTargets (b : Block) : List BlockId :=
  b.code.flatMap fun
    | .branch _ _ _ _ targets _ => targets
    | _ => []

/-- What the edge to a successor is taken for. -/
def edgeKind (b : Block) (successor : BlockId) : EdgeKind :=
  if successor ∈ b.jumpTargets then .loopBack
  else if successor ∈ b.matchTargets then .guardFailure
  else .fallthrough

end Block

namespace Routine

/-- The node of a block. -/
def node? (r : Routine) (id : BlockId) : Option Nat := r.blockIds.idxOf? id

/-- The edges that leave a block. -/
def edgesOf (r : Routine) (b : Block) : List Edge :=
  b.successors.toList.filterMap fun successor => do
    return ⟨← r.node? b.id, ← r.node? successor, b.edgeKind successor⟩

/-- The graph of the routine. -/
def graph (r : Routine) : FlowGraph := ⟨r.blockIds, r.blocks.flatMap r.edgesOf⟩

end Routine

namespace FlowGraph

/-- A node's line in the graph's text. -/
def nodeLine (id : BlockId) (number : Nat) : String :=
  "    " ++ toString number ++ " [ label = \"" ++ id.text ++ "\" ]\n"

/-- An edge's line in the graph's text. -/
def edgeLine (e : Edge) : String :=
  "    " ++ toString e.origin ++ " -> " ++ toString e.target ++ " [ label = \"" ++ e.kind.label ++ "\" ]\n"

/-- The graph in the DOT language. -/
def dot (g : FlowGraph) : String :=
  "digraph \x7b\n" ++ String.join (g.nodes.zipIdx.map fun (id, number) => nodeLine id number) ++
    String.join (g.edges.map edgeLine) ++ "\x7d\n"

end FlowGraph

end LoopTrace
