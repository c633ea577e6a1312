import BatchFlow.Graph
import BatchFlow.Graph.NameSupply
import BatchFlow.Outline

/-!
# Laying out an outline

A structured graph is laid out as a list of edits. Vertices get their ids in the order they are
added, so the sheet that collects the edits knows the id of the next vertex without a graph at hand.

The opening of a block is added right before its closing, and both before the arms. The edge into
the next vertex is kept open as a stub until that vertex is there; an arm without vertices connects
the opening with the closing.
-/

namespace BatchFlow

/-- The source of an edge whose target is not laid out yet. -/
structure Stub where
  source : VertexId
  condition : Option Condition := none
  deriving DecidableEq

/-- Edits in the making. -/
structure Sheet where
  edits : List Graph.Edit := []
  /-- The id of the next vertex. -/
  next : VertexId := 0
  names : NameSupply

namespace Sheet

/-- Adds a vertex. -/
def add (s : Sheet) (edit : Graph.Edit) : Sheet :=
  { s with edits := s.edits ++ [edit], next := s.next + 1 }

/-- Adds a vertex that is named from a stem. -/
def addNamed (s : Sheet) (stem : Stem) (edit : String → Graph.Edit) : Sheet :=
  let (name, names) := s.names.next stem
  { s.add (edit name) with names }

/-- Closes a stub. -/
def connect (s : Sheet) (stub : Stub) (target : VertexId) : Sheet :=
  { s with edits := s.edits ++ [.connect stub.source target stub.condition] }

end Sheet

mutual

/-- Lays out a row behind a stub. The answer holds the stub behind the row. -/
def Row.layout : Row → Stub → Sheet → Stub × Sheet
  | .done, stub, s => (stub, s)
  | .task n next, stub, s =>
      let id := s.next
      let s := (s.add (.addTask n.name ⟨n.id, n.action, n.handler⟩)).connect stub id
      next.layout ⟨id, none⟩ s
  | .fork arms next, stub, s =>
      let opening := s.next
      let closing := opening + 1
      let s := ((s.addNamed .fork .addFork).addNamed .join .addJoin).connect stub opening
      next.layout ⟨closing, none⟩ (arms.layout opening closing s)
  | .decision arms next, stub, s =>
      let opening := s.next
      let closing := opening + 1
      let s := ((s.addNamed .decision .addDecision).addNamed .decisionJoin .addDecisionJoin).connect
        stub opening
      next.layout ⟨closing, none⟩ (arms.layout opening closing s)

/-- Lays out the arms between an opening and a closing vertex. -/
def Arms.layout : Arms → VertexId → VertexId → Sheet → Sheet
  | .none, _, _, s => s
  | .arm condition row more, opening, closing, s =>
      let (out, s) := row.layout ⟨opening, condition⟩ s
      more.layout opening closing (s.connect out closing)

end

/-- The edits that make the graph of an outline, avoiding names that are taken. The start comes
first and the end second; the kill vertex comes last and has no edges. -/
def Row.edits (r : Row) (taken : List String) : List Graph.Edit :=
  let start := 0
  let finish := 1
  let s := (({ names := .start taken } : Sheet).add .addStart).add .addFinish
  let (out, s) := r.layout ⟨start, none⟩ s
  ((s.connect out finish).add .addKill).edits

end BatchFlow
