import BatchFlow.Graph.Vertex
import BatchFlow.Proofs.Workflow.Built

/-!
# Fragments

A fragment is a piece of a dag with one way in and one way out: a step, fragments in a row, or
branches, each behind a step of its own, that meet in one node. Branches come right behind what
stands before the fragment, or behind a decision of the fragment, whose last branch is the default
one.

A fragment is built into a dag node by node with a new builder for each node. Names are numbered, so
no two of them are the same.
-/

namespace BatchFlow

mutual

/-- A piece of a dag with one way in and one way out. -/
inductive Fragment where
  | track
  | seq {n : Nat} (parts : Fragments n)
  /-- Two branches or more that run side by side. -/
  | par {n : Nat} (arms : Fragments (n + 2))
  /-- Branches of which one is taken. There is a last one, for when no other is taken. -/
  | branch {n : Nat} (arms : Fragments (n + 1))

/-- Fragments in order, of a given number. -/
inductive Fragments : Nat → Type where
  | none : Fragments 0
  | more {n : Nat} (first : Fragment) (rest : Fragments n) : Fragments (n + 1)

end

mutual

/-- The blocks of a sort that the fragment asks for. -/
def Fragment.blocks (role : Role) : Fragment → Nat
  | .track => 0
  | .seq parts => parts.blocks role
  | .par arms => (if role = .fork then 1 else 0) + arms.blocks role
  | .branch arms => (if role = .decision then 1 else 0) + arms.blocks role

def Fragments.blocks (role : Role) : {n : Nat} → Fragments n → Nat
  | _, .none => 0
  | _, .more first rest => first.blocks role + rest.blocks role

end

namespace Fragment

def forks (f : Fragment) : Nat := f.blocks .fork

def decisions (f : Fragment) : Nat := f.blocks .decision

/-- How a node attaches to what stands before it. -/
inductive Entry where
  | root
  | after (parent : NodeId)
  | when (parent : NodeId) (label : String)
  | otherwise (parent : NodeId)

/-- The edge that an entry declares. -/
def Entry.links : Entry → List Link
  | root => []
  | after parent => [⟨parent, none⟩]
  | when parent label => [⟨parent, some (.labeled label)⟩]
  | otherwise parent => [⟨parent, some .otherwise⟩]

/-- The edges that a node declares behind an entry and, plainly, behind other nodes. -/
def Entry.linksWith (entry : Entry) (others : List NodeId) : List Link :=
  entry.links ++ others.map fun p => ⟨p, none⟩

/-- A dag that fragments are built into, and the number of nodes that were named. -/
structure Assembly where
  dag : Dag := {}
  counter : Nat := 0

/-- Builds a shell node behind an entry and behind other nodes. -/
def Assembly.node (s : Assembly) (stem : String) (entry : Entry) (others : List NodeId) :
    Except BuildError (NodeId × Assembly) := do
  let counter := s.counter + 1
  let edits : List (Builder.Edit .shell) := .node (.name (stem ++ toString counter)) ::
    (entry.linksWith others).map fun l => .node (.parent l.parent l.condition)
  let b ← edits.foldlM Builder.apply (.new .shell)
  let (id, dag) ← b.build s.dag
  return (id, { dag, counter })

/-- The label of a branch that is not the last one. -/
def caseLabel (index : Nat) : String := "$\x7bcase == " ++ toString index ++ "\x7d"

/-- How the branches of a decision begin. -/
def caseEntry (owner : NodeId) (last index : Nat) : Entry :=
  if index = last then .otherwise owner else .when owner (caseLabel index)

end Fragment

open Fragment

mutual

/-- Builds the fragment behind an entry, and gives its last node. -/
def Fragment.build (entry : Entry) (s : Assembly) :
    Fragment → Except BuildError (NodeId × Assembly)
  | .track => s.node "t" entry []
  | .seq parts => parts.buildRow entry none s
  | .par arms => do
      let (exits, s) ← arms.buildArms "p" (fun _ => entry) 0 s
      s.node "j" .root exits
  | .branch (n := last) arms => do
      let (owner, s) ← s.node "d" entry []
      let (exits, s) ← arms.buildArms "c" (caseEntry owner last) 0 s
      s.node "m" .root exits

/-- Builds the fragments one after the other. If there are none, a step stands for them. -/
def Fragments.buildRow (entry : Entry) (exit : Option NodeId) (s : Assembly) :
    {n : Nat} → Fragments n → Except BuildError (NodeId × Assembly)
  | _, .none =>
      match exit with
      | some exit => .ok (exit, s)
      | none => s.node "t" entry []
  | _, .more first rest => do
      let (exit, s) ← first.build entry s
      rest.buildRow (.after exit) (some exit) s

/-- Builds each fragment behind a node of its own, and gives their last nodes. -/
def Fragments.buildArms (stem : String) (entry : Nat → Entry) (index : Nat) (s : Assembly) :
    {n : Nat} → Fragments n → Except BuildError (List NodeId × Assembly)
  | _, .none => .ok ([], s)
  | _, .more first rest => do
      let (head, s) ← s.node stem (entry index) []
      let (exit, s) ← first.build (.after head) s
      let (exits, s) ← rest.buildArms stem entry (index + 1) s
      return (exit :: exits, s)

end

end BatchFlow
