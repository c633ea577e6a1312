import BatchFlow.Document.Emission
import BatchFlow.Builder
import BatchFlow.Logging
import BatchFlow.Proofs.Dag.Edges
import BatchFlow.Proofs.Dag.Renumbering
import BatchFlow.Proofs.Paths
import BatchFlow.Proofs.Region
import BatchFlow.Proofs.Workflow.Built
import BatchFlow.Proofs.Workflow.Order
import BatchFlow.Proofs.Workflow.Flow
import BatchFlow.Proofs.Workflow.MergePoints
import BatchFlow.Proofs.Outline.Traces
import BatchFlow.Proofs.Outcome
import BatchFlow.Proofs.InPlace
import BatchFlow.Proofs.Outline.Walk
import BatchFlow.Proofs.Outline.Structured
import BatchFlow.Proofs.Graph.Drawing
import BatchFlow.Proofs.Outline.Wires
import BatchFlow.Proofs.Outline.Sheets
import BatchFlow.Proofs.Outline.Fitting
import BatchFlow.Proofs.Outline.Frames
import BatchFlow.Proofs.Lowering.Drawn
import BatchFlow.Proofs.Lowering.Acceptance
import BatchFlow.Proofs.Outline.Runs
import BatchFlow.Proofs.Lowering.Entered
import BatchFlow.Proofs.Lowering.Safety
import BatchFlow.Proofs.Lowering.Wrapping
import BatchFlow.Proofs.Lowering.Precedence
import BatchFlow.Proofs.Workflow.Active
import BatchFlow.Proofs.Lowering.Resolution
import BatchFlow.Proofs.Document.Verdict
import BatchFlow.Proofs.Graph.Names
import BatchFlow.Proofs.Outline.Names
import BatchFlow.Proofs.Lowering.Shape
import BatchFlow.Proofs.Lowering.Nesting
import BatchFlow.Proofs.Lowering.OnePass
import BatchFlow.Proofs.Dag.InPlace
import BatchFlow.Proofs.Workflow.Coherent
import BatchFlow.Proofs.Workflow.Connection
import BatchFlow.Proofs.Workflow.Made
import BatchFlow.Proofs.Workflow.Searching
import BatchFlow.Proofs.Workflow.Components
import BatchFlow.Proofs.Graph.InPlace
import BatchFlow.Proofs.Builder.Slots
import BatchFlow.Proofs.Builder.Fields
import BatchFlow.Proofs.Builder.Kinds
import BatchFlow.Proofs.Builder.Discipline
import BatchFlow.Proofs.Builder.Copying
import BatchFlow.Proofs.Graph.Edges
import BatchFlow.Proofs.Document.Forms
import BatchFlow.Proofs.Document.Text
import BatchFlow.Proofs.Dag.Insertion
import BatchFlow.Proofs.Lowering.Counting
import BatchFlow.Proofs.Lowering.Local
import BatchFlow.Proofs.Workflow.Meeting
import BatchFlow.Proofs.Fragment.Build
import BatchFlow.Proofs.Workflow.Inflow
import BatchFlow.Proofs.Workflow.Whole
import BatchFlow.Proofs.Fragment.Strand
import BatchFlow.Proofs.Fragment.Settling
import BatchFlow.Proofs.Fragment.Nodes
import BatchFlow.Proofs.Fragment.Building
import BatchFlow.Proofs.Fragment.Lowers
import BatchFlow.Proofs.Document.Dangling
import BatchFlow.Proofs.Document.Readiness
import BatchFlow.Proofs.Builder.Properties
import BatchFlow.Proofs.Builder.Parents
import BatchFlow.Proofs.Workflow.Rebuilding
import BatchFlow.Proofs.Graph.Numbering
import BatchFlow.Proofs.Workflow.Placing
import BatchFlow.Proofs.Outline.Progress
