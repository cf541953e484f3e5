import JointCircuit.Main
import JointCircuit.Element.Text
import JointCircuit.Pool.Text
import JointCircuit.Deviation
import JointCircuit.Protocol.Task
import JointCircuit.Text.Hex
import JointCircuit.Transport.Channels
import JointCircuit.Proofs.Unison
import JointCircuit.Proofs.Toss
import JointCircuit.Proofs.Verdict
import JointCircuit.Proofs.Sharing
import JointCircuit.Proofs.Supply
import JointCircuit.Proofs.Gates
import JointCircuit.Proofs.Nodes
import JointCircuit.Proofs.Clear
import JointCircuit.Proofs.Flights
import JointCircuit.Proofs.Refinement
import JointCircuit.Proofs.Tracing
import JointCircuit.Proofs.Entries
import JointCircuit.Proofs.Books
import JointCircuit.Proofs.Ledger
import JointCircuit.Proofs.Against
import JointCircuit.Proofs.Rushing
import JointCircuit.Proofs.Control
import JointCircuit.Proofs.Binding
import JointCircuit.Proofs.Watched
import JointCircuit.Proofs.Privacy
import JointCircuit.Proofs.Conduct
import JointCircuit.Proofs.Release
import JointCircuit.Proofs.Dealing
import JointCircuit.Proofs.Receipts
import JointCircuit.Proofs.Duration
import JointCircuit.Proofs.Kinds
import JointCircuit.Proofs.Disclosure
import JointCircuit.Proofs.Rations
import JointCircuit.Proofs.Shortage
import JointCircuit.Proofs.Interleaving
import JointCircuit.Proofs.Correspondence
import JointCircuit.Proofs.Expansion
import JointCircuit.Proofs.Cancelling
import JointCircuit.Proofs.Postage
import JointCircuit.Proofs.Itinerary
import JointCircuit.Proofs.Passage
import JointCircuit.Proofs.Traffic
import JointCircuit.Proofs.Carriage
import JointCircuit.Proofs.Linearity
import JointCircuit.Proofs.Batches
import JointCircuit.Proofs.Handover
import JointCircuit.Proofs.Inventory
import JointCircuit.Proofs.Payloads
import JointCircuit.Proofs.Files
import JointCircuit.Proofs.Pairs
import JointCircuit.Proofs.LowHalf
import JointCircuit.Proofs.Filing
import JointCircuit.Proofs.Admission
