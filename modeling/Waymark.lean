import Waymark.Datum.Codec
import Waymark.Decimal
import Waymark.Shelf
import Waymark.Tariff
import Waymark.Workspace
import Waymark.Proofs.Arena.Occupancy
import Waymark.Proofs.Graph.Mirror
import Waymark.Proofs.Cost.Lawful
import Waymark.Proofs.Graph.Growth
import Waymark.Proofs.Graph.Walk
import Waymark.Proofs.Overlay.Fit
import Waymark.Proofs.Overlay.Layout
import Waymark.Proofs.Overlay.Renewal
import Waymark.Proofs.Search.Course
import Waymark.Proofs.Graph.Decoration
import Waymark.Proofs.Overlay.Mounted
import Waymark.Proofs.Search.Start
import Waymark.Proofs.Graph.Edit
import Waymark.Proofs.Workspace.Turn
import Waymark.Proofs.Workspace.Sound
import Waymark.Proofs.Workspace.Request
import Waymark.Proofs.Search.Ways
import Waymark.Proofs.Search.Tree
import Waymark.Proofs.Search.Trail
import Waymark.Proofs.Search.Queue
import Waymark.Proofs.Search.Settled
import Waymark.Proofs.Search.Optimal
import Waymark.Proofs.Search.Tally
import Waymark.Proofs.Cost.Rounding
import Waymark.Proofs.Cost.Packing
import Waymark.Proofs.Cost.Binary64
import Waymark.Proofs.Graph.Registry
import Waymark.Proofs.Overlay.Registration
import Waymark.Proofs.Search.Failing
import Waymark.Proofs.Arena.Chronicle
import Waymark.Proofs.Graph.Ledger
import Waymark.Proofs.Workspace.Registry
import Waymark.Proofs.Workspace.Issue
import Waymark.Proofs.Search.Chart
import Waymark.Proofs.Search.Settling
import Waymark.Proofs.Search.Layer
import Waymark.Proofs.Search.Uniform
import Waymark.Proofs.Search.Fewest
import Waymark.Proofs.Search.Agreement
import Waymark.Proofs.Graph.Succession
import Waymark.Proofs.Graph.Unique
import Waymark.Proofs.Workspace.Unique
import Waymark.Proofs.Arena.Map
import Waymark.Proofs.Graph.Bare
import Waymark.Proofs.Overlay.Round
import Waymark.Proofs.Overlay.Entry
import Waymark.Proofs.Search.Life
import Waymark.Proofs.Search.Origin
import Waymark.Proofs.Workspace.Life
import Waymark.Proofs.Overlay.Alike
import Waymark.Proofs.Search.Alike
import Waymark.Proofs.Overlay.Quote
import Waymark.Proofs.Search.Reuse
import Waymark.Proofs.Workspace.Reuse
import Waymark.Proofs.Overlay.Rechannel
import Waymark.Proofs.Search.Rechannel
import Waymark.Proofs.Workspace.Deed
import Waymark.Proofs.Workspace.Twins
import Waymark.Proofs.Workspace.Isolation
import Waymark.Proofs.Graph.Unlink
import Waymark.Proofs.Arena.Count
import Waymark.Proofs.Graph.Count
import Waymark.Proofs.Search.Discipline
import Waymark.Proofs.Search.Account
import Waymark.Proofs.Search.Spread
import Waymark.Proofs.Search.Reached
import Waymark.Proofs.Graph.Restored
import Waymark.Proofs.Overlay.Question
import Waymark.Proofs.Workspace.Atomic
import Waymark.Proofs.Graph.Removal
import Waymark.Proofs.Graph.Addition
import Waymark.Proofs.Search.Halting
import Waymark.Proofs.Search.Unstopped
import Waymark.Proofs.Graph.Orientation
import Waymark.Proofs.Search.Orientation
import Waymark.Proofs.Search.Counterpart
import Waymark.Proofs.Search.Limit
import Waymark.Proofs.Search.Comparison
import Waymark.Proofs.Search.Lockstep
import Waymark.Proofs.Graph.Prospect
import Waymark.Proofs.Search.Prospect
import Waymark.Proofs.Search.Outline
import Waymark.Proofs.SlotTable.Refinement
import Waymark.Proofs.Arena.Turnover
import Waymark.Proofs.Frontier.Stable
import Waymark.Proofs.Search.Inquiry
import Waymark.Proofs.Workspace.Inquiry
