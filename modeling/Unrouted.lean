import Unrouted.Board.Snapshot
import Unrouted.Net.History
import Unrouted.Store.History
import Unrouted.Session.Lines
import Unrouted.Session.Written
import Unrouted.Main
import Unrouted.Proofs.Arena
import Unrouted.Proofs.Arena.Generations
import Unrouted.Proofs.Arena.Capacity
import Unrouted.Proofs.Table
import Unrouted.Proofs.Sorting
import Unrouted.Proofs.Registry
import Unrouted.Proofs.Registry.Histories
import Unrouted.Proofs.Registry.Capacity
import Unrouted.Proofs.Geometry.Length
import Unrouted.Proofs.Geometry.Whole
import Unrouted.Proofs.Geometry.Collinear
import Unrouted.Proofs.Geometry.Mesh
import Unrouted.Proofs.Geometry.Crossing
import Unrouted.Proofs.Geometry.Ring
import Unrouted.Proofs.Geometry.HitTest
import Unrouted.Proofs.Spanning.Plan
import Unrouted.Proofs.Spanning.Greedy
import Unrouted.Proofs.Spanning.Minimal
import Unrouted.Proofs.Spanning.Lightest
import Unrouted.Proofs.Spanning.Strategies
import Unrouted.Proofs.Spanning.Renumbering
import Unrouted.Proofs.Spanning.Scan
import Unrouted.Proofs.Spanning.Contraction
import Unrouted.Proofs.Spanning.Roots
import Unrouted.Proofs.Spanning.NearestPairs
import Unrouted.Proofs.Net.Contribution
import Unrouted.Proofs.Net.Items
import Unrouted.Proofs.Net.Frame
import Unrouted.Proofs.Net.Copper
import Unrouted.Proofs.Net.Ties
import Unrouted.Proofs.Net.Tracked
import Unrouted.Proofs.Net.Keeps
import Unrouted.Proofs.Net.Nodes
import Unrouted.Proofs.Net.Joins
import Unrouted.Proofs.Net.Contacts
import Unrouted.Proofs.Net.Forest
import Unrouted.Proofs.Net.Owners
import Unrouted.Proofs.Net.Faults
import Unrouted.Proofs.Net.Settled
import Unrouted.Proofs.Net.Alike
import Unrouted.Proofs.Net.Lightest
import Unrouted.Proofs.Net.Routed
import Unrouted.Proofs.Net.Undrawn
import Unrouted.Proofs.Net.Ages
import Unrouted.Proofs.Net.Capacity
import Unrouted.Proofs.Net.Marks
import Unrouted.Proofs.Net.Nearest
import Unrouted.Proofs.Net.Lines
import Unrouted.Proofs.Store.Events
import Unrouted.Proofs.Store.Files
import Unrouted.Proofs.Store.Faults
import Unrouted.Proofs.Store.Histories
import Unrouted.Proofs.Store.Undrawn
import Unrouted.Proofs.Store.NetHistories
import Unrouted.Proofs.Store.Airwires
import Unrouted.Proofs.Store.Frame
import Unrouted.Proofs.Session.Atomic
import Unrouted.Proofs.Store.Modules
import Unrouted.Proofs.Store.Renewal
import Unrouted.Proofs.Store.Independence
import Unrouted.Proofs.Store.Replacement
import Unrouted.Proofs.Session.Acceptance
import Unrouted.Proofs.Json.Lexer
import Unrouted.Proofs.Json.Reader
import Unrouted.Proofs.Json.Form
import Unrouted.Proofs.Board.Snapshot
