import Unrouted.Geometry.Point
import Unrouted.Spanning.Candidate

/-!
What a board hands in: pads, vias, tracks and zones, each on a numbered net.  Pads
belong to modules.  Net zero is for items that are on no net.
-/

namespace Unrouted

abbrev NetCode := UInt64

def noNet : NetCode := 0

def lastNet : NetCode := 0xFFFFFFFFFFFFFFFF

abbrev PadId := UInt64
abbrev ViaId := UInt64
abbrev TrackId := UInt64
abbrev ZoneId := UInt64
abbrev ModuleId := UInt64

structure Pad where
  id : PadId
  net : NetCode
  position : Point
deriving DecidableEq, Repr

structure Via where
  id : ViaId
  net : NetCode
  position : Point
deriving DecidableEq, Repr

structure Track where
  id : TrackId
  net : NetCode
  start : Point
  finish : Point
deriving DecidableEq, Repr

/-- A filled area of copper, one outline for each of its parts. -/
structure Zone where
  id : ZoneId
  net : NetCode
  outlines : List (List Point)
deriving DecidableEq, Repr

/-- A group of pads that move together. -/
structure Module where
  id : ModuleId
  pads : List Pad
deriving DecidableEq, Repr

/-- Pads, vias, tracks and zones are numbered apart. -/
inductive ItemId where
  | pad (id : PadId)
  | via (id : ViaId)
  | track (id : TrackId)
  | zone (id : ZoneId)
deriving DecidableEq, Repr

inductive Item where
  | pad (pad : Pad)
  | via (via : Via)
  | track (track : Track)
  | zone (zone : Zone)
deriving DecidableEq, Repr

namespace Item

def id : Item → ItemId
  | pad p => .pad p.id
  | via v => .via v.id
  | track t => .track t.id
  | zone z => .zone z.id

def net : Item → NetCode
  | pad p => p.net
  | via v => v.net
  | track t => t.net
  | zone z => z.net

end Item

structure Board where
  modules : List Module
  vias : List Via
  tracks : List Track
  zones : List Zone
deriving DecidableEq, Repr

namespace Board

def empty : Board := { modules := [], vias := [], tracks := [], zones := [] }

def pads (b : Board) : List Pad := b.modules.flatMap Module.pads

/-- All items: pads first, then vias, tracks and zones. -/
def items (b : Board) : List Item :=
  b.pads.map Item.pad ++ b.vias.map Item.via ++ b.tracks.map Item.track ++
    b.zones.map Item.zone

/-- The highest net of any item, and net zero on an empty board. -/
def maxNet (b : Board) : NetCode :=
  b.items.foldl (fun n item => if n < item.net then item.net else n) noNet

/-- How many nets the board counts, net zero among them.  The count stops at the
largest number of 64 bits. -/
def netCount (b : Board) : UInt64 := if b.maxNet = lastNet then lastNet else b.maxNet + 1

end Board

structure Options where
  /-- How many nets have to be out of date before they are brought up to date side by
  side.  The result does not depend on it. -/
  parallelThreshold : UInt64
  strategy : Strategy
  /-- The highest net that is accepted. -/
  maxNet : NetCode
deriving DecidableEq, Repr

def Options.default : Options :=
  { parallelThreshold := 4, strategy := .mesh, maxNet := 0x100000 }

end Unrouted
