import Unrouted.Net.Polygon

/-!
One net: its registry, what each of its items contributed there, and the missing
connections found by the last update.  Every change of the items leaves the net dirty;
the missing connections stay as they are until the next update.
-/

namespace Unrouted

structure TrackLink where
  connection : ConnectionId
  start : NodeId
  finish : NodeId
deriving DecidableEq, Repr

/-- A connection that is missing, with the places of its ends. -/
structure MissingLink where
  source : NodeId
  target : NodeId
  sourcePosition : Point
  targetPosition : Point
  weight : Length
deriving DecidableEq, Repr

structure Net where
  strategy : Strategy
  registry : Registry
  pads : Table PadId NodeId
  vias : Table ViaId NodeId
  tracks : Table TrackId TrackLink
  zones : Table ZoneId (List Polygon)
  /-- The connections that tie nodes to the polygons of a zone. -/
  ties : Table ZoneId (List ConnectionId)
  missing : List MissingLink
  /-- The nodes in simple mode, in the order in which they were marked. -/
  marked : List NodeId
  dirty : Bool
  visible : Bool
  updates : Nat
deriving DecidableEq

namespace Net

/-- A net without items.  It has not been updated yet. -/
def empty (strategy : Strategy) : Net :=
  { strategy, registry := .empty, pads := .empty, vias := .empty, tracks := .empty,
    zones := .empty, ties := .empty, missing := [], marked := [], dirty := true,
    visible := true, updates := 0 }

def nodeCount (net : Net) : Nat := net.registry.nodes.size

def connectionCount (net : Net) : Nat := net.registry.connections.size

def isEmpty (net : Net) : Bool := net.nodeCount == 0

def isConnected (net : Net) : Bool := !net.dirty && net.missing.isEmpty

def setVisible (net : Net) (visible : Bool) : Net := { net with visible }

/-! ## Zones -/

/-- Joins each pair of nodes by copper.  A pair that the registry refuses is passed
over. -/
def joinAll (r : Registry) : List (NodeId × NodeId) → List ConnectionId × Registry
  | [] => ([], r)
  | (source, target) :: rest =>
    match r.connect source target 0.0 with
    | .error _ => joinAll r rest
    | .ok (c, r) =>
      let (cs, r) := joinAll r rest
      (c :: cs, r)

/-- Ties the nodes inside a zone's polygons to the nodes of these. -/
def tieZone (net : Net) (id : ZoneId) : Net :=
  match net.zones.get? id with
  | none => net
  | some polygons =>
    let (cs, registry) := joinAll net.registry (Polygon.contactPairs net.registry polygons)
    { net with registry, ties := net.ties.insert id ((net.ties.get? id).getD [] ++ cs) }

def untieZone (net : Net) (id : ZoneId) : Net :=
  match net.ties.get? id with
  | none => net
  | some cs =>
    { net with registry := cs.foldl Registry.disconnect net.registry, ties := net.ties.erase id }

/-- Ties all zones anew, so that nodes that came after a zone are tied to it. -/
def tieZones (net : Net) : Net :=
  let ids := net.zones.keys
  ids.foldl tieZone (ids.foldl untieZone net)

/-! ## Items -/

/-- Forgets a node that was erased: it is not marked any more, and the ties that touch
it go. -/
def forget (net : Net) (n : NodeId) : Net :=
  let touching (c : ConnectionId) : Bool := (net.registry.connection? c).any (·.touches n)
  let staying (c : ConnectionId) : Bool := (net.registry.connection? c).any (!·.touches n)
  let gone := net.ties.values.flatten.filter touching
  { net with
    registry := gone.foldl Registry.disconnect net.registry,
    ties := net.ties.mapValues fun _ cs => cs.filter staying,
    marked := net.marked.filter fun m => decide (m ≠ n) }

/-- Gives up one hold of an item on a node. -/
def release (net : Net) (n : NodeId) : Net :=
  let (erased, registry) := net.registry.release n
  let net := { net with registry }
  if erased then net.forget n else net

def removePad (net : Net) (id : PadId) : Net :=
  match net.pads.get? id with
  | none => net
  | some n => { release { net with pads := net.pads.erase id } n with dirty := true }

def removeVia (net : Net) (id : ViaId) : Net :=
  match net.vias.get? id with
  | none => net
  | some n => { release { net with vias := net.vias.erase id } n with dirty := true }

def removeTrack (net : Net) (id : TrackId) : Net :=
  match net.tracks.get? id with
  | none => net
  | some link =>
    let net :=
      { net with
        tracks := net.tracks.erase id,
        registry := net.registry.disconnect link.connection }
    { (net.release link.start).release link.finish with dirty := true }

def removeZone (net : Net) (id : ZoneId) : Net :=
  let net := net.untieZone id
  match net.zones.get? id with
  | none => net
  | some polygons =>
    let net := { net with zones := net.zones.erase id }
    { polygons.foldl (fun net g => net.release g.node) net with dirty := true }

/-- Adds a pad in the place of the one with its number, if there is one. -/
def addPad (net : Net) (pad : Pad) : Net :=
  let net := net.removePad pad.id
  let (n, registry) := net.registry.hold pad.position
  { net with registry, pads := net.pads.insert pad.id n, dirty := true }

def addVia (net : Net) (via : Via) : Net :=
  let net := net.removeVia via.id
  let (n, registry) := net.registry.hold via.position
  { net with registry, vias := net.vias.insert via.id n, dirty := true }

/-- Both ends are held before they are joined, so the registry does not refuse. -/
def addTrack (net : Net) (track : Track) : Net :=
  let net := net.removeTrack track.id
  let (start, registry) := net.registry.hold track.start
  let (finish, registry) := registry.hold track.finish
  match registry.connect start finish 0.0 with
  | .error _ => net
  | .ok (connection, registry) =>
    let link := { connection, start, finish }
    { net with registry, tracks := net.tracks.insert track.id link, dirty := true }

def addZone (net : Net) (zone : Zone) : Net :=
  let net := net.removeZone zone.id
  let (polygons, registry) := Polygon.registerAll net.registry zone.id zone.outlines
  let net := { net with registry, zones := net.zones.insert zone.id polygons }
  { net.tieZone zone.id with dirty := true }

/-- Adds an item.  It replaces what the item with its identity contributed before. -/
def add (net : Net) : Item → Net
  | .pad pad => net.addPad pad
  | .via via => net.addVia via
  | .track track => net.addTrack track
  | .zone zone => net.addZone zone

/-- Takes an item out; an unknown one changes nothing. -/
def remove (net : Net) : ItemId → Net
  | .pad id => net.removePad id
  | .via id => net.removeVia id
  | .track id => net.removeTrack id
  | .zone id => net.removeZone id

def tracksItem (net : Net) : ItemId → Bool
  | .pad id => net.pads.contains id
  | .via id => net.vias.contains id
  | .track id => net.tracks.contains id
  | .zone id => net.zones.contains id

/-- The nodes an item contributes: the one of a pad or a via, the ends of a track, the
nodes of the polygons of a zone. -/
def nodesOf (net : Net) : ItemId → List NodeId
  | .pad id => (net.pads.get? id).toList
  | .via id => (net.vias.get? id).toList
  | .track id =>
    match net.tracks.get? id with
    | none => []
    | some link => [link.start, link.finish]
  | .zone id => ((net.zones.get? id).getD []).map Polygon.node

end Net

end Unrouted
