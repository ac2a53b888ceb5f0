import Unrouted.Board.Basic
import Unrouted.Json.Reader
import Unrouted.Json.Record

/-!
The written form of boards and their parts.  `encode` writes objects with all fields;
`decode` reads them back, and reads arrays too.  An item and an item identity name
their kind: the item in a field of its own among the others, the identity beside its
number.
-/

namespace Unrouted

open Json (Decoded Record)

namespace Point

def encode (p : Point) : Json :=
  .object [("x", .ofInt p.x.toInt), ("y", .ofInt p.y.toInt)]

def decode (j : Json) : Decoded Point := do
  let r ← Record.ofJson ["x", "y"] j
  let x ← r.required "x" Json.toInt32
  let y ← r.required "y" Json.toInt32
  return { x, y }

end Point

namespace Pad

def fields (p : Pad) : List (String × Json) :=
  [("id", Json.ofUInt64 p.id), ("net", Json.ofUInt64 p.net), ("position", p.position.encode)]

def encode (p : Pad) : Json := .object p.fields

def decode (j : Json) : Decoded Pad := do
  let r ← Record.ofJson ["id", "net", "position"] j
  let id ← r.required "id" Json.toUInt64
  let net ← r.required "net" Json.toUInt64
  let position ← r.required "position" Point.decode
  return { id, net, position }

end Pad

namespace Via

def fields (v : Via) : List (String × Json) :=
  [("id", Json.ofUInt64 v.id), ("net", Json.ofUInt64 v.net), ("position", v.position.encode)]

def encode (v : Via) : Json := .object v.fields

def decode (j : Json) : Decoded Via := do
  let r ← Record.ofJson ["id", "net", "position"] j
  let id ← r.required "id" Json.toUInt64
  let net ← r.required "net" Json.toUInt64
  let position ← r.required "position" Point.decode
  return { id, net, position }

end Via

namespace Track

def fields (t : Track) : List (String × Json) :=
  [("id", Json.ofUInt64 t.id), ("net", Json.ofUInt64 t.net),
    ("start", t.start.encode), ("end", t.finish.encode)]

def encode (t : Track) : Json := .object t.fields

def decode (j : Json) : Decoded Track := do
  let r ← Record.ofJson ["id", "net", "start", "end"] j
  let id ← r.required "id" Json.toUInt64
  let net ← r.required "net" Json.toUInt64
  let start ← r.required "start" Point.decode
  let finish ← r.required "end" Point.decode
  return { id, net, start, finish }

end Track

namespace Zone

def encodeOutline (outline : List Point) : Json := .array (outline.map Point.encode)

def fields (z : Zone) : List (String × Json) :=
  [("id", Json.ofUInt64 z.id), ("net", Json.ofUInt64 z.net),
    ("polygons", .array (z.outlines.map encodeOutline))]

def encode (z : Zone) : Json := .object z.fields

def decode (j : Json) : Decoded Zone := do
  let r ← Record.ofJson ["id", "net", "polygons"] j
  let id ← r.required "id" Json.toUInt64
  let net ← r.required "net" Json.toUInt64
  let outlines ← r.required "polygons" (Json.toList (Json.toList Point.decode))
  return { id, net, outlines }

end Zone

namespace Module

def encode (m : Module) : Json :=
  .object [("id", Json.ofUInt64 m.id), ("pads", .array (m.pads.map Pad.encode))]

/-- A module without a list of pads has none. -/
def decode (j : Json) : Decoded Module := do
  let r ← Record.ofJson ["id", "pads"] j
  let id ← r.required "id" Json.toUInt64
  let pads ← r.optional "pads" [] (Json.toList Pad.decode)
  return { id, pads }

end Module

namespace ItemId

def kind : ItemId → String
  | pad _ => "pad"
  | via _ => "via"
  | track _ => "track"
  | zone _ => "zone"

def number : ItemId → UInt64
  | pad id => id
  | via id => id
  | track id => id
  | zone id => id

def ofKind (kind : String) (id : UInt64) : Decoded ItemId :=
  match kind with
  | "pad" => .ok (pad id)
  | "via" => .ok (via id)
  | "track" => .ok (track id)
  | "zone" => .ok (zone id)
  | _ => .error (.unknown "kind of item")

def encode (i : ItemId) : Json :=
  .object [("kind", .string i.kind), ("id", Json.ofUInt64 i.number)]

/-- How the kind in `j` is read: in an array it can only be a string. -/
def readKind (j : Json) : Json → Decoded String :=
  match j with
  | .array _ => Json.toText
  | _ => Json.toName

def decode (j : Json) : Decoded ItemId := do
  let r ← Record.ofJson ["kind", "id"] j
  let kind ← r.required "kind" (readKind j)
  let id ← r.required "id" Json.toUInt64
  ofKind kind id

end ItemId

namespace Item

def encode : Item → Json
  | pad p => .object (("type", .string "pad") :: p.fields)
  | via v => .object (("type", .string "via") :: v.fields)
  | track t => .object (("type", .string "track") :: t.fields)
  | zone z => .object (("type", .string "zone") :: z.fields)

/-- The item of a kind, from the part of its written form that does not name the
kind. -/
def ofKind (kind : String) (rest : Json) : Decoded Item :=
  match kind with
  | "pad" => (Pad.decode rest).map pad
  | "via" => (Via.decode rest).map via
  | "track" => (Track.decode rest).map track
  | "zone" => (Zone.decode rest).map zone
  | _ => .error (.unknown "kind of item")

/-- The kind stands in the field `type`, or in front of an array. -/
def decode : Json → Decoded Item
  | .object fields =>
    match fields.filter fun f => f.1 == "type" with
    | [] => .error (.missing "type")
    | [(_, kind)] => do
      ofKind (← Json.toText kind) (.object (fields.filter fun f => f.1 != "type"))
    | _ => .error (.repeated "type")
  | .array (kind :: rest) => do
    ofKind (← Json.toText kind) (.array rest)
  | .array [] => .error (.missing "type")
  | _ => .error (.expected "an object or an array")

end Item

namespace Board

def encode (b : Board) : Json :=
  .object [("modules", .array (b.modules.map Module.encode)),
    ("vias", .array (b.vias.map Via.encode)),
    ("tracks", .array (b.tracks.map Track.encode)),
    ("zones", .array (b.zones.map Zone.encode))]

/-- Every list may be left out. -/
def decode (j : Json) : Decoded Board := do
  let r ← Record.ofJson ["modules", "vias", "tracks", "zones"] j
  let modules ← r.optional "modules" [] (Json.toList Module.decode)
  let vias ← r.optional "vias" [] (Json.toList Via.decode)
  let tracks ← r.optional "tracks" [] (Json.toList Track.decode)
  let zones ← r.optional "zones" [] (Json.toList Zone.decode)
  return { modules, vias, tracks, zones }

end Board

namespace Strategy

def name : Strategy → String
  | mesh => "triangulation"
  | everyPair => "exhaustive"

def encode (s : Strategy) : Json := .string s.name

def decode (j : Json) : Decoded Strategy := do
  match ← Json.toName j with
  | "triangulation" => return mesh
  | "exhaustive" => return everyPair
  | _ => .error (.unknown "strategy")

end Strategy

namespace Options

def encode (o : Options) : Json :=
  .object [("parallel_threshold", Json.ofUInt64 o.parallelThreshold),
    ("candidates", o.strategy.encode), ("max_net", Json.ofUInt64 o.maxNet)]

/-- What is left out is as in `Options.default`. -/
def decode (j : Json) : Decoded Options := do
  let r ← Record.ofJson ["parallel_threshold", "candidates", "max_net"] j
  let parallelThreshold ←
    r.optional "parallel_threshold" default.parallelThreshold Json.toUInt64
  let strategy ← r.optional "candidates" default.strategy Strategy.decode
  let maxNet ← r.optional "max_net" default.maxNet Json.toUInt64
  return { parallelThreshold, strategy, maxNet }

end Options

/- Reading a text. -/
namespace Json

/-- How many arrays and objects a text may nest around a value that is kept, the
outermost included. -/
def nesting : Nat := 127

def readText {α : Type} (decode : Json → Decoded α) (s : String) : Decoded α :=
  match ofText? s with
  | none => .error .notJson
  | some j => decode j

end Json

def Board.read (s : String) : Decoded Board := Json.readText Board.decode s

def Module.read (s : String) : Decoded Module := Json.readText Module.decode s

def ItemId.read (s : String) : Decoded ItemId := Json.readText ItemId.decode s

def Options.read (s : String) : Decoded Options := Json.readText Options.decode s

/-- The kind of an item may stand behind its other fields, so all of them are kept
until it is known, also those that are not fields of an item. -/
def Item.read (s : String) : Decoded Item :=
  Json.readText (fun j => (j.keep Json.nesting).bind fun _ => Item.decode j) s

end Unrouted
