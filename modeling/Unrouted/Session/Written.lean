import Unrouted.Session.Basic

/-!
The written form of answers.  The fields of an object stand in the order of their
keys; only the answer itself begins with the identity of its request.
-/

namespace Unrouted

def Length.encode (l : Length) : Json := .number (.real l.toFloat)

def Airwire.encode (a : Airwire) : Json :=
  .object [("end", a.finish.encode), ("net", .ofUInt64 a.net), ("simple", .bool a.simple),
    ("start", a.start.encode), ("weight", a.weight.encode)]

def NetSummary.encode (n : NetSummary) : Json :=
  .object [("dirty", .bool n.dirty), ("net", .ofUInt64 n.net), ("nodes", .ofNat n.nodes),
    ("unconnected", .ofNat n.missing), ("visible", .bool n.visible)]

namespace Json

def ofOption {α : Type} (encode : α → Json) : Option α → Json
  | none => .null
  | some a => encode a

end Json

namespace Reply

def success : String × Json := ("status", .string "ok")

def encode : Reply → Json
  | done => .object [success]
  | loaded netCount missing =>
    .object [("net_count", .ofNat netCount), success, ("unconnected_count", .ofNat missing)]
  | itemUpdated net dirty =>
    .object [("dirty", .bool dirty), ("net", .ofUInt64 net), success]
  | moduleUpdated padCount => .object [("pad_count", .ofNat padCount), success]
  | itemRemoved net => .object [("net", Json.ofOption .ofUInt64 net), success]
  | recalculated missing => .object [success, ("unconnected_count", .ofNat missing)]
  | ratsnest airwires missing =>
    .object [("airwires", .array (airwires.map Airwire.encode)),
      ("unconnected_count", .ofNat missing)]
  | condition dirty connected =>
    .object [("connected", .bool connected), ("dirty", .bool dirty)]
  | status path nets missing =>
    .object [("board_path", Json.ofOption .string path),
      ("nets", .array (nets.map NetSummary.encode)), ("unconnected_count", .ofNat missing)]

end Reply

def Failure.encode (f : Failure) : Json :=
  .object [("code", .ofInt f.code), ("message", .string f.message)]

namespace Response

def encode (r : Response) : Json :=
  let id := r.id.getD .null
  match r.outcome with
  | .ok reply => .object [("id", id), ("result", reply.encode)]
  | .error failure => .object [("id", id), ("error", failure.encode)]

end Response

end Unrouted
