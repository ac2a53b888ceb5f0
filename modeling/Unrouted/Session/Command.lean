import Unrouted.Board.Snapshot

/-!
Requests and what they ask for.  A request names a method and hands over its
parameters; both are read before anything is done.
-/

namespace Unrouted

open Json (Decoded Record)

structure Request where
  id : Option Json
  method : String
  params : Option Json

namespace Request

/-- The identity and the parameters are kept as they are, inside the request itself.
Written as an array, a request has all three values. -/
def decode (j : Json) : Decoded Request := do
  if let .array items := j then
    if items.length < 3 then .error (.missing "params")
  let kept := Json.keep (Json.nesting - 1)
  let r ← Record.ofJson ["id", "method", "params"] j
  let id ← r.optional "id" none (Json.toOption kept)
  let method ← r.required "method" Json.toText
  let params ← r.optional "params" none (Json.toOption kept)
  return { id, method, params }

def read (line : String) : Decoded Request := Json.readText decode line

end Request

inductive BoardCommand where
  | updateItem (item : Item)
  | updateModule (group : Module)
  | removeItem (id : ItemId)
  | removeModule (id : ModuleId)
  | recalculate (net : Option NetCode)
  | getRatsnest (net : Option NetCode)
  | setVisible (net : NetCode) (visible : Bool)
  | isDirty (net : NetCode)
  | addSimple (item : Option ItemId) (group : Option ModuleId)
  | clearSimple
  | getStatus
deriving DecidableEq

inductive Command where
  | load (board : Option Board) (path : Option String) (options : Option Options)
  | onBoard (command : BoardCommand)
deriving DecidableEq

inductive OpenError where
  | missing
  | refused (reason : String)
deriving DecidableEq, Repr

def OpenError.message : OpenError → String
  | missing => "No such file or directory (os error 2)"
  | refused reason => reason

inductive Failure where
  | unreadableRequest (cause : Json.DecodeError)
  | unknownMethod (method : String)
  | unreadableParams (cause : Json.DecodeError)
  | nothingToMark
  | netTooHigh (net limit : NetCode)
  | noBoard
  | nothingToLoad
  | fileNotOpened (path : String) (cause : OpenError)
  | fileNotRead (path : String) (cause : Json.DecodeError)
deriving DecidableEq, Repr

namespace Failure

def code : Failure → Int
  | unreadableRequest _ => -32700
  | unknownMethod _ => -32601
  | unreadableParams _ | nothingToMark | netTooHigh _ _ => -32602
  | noBoard => 2
  | nothingToLoad | fileNotOpened _ _ | fileNotRead _ _ => 3

def message : Failure → String
  | unreadableRequest cause => "Parse error: " ++ cause.message
  | unknownMethod method => "Unknown method: " ++ method
  | unreadableParams cause => "Invalid params: " ++ cause.message
  | nothingToMark => "Invalid params: expected item_id or module_id"
  | netTooHigh net limit =>
    "Invalid params: net " ++ toString net.toNat ++ " exceeds max_net " ++ toString limit.toNat
  | noBoard => "No board loaded. Call Load first."
  | nothingToLoad => "expected either 'board' or 'path'"
  | fileNotOpened path cause => "Failed to open board file " ++ path ++ ": " ++ cause.message
  | fileNotRead path cause => "Failed to parse board file " ++ path ++ ": " ++ cause.message

end Failure

namespace Command

/-- The parameters of a command, absent ones as an empty object. -/
def readParams {α : Type} (params : Option Json) (names : List String)
    (decode : Record → Decoded α) : Except Failure α :=
  match (Record.ofJson names (params.getD (.object []))).bind decode with
  | .ok a => .ok a
  | .error cause => .error (.unreadableParams cause)

/-- An optional parameter may also be null. -/
def optionalParam {α : Type} (r : Record) (name : String) (decode : Json → Decoded α) :
    Decoded (Option α) :=
  r.optional name none (Json.toOption decode)

def readLoad (params : Option Json) : Except Failure Command :=
  readParams params ["board", "path", "options"] fun r => do
    let board ← optionalParam r "board" Board.decode
    let path ← optionalParam r "path" Json.toText
    let options ← optionalParam r "options" Options.decode
    return .load board path options

/-- A mark needs an item or a module. -/
def readAddSimple (params : Option Json) : Except Failure BoardCommand := do
  let (item, group) ← readParams params ["item_id", "module_id"] fun r => do
    let item ← optionalParam r "item_id" ItemId.decode
    let group ← optionalParam r "module_id" Json.toUInt64
    return (item, group)
  if item.isNone && group.isNone then .error .nothingToMark
  else return .addSimple item group

/-- A command on a loaded board.  Two methods take no parameters and do not look at
them. -/
def readOnBoard (method : String) (params : Option Json) : Except Failure BoardCommand :=
  match method with
  | "UpdateItem" =>
    readParams params ["item"] fun r => return .updateItem (← r.required "item" Item.decode)
  | "UpdateModule" =>
    readParams params ["module"] fun r =>
      return .updateModule (← r.required "module" Module.decode)
  | "RemoveItem" =>
    readParams params ["item_id"] fun r =>
      return .removeItem (← r.required "item_id" ItemId.decode)
  | "RemoveModule" =>
    readParams params ["module_id"] fun r =>
      return .removeModule (← r.required "module_id" Json.toUInt64)
  | "Recalculate" =>
    readParams params ["net"] fun r =>
      return .recalculate (← optionalParam r "net" Json.toUInt64)
  | "GetRatsnest" =>
    readParams params ["net"] fun r =>
      return .getRatsnest (← optionalParam r "net" Json.toUInt64)
  | "SetVisible" =>
    readParams params ["net", "visible"] fun r => do
      let net ← r.required "net" Json.toUInt64
      let visible ← r.required "visible" Json.toBool
      return .setVisible net visible
  | "IsDirty" =>
    readParams params ["net"] fun r => return .isDirty (← r.required "net" Json.toUInt64)
  | "AddSimple" => readAddSimple params
  | "ClearSimple" => .ok .clearSimple
  | "GetStatus" => .ok .getStatus
  | _ => .error (.unknownMethod method)

def ofRequest (method : String) (params : Option Json) : Except Failure Command :=
  if method = "Load" then readLoad params
  else (readOnBoard method params).map Command.onBoard

end Command

end Unrouted
