import Unrouted.Session.Command
import Unrouted.Store.Airwires

/-!
A session: the store of the board that was loaded, and the settings for the next one.
A command changes the session step by step as it is carried out.  A failure ends it there
and takes nothing back, so what can fail is checked before anything is changed.
-/

namespace Unrouted

structure NetSummary where
  net : NetCode
  nodes : Nat
  missing : Nat
  dirty : Bool
  visible : Bool
deriving DecidableEq, Repr

inductive Reply where
  | done
  | loaded (netCount missing : Nat)
  | itemUpdated (net : NetCode) (dirty : Bool)
  | moduleUpdated (padCount : Nat)
  /-- The net that tracked the item, if one did. -/
  | itemRemoved (net : Option NetCode)
  | recalculated (missing : Nat)
  | ratsnest (airwires : List Airwire) (missing : Nat)
  | condition (dirty connected : Bool)
  | status (path : Option String) (nets : List NetSummary) (missing : Nat)
deriving DecidableEq

structure Response where
  id : Option Json
  outcome : Except Failure Reply

/-- The text of a file, or why it was not opened.  A file that was opened has no text if it
cannot be read to its end or its bytes spell none. -/
abbrev Files := String → Except OpenError (Option String)

structure Session where
  /-- The path that the last load named. -/
  path : Option String
  store : Option Store
  options : Options
deriving DecidableEq

namespace Session

def start : Session := { path := none, store := none, options := .default }

/-- The board itself, or the one in a file. -/
def findBoard (files : Files) : Option Board → Option String → Except Failure Board
  | some board, _ => .ok board
  | none, some path =>
    match files path with
    | .error cause => .error (.fileNotOpened path cause)
    | .ok none => .error (.fileNotRead path .notJson)
    | .ok (some text) =>
      match Board.read text with
      | .error cause => .error (.fileNotRead path cause)
      | .ok board => .ok board
  | none, none => .error .nothingToLoad

/-- The nets that have nodes. -/
def summaries (store : Store) : List NetSummary :=
  (store.numberedNets.filter fun e => !e.2.isEmpty).map fun e =>
    { net := e.1, nodes := e.2.nodeCount, missing := e.2.missing.length,
      dirty := e.2.dirty, visible := e.2.visible }

/-- Marks what was named, the item before the module. -/
def addMarks (store : Store) (item : Option ItemId) (group : Option ModuleId) : Store :=
  let store := (item.map store.mark).getD store
  (group.map store.markModule).getD store

end Session

/-- What changes a session until it answers or fails. -/
abbrev Action := ExceptT Failure (StateM Session)

namespace Action

/-- The store of the board that was loaded. -/
def loaded : Action Store := do
  match (← get).store with
  | none => throw .noBoard
  | some store => return store

def setStore (store : Store) : Action Unit := modify fun s => { s with store := some store }

/-- Loads a board and brings all its nets up to date.  New settings stay for later
loads. -/
def load (files : Files) (board : Option Board) (path : Option String)
    (options : Option Options) : Action Reply := do
  let board ← Session.findBoard files board path
  let options := options.getD (← get).options
  if options.maxNet < board.maxNet then
    throw (.netTooHigh board.maxNet options.maxNet)
  else
    modify fun s => { s with options }
    let store := ((Store.empty options).load board).recalculate none
    modify fun s => { s with path }
    setStore store
    return .loaded (store.nets.size - 1) store.missingCount

/-- Carries out a command on the store of the loaded board. -/
def onBoard : BoardCommand → Action Reply
  | .updateItem item => do
    let store ← loaded
    if store.accepts item.net then
      let store := store.update item
      setStore store
      return .itemUpdated item.net (store.isDirty item.net)
    else throw (.netTooHigh item.net store.options.maxNet)
  | .updateModule group => do
    let store ← loaded
    match group.pads.find? fun pad => !store.accepts pad.net with
    | some pad => throw (.netTooHigh pad.net store.options.maxNet)
    | none =>
      setStore (store.updateModule group)
      return .moduleUpdated group.pads.length
  | .removeItem id => do
    let store ← loaded
    setStore (store.remove id)
    return .itemRemoved (store.itemNet? id)
  | .removeModule id => do
    let store ← loaded
    setStore (store.removeModule id)
    return .done
  | .recalculate net => do
    let store := (← loaded).recalculate net
    setStore store
    return .recalculated store.missingCount
  | .getRatsnest net => do
    let store ← loaded
    let shown := store.airwires.filter fun wire => net.all fun code => decide (wire.net = code)
    return .ratsnest shown store.missingCount
  | .setVisible net visible => do
    let store ← loaded
    setStore (store.setVisible net visible)
    return .done
  | .isDirty net => do
    let store ← loaded
    return .condition (store.isDirty net) (store.isConnected net)
  | .addSimple item group => do
    let store ← loaded
    setStore (Session.addMarks store item group)
    return .done
  | .clearSimple => do
    let store ← loaded
    setStore store.clearMarks
    return .done
  | .getStatus => do
    let store ← loaded
    return .status (← get).path (Session.summaries store) store.missingCount

def ofCommand (files : Files) : Command → Action Reply
  | .load board path options => load files board path options
  | .onBoard command => onBoard command

/-- Reads what is asked for and does it. -/
def ofRequest (files : Files) (request : Request) : Action Reply := do
  let command ← Command.ofRequest request.method request.params
  ofCommand files command

end Action

namespace Session

def answer (s : Session) (files : Files) (request : Request) : Response × Session :=
  let (outcome, s) := (Action.ofRequest files request).run.run s
  ({ id := request.id, outcome }, s)

end Session

end Unrouted
