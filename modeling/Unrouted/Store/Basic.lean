import Unrouted.Net.Update

/-!
All nets of a board.  Each tracked item is on exactly one net, which `itemNets`
remembers; the nets are numbered by their places in the array, and the array grows to
the highest net in use.
-/

namespace Unrouted

structure Store where
  options : Options
  nets : Array Net
  itemNets : Table ItemId NetCode
  /-- The pads of each module. -/
  modules : Table ModuleId (List PadId)
deriving DecidableEq

namespace Store

def empty (options : Options) : Store :=
  { options, nets := #[], itemNets := .empty, modules := .empty }

def net? (s : Store) (code : NetCode) : Option Net := s.nets[code.toNat]?

def itemNet? (s : Store) (id : ItemId) : Option NetCode := s.itemNets.get? id

def accepts (s : Store) (code : NetCode) : Bool := decide (code ≤ s.options.maxNet)

def isDirty (s : Store) (code : NetCode) : Bool := (s.net? code).any Net.dirty

/-- A net that is not there has nothing to connect. -/
def isConnected (s : Store) (code : NetCode) : Bool := (s.net? code).all Net.isConnected

/-- The missing links of all nets but net zero, as of their last updates. -/
def missingCount (s : Store) : Nat :=
  (s.nets.toList.drop 1).foldl (fun n net => n + net.missing.length) 0

def modifyNet (s : Store) (code : NetCode) (f : Net → Net) : Store :=
  { s with nets := s.nets.modify code.toNat f }

/-- Makes the array reach to a net.  There is no place for a net that is not accepted,
nor for the last of all numbers. -/
def reach? (s : Store) (code : NetCode) : Option Store :=
  if s.accepts code && decide (code ≠ lastNet) then
    let lacking := code.toNat + 1 - s.nets.size
    some { s with nets := s.nets ++ Array.replicate lacking (Net.empty s.options.strategy) }
  else none

def remove (s : Store) (id : ItemId) : Store :=
  match s.itemNet? id with
  | none => s
  | some code =>
    { s with itemNets := s.itemNets.erase id }.modifyNet code fun net => net.remove id

/-- Tracks an item on its net, and on no other net any more.  An item on net zero or on
a net that is not accepted is not tracked. -/
def add (s : Store) (item : Item) : Store :=
  let moved := (s.itemNet? item.id).any fun code => decide (code ≠ item.net)
  let s := if moved then s.remove item.id else s
  if item.net = noNet then s
  else
    match s.reach? item.net with
    | none => s
    | some s =>
      { s.modifyNet item.net fun net => net.add item with
        itemNets := s.itemNets.insert item.id item.net }

def update (s : Store) (item : Item) : Store := (s.remove item.id).add item

/-- Starts over with the items of a board.  Of two modules with one number the later
counts. -/
def load (s : Store) (board : Board) : Store :=
  let s := empty s.options
  let top := if board.maxNet ≤ s.options.maxNet then board.maxNet else s.options.maxNet
  let s := (s.reach? top).getD s
  let modules :=
    board.modules.foldl (fun t m => t.insert m.id (m.pads.map Pad.id)) s.modules
  board.items.foldl add { s with modules }

/-- Updates every pad of a module.  A pad that it lists leaves the module it was in
before; a pad that it no longer lists is taken out. -/
def updateModule (s : Store) (m : Module) : Store :=
  let current := m.pads.map Pad.id
  let previous := (s.modules.get? m.id).getD []
  let stripped := s.modules.mapValues fun id pads =>
    if id = m.id then pads else pads.filter fun p => !current.contains p
  let s := { s with modules := stripped.insert m.id current }
  let dropped := previous.filter fun p => !current.contains p
  let s := dropped.foldl (fun s p => s.remove (.pad p)) s
  m.pads.foldl (fun s p => s.update (.pad p)) s

/-- Forgets a module and takes its pads out. -/
def removeModule (s : Store) (id : ModuleId) : Store :=
  match s.modules.get? id with
  | none => s
  | some pads =>
    pads.foldl (fun s p => s.remove (.pad p)) { s with modules := s.modules.erase id }

def mark (s : Store) (id : ItemId) : Store :=
  match s.itemNet? id with
  | none => s
  | some code => s.modifyNet code fun net => (net.nodesOf id).foldl Net.mark net

def markModule (s : Store) (id : ModuleId) : Store :=
  ((s.modules.get? id).getD []).foldl (fun s p => s.mark (.pad p)) s

def clearMarks (s : Store) : Store := { s with nets := s.nets.map Net.clearMarks }

def setVisible (s : Store) (code : NetCode) (visible : Bool) : Store :=
  s.modifyNet code fun net => net.setVisible visible

/-- Brings the nets up to date that are not, one after another. -/
def updateInTurn (nets : Array Net) : Array Net :=
  nets.foldl (fun done net => done.push (if net.dirty then net.update else net)) #[]

/-- Brings the nets up to date that are not, all at the same time. -/
def updateSideBySide (nets : Array Net) : Array Net :=
  nets.map fun net => if net.dirty then net.update else net

/-- Brings one net up to date, or all that are not, side by side when there are many. -/
def recalculate (s : Store) : Option NetCode → Store
  | some code => s.modifyNet code Net.update
  | none =>
    let outdated := s.nets.toList.countP Net.dirty
    if outdated = 0 then s
    else if s.options.parallelThreshold.toNat ≤ outdated then
      { s with nets := updateSideBySide s.nets }
    else { s with nets := updateInTurn s.nets }

end Store

end Unrouted
