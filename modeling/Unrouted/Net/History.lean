import Unrouted.Net.Update

/-!
Histories of a net: what can be done to it from outside, one step after another.
-/

namespace Unrouted
namespace Net

inductive Operation where
  | add (item : Item)
  | remove (id : ItemId)
  | update
  | mark (node : NodeId)
  | clearMarks
  | setVisible (visible : Bool)
deriving DecidableEq

def apply (net : Net) : Operation → Net
  | .add item => net.add item
  | .remove id => net.remove id
  | .update => net.update
  | .mark node => net.mark node
  | .clearMarks => net.clearMarks
  | .setVisible visible => net.setVisible visible

def run (net : Net) (history : List Operation) : Net := history.foldl apply net

end Net
end Unrouted
