/-!
Arenas of reusable slots.  A handle names a slot and the generation in which its
value was put there; once the value is gone, the handle resolves to nothing, also
after the slot has been filled again.

Slots are numbered by natural numbers.  It is assumed that an arena has at most
`2 ^ 32` of them, so that an index fits the 32 bits that a generation has.
-/

namespace Unrouted

/-- A reference to a value of type `α` in some arena. -/
structure Handle (α : Type) where
  index : Nat
  generation : UInt32
deriving Repr, Inhabited

/-- Handles are compared without a look at the values they refer to. -/
instance {α : Type} : DecidableEq (Handle α) := fun h k =>
  decidable_of_iff (h.index = k.index ∧ h.generation = k.generation) (by
    cases h
    cases k
    simp)

/-- The written form: `#3v1` is slot 3 in generation 1. -/
def Handle.text {α : Type} (h : Handle α) : String :=
  "#" ++ toString h.index ++ "v" ++ toString h.generation.toNat

/-- A slot is filled once in each of its generations, and may be empty after. -/
structure Slot (α : Type) where
  generation : UInt32
  value : Option α
deriving DecidableEq, Repr

/-- The slots, the empty ones with the last emptied first, and the number of full
ones. -/
structure Arena (α : Type) where
  slots : Array (Slot α)
  free : List Nat
  size : Nat
deriving DecidableEq, Repr

namespace Arena

variable {α : Type}

def empty : Arena α := { slots := #[], free := [], size := 0 }

instance : Inhabited (Arena α) := ⟨empty⟩

def get? (a : Arena α) (h : Handle α) : Option α :=
  match a.slots[h.index]? with
  | none => none
  | some s => if s.generation = h.generation then s.value else none

def live (a : Arena α) (h : Handle α) : Bool := (a.get? h).isSome

/-- The generation of a slot; a slot yet to come has its first one. -/
def generation (a : Arena α) (i : Nat) : UInt32 :=
  match a.slots[i]? with
  | none => 0
  | some s => s.generation

/-- Puts a value into the slot emptied last, in its next generation, or into a new
slot if none is empty. -/
def insert (a : Arena α) (v : α) : Handle α × Arena α :=
  match a.free with
  | [] =>
    ({ index := a.slots.size, generation := 0 },
      { slots := a.slots.push { generation := 0, value := some v },
        free := [], size := a.size + 1 })
  | i :: rest =>
    let g := a.generation i + 1
    ({ index := i, generation := g },
      { slots := a.slots.setIfInBounds i { generation := g, value := some v },
        free := rest, size := a.size + 1 })

def erase (a : Arena α) (h : Handle α) : Arena α :=
  if a.live h then
    { slots := a.slots.setIfInBounds h.index { generation := h.generation, value := none },
      free := h.index :: a.free, size := a.size - 1 }
  else a

def modify (a : Arena α) (h : Handle α) (f : α → α) : Arena α :=
  match a.get? h with
  | none => a
  | some v =>
    { a with slots :=
        a.slots.setIfInBounds h.index { generation := h.generation, value := some (f v) } }

/-- The live handles and their values in the order of the slots. -/
def entries (a : Arena α) : List (Handle α × α) :=
  a.slots.toList.zipIdx.filterMap fun (s, i) =>
    s.value.map fun v => ({ index := i, generation := s.generation }, v)

def handles (a : Arena α) : List (Handle α) := a.entries.map Prod.fst

end Arena

end Unrouted
