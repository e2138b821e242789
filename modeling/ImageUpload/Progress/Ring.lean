namespace ImageUpload

/-- The most recent values, at most `capacity` of them.  The slots fill up in order
and are then overwritten in place, starting with the oldest.  `next` is the slot
that the next value goes to. -/
structure Ring (α : Type) where
  slots : Array α
  capacity : Nat
  next : Nat

namespace Ring

variable {α : Type}

/-- An empty ring.  It has room for at least one value. -/
def empty (capacity : Nat) : Ring α :=
  ⟨#[], max 1 capacity, 0⟩

def size (r : Ring α) : Nat :=
  r.slots.size

def push (r : Ring α) (a : α) : Ring α :=
  { r with
    slots := if r.slots.size < r.capacity then r.slots.push a else r.slots.setIfInBounds r.next a
    next := (r.next + 1) % r.capacity }

/-- The oldest value still held. -/
def first? (r : Ring α) : Option α :=
  if r.slots.size = r.capacity then r.slots[r.next]? else r.slots[0]?

def last? (r : Ring α) : Option α :=
  if r.slots.isEmpty then none else r.slots[(r.next + r.capacity - 1) % r.capacity]?

end Ring
end ImageUpload
