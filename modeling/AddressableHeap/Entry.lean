/-!
# Entries

The heap holds entries: an element, known by the number its user chose for it, under a key that says
how early it is wanted. Keys are signed 64-bit integers and a smaller key comes first.
-/

namespace AddressableHeap

/-- What entries are ordered by, the smallest first. -/
abbrev Key := Int64

/-- The number of an element. A heap of capacity `n` takes the numbers below `n`. -/
abbrev Id := Nat

/-- The least key there is. -/
def Key.least : Key := Int64.minValue

/-- An element under its key. -/
structure Entry where
  /-- Its place in the order. -/
  key : Key
  /-- Which element it is. -/
  id : Id
  deriving DecidableEq, Repr

namespace Entry

/-- What lies in slot 0. No key is below its key, so a walk towards the root that compares keys
stops there at the latest. -/
def sentinel : Entry := ⟨Key.least, UInt64.size - 1⟩

/-- What an unused slot is filled with. -/
def blank : Entry := ⟨0, 0⟩

/-- The written form of an entry, `(key, id)`. -/
def text (e : Entry) : String := s!"({e.key}, {e.id})"

/-- The written form of a sequence of entries, with a blank between neighbours. -/
def listText (es : List Entry) : String := " ".intercalate (es.map text)

end Entry

end AddressableHeap
