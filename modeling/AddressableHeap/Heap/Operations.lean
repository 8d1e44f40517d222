import AddressableHeap.Heap.Sift

/-!
# The operations of the heap

Each operation either does its work or turns the request down, and hands back a heap in both cases:
an operation that turns a request down hands back the heap it was given. Inserting, changing a key
and removing leave a single entry out of order, which is then moved to its level.
-/

namespace AddressableHeap.Heap

/-! ## Changes to the array -/

/-- Put an entry into the slot behind the last, and move it to its level. -/
def append (h : Heap) (entry : Entry) : Checked Heap := do
  let ⟨entries, index, last⟩ := h
  let last ← Checked.add last 1
  let entries ← Checked.set entries last.toNat entry
  let index ← index.record entry.id last
  let (_, h) ← siftUp ⟨entries, index, last⟩ last
  pure h

/-- Overwrite the key in `slot`, and leave the entry where it is. -/
def setKey (h : Heap) (slot : Slot) (key : Key) : Checked Heap := do
  let ⟨entries, index, last⟩ := h
  let entry ← Checked.get entries slot.toNat
  let entries ← Checked.set entries slot.toNat { entry with key }
  pure ⟨entries, index, last⟩

/-- Change the key in `slot`, and move the entry to its level: towards the root under a smaller key
and towards the leaves under a larger one. -/
def rekey (h : Heap) (slot : Slot) (key : Key) : Checked Heap := do
  let former ← Checked.get h.entries slot.toNat
  let h ← h.setKey slot key
  if key < former.key then
    let (_, h) ← h.siftUp slot
    pure h
  else if former.key < key then
    let (_, h) ← h.siftDown slot
    pure h
  else pure h

/-- Exchange the entry in `slot` with the last one, and give up the last slot. -/
def vacate (h : Heap) (slot : Slot) : Checked Heap := do
  let ⟨entries, index, last⟩ ← h.swap slot h.last
  let last ← Checked.sub last 1
  pure ⟨entries, index, last⟩

/-- The element in the slot behind the last. -/
def vacated (h : Heap) : Checked Id := do
  let slot ← Checked.add h.last 1
  let entry ← Checked.get h.entries slot.toNat
  pure entry.id

/-! ## Requests -/

/-- Make `id` a member under `key`. A full heap is reported first, then a number that is out of
range, then a member. -/
def insert (h : Heap) (key : Key) (id : Id) : Checked (Except Rejection Unit × Heap) := do
  if h.size = h.capacity then pure (.error (.full h.capacity), h)
  else if h.capacity ≤ id then pure (.error (.outOfRange id h.capacity), h)
  else
    match ← h.locate id with
    | some _ => pure (.error (.duplicate id), h)
    | none => do
      let h ← h.append ⟨key, id⟩
      pure (.ok (), h)

/-- Change the key of the member `id`. -/
def update (h : Heap) (key : Key) (id : Id) : Checked (Except Rejection Unit × Heap) := do
  match ← h.locate id with
  | none => pure (.error (.unknown id), h)
  | some slot => do
    let h ← h.rekey slot key
    pure (.ok (), h)

/-- Remove the member `id`. The entry that takes over its slot can have to move either way. The
element found in the slot that was given up, which is `id`, is the answer. -/
def remove (h : Heap) (id : Id) : Checked (Except Rejection Id × Heap) := do
  match ← h.locate id with
  | none => pure (.error (.unknown id), h)
  | some slot => do
    let h ← h.vacate slot
    let h ← if slot ≤ h.last then Prod.snd <$> h.settle slot else pure h
    let gone ← h.vacated
    pure (.ok gone, h)

/-- Remove the member at the root, and answer with it. -/
def removeMin (h : Heap) : Checked (Except Rejection Id × Heap) := do
  if h.isEmpty then pure (.error .empty, h)
  else
    let h ← h.vacate Tree.root
    let h ← if h.last = 0 then pure h else Prod.snd <$> h.siftDown Tree.root
    let gone ← h.vacated
    pure (.ok gone, h)

/-- Dismiss all members. The array and the index stay as they are. -/
def clear (h : Heap) : Heap := { h with last := 0 }

end AddressableHeap.Heap
