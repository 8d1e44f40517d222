/-!
# Checked access

The heap and the search address arrays by computed positions and count in 64-bit words. In the
states they can reach, no position is ever outside its array and no count ever leaves the word, but
that is a theorem and not a convention. So each access and each sum here is a computation that says
what would have gone wrong, and "no fault is ever raised" can be stated and proved.
-/

namespace AddressableHeap

/-- What went wrong inside a computation, as opposed to a request that was turned down. -/
inductive Fault where
  /-- A sequence of `length` cells was addressed at `index`. -/
  | outOfBounds (length index : Nat)
  /-- A sum or difference does not fit into 64 bits. -/
  | overflow
  /-- A loop used up the rounds it was given. -/
  | unfinished
  deriving DecidableEq, Repr

def Fault.message : Fault → String
  | .outOfBounds length index =>
    s!"index out of bounds: the len is {length} but the index is {index}"
  | .overflow => "arithmetic overflow"
  | .unfinished => "the search did not finish"

/-- A computation that may raise a fault. -/
abbrev Checked := Except Fault

namespace Checked

variable {α : Type}

/-- The cell at `index`. -/
def get (cells : Array α) (index : Nat) : Checked α :=
  if h : index < cells.size then pure cells[index]
  else throw (.outOfBounds cells.size index)

/-- Overwrite the cell at `index`. -/
def set (cells : Array α) (index : Nat) (cell : α) : Checked (Array α) :=
  if h : index < cells.size then pure (cells.set index cell h)
  else throw (.outOfBounds cells.size index)

/-- Exchange the cells at `i` and `j`. -/
def swap (cells : Array α) (i j : Nat) : Checked (Array α) :=
  if hi : i < cells.size then
    if hj : j < cells.size then pure (cells.swap i j hi hj)
    else throw (.outOfBounds cells.size j)
  else throw (.outOfBounds cells.size i)

/-- The sum of two words. -/
def add (a b : UInt64) : Checked UInt64 :=
  if a.toNat + b.toNat < UInt64.size then pure (a + b) else throw .overflow

/-- The difference of two words. -/
def sub (a b : UInt64) : Checked UInt64 :=
  if b ≤ a then pure (a - b) else throw .overflow

@[simp] theorem ok_bind {β : Type} (a : α) (f : α → Checked β) : (Except.ok a >>= f) = f a := rfl

@[simp] theorem error_bind {β : Type} (fault : Fault) (f : α → Checked β) :
    (Except.error fault >>= f) = .error fault := rfl

/-- A sequence succeeds exactly if each of its steps does. -/
theorem bind_eq_ok {β : Type} {x : Checked α} {f : α → Checked β} {b : β} :
    (x >>= f) = .ok b ↔ ∃ a, x = .ok a ∧ f a = .ok b := by
  cases x <;> simp

theorem get_eq_ok {cells : Array α} {index : Nat} (h : index < cells.size) :
    get cells index = .ok cells[index] := by
  simp [get, h, pure, Except.pure]

theorem set_eq_ok {cells : Array α} {index : Nat} {cell : α} (h : index < cells.size) :
    set cells index cell = .ok (cells.set index cell h) := by
  simp [set, h, pure, Except.pure]

theorem size_of_set_eq_ok {cells cells' : Array α} {index : Nat} {cell : α}
    (he : set cells index cell = .ok cells') : index < cells.size ∧ cells'.size = cells.size := by
  unfold set at he
  split at he
  · rename_i h
    obtain rfl := Except.ok.inj he
    exact ⟨h, Array.size_set h⟩
  · exact nomatch he

theorem swap_eq_ok {cells : Array α} {i j : Nat} (hi : i < cells.size) (hj : j < cells.size) :
    swap cells i j = .ok (cells.swap i j hi hj) := by
  simp [swap, hi, hj, pure, Except.pure]

theorem add_eq_ok {a b : UInt64} (h : a.toNat + b.toNat < UInt64.size) : add a b = .ok (a + b) := by
  simp only [add, h, if_true]; rfl

theorem sub_eq_ok {a b : UInt64} (h : b ≤ a) : sub a b = .ok (a - b) := by
  simp only [sub, h, if_true]; rfl

end Checked

end AddressableHeap
