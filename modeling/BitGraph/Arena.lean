/-
This file defines numbered collections that only grow. An item gets the next
free number when it is stored, and keeps it: items can be changed in place but
never moved or removed, so a number that was given out stays valid.
-/

namespace BitGraph

/-- Items, each under the number it got when it was stored. -/
structure Arena (Item : Type) where
  items : Array Item := #[]
  deriving DecidableEq, Repr

namespace Arena

variable {Item : Type}

/-- How many items are stored; this is the next number to be given out. -/
def size (arena : Arena Item) : Nat :=
  arena.items.size

/-- The item of a number. -/
def get? (arena : Arena Item) (id : Nat) : Option Item :=
  arena.items[id]?

/-- Whether a number has been given out. -/
def contains (arena : Arena Item) (id : Nat) : Bool :=
  id < arena.size

/-- Store an item under the next number. -/
def push (arena : Arena Item) (item : Item) : Arena Item :=
  ⟨arena.items.push item⟩

/-- Change the item of a number; a number that was not given out has none to change. -/
def modify (arena : Arena Item) (id : Nat) (change : Item → Item) : Arena Item :=
  ⟨arena.items.modify id change⟩

/-- Replace the item of a number, if it was given out. -/
def set? (arena : Arena Item) (id : Nat) (item : Item) : Option (Arena Item) :=
  if arena.contains id then some (arena.modify id fun _ => item) else none

/-- The numbers given out so far, in order. -/
def ids (arena : Arena Item) : List Nat :=
  List.range arena.size

/-- The items in the order of their numbers. -/
def toList (arena : Arena Item) : List Item :=
  arena.items.toList

/-- The items with their numbers, in order. -/
def entries (arena : Arena Item) : List (Nat × Item) :=
  arena.ids.zip arena.toList

/-- Store items one after the other. -/
def ofList (items : List Item) : Arena Item :=
  ⟨items.toArray⟩

/-! ### What each change does to the numbered items -/

@[simp] theorem get?_empty (id : Nat) : (⟨#[]⟩ : Arena Item).get? id = none := by
  simp [get?]

@[simp] theorem size_push (arena : Arena Item) (item : Item) :
    (arena.push item).size = arena.size + 1 := by
  simp [size, push]

@[simp] theorem get?_push_self (arena : Arena Item) (item : Item) :
    (arena.push item).get? arena.size = some item := by
  simp [get?, size, push]

theorem get?_push_other (arena : Arena Item) (item : Item) (id : Nat) (other : id ≠ arena.size) :
    (arena.push item).get? id = arena.get? id := by
  simp only [get?, push, size] at other ⊢
  rw [Array.getElem?_push, if_neg other]

@[simp] theorem size_modify (arena : Arena Item) (id : Nat) (change : Item → Item) :
    (arena.modify id change).size = arena.size := by
  simp [size, modify]

@[simp] theorem get?_modify_self (arena : Arena Item) (id : Nat) (change : Item → Item) :
    (arena.modify id change).get? id = (arena.get? id).map change := by
  simp [get?, modify, Array.getElem?_modify]

theorem get?_modify_other (arena : Arena Item) (id : Nat) (change : Item → Item) (index : Nat)
    (other : index ≠ id) : (arena.modify id change).get? index = arena.get? index := by
  simp [get?, modify, Array.getElem?_modify, Ne.symm other]

/-- Exactly the numbers below the size have an item. -/
theorem isSome_get?_iff (arena : Arena Item) (id : Nat) :
    (arena.get? id).isSome = true ↔ id < arena.size := by
  simp [get?, size]

end Arena

end BitGraph
