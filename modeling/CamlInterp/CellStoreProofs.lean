import Mathlib.Algebra.Ring.Nat

/-! # Cell stores — allocation, update and release of numbered cells

    A store hands out fresh cell numbers, never reuses one, and keeps a
    released cell dead for ever.  Heaps, stack pools and arrays obtained from
    an allocator are all stores; what the proofs above need is the frame
    behaviour collected here: an operation on one cell leaves every other live
    cell as it was, and a fresh cell was not live before. -/

namespace CellStore

/-- Cells in allocation order; a released cell is `none`. -/
structure Store (α : Type) where
  cells : List (Option α)

variable {α : Type}

namespace Store

/-- The store with no cells. -/
def empty : Store α := ⟨[]⟩

/-- The contents of a live cell. -/
def get (s : Store α) (i : Nat) : Option α := s.cells[i]?.join

/-- The number the next allocation returns. -/
def fresh (s : Store α) : Nat := s.cells.length

/-- Allocate a cell holding `a`; its number is `s.fresh`. -/
def alloc (s : Store α) (a : α) : Store α := ⟨s.cells ++ [some a]⟩

/-- Overwrite cell `i`. -/
def put (s : Store α) (i : Nat) (a : α) : Store α := ⟨s.cells.set i (some a)⟩

/-- Release cell `i`. -/
def free (s : Store α) (i : Nat) : Store α := ⟨s.cells.set i none⟩

/-- Only numbers already handed out are live. -/
theorem lt_fresh_of_get {s : Store α} {i : Nat} {a : α}
    (h : s.get i = some a) : i < s.fresh := by
  unfold get at h
  unfold fresh
  by_cases hi : i < s.cells.length
  · exact hi
  · rw [List.getElem?_eq_none (by omega)] at h
    exact nomatch h

/-- The next number is not live. -/
@[simp] theorem get_fresh (s : Store α) : s.get s.fresh = none := by
  simp [get, fresh]

@[simp] theorem get_alloc_fresh (s : Store α) (a : α) :
    (s.alloc a).get s.fresh = some a := by
  simp [get, alloc, fresh]

/-- Allocation leaves every other cell as it was. -/
theorem get_alloc_of_ne (s : Store α) (a : α) {i : Nat} (h : i ≠ s.fresh) :
    (s.alloc a).get i = s.get i := by
  unfold get alloc fresh at *
  by_cases hi : i < s.cells.length
  · rw [List.getElem?_append_left hi]
  · rw [List.getElem?_eq_none (by simp; omega), List.getElem?_eq_none (by omega)]

/-- A live cell survives an allocation. -/
theorem get_alloc_of_get {s : Store α} {i : Nat} {b : α} (a : α)
    (h : s.get i = some b) : (s.alloc a).get i = some b := by
  rw [get_alloc_of_ne s a (Nat.ne_of_lt (lt_fresh_of_get h))]
  exact h

theorem get_put_self {s : Store α} {i : Nat} {b : α} (a : α)
    (h : s.get i = some b) : (s.put i a).get i = some a := by
  have hi := lt_fresh_of_get h
  unfold fresh at hi
  simp [get, put, hi]

theorem get_put_of_ne (s : Store α) {i j : Nat} (a : α) (h : i ≠ j) :
    (s.put j a).get i = s.get i := by
  unfold get put
  rw [List.getElem?_set_ne (fun hji => h hji.symm)]

/-- The later of two writes to a cell counts. -/
@[simp] theorem put_put (s : Store α) (i : Nat) (a b : α) : (s.put i a).put i b = s.put i b := by
  simp [put]

/-- What was written to a released cell does not matter. -/
@[simp] theorem free_put (s : Store α) (i : Nat) (a : α) : (s.put i a).free i = s.free i := by
  simp [put, free]

theorem get_free_self (s : Store α) (i : Nat) : (s.free i).get i = none := by
  unfold get free
  by_cases hi : i < s.cells.length
  · simp [hi]
  · rw [List.getElem?_eq_none (by simp; omega)]
    rfl

theorem get_free_of_ne (s : Store α) {i j : Nat} (h : i ≠ j) :
    (s.free j).get i = s.get i := by
  unfold get free
  rw [List.getElem?_set_ne (fun hji => h hji.symm)]

@[simp] theorem fresh_put (s : Store α) (i : Nat) (a : α) :
    (s.put i a).fresh = s.fresh := by
  simp [fresh, put]

@[simp] theorem fresh_free (s : Store α) (i : Nat) : (s.free i).fresh = s.fresh := by
  simp [fresh, free]

@[simp] theorem fresh_alloc (s : Store α) (a : α) : (s.alloc a).fresh = s.fresh + 1 := by
  simp [fresh, alloc]

end Store

end CellStore
