import Bitcoin.Bytes
/-! # The script stack

A stack of byte strings, held as a list with the top first, so that the element `i` places below
the top is the list's `i`-th element. Removing keeps the order of the others; inserting at depth
`i` leaves the new element `i` places below the top.
-/

namespace Bitcoin

/-- A stack of byte strings, top first. -/
structure Stack where
  /-- The elements, top first. -/
  items : List Bytes := []
  deriving Repr, DecidableEq, Inhabited

namespace Stack

/-- A stack from its elements listed bottom to top. -/
def ofBottomUp (xs : List Bytes) : Stack := ⟨xs.reverse⟩

def bottomUp (s : Stack) : List Bytes := s.items.reverse

def size (s : Stack) : Nat := s.items.length

def isEmpty (s : Stack) : Bool := s.items.isEmpty

def push (s : Stack) (x : Bytes) : Stack := ⟨x :: s.items⟩

def pop (s : Stack) : Option Bytes × Stack :=
  match s.items with
  | [] => (none, s)
  | x :: rest => (some x, ⟨rest⟩)

def peek (s : Stack) : Option Bytes := s.items.head?

def peekAt (s : Stack) (i : Nat) : Option Bytes := s.items[i]?

def removeAt (s : Stack) (i : Nat) : Option Bytes × Stack :=
  match s.items[i]? with
  | none => (none, s)
  | some x => (some x, ⟨s.items.eraseIdx i⟩)

/-- Insert `x` so that it ends `i` places below the top, if `i` is at most the size. -/
def insertAt (s : Stack) (i : Nat) (x : Bytes) : Option Stack :=
  if i ≤ s.size then some ⟨s.items.take i ++ x :: s.items.drop i⟩ else none

end Stack

end Bitcoin
