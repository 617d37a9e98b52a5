import Concatenative.Text.Blank
set_option autoImplicit false

namespace Concatenative

structure Cursor where
  rest : List Char
  line : Nat
  deriving DecidableEq, Repr

namespace Cursor

def ofText (text : String) (line : Nat) : Cursor := ⟨text.toList, line⟩

def peek (c : Cursor) : Option Char := c.rest.head?

def next (c : Cursor) : Option Char × Cursor :=
  match c.rest with
  | [] => (none, c)
  | x :: rest => (some x, ⟨rest, Text.lineAfter c.line x⟩)

theorem next_fst (c : Cursor) : c.next.1 = c.peek := by
  unfold next peek
  split <;> simp_all

theorem next_of_peek {c : Cursor} {x : Char} (h : c.peek = some x) : c.next = (some x, c.next.2) :=
  Prod.ext (c.next_fst.trans h) rfl

end Cursor
end Concatenative
