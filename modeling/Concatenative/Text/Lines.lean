set_option autoImplicit false

/-!
Lines of a text or of a byte sequence. A newline ends a line and takes a carriage return just
before it along; the last line may go without a newline, and nothing after the last newline is no
line.
-/
namespace Concatenative.Text.Lines

variable {α : Type} [DecidableEq α]

def split (cr nl : α) (cur : List α) : List α → List (List α)
  | [] => if cur = [] then [] else [cur.reverse]
  | x :: xs =>
    if x = nl then
      (match cur with
        | y :: ys => if y = cr then ys.reverse else cur.reverse
        | [] => []) :: split cr nl [] xs
    else split cr nl (x :: cur) xs

def ofText (s : String) : List String :=
  (split '\r' '\n' [] s.toList).map String.ofList

/-- The lines of a byte sequence, each decoded on its own; `none` is a line that is not UTF-8. -/
def ofBytes (bytes : ByteArray) : List (Option String) :=
  (split 13 10 [] bytes.data.toList).map fun line => String.fromUTF8? line.toByteArray

end Concatenative.Text.Lines
