import TenantScope.Outline

/-!
# Statements

A statement is a text on its way through the rewriting, together with the text it came from.  Its
outline is always the outline of its present text.  The region of a clause runs from its keyword to
the next clause, or to the end of the body for the last one.
-/

namespace TenantScope

/-- A statement on its way through the rewriting. -/
structure Statement where
  /-- The text as it was received. -/
  received : Text
  /-- The text as it is now. -/
  text : Text
  deriving DecidableEq, Repr

namespace Statement

/-- The outline of the present text. -/
def outline (statement : Statement) : Outline :=
  Outline.ofText statement.text

/-- The same statement with another text. -/
def withText (statement : Statement) (text : Text) : Statement :=
  { statement with text }

/-- Offset of the end of a body: white space at the end and one semicolon before it do not count. -/
def bodyEnd (text : Text) : Nat :=
  match text.reverse.dropWhile Byte.isSpace with
  | [] => 0
  | last :: body => if last == Byte.semicolon then body.length else body.length + 1

/-- Offset of the end of the region that begins at `offset`: the nearest of the clauses after it, or
the end of the body. -/
def regionEnd (statement : Statement) (offset : Nat) : Nat :=
  statement.outline.clauses.foldl
    (fun stop found => if offset < found.offset && found.offset < stop then found.offset else stop)
    (bodyEnd statement.text)

/-- The bytes of a text from `start` up to `stop`. -/
def slice (text : Text) (start stop : Nat) : Text :=
  (text.drop start).take (stop - start)

theorem length_slice {text : Text} {stop : Nat} (within : stop ≤ text.length) (start : Nat) :
    (slice text start stop).length = stop - start := by
  rw [slice, List.length_take, List.length_drop]
  omega

theorem slice_append_drop {start stop : Nat} (ordered : start ≤ stop) (text : Text) :
    slice text start stop ++ text.drop stop = text.drop start := by
  have drop_eq : text.drop stop = (text.drop start).drop (stop - start) := by
    rw [List.drop_drop, Nat.add_sub_cancel' ordered]
  rw [slice, drop_eq, List.take_append_drop]

theorem slice_append {start middle stop : Nat} (first : start ≤ middle) (second : middle ≤ stop)
    (text : Text) :
    slice text start middle ++ slice text middle stop = slice text start stop := by
  have split : stop - start = (middle - start) + (stop - middle) := by omega
  rw [slice, slice, slice, split, List.take_add, List.drop_drop, Nat.add_sub_cancel' first]

/-- Behind the first bytes of a slice the rest of it is a slice. -/
theorem slice_of_append {text front rest : Text} {start stop : Nat}
    (split : slice text start stop = front ++ rest) :
    slice text (start + front.length) stop = rest := by
  have dropped := congrArg (List.drop front.length) split
  rwa [List.drop_left, slice, List.drop_take, List.drop_drop, Nat.sub_sub] at dropped

theorem bodyEnd_le (text : Text) : bodyEnd text ≤ text.length := by
  have dropped := (List.dropWhile_sublist (l := text.reverse) Byte.isSpace).length_le
  rw [List.length_reverse] at dropped
  unfold bodyEnd
  split
  · omega
  · rename_i last body body_eq
    rw [body_eq, List.length_cons] at dropped
    split <;> omega

end Statement

end TenantScope
