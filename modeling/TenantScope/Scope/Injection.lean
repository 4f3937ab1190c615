import TenantScope.Scope.Predicate
import TenantScope.Scope.Refusal
import TenantScope.Spacing
import TenantScope.Statement
import TenantScope.Tenant

/-!
# Scoping a statement to a tenant

A statement is scoped by a predicate on the scope column of its table.  Where the predicate goes is
settled before it is known which tenant it names: a slot is the text before it and the text after
it.  A condition with an `OR` on its outermost level is put in parentheses first.
-/

namespace TenantScope

namespace Scope

/-- The keywords, other than those of clauses, that come after every condition. -/
def laterKeywords : List Text :=
  [Text.ascii "WINDOW", Text.ascii "OFFSET", Text.ascii "FETCH", Text.ascii "FOR"]

/-- Offset of the earliest thing that has to come after the condition, or of the end of the body. -/
def insertionPoint (text : Text) (outline : Outline) (source : Source) : Nat :=
  let later := laterKeywords.filterMap fun keyword =>
    Word.firstTopLevel? keyword text source.offset text.length
  (outline.earliestTail?.toList ++ later).min?.getD (Statement.bodyEnd text)

/-- What the statement reads from, unless its shape stands against scoping it. -/
def sourceOf (tenant : Tenant) (outline : Outline) : Except Fault Source :=
  if tenant.id.trim.isEmpty then .error .emptyTenant
  else
    match outline.source? with
    | none => .error .noSource
    | some source =>
        if outline.compound then .error .compound
        else
          match outline.clauses.find? fun found => found.offset < source.offset with
          | some found => .error (.beforeSource found.clause)
          | none => if Canonical outline.clauses then .ok source else .error .outOfOrder

/-- A place for the predicate. -/
structure Slot where
  /-- The text before the predicate. -/
  before : Text
  /-- The text after the predicate. -/
  after : Text
  deriving DecidableEq, Repr

/-- The slot at the end of the condition between `start` and `stop`. -/
def conditionSlot (text : Text) (start stop : Nat) (hasOr : Bool) : Slot :=
  let region := Statement.slice text start stop
  let first := start + (region.takeWhile Byte.isSpace).length
  let last := start + (Text.trimRight region).length
  if last ≤ first then ⟨text.take start ++ [Byte.blank], text.drop last⟩
  else if hasOr then
    ⟨text.take first ++ [Byte.openParen] ++ Statement.slice text first last ++
      Text.ascii ") AND ", text.drop last⟩
  else
    ⟨text.take last ++ Text.ascii " AND ", text.drop last⟩

/-- The slot for a new condition at `offset`. -/
def newConditionSlot (text : Text) (offset : Nat) : Slot :=
  ⟨Text.trimRight (text.take offset) ++ Text.ascii " WHERE ",
    (if offset < Statement.bodyEnd text then [Byte.blank] else []) ++ text.drop offset⟩

/-- The slot for a predicate on the column, or nothing if the statement holds one already. -/
def slot? (text column : Text) (outline : Outline) (source : Source) :
    Except Fault (Option Slot) :=
  let stop := insertionPoint text outline source
  match outline.find? .filter with
  | none => .ok (some (newConditionSlot text stop))
  | some offset =>
      if stop ≤ offset then .error .filterAfterTail
      else
        let length := ((Site.atOffset text offset).word? Clause.filter.keyword).getD 0
        let start := offset + length
        let hasOr := (Word.firstTopLevel? (Text.ascii "OR") text start stop).isSome
        if !hasOr && hasPredicate text column start stop then .ok none
        else .ok (some (conditionSlot text start stop hasOr))

/-- The predicate that holds of the rows of a tenant. -/
def predicate (column id : Text) : Text :=
  column ++ Text.ascii " = " ++ [Byte.apostrophe] ++ id ++ [Byte.apostrophe]

/-- The text with the predicate in its slot. -/
def Slot.fill (slot : Slot) (inserted : Text) : Text :=
  slot.before ++ inserted ++ slot.after

/-- The refusal for a fault of a text. -/
def refuse (text : Text) (fault : Fault) : Refusal :=
  ⟨fault, text.excerpt 200⟩

/-- The statement, unless inserting the predicate has left it without a `WHERE` in its place. -/
def verified (statement : Statement) : Except Refusal Statement :=
  let outline := statement.outline
  if (outline.find? .filter).isSome && Canonical outline.clauses then .ok statement
  else .error (refuse statement.text .orderLost)

/-- The statement scoped to a tenant. -/
def inject (rules : ScopeRules) (tenant : Tenant) (statement : Statement) :
    Except Refusal Statement :=
  let outline := statement.outline
  let column := rules.columnOf tenant outline.table
  match sourceOf tenant outline with
  | .error fault => .error (refuse statement.text fault)
  | .ok source =>
      match slot? statement.text column outline source with
      | .error fault => .error (refuse statement.text fault)
      | .ok none => .ok statement
      | .ok (some slot) =>
          verified (statement.withText (slot.fill (predicate column tenant.id)))

end Scope

end TenantScope
