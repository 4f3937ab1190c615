import TenantScope.Proofs.Conjuncts
import TenantScope.Proofs.IndexedRepair

/-!
# Scoping by index

The condition is gone through by index, the qualifiers of a name are looked back over, and the
statement is cut where the predicate goes.  None of it leaves the text: what is looked back over
begins behind the `WHERE`, and the predicate goes behind it too.
-/

namespace TenantScope

open Text Site Scope

namespace Indexed

variable {text column : Text} {depth index start stop : Nat}

/-! ## Qualifiers -/

/-- Index of the last occurrence of a byte that is not behind an index, if there is one. -/
def lastIndex? (text : Text) (mark : Byte) (index : Nat) : Option (Option Nat) := do
  let behind ← skipBack? text (· != mark) 0 (index + 1)
  if behind = 0 then some none
  else do
    let opening ← minus? behind 1
    some (some opening)

/-- A step back over a qualifier. -/
def qualifierStep (text : Text) (start index : Nat) : Option (Step Nat Nat) :=
  if start + 1 < index then do
    let dot ← minus? index 1
    let byte ← byteAt? text dot
    if byte != Byte.dot then some (.done index)
    else do
      let last ← byteBefore? text dot
      if last == Byte.quotation || last == Byte.backtick then
        if dot < start + 2 then some (.done index)
        else do
          let inside ← minus? dot 2
          let opening ← lastIndex? text last inside
          match opening with
          | none => some (.done index)
          | some opening => if opening < start then some (.done index) else some (.next opening)
      else do
        let first ← skipBack? text Byte.isIdentifier start dot
        if first = dot then some (.done index) else some (.next first)
  else some (.done index)

/-- Where the qualifiers before an index begin, none of them before `start`. -/
def qualifiedStart? (text : Text) (start index : Nat) : Option Nat :=
  loop (qualifierStep text start) (text.length + 1) index

theorem eq_backFrom_of_suffix {rest : Text} (within : index ≤ text.length)
    (suffix : rest <:+ backFrom text start index) :
    rest = backFrom text start (start + rest.length) := by
  have length_le := suffix.length_le
  rw [length_backFrom start within] at length_le
  have taken := List.prefix_iff_eq_take.mp (List.reverse_prefix.mpr suffix)
  rw [backFrom, List.reverse_reverse, List.length_reverse, Statement.slice, List.take_take,
    Nat.min_eq_left length_le] at taken
  rw [backFrom, Statement.slice, Nat.add_sub_cancel_left, ← taken, List.reverse_reverse]

theorem reverse_take_eq (text : Text) (ordered : start ≤ index) :
    (text.take index).reverse = backFrom text start index ++ (text.take start).reverse := by
  have split := List.take_append_drop start (text.take index)
  rw [List.take_take, Nat.min_eq_left ordered, List.drop_take] at split
  rw [backFrom, Statement.slice, ← List.reverse_append, split]

/-- The last occurrence of a byte is looked for down to the beginning of the text. -/
theorem lastIndex?_cases (mark : Byte) (ordered : start ≤ index) (within : index < text.length) :
    ∃ opening, lastIndex? text mark index = some opening ∧
      match (backFrom text start (index + 1)).dropWhile (· != mark) with
      | [] => ∀ place ∈ opening, place < start
      | _ :: rest => opening = some (start + rest.length) := by
  have length_eq := length_backFrom start (show index + 1 ≤ text.length from within)
  have whole := congrArg List.length (List.takeWhile_append_dropWhile (p := (· != mark))
    (l := backFrom text start (index + 1)))
  rw [List.length_append] at whole
  simp only [lastIndex?, skipBack?_eq _ 0 (Nat.succ_le_of_lt within), backFrom_zero,
    reverse_take_eq text (Nat.le_succ_of_le ordered), Option.bind_eq_bind, Option.bind_some]
  cases after : (backFrom text start (index + 1)).dropWhile (· != mark) with
  | nil =>
      rw [after, List.length_nil, Nat.add_zero] at whole
      have run_le : (backFrom text start (index + 1)).length ≤ ((backFrom text start (index + 1) ++
          (text.take start).reverse).takeWhile (· != mark)).length := by
        rw [List.takeWhile_append, if_pos whole, List.length_append]
        omega
      by_cases nothing : index + 1 - ((backFrom text start (index + 1) ++
          (text.take start).reverse).takeWhile (· != mark)).length = 0
      · exact ⟨none, by rw [if_pos nothing], by simp⟩
      · refine ⟨_, by rw [if_neg nothing, minus?_of_le (Nat.pos_of_ne_zero nothing)]; rfl, ?_⟩
        rintro place ⟨⟩
        omega
  | cons found rest =>
      rw [after, List.length_cons] at whole
      have run_eq :
          (backFrom text start (index + 1) ++ (text.take start).reverse).takeWhile (· != mark) =
          (backFrom text start (index + 1)).takeWhile (· != mark) := by
        rw [List.takeWhile_append, if_neg (by omega)]
      have behind_eq :
          index + 1 - ((backFrom text start (index + 1)).takeWhile (· != mark)).length =
          start + rest.length + 1 := by omega
      exact ⟨_, by
        rw [run_eq, behind_eq, if_neg (Nat.succ_ne_zero _), minus?_of_le (by omega)]; rfl, rfl⟩

/-- A step goes back over the last qualifier, if there is one. -/
theorem qualifierStep_eq (start : Nat) (within : index ≤ text.length) :
    qualifierStep text start index = some (
      match dropQualifier? (backFrom text start index) with
      | none => .done index
      | some rest => .next (start + rest.length)) := by
  by_cases room : start + 1 < index
  · obtain ⟨index, rfl⟩ := Nat.exists_eq_add_of_le' (show 2 ≤ index by omega)
    obtain ⟨byte, byte_eq, -⟩ := exists_byteAt (show index + 1 < text.length by omega)
    obtain ⟨last, last_eq, -⟩ := exists_byteAt (show index < text.length by omega)
    have length_eq := length_backFrom start (show index ≤ text.length by omega)
    have back_eq : backFrom text start (index + 2) = byte :: last :: backFrom text start index := by
      rw [backFrom_succ (by omega) byte_eq, backFrom_succ (by omega) last_eq]
    have before_eq : byteBefore? text (index + 1) = some last := by
      rw [byteBefore?, minus?_of_le (by omega)]
      exact last_eq
    simp only [qualifierStep, if_pos room, minus?_of_le (show 1 ≤ index + 2 by omega),
      show index + 2 - 1 = index + 1 by
        omega, byte_eq, before_eq, back_eq, dropQualifier?, Option.bind_eq_bind,
      Option.bind_some]
    by_cases dot : (byte != Byte.dot) = true
    · rw [if_pos dot, if_pos dot]
    rw [if_neg dot, if_neg dot]
    by_cases quoted : (last == Byte.quotation || last == Byte.backtick) = true
    · rw [if_pos quoted, if_pos quoted]
      by_cases short : index + 1 < start + 2
      · have nothing : backFrom text start index = [] := backFrom_of_le (by omega)
        rw [if_pos short, nothing]
        rfl
      · obtain ⟨index, rfl⟩ := Nat.exists_eq_add_of_le' (show 1 ≤ index by omega)
        obtain ⟨opening, opening_eq, opening_cases⟩ :=
          lastIndex?_cases last (show start ≤ index by omega) (show index < text.length by omega)
        rw [if_neg short, minus?_of_le (by omega), show index + 1 + 1 - 2 = index by omega,
          Option.bind_some, opening_eq, Option.bind_some]
        cases after : (backFrom text start (index + 1)).dropWhile (· != last) with
        | nil =>
            rw [after] at opening_cases
            cases opening with
            | none => rfl
            | some place => exact if_pos (opening_cases place rfl)
        | cons found rest =>
            rw [after] at opening_cases
            subst opening_cases
            exact if_neg (by omega)
    · rw [if_neg quoted, if_neg quoted,
        skipBack?_eq _ start (show index + 1 ≤ text.length by omega),
        backFrom_succ (by omega) last_eq, Option.bind_some]
      have whole := congrArg List.length (List.takeWhile_append_dropWhile (p := Byte.isIdentifier)
        (l := backFrom text start index))
      rw [List.length_append] at whole
      cases identifier : last.isIdentifier with
      | true =>
          rw [List.takeWhile_cons_of_pos identifier, List.length_cons, if_neg (by omega),
            if_pos rfl]
          congr 2
          omega
      | false =>
          rw [List.takeWhile_cons_of_neg (by simp [identifier]), List.length_nil, if_pos (by omega),
            if_neg Bool.false_ne_true]
  · have short := length_backFrom start within
    rw [qualifierStep, if_neg room]
    rcases back_eq : backFrom text start index with _ | ⟨dot, _ | ⟨last, rest⟩⟩
    · rfl
    · rfl
    · simp only [back_eq, List.length_cons] at short
      omega

theorem qualifiedStart?_eq (ordered : start ≤ index) (within : index ≤ text.length) :
    qualifiedStart? text start index = some (start +
      (dropQualifiers (backFrom text start index).length (backFrom text start index)).length) := by
  refine loop_eq_some (fun index result => start ≤ index ∧ index ≤ text.length ∧
      ∃ count, (backFrom text start index).length ≤ count ∧
        result = start + (dropQualifiers count (backFrom text start index)).length)
    (fun index => index) ?_ ⟨ordered, within, _, Nat.le_refl _, rfl⟩ (by omega)
  rintro index _ ⟨ordered, within, count, enough, rfl⟩
  have length_eq := length_backFrom start within
  have step_eq := qualifierStep_eq start within
  cases dropped : dropQualifier? (backFrom text start index) with
  | none =>
      have kept_eq :
          dropQualifiers count (backFrom text start index) = backFrom text start index := by
        cases count with
        | zero => rfl
        | succ count => rw [dropQualifiers, dropped]
      rw [dropped] at step_eq
      refine .done (step_eq.trans ?_)
      rw [kept_eq, length_eq, Nat.add_sub_cancel' ordered]
  | some rest =>
      obtain ⟨qualifier, is_qualifier, split, -⟩ := exists_of_dropQualifier? dropped
      have rest_eq := eq_backFrom_of_suffix within ⟨qualifier.reverse, split.symm⟩
      have nonempty : 0 < qualifier.length := by
        cases is_qualifier <;> simp
      have total := congrArg List.length split
      rw [List.length_append, List.length_reverse] at total
      obtain ⟨count, rfl⟩ := Nat.exists_eq_add_of_le' (show 1 ≤ count by omega)
      rw [dropped] at step_eq
      refine .next _ step_eq ⟨Nat.le_add_right _ _, by omega, count, ?_, ?_⟩ (by omega)
      · rw [← rest_eq]
        omega
      · rw [dropQualifiers, dropped, ← rest_eq]

/-! ## Conditions on the scope column -/

/-- A term of a conjunction begins at an index: nothing comes before it behind `start`, or
an `AND` or `WHERE`. -/
def beginsTerm? (text : Text) (start index : Nat) : Option Bool := do
  let back ← skipBack? text Byte.isSpace start index
  if back ≤ start then some true
  else do
    let conjunction ← endsAt? text (ascii "AND") back
    let filter ← endsAt? text (ascii "WHERE") back
    some (conjunction || filter)

theorem beginsTerm?_eq (ordered : start ≤ index) (within : index ≤ text.length) :
    beginsTerm? text start index = some (beginsTerm text start (backFrom text start index)) := by
  have length_eq := length_backFrom start within
  have whole := congrArg List.length (List.takeWhile_append_dropWhile (p := Byte.isSpace)
    (l := backFrom text start index))
  rw [List.length_append] at whole
  have back_eq : index - ((backFrom text start index).takeWhile Byte.isSpace).length =
      start + ((backFrom text start index).dropWhile Byte.isSpace).length := by omega
  simp only [beginsTerm?, beginsTerm, skipBack?_eq Byte.isSpace start within, back_eq,
    endsAt?_eq (show ascii "WHERE" ≠ [] by decide), endsAt?_eq (show ascii "AND" ≠ [] by decide),
    Option.bind_eq_bind, Option.bind_some]
  cases (backFrom text start index).dropWhile Byte.isSpace with
  | nil => exact if_pos (by simp)
  | cons first spoken => exact if_neg (by simp)

/-- The column at an index, which is `length` bytes long, is compared as a term of a conjunction. -/
def comparesAt? (text : Text) (start stop index length : Nat) : Option Bool := do
  let compared ← equalsBefore? text stop (index + length)
  if compared then do
    let first ← qualifiedStart? text start index
    beginsTerm? text start first
  else some false

/-- A step of the search for a condition on a column, given in upper case. -/
def predicateStep (text column : Text) (start stop : Nat) :
    Nat × Nat → Option (Step (Nat × Nat) Bool)
  | (index, depth) =>
      if index < stop then do
        let byte ← byteAt? text index
        if byte.isQuote then do
          let next ← skipLiteral? text index
          some (.next (next, depth))
        else if byte == Byte.openParen || byte == Byte.closeParen then
          some (.next (index + 1, depthAfter byte depth))
        else if depth = 0 then do
          let length ← matchWord? text column index
          if 0 < length then do
            let compared ← comparesAt? text start stop index length
            if compared then some (.done true) else some (.next (index + length, depth))
          else some (.next (index + 1, depth))
        else some (.next (index + 1, depth))
      else some (.done false)

/-- The text between `start` and `stop` holds a condition on the column. -/
def hasPredicate? (text column : Text) (start stop : Nat) : Option Bool :=
  let stop := min stop text.length
  loop (predicateStep text column.upper start stop) (text.length + 1) (start, 0)

/-- What the look back from a place sees, down to `start`. -/
theorem take_back_placed (within : index ≤ text.length) :
    (placed text depth index).back.take (index - start) = backFrom text start index := by
  have length_eq : (text.take index).length = index := List.length_take_of_le within
  rw [placed, List.take_reverse, length_eq, backFrom, Statement.slice, ← List.drop_take]
  by_cases ordered : start ≤ index
  · rw [Nat.sub_sub_self ordered]
  · rw [List.drop_of_length_le (by omega), List.drop_of_length_le (by omega)]

theorem comparesAt?_eq (within : stop ≤ text.length) (ordered : start ≤ index)
    (inside : index < stop) (depth length : Nat) : comparesAt? text start stop index length = some
      ((placed text depth index).equalsBefore stop length && beginsTerm text start
        (dropQualifiers (backFrom text start index).length (backFrom text start index))) := by
  obtain ⟨qualifiers, -, split⟩ :=
    exists_qualifiers (backFrom text start index).length (backFrom text start index)
  have index_le := (inside.trans_le within).le
  have kept_eq := eq_backFrom_of_suffix index_le ⟨_, split.symm⟩
  have kept_le := congrArg List.length split
  rw [List.length_append, length_backFrom start index_le] at kept_le
  rw [comparesAt?, equalsBefore?_eq within depth, Option.bind_eq_bind, Option.bind_some]
  cases (placed text depth index).equalsBefore stop length with
  | false => rfl
  | true =>
      rw [if_pos rfl, qualifiedStart?_eq ordered index_le, Option.bind_eq_bind, Option.bind_some,
        beginsTerm?_eq (Nat.le_add_right _ _) (by rw [length_backFrom start index_le]; omega),
        ← kept_eq, Bool.true_and]

section Predicate

variable {byte : Byte}

theorem predicateWidth_pos (column : Text) (depth : Nat) (here : byteAt? text index = some byte) :
    0 < predicateWidth column (placed text depth index) := by
  rw [predicateWidth]
  split
  · exact width_pos depth here
  split
  · cases found : (placed text depth index).word? column with
    | none => exact Nat.one_pos
    | some length => exact (word?_pos found).1
  · exact Nat.one_pos

/-- A step finds a condition at its index or goes on behind the unit there. -/
theorem predicateStep_eq (column : Text) (within : stop ≤ text.length) (ordered : start ≤ index)
    (inside : index < stop) (here : byteAt? text index = some byte) (depth : Nat) :
    predicateStep text column start stop (index, depth) = some (
      if isPredicateAt text column start stop (placed text depth index) then .done true
      else .next (index + predicateWidth column (placed text depth index),
        depthAfter byte depth)) := by
  have at_quote := atQuote_placed depth here
  have at_paren := atParen_placed depth here
  rw [isPredicateAt, predicateWidth, isTopLevel, at_quote, at_paren, depth_placed, offset_placed,
    take_back_placed (inside.trans_le within).le]
  simp only [predicateStep, if_pos inside, here, skipLiteral?_eq depth here,
    matchWord?_eq text column depth, comparesAt?_eq within ordered inside depth,
    Option.bind_eq_bind, Option.bind_some]
  cases quote : byte.isQuote with
  | true =>
      rw [depthAfter_of_flat (Byte.depthless_of_isQuote byte quote)]
      rfl
  | false =>
      by_cases paren : (byte == Byte.openParen || byte == Byte.closeParen) = true
      · simp [paren]
      rw [(Bool.not_eq_true _).mp paren, depthAfter_of_flat (by simpa using paren)]
      by_cases outside : depth = 0
      · cases found : (placed text depth index).word? column with
        | none => simp [outside]
        | some length =>
            have positive := (word?_pos found).1
            simp only [outside, Option.getD_some, if_pos positive, if_true, Option.any_some,
              beq_self_eq_true, Bool.not_false, Bool.true_and, Bool.false_eq_true, if_false,
              apply_ite some]
      · simp [outside]

/-- The search from a state on finds a condition. -/
def predicateFrom (text column : Text) (start stop : Nat) (state : Nat × Nat) : Bool :=
  (((placed text state.2 state.1).tour (predicateWidth column)).takeWhile (·.offset < stop)).any
    (isPredicateAt text column start stop)

theorem progress_predicateStep (within : stop ≤ text.length) {state : Nat × Nat}
    (ordered : start ≤ state.1) :
    Progress (predicateStep text column start stop)
      (fun state result => start ≤ state.1 ∧ result = predicateFrom text column start stop state)
      (fun state => stop - state.1) state (predicateFrom text column start stop state) := by
  obtain ⟨index, depth⟩ := state
  by_cases inside : index < stop
  · obtain ⟨byte, byte_eq, -⟩ := exists_byteAt (inside.trans_le within)
    have positive := predicateWidth_pos column depth byte_eq
    have next_eq : index + 1 + (predicateWidth column (placed text depth index) - 1) =
        index + predicateWidth column (placed text depth index) := by omega
    have step_eq := predicateStep_eq column within ordered inside byte_eq depth
    have from_eq : predicateFrom text column start stop (index, depth) =
        (isPredicateAt text column start stop (placed text depth index) ||
          predicateFrom text column start stop
            (index + predicateWidth column (placed text depth index), depthAfter byte depth)) := by
      rw [predicateFrom, tour_placed _ byte_eq,
        List.takeWhile_cons_of_pos (by exact decide_eq_true inside),
        next_eq, List.any_cons, predicateFrom]
    cases found : isPredicateAt text column start stop (placed text depth index) with
    | true =>
        rw [found, if_pos rfl] at step_eq
        rw [found, Bool.true_or] at from_eq
        exact .done (step_eq.trans (congrArg (some ∘ Step.done) from_eq.symm))
    | false =>
        rw [found, if_neg Bool.false_ne_true] at step_eq
        rw [found, Bool.false_or] at from_eq
        exact .next _ step_eq ⟨by dsimp only at ordered ⊢; omega, from_eq⟩ (by dsimp only; omega)
  · refine .done ?_
    rw [predicateStep, if_neg inside, predicateFrom, takeWhile_tour_placed _ (by dsimp only; omega),
      List.any_nil]

end Predicate

theorem hasPredicate?_eq (text column : Text) (start stop : Nat) :
    hasPredicate? text column start stop = some (hasPredicate text column start stop) := by
  refine loop_eq_some (fun state result =>
    start ≤ state.1 ∧ result = predicateFrom text column.upper start (min stop text.length) state)
    (fun state => min stop text.length - state.1) (fun state _ holds => ?_) ⟨Nat.le_refl _, rfl⟩
    (by dsimp only; omega)
  obtain ⟨ordered, rfl⟩ := holds
  exact progress_predicateStep (Nat.min_le_right _ _) ordered

/-! ## The place of the predicate -/

/-- Offset of the earliest thing that has to come after the condition, or of the end of the body. -/
def insertionPoint? (text : Text) (outline : Outline) (source : Source) : Option Nat := do
  let stop ← bodyEnd? text
  let later ← laterKeywords.mapM fun keyword =>
    firstTopLevel? text keyword source.offset text.length
  some ((outline.earliestTail?.toList ++ later.filterMap id).min?.getD stop)

theorem insertionPoint?_eq (text : Text) (outline : Outline) (source : Source) :
    insertionPoint? text outline source = some (insertionPoint text outline source) := by
  have later_eq : (laterKeywords.mapM fun keyword =>
        firstTopLevel? text keyword source.offset text.length) =
      some (laterKeywords.map fun keyword =>
        Word.firstTopLevel? keyword text source.offset text.length) := by
    simp [firstTopLevel?_eq, laterKeywords]
  rw [insertionPoint?, bodyEnd?_eq, Option.bind_eq_bind, Option.bind_some, later_eq,
    Option.bind_eq_bind, Option.bind_some, List.filterMap_map]
  rfl

/-- The slot at the end of the condition between `start` and `stop`. -/
def conditionSlot? (text : Text) (start stop : Nat) (hasOr : Bool) : Option Slot := do
  let first ← skip? text Byte.isSpace stop start
  let length ← minus? stop start
  let region ← cut? text start length
  let region ← trimRight? region
  let last := start + region.length
  let back ← from? text last
  if last ≤ first then do
    let front ← cut? text 0 start
    some ⟨front ++ [Byte.blank], back⟩
  else if hasOr then do
    let front ← cut? text 0 first
    let length ← minus? last first
    let condition ← cut? text first length
    some ⟨front ++ [Byte.openParen] ++ condition ++ ascii ") AND ", back⟩
  else do
    let front ← cut? text 0 last
    some ⟨front ++ ascii " AND ", back⟩

theorem conditionSlot?_eq (ordered : start ≤ stop) (within : stop ≤ text.length) (hasOr : Bool) :
    conditionSlot? text start stop hasOr = some (conditionSlot text start stop hasOr) := by
  have length_eq := Statement.length_slice within start
  have run_le :=
    (List.takeWhile_sublist (l := Statement.slice text start stop) Byte.isSpace).length_le
  have trimmed_le : (trimRight (Statement.slice text start stop)).length ≤
      (Statement.slice text start stop).length := length_dropRightWhile_le _ _
  have last_le : start + (trimRight (Statement.slice text start stop)).length ≤ text.length :=
    by omega
  simp only [conditionSlot?, skip?_eq _ within, minus?_of_le ordered, cut?_slice ordered within,
    trimRight?_eq, from?_of_le last_le, Option.bind_eq_bind, Option.bind_some]
  rw [conditionSlot]
  split
  · rw [cut?_zero (by omega)]
    rfl
  · rename_i apart
    split
    · rw [cut?_zero (by omega), minus?_of_le (by omega), Option.bind_some, Option.bind_some,
        cut?_slice (by omega) last_le]
      rfl
    · rw [cut?_zero last_le]
      rfl

/-- The slot for a new condition at `offset`. -/
def newConditionSlot? (text : Text) (offset : Nat) : Option Slot := do
  let stop ← bodyEnd? text
  let front ← cut? text 0 offset
  let front ← trimRight? front
  let back ← from? text offset
  some ⟨front ++ ascii " WHERE ", (if offset < stop then [Byte.blank] else []) ++ back⟩

theorem newConditionSlot?_eq {offset : Nat} (within : offset ≤ text.length) :
    newConditionSlot? text offset = some (newConditionSlot text offset) := by
  simp only [newConditionSlot?, bodyEnd?_eq, cut?_zero within, trimRight?_eq, from?_of_le within,
    Option.bind_eq_bind, Option.bind_some]
  rfl

/-- The slot for a predicate on the column, or nothing if the statement holds one already. -/
def slot? (text column : Text) (outline : Outline) (source : Source) :
    Option (Except Fault (Option Slot)) := do
  let stop ← insertionPoint? text outline source
  match outline.find? .filter with
  | none => do
      let slot ← newConditionSlot? text stop
      some (.ok (some slot))
  | some offset =>
      if stop ≤ offset then some (.error .filterAfterTail)
      else do
        let length ← matchWord? text Clause.filter.keyword offset
        let start := offset + length
        let disjunction ← firstTopLevel? text (ascii "OR") start stop
        let held ← if disjunction.isSome then some false else hasPredicate? text column start stop
        if held then some (.ok none)
        else do
          let slot ← conditionSlot? text start stop disjunction.isSome
          some (.ok (some slot))

theorem slot?_eq {tenant : Tenant} {source : Source}
    (found : sourceOf tenant (Outline.ofText text) = .ok source) (column : Text) :
    slot? text column (Outline.ofText text) source =
      some (Scope.slot? text column (Outline.ofText text) source) := by
  obtain ⟨-, source_eq, -, ordered, -⟩ := sourceOf_eq_ok found
  have stop_le := insertionPoint_le text source
  rw [slot?, insertionPoint?_eq, Option.bind_eq_bind, Option.bind_some, Scope.slot?]
  cases filter_eq : (Outline.ofText text).find? .filter with
  | none => simp only [newConditionSlot?_eq stop_le, Option.bind_eq_bind, Option.bind_some]
  | some filter =>
      dsimp only
      by_cases early : insertionPoint text (Outline.ofText text) source ≤ filter
      · rw [if_pos early, if_pos early]
      have room := add_five_le_insertionPoint source_eq ordered filter_eq (not_le.mp early)
      have length_eq : ((atOffset text filter).word? Clause.filter.keyword).getD 0 = 5 :=
        congrArg (Option.getD · 0) (word?_filter_of_find? filter_eq)
      rw [if_neg early, if_neg early, length_eq, matchWord?_eq text _ 0, placed_zero, length_eq]
      simp only [firstTopLevel?_eq, hasPredicate?_eq, conditionSlot?_eq room stop_le,
        Option.bind_eq_bind, Option.bind_some]
      cases (Word.firstTopLevel? (ascii "OR") text (filter + 5) _).isSome with
      | true => rfl
      | false =>
          simp only [Bool.false_eq_true, if_false, Bool.not_false, Bool.true_and]
          split <;> rfl

/-! ## Scoping -/

/-- The refusal for a fault of a text. -/
def refuse? (text : Text) (fault : Fault) : Option (Except Refusal Statement) := do
  let context ← excerpt? 200 text
  some (.error ⟨fault, context⟩)

/-- The statement scoped to a tenant. -/
def inject? (rules : ScopeRules) (tenant : Tenant) (statement : Statement) :
    Option (Except Refusal Statement) := do
  let outline := statement.outline
  let column := rules.columnOf tenant outline.table
  let _ ← trim? tenant.id
  match sourceOf tenant outline with
  | .error fault => refuse? statement.text fault
  | .ok source => do
      let chosen ← slot? statement.text column outline source
      match chosen with
      | .error fault => refuse? statement.text fault
      | .ok none => some (.ok statement)
      | .ok (some slot) => do
          let result ← remade? statement (slot.fill (predicate column tenant.id))
          if (result.outline.find? .filter).isSome && Canonical result.outline.clauses then
            some (.ok result)
          else refuse? result.text .orderLost

theorem refuse?_eq (text : Text) (fault : Fault) :
    refuse? text fault = some (.error (refuse text fault)) := by
  rw [refuse?, excerpt?_eq]
  rfl

theorem inject?_eq (rules : ScopeRules) (tenant : Tenant) (statement : Statement) :
    inject? rules tenant statement = some (inject rules tenant statement) := by
  simp only [inject?, inject, trim?_eq, refuse?_eq, Option.bind_eq_bind, Option.bind_some]
  cases found : sourceOf tenant statement.outline with
  | error fault => rfl
  | ok source =>
      have slot_eq := slot?_eq found (rules.columnOf tenant statement.outline.table)
      simp only [Statement.outline] at slot_eq ⊢
      rw [slot_eq, Option.bind_some]
      cases Scope.slot? statement.text _ (Outline.ofText statement.text) source with
      | error fault => rfl
      | ok slot? =>
          cases slot? with
          | none => rfl
          | some slot =>
              simp only [remade?_eq, Option.bind_some, verified, Statement.outline]
              exact (apply_ite some _ _ _).symm

/-! ## All stages -/

open Repair (LooksBack LooksBackWithin)

/-- Every index and every cut of the stages lies in the text, no difference of offsets is below zero
and every loop comes to its end, so each stage gives what it is said to give.  The only exception is
the byte before the text: the repair of the column asks for it exactly when it goes through a region
that begins with the text, and whatever byte is found there, the repair is the same. -/
theorem stages_stay_inside (rules : ScopeRules) (tenant : Tenant) (limits : RepairRules)
    (statement : Statement) :
    scan? statement.text = some statement.outline ∧
      cutTrailingConditions? statement = some (Repair.cutTrailingConditions statement) ∧
      relocateFilter? statement = some (Repair.relocateFilter statement) ∧
      normalize? statement = some (Repair.normalize statement) ∧
      inject? rules tenant statement = some (inject rules tenant statement) ∧
      (∀ byte, aliasColumn? (some byte) rules tenant statement =
        some (Repair.aliasColumn rules tenant statement)) ∧
      (∀ byte, repair? (some byte) limits rules tenant statement =
        some (statement.repair limits rules tenant)) ∧
      (aliasColumn? none rules tenant statement =
        if LooksBack rules tenant statement then none
        else some (Repair.aliasColumn rules tenant statement)) ∧
      (repair? none limits rules tenant statement =
        if LooksBackWithin rules tenant (max 1 limits.passes) statement then none
        else some (statement.repair limits rules tenant)) :=
  ⟨scan?_eq statement.text, cutTrailingConditions?_eq statement, relocateFilter?_eq statement,
    normalize?_eq statement, inject?_eq rules tenant statement, fun _ => aliasColumn?_eq (.inl rfl),
    fun _ => run?_eq rfl _ statement, aliasColumn?_none, run?_none _ statement⟩

/-- A text that begins with its `WHERE`: the byte before it is asked for. -/
theorem look_back_from_beginning :
    let text := ascii "WHERE tenant_id = 1 FROM tenants"
    aliasColumn? none {} {} ⟨text, text⟩ = none ∧ repair? none {} {} {} ⟨text, text⟩ = none := by
  refine ⟨aliasColumn?_none.trans (if_pos ?_), (run?_none _ _).trans (if_pos (.inl ?_))⟩
    <;> decide +kernel

end Indexed

end TenantScope
