import TenantScope.Proofs.Converging
import TenantScope.Proofs.FoldedRepair

/-!
# Scoping in lower case

Where the predicate goes, and why a statement cannot be scoped, is the same in lower case.
-/

namespace TenantScope

open Text Byte

namespace Repair

variable (rules : ScopeRules) (tenant : Tenant)

/-- A pass does in lower case what it does, but for the case of the words that it puts in. -/
theorem pass_lower (statement : Statement) :
    (pass rules tenant statement.lower).lower = (pass rules tenant statement).lower := by
  rw [pass, cutTrailingConditions_lower, ← aliasColumn_lower, ← normalize_statement_lower,
    relocateFilter_lower, normalize_statement_lower, aliasColumn_lower, pass]

theorem iterate_pass_lower (passes : Nat) (statement : Statement) :
    ((pass rules tenant)^[passes] statement.lower).lower =
      ((pass rules tenant)^[passes] statement).lower := by
  induction passes with
  | zero => simp [Statement.lower]
  | succ passes ih =>
      rw [Function.iterate_succ_apply', Function.iterate_succ_apply', ← pass_lower, ih, pass_lower]

end Repair

/-- A repair ends early only where more passes would change nothing, so the case of letters does not
tell when it ends. -/
theorem Statement.repair_lower (limits : RepairRules) (rules : ScopeRules) (tenant : Tenant)
    (statement : Statement) :
    (statement.lower.repair limits rules tenant).lower =
      (statement.repair limits rules tenant).lower := by
  rw [Statement.repair, Statement.repair, Repair.run_eq_iterate, Repair.run_eq_iterate,
    Repair.iterate_pass_lower]

namespace Scope

/-! ## Predicates -/

theorem dropQualifier?_lower (before : Text) :
    dropQualifier? (lower before) = (dropQualifier? before).map lower := by
  unfold dropQualifier?
  rcases before with _ | ⟨stop, _ | ⟨last, before⟩⟩
  · rfl
  · rfl
  · have dotted : (stop.toLower != dot) = (stop != dot) :=
      congrArg not (caseless_beq (by decide) stop)
    have quoting : Caseless fun last => last == quotation || last == backtick :=
      (caseless_beq (by decide)).or (caseless_beq (by decide))
    simp only [lower_cons, dotted, quoting last, caseless_isIdentifier last]
    split
    · rfl
    · split
      · rename_i mark
        have unlettered : last.isAlpha = false := by
          rcases Bool.or_eq_true_iff.mp mark with mark | mark <;> rw [beq_iff_eq.mp mark] <;> decide
        have other : Caseless (· != last) := fun byte => congrArg not (caseless_beq unlettered byte)
        rw [toLower_of_not_isAlpha unlettered, dropWhile_lower other]
        cases before.dropWhile (· != last) <;> rfl
      · split
        · rw [dropWhile_lower caseless_isIdentifier]
          rfl
        · rfl

theorem dropQualifiers_lower (count : Nat) (before : Text) :
    dropQualifiers count (lower before) = lower (dropQualifiers count before) := by
  induction count generalizing before with
  | zero => rfl
  | succ count ih =>
      rw [dropQualifiers, dropQualifiers, dropQualifier?_lower]
      cases dropQualifier? before with
      | none => rfl
      | some rest => exact ih rest

theorem beginsTerm_lower (text : Text) (start : Nat) (before : Text) :
    beginsTerm (lower text) start (lower before) = beginsTerm text start before := by
  simp only [beginsTerm, dropWhile_lower caseless_isSpace, isEmpty_lower, length_lower,
    Word.endsAt_lower]

theorem isPredicateAt_lower (text column : Text) (start stop : Nat) (site : Site) :
    isPredicateAt (lower text) column start stop site.lower =
      isPredicateAt text column start stop site := by
  simp only [isPredicateAt, Site.atQuote_lower, Site.isTopLevel_lower, Site.word?_lower,
    Site.lower_back, Site.lower_offset, ← lower_take, length_lower, dropQualifiers_lower,
    beginsTerm_lower, Site.equalsBefore_lower]

theorem hasPredicate_lower (text column : Text) (start stop : Nat) :
    hasPredicate (lower text) column start stop = hasPredicate text column start stop := by
  have blind (site : Site) :
      predicateWidth column.upper site.lower = predicateWidth column.upper site := by
    rw [predicateWidth, predicateWidth, Site.atQuote_lower, Site.isTopLevel_lower, Site.word?_lower]
    split
    · rename_i quote
      exact Literal.width_lower _ quote
    · rfl
  simp only [hasPredicate, length_lower, Site.atOffset_lower, Site.tour_lower blind,
    List.takeWhile_map, List.any_map, Function.comp_def, isPredicateAt_lower, Site.lower_offset]
  rfl

/-! ## Slots -/

theorem insertionPoint_lower (text : Text) (outline : Outline) (source : Source) :
    insertionPoint (lower text) outline.lower source.lower =
      insertionPoint text outline source := by
  have tail_eq : outline.lower.earliestTail? = outline.earliestTail? := rfl
  have offset_eq : source.lower.offset = source.offset := rfl
  simp only [insertionPoint, tail_eq, offset_eq, Word.firstTopLevel?_lower, length_lower,
    Statement.bodyEnd_lower]

theorem sourceOf_lower (tenant : Tenant) (outline : Outline) :
    sourceOf tenant outline.lower = (sourceOf tenant outline).map Source.lower := by
  obtain ⟨clauses, source?, compound⟩ := outline
  simp only [sourceOf, Outline.lower]
  split
  · rfl
  · cases source? with
    | none => rfl
    | some source =>
        simp only [Option.map_some, Source.lower]
        cases compound with
        | true => rfl
        | false =>
            simp only [Bool.false_eq_true, if_false]
            cases clauses.find? fun found => found.offset < source.offset with
            | some found => rfl
            | none => by_cases canonical :
                Canonical clauses <;> simp [canonical, Except.map, Source.lower]

/-- The slot with both texts in lower case. -/
def Slot.lower (slot : Slot) : Slot where
  before := Text.lower slot.before
  after := Text.lower slot.after

theorem conditionSlot_lower (text : Text) (start stop : Nat) (hasOr : Bool) :
    (conditionSlot (lower text) start stop hasOr).lower =
      (conditionSlot text start stop hasOr).lower := by
  simp only [conditionSlot, Statement.slice_lower, takeWhile_lower caseless_isSpace,
    trimRight_lower, length_lower]
  split
  · simp only [Slot.lower, lower_append, lower_take, lower_drop, lower_lower]
  · split <;> simp only [Slot.lower, lower_append, lower_take, lower_drop, lower_lower]

theorem newConditionSlot_lower (text : Text) (offset : Nat) :
    (newConditionSlot (lower text) offset).lower = (newConditionSlot text offset).lower := by
  simp only [newConditionSlot, Statement.bodyEnd_lower, Slot.lower, lower_append, ← lower_take,
    ← lower_drop, trimRight_lower, lower_lower]

/-- The slot is chosen in lower case as it is. -/
theorem slot?_lower (text column : Text) (outline : Outline) (source : Source) :
    (slot? (lower text) column outline.lower source.lower).map (Option.map Slot.lower) =
      (slot? text column outline source).map (Option.map Slot.lower) := by
  have filter_eq : outline.lower.find? .filter = outline.find? .filter := rfl
  rw [slot?, slot?, filter_eq]
  cases outline.find? .filter with
  | none =>
      rw [insertionPoint_lower]
      exact congrArg (fun slot => Except.ok (some slot)) (newConditionSlot_lower _ _)
  | some offset =>
      simp only [insertionPoint_lower, Site.atOffset_lower, Site.word?_lower,
        Word.firstTopLevel?_lower, hasPredicate_lower]
      split
      · rfl
      · split
        · rfl
        · exact congrArg (fun slot => Except.ok (some slot)) (conditionSlot_lower _ _ _ _)

theorem Slot.fill_lower (slot : Slot) (inserted : Text) :
    Text.lower (slot.lower.fill inserted) = Text.lower (slot.fill inserted) := by
  simp only [Slot.fill, Slot.lower, lower_append, lower_lower]

/-! ## Statements -/

/-- What comes of scoping a statement, but for the case of letters and the records of a refusal. -/
def blur (result : Except Refusal Statement) : Except Fault Statement :=
  match result with
  | .ok statement => .ok statement.lower
  | .error refusal => .error refusal.fault

theorem verified_lower {statement other : Statement} (same : statement.lower = other.lower) :
    blur (verified statement) = blur (verified other) := by
  have find_eq : statement.outline.find? .filter = other.outline.find? .filter := by
    rw [← Statement.find?_outline_lower, same, Statement.find?_outline_lower]
  have clauses_eq : statement.outline.clauses = other.outline.clauses := by
    have outline_eq := congrArg Statement.outline same
    rw [Statement.outline_lower, Statement.outline_lower] at outline_eq
    have clauses_eq := congrArg Outline.clauses outline_eq
    exact clauses_eq
  simp only [verified, find_eq, clauses_eq]
  split
  · exact congrArg Except.ok same
  · rfl

/-- A statement is scoped in lower case as it is, or is refused for the same fault. -/
theorem inject_lower (rules : ScopeRules) (tenant : Tenant) (statement : Statement) :
    blur (inject rules tenant statement.lower) = blur (inject rules tenant statement) := by
  have still : statement.lower.lower = statement.lower := by
    simp only [Statement.lower, lower_lower]
  simp only [inject, Statement.outline_lower, sourceOf_lower, Outline.table_lower,
    ScopeRules.columnOf_lower]
  generalize rules.columnOf tenant statement.outline.table = column
  cases sourceOf tenant statement.outline with
  | error fault => rfl
  | ok source =>
      have chosen := slot?_lower statement.text column statement.outline source
      simp only [Except.map, Statement.lower_text]
      -- Both choices are of one kind, since they agree in lower case.
      generalize slot? (lower statement.text) column statement.outline.lower source.lower =
        folded at chosen ⊢
      generalize slot? statement.text column statement.outline source = plain at chosen ⊢
      rcases folded with fault | _ | slot <;> rcases plain with other | _ | other
        <;> try cases chosen
      · rfl
      · exact congrArg Except.ok still
      · have same : slot.lower = other.lower := Option.some.inj (Except.ok.inj chosen)
        refine verified_lower ?_
        simp only [Statement.lower, Statement.withText, lower_lower, ← Slot.fill_lower slot,
          ← Slot.fill_lower other, same]

end Scope

end TenantScope
