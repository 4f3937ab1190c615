import TenantScope.Proofs.FoldedForms
import TenantScope.Repair
import TenantScope.Scope.Injection

/-!
# Repair and scoping in lower case

What a repair does to a statement, and where its predicate goes, is the same in lower case.  The
words that are put in have a case of their own, so the results agree but for the case of letters.
-/

namespace TenantScope

open Text Byte

/-- The statement in lower case. -/
def Statement.lower (statement : Statement) : Statement where
  received := Text.lower statement.received
  text := Text.lower statement.text

namespace Statement

@[simp]
theorem lower_text (statement : Statement) : statement.lower.text = Text.lower statement.text :=
  rfl

@[simp]
theorem lower_withText (statement : Statement) (text : Text) :
    (statement.withText text).lower = statement.lower.withText (Text.lower text) :=
  rfl

theorem outline_lower (statement : Statement) : statement.lower.outline = statement.outline.lower :=
  Outline.ofText_lower statement.text .standard

theorem find?_outline_lower (statement : Statement) (kind : Clause) :
    statement.lower.outline.find? kind = statement.outline.find? kind := by
  rw [outline_lower]
  rfl

theorem earliestTail?_outline_lower (statement : Statement) :
    statement.lower.outline.earliestTail? = statement.outline.earliestTail? := by
  rw [outline_lower]
  rfl

theorem bodyEnd_lower (text : Text) : bodyEnd (Text.lower text) = bodyEnd text := by
  rw [bodyEnd, ← lower_reverse, dropWhile_lower caseless_isSpace, bodyEnd]
  cases text.reverse.dropWhile Byte.isSpace with
  | nil => rfl
  | cons last body =>
      have ending : (last.toLower == semicolon) = (last == semicolon) :=
        caseless_beq (by decide) last
      simp only [lower_cons, ending, length_lower]

theorem regionEnd_lower (statement : Statement) (offset : Nat) :
    statement.lower.regionEnd offset = statement.regionEnd offset := by
  rw [regionEnd, outline_lower, lower_text, bodyEnd_lower]
  rfl

theorem slice_lower (text : Text) (start stop : Nat) :
    slice (Text.lower text) start stop = Text.lower (slice text start stop) := by
  rw [slice, slice, lower_take, lower_drop]

end Statement

open Statement

/-! ## Repair -/

namespace Repair

theorem conditionStart?_lower (filterAt? : Option Nat) (cases : Nat) (sites : List Site) :
    conditionStart? filterAt? cases (sites.map Site.lower) =
      conditionStart? filterAt? cases sites := by
  induction sites generalizing cases with
  | nil => rfl
  | cons site sites ih =>
      have may : mayBeginKeyword site.lower = mayBeginKeyword site := by
        rw [mayBeginKeyword, Site.afterDot_lower, Site.lower_depth, mayBeginKeyword]
      have begins : beginsCondition filterAt? site.lower = beginsCondition filterAt? site := by
        simp only [beginsCondition, Site.hasWord_lower, Site.lower_offset]
      simp only [List.map_cons, conditionStart?, may, begins, Site.hasWord_lower,
        Site.lower_offset, ih]

theorem codeBetween_lower (text : Text) (start stop : Nat) :
    codeBetween (lower text) start stop = (codeBetween text start stop).map Site.lower := by
  rw [codeBetween, Site.atOffset_lower, Site.code_lower, List.takeWhile_map, codeBetween]
  rfl

theorem cutConditionOf_lower (statement : Statement) (kind : Clause) :
    cutConditionOf statement.lower kind = (cutConditionOf statement kind).lower := by
  rw [cutConditionOf, cutConditionOf, find?_outline_lower, find?_outline_lower]
  cases statement.outline.find? kind with
  | none => rfl
  | some offset =>
      simp only [lower_text, Site.atOffset_lower, Site.word?_lower, regionEnd_lower,
        codeBetween_lower, conditionStart?_lower]
      split
      · rfl
      · rw [lower_withText, lower_append, lower_take, lower_drop]

/-- Conditions are cut in lower case as they are. -/
theorem cutTrailingConditions_lower (statement : Statement) :
    cutTrailingConditions statement.lower = (cutTrailingConditions statement).lower := by
  rw [cutTrailingConditions, cutTrailingConditions]
  generalize conditionless = kinds
  induction kinds generalizing statement with
  | nil => rfl
  | cons kind kinds ih => rw [List.foldl_cons, cutConditionOf_lower, ih, List.foldl_cons]

theorem conjunct_lower (condition : Text) :
    conjunct (lower condition) = lower (conjunct condition) := by
  have opening : lower [openParen] = [openParen] := by decide
  have closing : lower [closeParen] = [closeParen] := by decide
  rw [conjunct, Word.firstTopLevel?_lower, length_lower, conjunct]
  split
  · rw [lower_append, lower_append, opening, closing]
  · rfl

theorem insertCondition_lower (text condition : Text) (offset : Nat) (filterAt? : Option Nat) :
    lower (insertCondition (lower text) (lower condition) offset filterAt?) =
      lower (insertCondition text condition offset filterAt?) := by
  simp only [insertCondition, lower_append, conjunct_lower, ← lower_take, ← lower_drop,
    trimRight_lower, lower_lower]

theorem moveFilter_lower (statement : Statement) (start : Nat) :
    (moveFilter statement.lower start).lower = (moveFilter statement start).lower := by
  have without : statement.lower.withText ((lower statement.text).take start ++
      (lower statement.text).drop (statement.regionEnd start)) =
        (statement.withText (statement.text.take start ++
          statement.text.drop (statement.regionEnd start))).lower := by
    rw [lower_withText, lower_append, lower_take, lower_drop]
  simp only [moveFilter, lower_text, Site.atOffset_lower, Site.word?_lower, regionEnd_lower,
    slice_lower, trim_lower, isEmpty_lower, without, find?_outline_lower,
    earliestTail?_outline_lower]
  split
  · simp only [Statement.lower, Statement.withText, lower_lower]
  · split
    · simp only [Statement.lower, lower_lower]
    · simp only [Statement.lower, Statement.withText, lower_lower, insertCondition_lower]

/-- A condition is moved in lower case as it is, but for the case of what introduces it. -/
theorem relocateFilter_lower (statement : Statement) :
    (relocateFilter statement.lower).lower = (relocateFilter statement).lower := by
  have still : statement.lower.lower = statement.lower := by
    simp only [Statement.lower, lower_lower]
  rw [relocateFilter, relocateFilter, find?_outline_lower, earliestTail?_outline_lower]
  split
  · split
    · exact still
    · exact moveFilter_lower _ _
  · exact still

theorem normalize_statement_lower (statement : Statement) :
    normalize statement.lower = (normalize statement).lower := by
  rw [normalize, lower_text, normalize_lower, normalize, lower_withText]

theorem comparedColumn?_lower (text column : Text) (stop : Nat) (site : Site) :
    comparedColumn? (lower text) column stop site.lower =
      comparedColumn? text column stop site := by
  have follows : followsConjunction (lower text) site.lower = followsConjunction text site := by
    simp only [followsConjunction, Site.lower_back, takeWhile_lower caseless_isSpace, length_lower,
      Word.endsAt_lower, Site.lower_offset]
  simp only [comparedColumn?, Site.atQuote_lower, Site.afterDot_lower, Site.word?_lower, follows,
    Site.equalsBefore_lower]

theorem comparingUnits_lower (text column : Text) (start stop : Nat) :
    comparingUnits (lower text) column start stop =
      (comparingUnits text column start stop).map Site.lower := by
  have blind (site : Site) :
      comparingWidth (lower text) column stop site.lower =
        comparingWidth text column stop site := by
    rw [comparingWidth, comparedColumn?_lower, Site.lexemeWidth_lower, comparingWidth]
  rw [comparingUnits, Site.atOffset_lower, Site.tour_lower blind, List.takeWhile_map,
    comparingUnits]
  rfl

theorem renamedUnit_lower (text column replacement : Text) (stop : Nat) (site : Site) :
    lower (renamedUnit (lower text) column replacement stop site.lower) =
      lower (renamedUnit text column replacement stop site) := by
  rw [renamedUnit, comparedColumn?_lower, Site.lexemeWidth_lower, Site.lower_rest, ← lower_take,
    renamedUnit]
  split
  · rfl
  · exact lower_lower _

theorem renameCompared_lower (text column replacement : Text) (start stop : Nat) :
    lower (renameCompared (lower text) column replacement start stop) =
      lower (renameCompared text column replacement start stop) := by
  simp only [renameCompared, lower_append, ← lower_take, ← lower_drop, lower_lower,
    comparingUnits_lower, List.flatMap_map, lower_flatMap, renamedUnit_lower]

theorem renameColumn_lower (statement : Statement) (column replacement : Text) (start : Nat) :
    (renameColumn statement.lower column replacement start).lower =
      (renameColumn statement column replacement start).lower := by
  simp only [renameColumn, lower_text, regionEnd_lower, comparingUnits_lower, List.any_map,
    Function.comp_def, comparedColumn?_lower]
  split
  · simp only [Statement.lower, Statement.withText, lower_lower, renameCompared_lower]
  · simp only [Statement.lower, lower_lower]

/-- Columns are named in lower case as they are, but for the case of their names. -/
theorem aliasColumn_lower (rules : ScopeRules) (tenant : Tenant) (statement : Statement) :
    (aliasColumn rules tenant statement.lower).lower =
      (aliasColumn rules tenant statement).lower := by
  have still : statement.lower.lower = statement.lower := by
    simp only [Statement.lower, lower_lower]
  have table_eq : statement.lower.outline.table = lower statement.outline.table := by
    rw [outline_lower, Outline.table_lower]
  rw [aliasColumn, aliasColumn, find?_outline_lower]
  simp only [table_eq, isEmpty_lower, ScopeRules.columnOf_lower]
  split
  · exact still
  · split
    · exact still
    · exact renameColumn_lower _ _ _ _

end Repair

end TenantScope
