import TenantScope.Proofs.Converging
import TenantScope.Proofs.Injection
import TenantScope.Proofs.Unqualifying

/-!
# What every stage keeps

Each stage takes pieces out of a well-formed text, moves them or puts others in.  It does so at
places outside literals and parentheses, and what comes together there is read as it was, so the
text stays well formed.
-/

namespace TenantScope

open Text Site Literal

/-! ## Naming columns and repairing -/

namespace Repair

variable {rules : ScopeRules} {tenant : Tenant}

theorem wellformed_normalize {statement : Statement} (whole : Wellformed statement.text) :
    Wellformed (normalize statement).text :=
  ⟨(closed_normalize _).mpr whole.closed, (balanced_normalize _).mpr whole.balanced⟩

open Token in
/-- Naming columns replaces words by words, and may copy what follows a region into a literal that
is never closed. -/
theorem exists_similar_aliasColumn (columns : EveryColumn IsName rules tenant) {tokens : List Token}
    (lexed : Lexed none tokens) {statement : Statement} (text_eq : statement.text = spell tokens) :
    ∃ others copied, Lexed none others ∧ Similar tokens others ∧ Copied others copied ∧
      copied <:+ statement.text ∧
      aliasColumn rules tenant statement = statement.withText (spell others ++ copied) := by
  rcases aliasColumn_cases rules tenant statement.text with kept | ⟨place, found, renames⟩
  · refine ⟨tokens, [], lexed, similar_refl tokens, .inl rfl, List.nil_suffix, ?_⟩
    rw [kept statement rfl, List.append_nil, ← text_eq]
    rfl
  · obtain ⟨before, inside, after, region⟩ := exists_region found
    obtain ⟨front, middle, back, parts⟩ := region.exists_parts
    obtain rfl := eq_of_spell_eq parts.lexed lexed (parts.spelled.trans text_eq)
    obtain ⟨copied, copied_eq, suffix_eq, renamed_eq⟩ := parts.exists_renameColumn
      (rules.columnOf tenant statement.outline.table) columns.defaultColumn.upper rfl
      (region.regionEnd_eq statement rfl)
    rw [renames statement rfl found]
    have similar := @similar_rename (rules.defaultColumn tenant).upper
      (rules.columnOf tenant statement.outline.table) (introduced (spell front).reverse) middle
    refine ⟨_, copied, parts.lexed_rename _ (columns.columnOf statement.outline.table) _,
      similar_append (similar_refl front) (similar_append similar (similar_refl back)), ?_,
      text_eq ▸ parts.spelled ▸ suffix_eq, renamed_eq⟩
    refine copied_eq.imp_right fun ⟨unclosed, trailing⟩ => ⟨fun closed => unclosed ?_, trailing⟩
    exact (whole_of_similar similar).mp
      (List.forall_mem_append.mp (List.forall_mem_append.mp closed).2).1

open Token in
theorem wellformed_aliasColumn (columns : EveryColumn IsName rules tenant) {statement : Statement}
    (whole : Wellformed statement.text) : Wellformed (aliasColumn rules tenant statement).text := by
  obtain ⟨tokens, lexed, text_eq⟩ := exists_lexed statement.text
  obtain ⟨others, copied, others_lexed, similar, copied_eq, -, named_eq⟩ :=
    exists_similar_aliasColumn columns lexed text_eq.symm
  obtain ⟨closed, balanced⟩ := whole
  rw [← text_eq, closed_start_spell lexed, ← whole_of_similar similar] at closed
  rw [← text_eq, balanced_spell lexed, ← parens_of_similar similar] at balanced
  have nothing : copied = [] := copied_eq.resolve_right fun unclosed => unclosed.1 closed
  rw [named_eq, Statement.withText, nothing, List.append_nil]
  exact ⟨(closed_start_spell others_lexed).mpr closed, (balanced_spell others_lexed).mpr balanced⟩

/-- A pass keeps a text well formed. -/
theorem wellformed_pass (columns : EveryColumn IsName rules tenant) {statement : Statement}
    (whole : Wellformed statement.text) : Wellformed (pass rules tenant statement).text :=
  wellformed_aliasColumn columns <| wellformed_normalize <| wellformed_relocateFilter <|
    wellformed_cutTrailingConditions whole

end Repair

/-! ## Filling a slot -/

namespace Scope

variable {column id : Text}

open Token in
/-- An identifier between apostrophes is one literal. -/
theorem tokens_quoted (unquoted : ∀ byte ∈ id, byte.isQuote = false) :
    Lexed none [literal Byte.apostrophe (id ++ [Byte.apostrophe])] ∧
      spell [literal Byte.apostrophe (id ++ [Byte.apostrophe])] = quoted id := by
  have closing := @closing?_of_not_mem Byte.apostrophe id []
    (fun member => absurd (unquoted _ member) (by decide)) (by simp)
  exact ⟨⟨⟨rfl, by decide, rfl, by simpa [escapes] using closing⟩, trivial⟩,
    by simp [bytes, quoted]⟩

open Token in
theorem wellformed_quoted (unquoted : ∀ byte ∈ id, byte.isQuote = false) :
    Wellformed (quoted id) := by
  obtain ⟨lexed, spelled⟩ := tokens_quoted unquoted
  rw [← spelled]
  exact ⟨(closed_start_spell lexed).mpr (by simp [Whole, isRemnant]),
    (balanced_spell lexed).mpr rfl⟩

theorem wellformed_predicate (name : IsName column) (unquoted : ∀ byte ∈ id, byte.isQuote = false) :
    Wellformed (predicate column id) := by
  have plain := plain_comparison name
  rw [predicate_eq]
  refine (wellformed_of_plain (fun byte member => (plain byte member).1)
    fun byte member => (plain byte member).2).append (wellformed_quoted unquoted) ?_
  rw [comparison, List.reverse_append]
  exact Seam.of_plain_last (by decide) (by decide) _ _

/-- What comes before the slot for a new condition is as well formed as what came before it. -/
theorem wellformed_newConditionSlot {before : Text} (whole : Wellformed before) (after : Text) :
    Wellformed (newConditionSlot (before ++ after) before.length).before := by
  have introduction : Wellformed (ascii " WHERE ") := by decide
  rw [newConditionSlot_eq]
  exact (Repair.wellformed_trimRight whole).append introduction
    (Seam.of_plain_head (by decide) (by decide) _ _)

/-- What comes before the slot of a condition is as well formed as the condition. -/
theorem wellformed_conditionSlot {before head lead condition trail : Text} {filter : Nat}
    (layout : Layout before filter head lead condition trail) (whole : Wellformed before)
    (after : Text) (hasOr : Bool) :
    Wellformed (conditionSlot (before ++ after) (filter + 5) before.length hasOr).before := by
  obtain ⟨head_whole, lead_whole, condition_whole⟩ := layout.wellformed whole
  by_cases nonempty : condition = []
  · subst nonempty
    have blank : Wellformed [Byte.blank] := by decide
    rw [conditionSlot_blank layout]
    exact head_whole.append blank (Seam.of_plain_head (by decide) (by decide) _ _)
  · have conjunction : Wellformed (ascii " AND ") := by decide
    rw [conditionSlot_visible layout nonempty, leading, if_neg nonempty]
    cases hasOr with
    | true =>
        have split : [Byte.openParen] ++ condition ++ ascii ") AND " =
            ([Byte.openParen] ++ condition ++ [Byte.closeParen]) ++ ascii " AND " := by
          rw [List.append_assoc _ [Byte.closeParen]]
          rfl
        rw [if_pos rfl, split]
        exact lead_whole.append (condition_whole.parenthesized.append conjunction
          (Seam.of_plain_head (by decide) (by decide) _ _))
            (Seam.of_plain_head (by decide) (by decide) _ _)
    | false =>
        rw [if_neg Bool.false_ne_true, ← List.append_assoc]
        exact (lead_whole.append condition_whole layout.broken.toSeam).append conjunction
          (Seam.of_plain_head (by decide) (by decide) _ _)

section Division

variable {text before after : Text} {source : Source} {slot : Slot}
  (division : Division text source before after) (whole : Wellformed text)

include division whole

/-- A well-formed text is divided into two. -/
theorem Division.wellformed : Wellformed before ∧ Wellformed after := by
  have parting := division.parting
  have seam := parting.broken.toSeam
  have level := division.level_of_balanced whole.balanced
  obtain ⟨closed, nested, balanced⟩ := whole
  rw [parting.split] at closed nested balanced
  rw [nested_start_append parting.closed seam, level] at nested
  rw [endDepth_start_append parting.closed seam, level] at balanced
  exact ⟨⟨parting.closed, nested.1, level⟩,
    ⟨(closed_start_append parting.closed seam).mp closed, nested.2, balanced⟩⟩

theorem Division.wellformed_before
    (chosen : slot? text column (Outline.ofText text) source = .ok (some slot)) :
    Wellformed slot.before := by
  have before_whole := (division.wellformed whole).1
  rcases division.slot_cases chosen with rfl | ⟨filter, hasOr, filter_eq, inside, rfl⟩
  · exact wellformed_newConditionSlot before_whole after
  · obtain ⟨head, lead, condition, trail, filtered⟩ :=
      exists_filtered division.opening division.parting filter_eq inside
    exact wellformed_conditionSlot filtered.toLayout before_whole after hasOr

/-- A well-formed text stays so when its slot is filled. -/
theorem Division.wellformed_fill (plain : IsColumn column) (valid : IsTenantId id)
    (chosen : slot? text column (Outline.ofText text) source = .ok (some slot)) :
    Wellformed (slot.fill (predicate column id)) := by
  obtain ⟨filter, fitting, -⟩ := division.fitting chosen
  obtain ⟨trail, blank, -, text_eq⟩ := fitting.fill_eq column id
  have broken := (fitting.closed_before plain.name valid division.parting.ending blank).2
  have trail_whole : Wellformed trail := wellformed_of_plain
    (fun byte member => Byte.isQuote_of_isSpace byte (blank byte member))
    fun byte member => Byte.depthless_of_isSpace byte (blank byte member)
  rw [text_eq]
  exact (((division.wellformed_before whole chosen).append
    (wellformed_predicate plain.name valid.unquoted)
    (break_before_predicate fitting.joint column id).toSeam).append trail_whole
      (Seam.of_blank_right blank _)).append (division.wellformed whole).2 broken.toSeam

end Division

/-- A statement that is scoped stays well formed. -/
theorem wellformed_inject {rules : ScopeRules} {tenant : Tenant} {statement result : Statement}
    (columns : EveryColumn IsColumn rules tenant)
    (unquoted : ∀ byte ∈ tenant.id, byte.isQuote = false) (whole : Wellformed statement.text)
    (injected : inject rules tenant statement = .ok result) :
    result.received = statement.received ∧ Wellformed result.text := by
  obtain ⟨source, source_found, outcome⟩ := inject_cases injected
  obtain ⟨before, after, division⟩ := exists_division whole.closed source_found
  rcases outcome with ⟨rfl, -⟩ | ⟨slot, chosen, rfl, -⟩
  · exact ⟨rfl, whole⟩
  · have valid : IsTenantId tenant.id := ⟨(sourceOf_eq_ok source_found).1, unquoted⟩
    exact ⟨rfl, division.wellformed_fill whole (columns.columnOf _) valid chosen⟩

end Scope

/-! ## All stages -/

/-- A statement has a well-formed text, and its outline is the one that a scan of the text finds. -/
structure Statement.Sound (statement : Statement) : Prop where
  outline_eq : statement.outline = Scanner.scan statement.text
  whole : Wellformed statement.text

/-- A stage makes a sound statement and keeps the text as it was received. -/
structure Statement.Keeps (statement result : Statement) : Prop extends Statement.Sound result where
  received : result.received = statement.received

theorem Statement.Sound.of_wellformed {statement : Statement} (whole : Wellformed statement.text) :
    statement.Sound :=
  ⟨(Scanner.scan_eq_ofText statement.text).symm, whole⟩

namespace Repair

variable {rules : ScopeRules} {tenant : Tenant}

theorem keeps_pass (columns : EveryColumn IsName rules tenant) {statement : Statement}
    (whole : Wellformed statement.text) : statement.Keeps (pass rules tenant statement) :=
  ⟨.of_wellformed (wellformed_pass columns whole), received_pass rules tenant statement⟩

/-- So do any number of passes. -/
theorem keeps_iterate_pass (columns : EveryColumn IsName rules tenant) {statement : Statement}
    (whole : Wellformed statement.text) (passes : Nat) :
    statement.Keeps ((pass rules tenant)^[passes] statement) := by
  induction passes with
  | zero => exact ⟨.of_wellformed whole, rfl⟩
  | succ passes ih =>
      have kept := keeps_pass columns ih.whole
      rw [Function.iterate_succ_apply']
      exact ⟨kept.toSound, kept.received.trans ih.received⟩

end Repair

open Repair Scope

/-- Every stage after the text is put in normal form keeps a well-formed text well
formed: taking off the name of the database, each single repair, any number of passes of
all of them, and scoping. -/
theorem stages_keep_wellformed {rules : ScopeRules} {tenant : Tenant}
    (columns : EveryColumn IsColumn rules tenant)
    (unquoted : ∀ byte ∈ tenant.id, byte.isQuote = false) {statement : Statement}
    (whole : Wellformed statement.text) :
    (∀ database received, (∀ byte ∈ database, byte.isIdentifier = true) →
        Statement.Sound ⟨received, TableName.unqualify database statement.text⟩) ∧
      statement.Keeps (cutTrailingConditions statement) ∧
      statement.Keeps (relocateFilter statement) ∧
      statement.Keeps (normalize statement) ∧
      statement.Keeps (aliasColumn rules tenant statement) ∧
      (∀ passes, statement.Keeps ((pass rules tenant)^[passes] statement)) ∧
      (∀ limits, statement.Keeps (statement.repair limits rules tenant)) ∧
      ∀ result, inject rules tenant statement = .ok result → statement.Keeps result := by
  have names : EveryColumn IsName rules tenant := columns.imp fun _ plain => plain.name
  refine ⟨fun database received identifiers => ?_, ?_, ?_, ?_, ?_, keeps_iterate_pass names whole,
    fun limits => ?_, fun result injected => ?_⟩
  · exact .of_wellformed (TableName.wellformed_unqualify identifiers whole)
  · exact ⟨.of_wellformed (wellformed_cutTrailingConditions whole),
      received_cutTrailingConditions statement⟩
  · exact ⟨.of_wellformed (wellformed_relocateFilter whole), received_relocateFilter statement⟩
  · exact ⟨.of_wellformed (wellformed_normalize whole), rfl⟩
  · exact ⟨.of_wellformed (wellformed_aliasColumn names whole),
      received_aliasColumn rules tenant statement⟩
  · rw [Statement.repair, run_eq_iterate]
    exact keeps_iterate_pass names whole _
  · obtain ⟨received, injected_whole⟩ := wellformed_inject columns unquoted whole injected
    exact ⟨.of_wellformed injected_whole, received⟩

/-- A statement with a condition to cut, one to move, a column to name and a
doubled mark in a literal. -/
theorem stages_keep_wellformed_misplaced :
    let statement : Statement :=
      ⟨[], ascii "SELECT a FROM tenants LIMIT (1) AND b WHERE tenant_id = 'it''s'"⟩
    Wellformed statement.text ∧ statement.Keeps (statement.repair {} {} { id := ascii "x" }) ∧
      Statement.Sound ⟨[], TableName.unqualify (ascii "db") statement.text⟩ := by
  intro statement
  have columns : EveryColumn IsColumn {} { id := ascii "x" } := by decide +kernel
  have whole : Wellformed statement.text := by decide +kernel
  obtain ⟨unqualified, -, -, -, -, -, repaired, -⟩ :=
    stages_keep_wellformed columns (by decide +kernel) whole
  exact ⟨whole, repaired {}, unqualified (ascii "db") [] (by decide +kernel)⟩

end TenantScope
