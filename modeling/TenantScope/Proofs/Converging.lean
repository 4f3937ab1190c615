import TenantScope.Proofs.Columns
import TenantScope.Proofs.Replacing
import TenantScope.Proofs.Settling
import TenantScope.Repair

/-!
# Where repair comes to rest

A pass cuts and moves at most as often as the clauses of a text make a detour; then it names columns
and puts the text in normal form, which leaves nothing to do after one more pass.  A repair with
fewer passes than that may stop early, and then it is not idempotent.
-/

namespace TenantScope

open Text Site Literal

namespace Token

/-! ## Normal forms with other words -/

theorem similar_append_left {tokens others result : List Token}
    (similar : Similar (tokens ++ others) result) :
    ∃ tokens' others', result = tokens' ++ others' ∧ Similar tokens tokens' ∧
      Similar others others' := by
  induction tokens generalizing result with
  | nil => exact ⟨[], result, rfl, .nil, similar⟩
  | cons token tokens ih =>
      cases similar with
      | cons same similar =>
          obtain ⟨tokens', others', rfl, first, second⟩ := ih similar
          exact ⟨_ :: tokens', others', rfl, .cons same first, second⟩

/-- The end of a normal form is finished again in the same way, whatever word it is. -/
theorem exists_of_similar_finish {last : Token} {tokens : List Token}
    (visible : last.isTrailer = false) (similar : Similar (finish last) tokens) :
    ∃ last' rest, tokens = last' :: rest ∧ last'.isTrailer = false ∧
      (∀ token ∈ rest, token.isTrailer = true) ∧ finish last' = tokens := by
  have semicolon : ∀ token ∈ [byte Byte.semicolon], token.isTrailer = true := by decide
  have other (finish_eq : finish last = [last, byte Byte.semicolon]) :
      ∃ last' rest, tokens = last' :: rest ∧ last'.isTrailer = false ∧
        (∀ token ∈ rest, token.isTrailer = true) ∧ finish last' = tokens := by
    rw [finish_eq] at similar
    cases similar with
    | cons same similar =>
        cases similar with
        | cons same_end similar =>
            cases similar
            obtain rfl := same_end.resolve_right (by simp)
            rcases same with rfl | ⟨written, rewritten, rfl, rfl⟩
            · exact ⟨_, _, rfl, visible, semicolon, finish_eq⟩
            · exact ⟨_, _, rfl, rfl, semicolon, rfl⟩
  cases last with
  | remnant mark content =>
      cases similar with
      | cons same similar =>
          cases similar
          obtain rfl := same.resolve_right (by simp)
          refine ⟨_, [], rfl, rfl, by simp, ?_⟩
          rw [finish, dropRightWhile_append_of_pos (by simp [trails])]
          simp [dropRightWhile, List.dropWhile_idempotent]
  | _ => exact other rfl

/-- A text in normal form stays so when words in it are replaced. -/
theorem terminate_of_similar {tokens others : List Token} (lexed : Lexed none others)
    (similar : Similar (normal tokens) others) :
    NormalForm.terminate (spell others) = spell others := by
  rcases normal_cases tokens with ⟨empty, -⟩ | ⟨front, last, rest, -, normal_eq, visible, -⟩
  · rw [empty] at similar
    cases similar
    rfl
  · rw [normal_eq] at similar
    obtain ⟨front', finished, rfl, -, similar⟩ := similar_append_left similar
    obtain ⟨last', rest', rfl, visible', trailers, finish_eq⟩ :=
      exists_of_similar_finish visible similar
    rw [terminate_spell (linked_append.mp lexed).2.1.2 visible' trailers, finish_eq]

theorem spaced_of_similar_normal {tokens others : List Token}
    (similar : Similar (normal tokens) others) :
    others = [] ∨ Spaced false others := by
  rcases spaced_normal tokens with empty | spaced
  · rw [empty] at similar
    cases similar
    exact .inl rfl
  · exact .inr (spaced_of_similar similar spaced)

/-! ## Texts that end in a literal that is never closed -/

/-- What may stand a second time behind a text that ends in a literal that is never closed. -/
def Copied (tokens : List Token) (copied : Text) : Prop :=
  copied = [] ∨ ¬ Whole tokens ∧ ∀ byte ∈ copied, trails byte = true

/-- What trails goes into a literal that is never closed. -/
theorem exists_remnant {tokens : List Token} {copied : Text} (lexed : Lexed none tokens)
    (unclosed : ¬ Whole tokens) (trailing : ∀ byte ∈ copied, trails byte = true) :
    ∃ front mark content, tokens = front ++ [remnant mark content] ∧
      Lexed none (front ++ [remnant mark (content ++ copied)]) := by
  obtain ⟨front, mark, content, rfl, -⟩ := (whole_or_exists lexed).resolve_left unclosed
  refine ⟨front, mark, content, rfl, ?_⟩
  obtain ⟨front_lexed, ⟨free, quote, apart, open_end⟩, -⟩ := linked_append.mp lexed
  refine linked_append.mpr ⟨front_lexed, ⟨free, quote, apart, ?_⟩, trivial⟩
  refine closing?_append_eq_none open_end fun member => ?_
  have trails := trailing mark member
  rw [trails_of_isQuote quote] at trails
  cases trails

theorem spaced_concat {may : Bool} {front : List Token} {last other : Token}
    (visible : other.isGap = false) (spaced : Spaced may (front ++ [last])) :
    Spaced may (front ++ [other]) := by
  induction front generalizing may with
  | nil => exact (spaced_of_visible visible []).mpr rfl
  | cons token front ih =>
      rw [List.cons_append, Spaced] at spaced ⊢
      split
      · rename_i gap
        rw [if_pos gap] at spaced
        exact ⟨spaced.1, spaced.2.1, ih spaced.2.2⟩
      · rename_i gap
        rw [if_neg gap] at spaced
        exact ih spaced

/-- What was copied behind a text in normal form is taken off again. -/
theorem normalize_append_copied {tokens others : List Token} {copied : Text}
    (lexed : Lexed none others) (similar : Similar (normal tokens) others)
    (copied_eq : Copied others copied) :
    normalize (spell others ++ copied) = spell others := by
  have settled := terminate_of_similar lexed similar
  rcases spaced_of_similar_normal similar with rfl | spaced
  · obtain rfl := copied_eq.resolve_right fun unclosed => unclosed.1 (by simp [Whole])
    rfl
  · rcases copied_eq with rfl | ⟨unclosed, trailing⟩
    · rw [List.append_nil, normalize_eq_terminate lexed, squeeze_of_spaced spaced, settled]
    · obtain ⟨front, mark, content, rfl, longer⟩ := exists_remnant lexed unclosed trailing
      have spelled : spell (front ++ [remnant mark content]) ++ copied =
          spell (front ++ [remnant mark (content ++ copied)]) := by
        simp [bytes]
      rw [spelled, normalize_eq_terminate longer, squeeze_of_spaced (spaced_concat rfl spaced),
        ← spelled, terminate_eq, dropRightWhile_append_of_pos trailing, ← terminate_eq, settled]

/-- What is copied into a literal that is never closed says nothing. -/
theorem kinds_append_copied {tokens : List Token} {copied : Text} (lexed : Lexed none tokens)
    (copied_eq : Copied tokens copied) :
    (start (spell tokens ++ copied)).kinds = kinds tokens := by
  rcases copied_eq with rfl | ⟨unclosed, trailing⟩
  · rw [List.append_nil, kinds_spell lexed]
  · obtain ⟨front, mark, content, rfl, longer⟩ := exists_remnant lexed unclosed trailing
    have spelled : spell (front ++ [remnant mark content]) ++ copied =
        spell (front ++ [remnant mark (content ++ copied)]) := by
      simp [bytes]
    rw [spelled, kinds_spell longer, kinds_remnant front mark _ content]

end Token

/-! ## Columns of other tables -/

namespace Repair

open Token

/-- Columns are replaced from the first `WHERE` on, if at all. -/
theorem aliasColumn_cases (rules : ScopeRules) (tenant : Tenant) (text : Text) :
    (∀ statement : Statement, statement.text = text →
        aliasColumn rules tenant statement = statement) ∨
      ∃ place, (Outline.ofText text).find? .filter = some place ∧
        ∀ statement : Statement, statement.outline.table = (Outline.ofText text).table →
          statement.outline.find? .filter = some place →
            aliasColumn rules tenant statement = renameColumn statement
              (rules.defaultColumn tenant).upper (rules.columnOf tenant (Outline.ofText text).table)
              place := by
  by_cases direct : (Outline.ofText text).table.isEmpty ||
      rules.defaultColumn tenant == rules.columnOf tenant (Outline.ofText text).table
  · refine .inl fun statement same => ?_
    subst same
    rw [aliasColumn]
    exact if_pos direct
  · cases found : (Outline.ofText text).find? .filter with
    | none =>
        refine .inl fun statement same => ?_
        subst same
        rw [aliasColumn, Statement.outline]
        simp only [found]
        exact if_neg direct
    | some place =>
        refine .inr ⟨place, rfl, fun statement table_eq found => ?_⟩
        rw [aliasColumn]
        simp only [found, table_eq]
        exact if_neg direct

/-- The scope columns of all tables are ordinary names. -/
def OrdinaryNames (rules : ScopeRules) (tenant : Tenant) : Prop :=
  ∀ table, IsOrdinary (rules.columnOf tenant table)

section Alias

variable {rules : ScopeRules} {tenant : Tenant}

theorem OrdinaryNames.of_everyColumn (columns : EveryColumn IsOrdinary rules tenant) :
    OrdinaryNames rules tenant :=
  fun table => columns.columnOf table

theorem OrdinaryNames.default (columns : OrdinaryNames rules tenant) :
    IsOrdinary (rules.defaultColumn tenant).upper :=
  IsOrdinary.upper (columns [])

/-- What naming columns makes of the tokens of a text, at once and again. -/
structure Alias (rules : ScopeRules) (tenant : Tenant) (tokens others : List Token) : Prop where
  lexed : Lexed none others
  similar : Similar tokens others
  kinds_eq : kinds others = kinds tokens
  first : ∀ statement : Statement, statement.text = spell tokens → ∃ copied, Copied others copied ∧
    aliasColumn rules tenant statement = statement.withText (spell others ++ copied)
  again : ∀ statement : Statement, statement.text = spell others → ∃ copied, Copied others copied ∧
    aliasColumn rules tenant statement = statement.withText (spell others ++ copied)

theorem exists_alias (columns : OrdinaryNames rules tenant) {tokens : List Token}
    (lexed : Lexed none tokens) : ∃ others, Alias rules tenant tokens others := by
  rcases aliasColumn_cases rules tenant (spell tokens) with kept | ⟨place, found, renames⟩
  · have unchanged (statement : Statement) (text_eq : statement.text = spell tokens) :
        ∃ copied, Copied tokens copied ∧
          aliasColumn rules tenant statement = statement.withText (spell tokens ++ copied) := by
      refine ⟨[], .inl rfl, ?_⟩
      rw [kept statement text_eq, List.append_nil, ← text_eq]
      rfl
    exact ⟨tokens, lexed, similar_refl tokens, rfl, unchanged, unchanged⟩
  · obtain ⟨before, inside, after, region⟩ := exists_region found
    obtain ⟨front, tokens, back, parts⟩ := region.exists_parts
    obtain rfl := eq_of_spell_eq parts.lexed lexed parts.spelled
    have column_ordinary := columns.default
    have ordinary := columns (Outline.ofText (spell (front ++ (tokens ++ back)))).table
    generalize rules.columnOf tenant (Outline.ofText (spell (front ++ (tokens ++ back)))).table =
      replacement at ordinary renames
    have column_upper := upper_upper (rules.defaultColumn tenant)
    generalize (rules.defaultColumn tenant).upper = column at column_ordinary renames column_upper
    let follows := introduced (spell front).reverse
    let others := front ++ (rename column replacement follows tokens ++ back)
    obtain ⟨inside', after', region', parts'⟩ :=
      region.exists_renamed ordinary column_ordinary column_upper parts follows
    have similar := @similar_rename column replacement follows tokens
    have table_eq : (Outline.ofText (spell others)).table =
        (Outline.ofText (spell (front ++ (tokens ++ back)))).table := by
      obtain ⟨written, rest, rfl, is_where⟩ := region.exists_where parts
      rw [table_spell parts'.lexed, table_spell lexed,
        tables_rename ordinary column_ordinary column_upper lexed is_where]
    -- What is copied comes from a literal that stays open.
    have copies {region : List Token} {copied : Text} (same : Similar region
        (rename column replacement follows tokens))
        (copied_eq : copied = [] ∨ ¬ Whole region ∧ ∀ byte ∈ copied, trails byte = true) :
        Copied others copied := by
      refine copied_eq.imp_right fun ⟨unclosed, trailing⟩ => ⟨fun whole => unclosed ?_, trailing⟩
      exact (whole_of_similar same).mp
        (List.forall_mem_append.mp (List.forall_mem_append.mp whole).2).1
    refine ⟨others, parts'.lexed, ?_, ?_, ?_, ?_⟩
    · exact similar_append (similar_refl front) (similar_append similar (similar_refl back))
    · obtain ⟨written, rest, rfl, is_where⟩ := region.exists_where parts
      exact kinds_rename ordinary column_ordinary column_upper is_where front follows rest back
    · intro statement text_eq
      obtain ⟨copied, copied_eq, -, renamed_eq⟩ := parts.exists_renameColumn replacement
        column_ordinary.name text_eq (region.regionEnd_eq statement text_eq)
      refine ⟨copied, copies similar copied_eq, ?_⟩
      rw [renames statement (by rw [Statement.outline, text_eq])
        (by rw [Statement.outline, text_eq, found]), renamed_eq]
    · intro statement text_eq
      obtain ⟨copied, copied_eq, -, renamed_eq⟩ := parts'.exists_renameColumn replacement
        column_ordinary.name text_eq (region'.regionEnd_eq statement text_eq)
      refine ⟨copied, copies (similar_refl _) copied_eq, ?_⟩
      rw [renames statement (by rw [Statement.outline, text_eq, table_eq])
        (by rw [Statement.outline, text_eq, region'.find?_eq]), renamed_eq,
        rename_rename ordinary column_ordinary column_upper]

/-- Naming columns keeps the signs of a text. -/
theorem kinds_aliasColumn (columns : OrdinaryNames rules tenant) (statement : Statement) :
    (start (aliasColumn rules tenant statement).text).kinds = (start statement.text).kinds := by
  obtain ⟨tokens, lexed, text_eq⟩ := exists_lexed statement.text
  obtain ⟨others, named⟩ := exists_alias columns lexed
  obtain ⟨copied, copied_eq, named_eq⟩ := named.first statement text_eq.symm
  rw [named_eq, Statement.withText, kinds_append_copied named.lexed copied_eq, named.kinds_eq,
    ← text_eq, kinds_spell lexed]

/-- A statement in normal form comes to rest when its columns are named and it is put
in normal form again. -/
theorem normalize_aliasColumn (columns : OrdinaryNames rules tenant) {statement : Statement}
    (normal : normalize statement = statement) :
    normalize (aliasColumn rules tenant (normalize (aliasColumn rules tenant statement))) =
      normalize (aliasColumn rules tenant statement) := by
  obtain ⟨tokens, lexed, text_eq⟩ := exists_lexed statement.text
  obtain ⟨others, named⟩ := exists_alias columns lexed
  have normal_eq : Token.normal tokens = tokens := by
    refine eq_of_spell_eq (lexed_normal lexed) lexed ?_
    rw [← normalize_spell lexed, text_eq]
    exact congrArg Statement.text normal
  have similar := normal_eq.symm ▸ named.similar
  have settles {other : Statement} {copied : Text} (copied_eq : Copied others copied) :
      normalize (other.withText (spell others ++ copied)) = other.withText (spell others) :=
    congrArg (Statement.mk other.received) (normalize_append_copied named.lexed similar copied_eq)
  obtain ⟨copied, copied_eq, named_eq⟩ := named.first statement text_eq.symm
  rw [named_eq, settles copied_eq]
  obtain ⟨copied, copied_eq, named_eq⟩ := named.again (statement.withText (spell others)) rfl
  rw [named_eq, settles copied_eq]
  rfl

end Alias

/-! ## Passes -/

theorem received_cutTrailingConditions (statement : Statement) :
    (cutTrailingConditions statement).received = statement.received := by
  have cut (statement : Statement) (kind : Clause) :
      (cutConditionOf statement kind).received = statement.received := by
    rw [cutConditionOf]
    split
    · rfl
    · dsimp only
      split <;> rfl
  rw [cutTrailingConditions]
  induction conditionless generalizing statement with
  | nil => rfl
  | cons kind kinds ih => rw [List.foldl_cons, ih, cut]

theorem received_relocateFilter (statement : Statement) :
    (relocateFilter statement).received = statement.received := by
  rw [relocateFilter]
  split
  · split
    · rfl
    · rw [moveFilter]
      split
      · rfl
      · split <;> rfl
  · rfl

theorem received_aliasColumn (rules : ScopeRules) (tenant : Tenant) (statement : Statement) :
    (aliasColumn rules tenant statement).received = statement.received := by
  rw [aliasColumn]
  split
  · rfl
  · split
    · rfl
    · rw [renameColumn]
      split <;> rfl

/-- A pass keeps the text as it was received. -/
theorem received_pass (rules : ScopeRules) (tenant : Tenant) (statement : Statement) :
    (pass rules tenant statement).received = statement.received := by
  rw [pass, received_aliasColumn, normalize, Statement.withText, received_relocateFilter,
    received_cutTrailingConditions]

section Passes

variable {rules : ScopeRules} {tenant : Tenant}

/-- A pass that leaves the text as it was leaves the whole statement so. -/
theorem pass_eq_of_text_eq {statement : Statement}
    (same : (pass rules tenant statement).text = statement.text) :
    pass rules tenant statement = statement := by
  have received_eq := received_pass rules tenant statement
  generalize pass rules tenant statement = repaired at same received_eq ⊢
  cases repaired
  cases statement
  simp_all

/-- Passes end early only where they would change nothing any more. -/
theorem run_eq_iterate (passes : Nat) (statement : Statement) :
    run rules tenant passes statement = (pass rules tenant)^[passes] statement := by
  induction passes generalizing statement with
  | zero => rfl
  | succ passes ih =>
      rw [run, Function.iterate_succ_apply]
      split
      · rename_i same
        have settled := pass_eq_of_text_eq (beq_iff_eq.mp same)
        rw [settled, Function.iterate_fixed settled]
      · exact ih _

theorem kinds_pass (columns : OrdinaryNames rules tenant) (statement : Statement) :
    (start (pass rules tenant statement).text).kinds =
      (start (relocateFilter (cutTrailingConditions statement)).text).kinds := by
  rw [pass, kinds_aliasColumn columns, normalize, Statement.withText, kinds_normalize]

theorem detour_cutTrailingConditions (statement : Statement) :
    (cutTrailingConditions statement).outline.detour = statement.outline.detour := by
  rw [Statement.outline, Statement.outline, Outline.detour_ofText, Outline.detour_ofText,
    Sign.order, Sign.order, newcomers_cutTrailingConditions]

/-- Each pass makes the detour of the clauses shorter. -/
theorem detour_pass (columns : OrdinaryNames rules tenant) (statement : Statement) :
    (pass rules tenant statement).outline.detour ≤ statement.outline.detour - 1 := by
  rw [Statement.outline, Outline.detour_ofText, kinds_pass columns, ← Outline.detour_ofText,
    ← detour_cutTrailingConditions statement]
  exact detour_relocateFilter _

theorem detour_iterate_pass (columns : OrdinaryNames rules tenant) (statement : Statement)
    (passes : Nat) :
    ((pass rules tenant)^[passes] statement).outline.detour ≤ statement.outline.detour -
      passes := by
  induction passes with
  | zero => exact le_refl _
  | succ passes ih =>
      rw [Function.iterate_succ_apply']
      have step := detour_pass columns ((pass rules tenant)^[passes] statement)
      omega

/-- Without a detour nothing is moved. -/
theorem pass_of_detour {statement : Statement} (direct : statement.outline.detour = 0) :
    pass rules tenant statement =
      aliasColumn rules tenant (normalize (cutTrailingConditions statement)) := by
  rw [pass, relocateFilter_of_detour ((detour_cutTrailingConditions statement).trans direct)]

theorem tidy_pass_of_detour (columns : OrdinaryNames rules tenant) {statement : Statement}
    (direct : statement.outline.detour = 0) :
    Tidy (start (pass rules tenant statement).text).kinds := by
  rw [kinds_pass columns,
    relocateFilter_of_detour ((detour_cutTrailingConditions statement).trans direct)]
  exact tidy_cutTrailingConditions statement

/-- Without a detour, two passes leave nothing to do. -/
theorem pass_pass_of_detour (columns : OrdinaryNames rules tenant) {statement : Statement}
    (direct : statement.outline.detour = 0) :
    pass rules tenant (pass rules tenant (pass rules tenant statement)) =
      pass rules tenant (pass rules tenant statement) := by
  have next {statement : Statement} (direct : statement.outline.detour = 0) :
      (pass rules tenant statement).outline.detour = 0 := by
    have shorter := detour_pass columns statement
    omega
  -- From the second pass on nothing is cut.
  have later {statement : Statement} (direct : statement.outline.detour = 0) :
      pass rules tenant (pass rules tenant statement) =
        aliasColumn rules tenant (normalize (pass rules tenant statement)) := by
    rw [pass_of_detour (next direct),
      cutTrailingConditions_of_tidy (tidy_pass_of_detour columns direct)]
  have normal : normalize (normalize (cutTrailingConditions statement)) =
      normalize (cutTrailingConditions statement) := by
    rw [normalize, normalize, Statement.withText, Statement.withText, normalize_normalize]
  rw [later (next direct), later direct, pass_of_detour direct,
    normalize_aliasColumn columns normal]

/-- As many passes as the detour is long, and two more, leave nothing to do. -/
theorem pass_iterate_pass (columns : OrdinaryNames rules tenant) {statement : Statement}
    {passes : Nat} (enough : statement.outline.detour + 2 ≤ passes) :
    pass rules tenant ((pass rules tenant)^[passes] statement) =
      (pass rules tenant)^[passes] statement := by
  obtain ⟨more, rfl⟩ : ∃ more, passes = more + 2 := ⟨passes - 2, by omega⟩
  have shorter := detour_iterate_pass columns statement more
  rw [Function.iterate_succ_apply', Function.iterate_succ_apply',
    pass_pass_of_detour columns (by omega)]

/-! ## Where passes stop -/

/-- One of the first passes leaves the text as it was, so that no further one is made. -/
def Stops (rules : ScopeRules) (tenant : Tenant) (passes : Nat) (statement : Statement) : Prop :=
  ∃ rounds < passes,
    ((pass rules tenant)^[rounds + 1] statement).text =
      ((pass rules tenant)^[rounds] statement).text

/-- Where passes stop, one more pass changes nothing. -/
theorem Stops.pass_run {passes : Nat} {statement : Statement}
    (stops : Stops rules tenant passes statement) :
    pass rules tenant (run rules tenant passes statement) = run rules tenant passes statement := by
  obtain ⟨rounds, before, same⟩ := stops
  rw [Function.iterate_succ_apply'] at same
  have settled := pass_eq_of_text_eq same
  obtain ⟨more, rfl⟩ := Nat.exists_eq_add_of_lt before
  have run_eq : run rules tenant (rounds + more + 1) statement =
      (pass rules tenant)^[rounds] statement := by
    rw [run_eq_iterate, Nat.add_comm rounds more, Nat.add_right_comm, Function.iterate_add_apply,
      Function.iterate_fixed settled]
  rw [run_eq, settled]

/-- Passes of repair come to rest after six of them at most, however many may be made, and where
they stop nothing is left to do. -/
theorem passes_come_to_rest (columns : EveryColumn IsOrdinary rules tenant)
    (statement : Statement) :
    (∃ rounds ≤ 6,
      ((pass rules tenant)^[rounds] statement).text =
          ((pass rules tenant)^[rounds + 1] statement).text ∧
        ∀ passes, rounds < passes → Stops rules tenant passes statement) ∧
      ∀ passes, Stops rules tenant passes statement →
        pass rules tenant (run rules tenant passes statement) =
          run rules tenant passes statement := by
  have few : statement.outline.detour ≤ 4 := Outline.detour_le_four statement.text
  have settled := pass_iterate_pass (OrdinaryNames.of_everyColumn columns)
    (Nat.add_le_add_right few 2 : statement.outline.detour + 2 ≤ 6)
  have same := congrArg Statement.text settled
  rw [← Function.iterate_succ_apply' (pass rules tenant)] at same
  refine ⟨⟨6, le_rfl, same.symm, fun passes more => ⟨6, more, same⟩⟩, fun passes stops => ?_⟩
  exact stops.pass_run

/-- Passes over a statement whose `WHERE` comes last. -/
theorem passes_come_to_rest_misplaced :
    let statement : Statement := ⟨[], ascii "SELECT a FROM t GROUP BY a WHERE b = 1"⟩
    ∃ rounds ≤ 6,
      ((pass {} {})^[rounds] statement).text = ((pass {} {})^[rounds + 1] statement).text := by
  intro statement
  have columns : EveryColumn IsOrdinary {} {} := by decide +kernel
  obtain ⟨⟨rounds, few, same, -⟩, -⟩ := passes_come_to_rest columns statement
  exact ⟨rounds, few, same⟩

end Passes

end Repair

/-! ## Repair -/

open Repair

section Repair

variable {rules : ScopeRules} {tenant : Tenant}

/-- Repair with enough passes for the detour of a statement is idempotent.  The detour is four
clauses long at most, so six passes are always enough. -/
theorem Statement.repair_repair (columns : EveryColumn Token.IsOrdinary rules tenant)
    (limits : RepairRules) {statement : Statement}
    (enough : statement.outline.detour + 2 ≤ limits.passes) :
    (statement.repair limits rules tenant).repair limits rules tenant =
      statement.repair limits rules tenant := by
  have settled := pass_iterate_pass (OrdinaryNames.of_everyColumn columns) enough
  have several : max 1 limits.passes = limits.passes := by omega
  rw [Statement.repair, Statement.repair, several, run_eq_iterate, run_eq_iterate,
    Function.iterate_fixed settled]

/-- The four passes of default settings are enough for a detour of two clauses. -/
theorem Statement.repair_repair_two_clauses :
    let statement : Statement := ⟨[], ascii "SELECT a FROM t GROUP BY a WHERE LIMIT 1 WHERE b = 1"⟩
    statement.outline.detour = 2 ∧
      (statement.repair {} {} {}).repair {} {} {} = statement.repair {} {} {} := by
  intro statement
  have detour : statement.outline.detour = 2 := by decide +kernel
  have columns : EveryColumn Token.IsOrdinary {} {} := by decide +kernel
  exact ⟨detour, Statement.repair_repair columns {} (by rw [detour])⟩

/-- They are not enough for the longest detours: with the last `WHERE` the clauses after it come
back to the front, and a condition that trails one of them is left for a fifth pass. -/
theorem Statement.repair_repair_ne :
    let statement : Statement := ⟨[], ascii ("SELECT 1 FROM t GROUP BY a WHERE HAVING b WHERE " ++
      "ORDER BY CASE WHERE LIMIT CASE WHERE x LIMIT 1 AND y")⟩
    (statement.repair {} {} {}).text = ascii
        "SELECT 1 FROM t WHERE x LIMIT 1 AND y GROUP BY a HAVING b ORDER BY CASE LIMIT CASE;" ∧
      ((statement.repair {} {} {}).repair {} {} {}).text = ascii
        "SELECT 1 FROM t WHERE x LIMIT 1 GROUP BY a HAVING b ORDER BY CASE LIMIT CASE;" ∧
      (statement.repair {} {} {}).repair {} {} {} ≠ statement.repair {} {} {} := by
  intro statement
  have once : (statement.repair {} {} {}).text = ascii
      "SELECT 1 FROM t WHERE x LIMIT 1 AND y GROUP BY a HAVING b ORDER BY CASE LIMIT CASE;" := by
    decide +kernel
  have twice : ((statement.repair {} {} {}).repair {} {} {}).text = ascii
      "SELECT 1 FROM t WHERE x LIMIT 1 GROUP BY a HAVING b ORDER BY CASE LIMIT CASE;" := by
    decide +kernel
  refine ⟨once, twice, fun same => ?_⟩
  rw [same, once] at twice
  exact absurd twice (by decide +kernel)

end Repair

end TenantScope
