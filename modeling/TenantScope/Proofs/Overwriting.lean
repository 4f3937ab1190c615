import TenantScope.Proofs.Columns
import TenantScope.Proofs.Replacing
import TenantScope.Repair

/-!
# Columns overwritten in place

Naming columns overwrites words of a text and keeps every other byte.  The words are the occurrences
of the default column that begin a condition of the `WHERE` region and are compared, at every depth
of parentheses.  Only the end of a text that is inside a literal may be written twice.
-/

namespace TenantScope

open Text Site Literal

namespace Text

/-! ## Overwriting -/

section Overwrite

variable (length : Nat) (replacement text : Text)

/-- The text from `start` on, with the `length` bytes at each of the places replaced. -/
def overwrite : (start : Nat) → (places : List Nat) → Text
  | start, [] => text.drop start
  | start, place :: places =>
      Statement.slice text start place ++ (replacement ++ overwrite (place + length) places)

variable {length replacement text} {start : Nat} {places : List Nat}

theorem overwrite_here :
    overwrite length replacement text start (start :: places) =
      replacement ++ overwrite length replacement text (start + length) places := by
  rw [overwrite, Statement.slice, Nat.sub_self, List.take_zero, List.nil_append]

/-- Bytes before the first of the places stay. -/
theorem overwrite_before {unit rest : Text} (drop_eq : text.drop start = unit ++ rest)
    (later : ∀ place ∈ places, start + unit.length ≤ place) :
    overwrite length replacement text start places =
      unit ++ overwrite length replacement text (start + unit.length) places := by
  have rest_eq : text.drop (start + unit.length) = rest := by
    rw [← List.drop_drop, drop_eq, List.drop_left]
  cases places with
  | nil => rw [overwrite, overwrite, rest_eq, drop_eq]
  | cons place places =>
      have far := later place List.mem_cons_self
      have width : place - start = unit.length + (place - (start + unit.length)) := by omega
      rw [overwrite, overwrite, Statement.slice, Statement.slice, drop_eq, rest_eq, width,
        List.take_length_add_append, List.append_assoc]

/-- Each of the places makes a text longer by as much as the replacement is longer. -/
theorem length_overwrite (apart : places.Pairwise fun place next => place + length ≤ next)
    (later : ∀ place ∈ places, start ≤ place) (begins : start ≤ text.length)
    (inside : ∀ place ∈ places, place + length ≤ text.length) :
    start + (overwrite length replacement text start places).length + places.length * length =
      text.length + places.length * replacement.length := by
  induction places generalizing start with
  | nil =>
      rw [overwrite, List.length_drop]
      simp only [List.length_nil, Nat.zero_mul]
      omega
  | cons place places ih =>
      rw [List.pairwise_cons] at apart
      rw [List.forall_mem_cons] at later inside
      have rest := ih apart.2 apart.1 inside.1 inside.2
      rw [overwrite, Statement.slice]
      simp only [List.length_append, List.length_take, List.length_drop, List.length_cons,
        Nat.succ_mul]
      omega

end Overwrite

/-- Occurrences of a word in any case, none of them overlapping the one before. -/
structure DisjointOccurrences (word text : Text) (places : List Nat) : Prop where
  apart : places.Pairwise fun place next => place + word.length ≤ next
  occurs : ∀ place ∈ places,
    (Statement.slice text place (place + word.length)).upper = word.upper

theorem DisjointOccurrences.nil (word text : Text) : DisjointOccurrences word text [] where
  apart := .nil
  occurs := by simp

theorem DisjointOccurrences.length_overwrite {word text : Text} {places : List Nat}
    (occurrences : DisjointOccurrences word text places) (nonempty : word ≠ [])
    (replacement : Text) :
    (overwrite word.length replacement text 0 places).length + places.length * word.length =
      text.length + places.length * replacement.length := by
  have inside : ∀ place ∈ places, place + word.length ≤ text.length := by
    intro place member
    have positive := List.length_pos_iff.mpr nonempty
    have width := congrArg List.length (occurrences.occurs place member)
    rw [length_upper, length_upper, Statement.slice, List.length_take, List.length_drop] at width
    omega
  have total : 0 + (overwrite word.length replacement text 0 places).length +
      places.length * word.length = text.length + places.length * replacement.length :=
    Text.length_overwrite occurrences.apart (fun _ _ => Nat.zero_le _) (Nat.zero_le _) inside
  omega

end Text

namespace Token

/-! ## Where words are replaced -/

section Places

variable {column : Text}

theorem le_of_mem_renamedPlaces {follows : Bool} {offset : Nat} {tokens : List Token} :
    ∀ place ∈ renamedPlaces column follows offset tokens, offset ≤ place := by
  induction tokens generalizing follows offset with
  | nil => simp [renamedPlaces]
  | cons token tokens ih =>
      intro place member
      cases token with
      | word written =>
          rcases List.mem_append.mp member with here | later
          · split at here
            · exact (List.mem_singleton.mp here).ge
            · cases here
          · exact (Nat.le_add_right _ _).trans (ih place later)
      | _ => exact (Nat.le_add_right _ _).trans (ih place member)

/-- Renamed tokens spell the text that is overwritten where words are replaced. -/
theorem spell_rename {replacement text : Text} {follows : Bool} {offset : Nat}
    {tokens others : List Token} (drop_eq : text.drop offset = spell (tokens ++ others)) :
    spell (rename column replacement follows tokens ++ others) =
      overwrite column.length replacement text offset
        (renamedPlaces column follows offset tokens) := by
  induction tokens generalizing follows offset with
  | nil => exact drop_eq.symm
  | cons token tokens ih =>
      rw [List.cons_append, spell_cons] at drop_eq
      have rest_eq : text.drop (offset + token.bytes.length) = spell (tokens ++ others) := by
        rw [← List.drop_drop, drop_eq, List.drop_left]
      have kept {follows : Bool} {places : List Nat}
          (places_eq : renamedPlaces column follows (offset + token.bytes.length) tokens = places) :
          spell (token :: rename column replacement follows tokens ++ others) =
            overwrite column.length replacement text offset places := by
        rw [overwrite_before drop_eq (places_eq ▸ le_of_mem_renamedPlaces), ← places_eq,
          ← ih rest_eq]
        rfl
      cases token with
      | word written =>
          rw [rename, renamed, renamedPlaces]
          split
          · rename_i found
            simp only [Bool.and_eq_true, beq_iff_eq] at found
            have behind : offset + column.length = offset + (word written).bytes.length := by
              rw [← found.1.2, length_upper]
              rfl
            rw [Option.toList_some, List.singleton_append, overwrite_here, behind]
            exact congrArg (replacement ++ ·) (ih rest_eq)
          · exact kept rfl
      | _ => exact kept rfl

/-- The words that are replaced do not overlap. -/
theorem pairwise_renamedPlaces {follows : Bool} {offset : Nat} {tokens : List Token} :
    (renamedPlaces column follows offset tokens).Pairwise
      fun place next => place + column.length ≤ next := by
  induction tokens generalizing follows offset with
  | nil => exact .nil
  | cons token tokens ih =>
      cases token with
      | word written =>
          rw [renamedPlaces]
          split
          · rename_i found
            simp only [Bool.and_eq_true, beq_iff_eq] at found
            refine List.pairwise_cons.mpr ⟨fun place later => ?_, ih⟩
            rw [← found.1.2, length_upper]
            exact le_of_mem_renamedPlaces place later
          · exact ih
      | _ => exact ih

theorem comparedNext_append (tokens : List Token) {others : List Token}
    (apart : comparedNext others = false) :
    comparedNext (tokens ++ others) = comparedNext tokens := by
  induction tokens with
  | nil => exact apart
  | cons token tokens ih =>
      cases token with
      | byte plain => rw [List.cons_append, comparedNext, comparedNext, ih]
      | _ => rfl

/-- Tokens reach to the end of their text. -/
theorem reaches_length {previous : Option Token} {tokens : List Token}
    (lexed : Lexed previous tokens) (offset : Nat) :
    Reaches (offset + (spell tokens).length) offset tokens := by
  rcases whole_or_exists lexed with whole | ⟨front, mark, content, rfl, whole⟩
  · exact (reaches_of_whole whole).mpr rfl
  · refine (reaches_of_remnant whole mark content).mpr ⟨?_, le_rfl⟩
    simp [bytes]

/-- An equals sign comes next in a text if it does among the tokens. -/
theorem head?_dropWhile_spell {previous : Option Token} {tokens : List Token}
    (lexed : Lexed previous tokens) :
    (((spell tokens).dropWhile Byte.isSpace).head? == some Byte.equals) = comparedNext tokens := by
  have compared :=
    @comparedNext_spell _ 0 _ _ [] (by rwa [List.append_nil]) (reaches_length lexed 0)
  rw [← compared, List.append_nil]
  cases next : ((spell tokens).dropWhile Byte.isSpace).head? == some Byte.equals with
  | false => rw [Bool.and_false]
  | true =>
      have some_left : 0 < ((spell tokens).dropWhile Byte.isSpace).length :=
        List.length_pos_iff.mpr fun empty => by simp [empty] at next
      have total := congrArg List.length
        (List.takeWhile_append_dropWhile (p := Byte.isSpace) (l := spell tokens))
      rw [List.length_append] at total
      rw [Bool.and_true, eq_comm, decide_eq_true_eq]
      omega

end Places

end Token

namespace Site

/-- The word at the place is a column, given in upper case, that is no part of a qualified name,
begins a condition and is followed by an equals sign. -/
def comparesColumn (column : Text) (site : Site) : Bool :=
  site.spoken == column && !site.afterDot && Token.introduced site.back &&
    ((site.rest.drop column.length).dropWhile Byte.isSpace).head? == some Byte.equals

open Token in
/-- A column is compared in a text where it is among the tokens. -/
theorem comparesColumn_word {column back written : Text} {tokens : List Token}
    (is_name : IsName written) (begins : back.head?.any Byte.isIdentifier = false)
    (lexed : Lexed (some (.word written)) tokens) (offset depth : Nat) :
    comparesColumn column ⟨back, written ++ spell tokens, offset, depth⟩ =
      (introduced back && upper written == column && comparedNext tokens) := by
  rw [comparesColumn, spoken_spell is_name _ begins (head?_spell_of_word lexed)]
  by_cases same : upper written = column
  · have undotted : introduced back = true →
        afterDot ⟨back, written ++ spell tokens, offset, depth⟩ = false := by
      intro follows
      refine Bool.eq_false_iff.mpr fun dotted => ?_
      rw [introduced_of_afterDot dotted] at follows
      cases follows
    have length_eq : column.length = written.length := by rw [← same, length_upper]
    rw [same, length_eq, List.drop_left, head?_dropWhile_spell lexed, beq_self_eq_true]
    cases follows : introduced back with
    | false => simp
    | true => simp [undotted follows]
  · rw [beq_false_of_ne same, Bool.and_false]
    simp

/-- The offset of a place before `stop` where a column is compared. -/
def comparedAt? (column : Text) (stop : Nat) (site : Site) : Option Nat :=
  if site.offset < stop ∧ site.comparesColumn column = true then some site.offset else none

section Compares

variable {column : Text} (name : IsName column)

include name

theorem comparedAt?_of_silent (stop : Nat) (site : Site) (silent : site.spoken = []) :
    site.comparedAt? column stop = none := by
  rw [comparedAt?, comparesColumn, silent, beq_false_of_ne name.nonempty.symm]
  exact if_neg (by simp)

open Token in
/-- The columns of a region that are compared in the text are those among its tokens. -/
theorem filterMap_comparedAt? {stop : Nat} {back : Text} {previous : Option Token}
    {tokens others : List Token} (after : After back previous)
    (lexed : Lexed previous (tokens ++ others)) (apart : comparedNext others = false)
    {offset : Nat} (reaches : Reaches stop offset tokens) (depth : Nat) :
    (code ⟨back, spell (tokens ++ others), offset, depth⟩).filterMap (comparedAt? column stop) =
      renamedPlaces column (introduced back) offset tokens := by
  have silent := comparedAt?_of_silent name stop
  induction tokens generalizing back previous offset depth with
  | nil =>
      refine List.filterMap_eq_nil_iff.mpr fun site member => if_neg fun found => ?_
      have reached : offset = stop := reaches
      have beyond := le_offset_of_mem_code member
      omega
  | cons token tokens ih =>
      have before := reaches.lt lexed.1.2
      obtain ⟨⟨-, follows⟩, rest_lexed⟩ := id lexed
      rw [List.cons_append, spell_cons]
      cases token with
      | word written =>
          have begins := after.word.trans follows.2
          have tail := @ih _ _ (after.of_word follows.1 follows.2) rest_lexed
            (offset + written.length) reaches depth
          have compared := @comparesColumn_word column back written
            (tokens ++ others) follows.1 begins
            rest_lexed offset depth
          rw [introduced_word follows.1 begins] at tail
          rw [comparedNext_append _ apart] at compared
          rw [bytes, filterMap_code_word silent _ _ follows.1, tail, renamedPlaces, comparedAt?,
            compared]
          simp only [before, true_and]
      | byte plain =>
          have tail := @ih _ _ (After.of_plain back follows.1 (.byte plain) rfl) rest_lexed
            (offset + 1) reaches (depthAfter plain depth)
          rw [introduced_plain follows.1] at tail
          rw [bytes, List.singleton_append,
            filterMap_code_plain silent _ _ follows.1 follows.2, tail,
            renamedPlaces]
      | literal mark content =>
          have whole : closing? mark _ (content ++ spell (tokens ++ others)) = _ :=
            after.closing?_spell lexed
          have tail := @ih _ _ (After.of_literal back follows.1 follows.2.2) rest_lexed
            (offset + (content.length + 1)) reaches depth
          rw [introduced_literal follows.1 follows.2.2] at tail
          rw [bytes, List.cons_append, code_literal _ _ _ _ _ follows.1 whole, tail, renamedPlaces]
      | remnant mark content =>
          have last : tokens ++ others = [] := eq_nil_of_remnant lexed
          have unclosed := after.closing?_remnant lexed
          rw [last, spell_nil, List.append_nil, bytes, code_unclosed _ _ _ _ follows.1 unclosed,
            (List.append_eq_nil_iff.mp last).1]
          rfl

end Compares

end Site

/-- No equals sign comes next behind a region. -/
theorem Region.head?_drop_stop {text : Text} {kind : Clause} {offset : Nat}
    {before inside after : List SignAt} (region : Region text kind offset before inside after) :
    ((text.drop (stopBefore text after)).dropWhile Byte.isSpace).head? ≠ some Byte.equals := by
  cases after with
  | nil =>
      intro same
      have member := (List.dropWhile_sublist _).subset (List.mem_of_mem_head? same)
      exact absurd (Statement.trails_of_mem_drop text _ member) (by decide)
  | cons found after =>
      have found_mem : found ∈ (start text).signs := by simp [region.signs_eq]
      obtain ⟨-, signed, -⟩ := halt_of_mem_signs found_mem
      obtain ⟨byte, rest, drop_eq, identifier, -⟩ := exists_of_sign? signed
      have visible := Byte.isSpace_of_isIdentifier byte identifier
      change ((text.drop found.offset).dropWhile Byte.isSpace).head? ≠ some Byte.equals
      rw [drop_eq, List.dropWhile_cons_of_neg (by simp [visible]), List.head?_cons]
      intro same
      obtain rfl := Option.some.inj same
      exact absurd identifier (by decide)

namespace Repair

open Token

/-- The places between two offsets where a column is compared, at any depth of parentheses. -/
def comparisons (text column : Text) (start stop : Nat) : List Site :=
  (Site.start text).code.filter fun site =>
    decide (start ≤ site.offset) && (decide (site.offset < stop) && site.comparesColumn column)

/-- A column is replaced in a region where it is compared in the text. -/
theorem offsets_comparisons {text column : Text} {kind : Clause} {place : Nat}
    {before inside after : List SignAt} {front region back : List Token} (name : IsName column)
    (found : Region text kind place before inside after)
    (parts : Parts text place (stopBefore text after) front region back) :
    (comparisons text column place (stopBefore text after)).map (·.offset) =
      renamedPlaces column (introduced (spell front).reverse) place region := by
  obtain ⟨front_lexed, rest_lexed⟩ := linked_append.mp parts.lexed
  rw [Option.or_none] at rest_lexed
  have after_front := After.nil.of_lexed front_lexed parts.whole
  rw [List.append_nil, Option.or_none] at after_front
  have apart : comparedNext back = false := by
    by_cases whole : Whole region
    · have missed := found.head?_drop_stop
      rw [(parts.take_stop whole).2.2] at missed
      rw [← head?_dropWhile_spell (linked_append.mp rest_lexed).2]
      exact beq_false_of_ne missed
    · rw [parts.back_eq_nil whole]
      rfl
  -- The region is read by itself.
  have resumes : Resumes text place := by
    have own : (⟨.clause kind, place⟩ : SignAt) ∈ (start text).signs :=
      found.signs_eq ▸ List.mem_append_right _ List.mem_cons_self
    obtain ⟨site, site_mem, signed, rfl⟩ := mem_signs.mp own
    exact resumes_of_mem_code site_mem (sign?_eq_some.mp signed).1.1 (List.nil_append _).symm
      (by simp)
  have site_eq : Site.atOffset text place =
      ⟨(spell front).reverse, spell (region ++ back), place, 0⟩ := by
    rw [Site.atOffset, parts.take_start.1, parts.take_start.2]
  have visited := filterMap_comparedAt? name after_front rest_lexed apart parts.reaches 0
  rw [← site_eq, resumes, List.filterMap_filter] at visited
  rw [comparisons, ← List.filterMap_eq_map, List.filterMap_filter, ← visited]
  refine List.filterMap_congr fun site _ => ?_
  by_cases early : place ≤ site.offset
  · simp [early, comparedAt?]
  · simp [early]

/-- What a column is compared by is one of its occurrences. -/
theorem upper_slice_of_mem_comparisons {text column : Text} {start stop : Nat} {site : Site}
    (member : site ∈ comparisons text column start stop) :
    (Statement.slice text site.offset (site.offset + column.length)).upper = column := by
  obtain ⟨site_mem, found⟩ := List.mem_filter.mp member
  have spoken_eq : site.spoken = column := by
    simp only [comparesColumn, Bool.and_eq_true, beq_iff_eq] at found
    exact found.2.2.1.1.1
  obtain ⟨-, rest_eq⟩ := of_mem_tour_start (List.mem_filter.mp site_mem).1
  rw [Statement.slice, Nat.add_sub_cancel_left, ← rest_eq, ← spoken_eq]
  rw [spoken]
  split
  · rw [List.length_nil, List.take_zero]
    rfl
  · rw [length_upper, ← List.prefix_iff_eq_take.mp (List.takeWhile_prefix _)]

/-- What is written a second time when a column is replaced at the places: the bytes behind the
region of the first `WHERE` if a literal of that region is never closed. -/
def copiedEnd (statement : Statement) (places : List Nat) : Text :=
  match statement.outline.find? .filter with
  | none => []
  | some start =>
      let stop := statement.regionEnd start
      if places = [] ∨ Closed (Site.start (statement.text.take stop)) then []
      else statement.text.drop stop

section Overwrite

variable {column : Text} (name : IsName column) {statement : Statement} {start : Nat}
  (found : statement.outline.find? .filter = some start)

include name found

/-- A column is overwritten where it is compared. -/
theorem renameColumn_eq_overwrite (replacement : Text) :
    let places :=
      (comparisons statement.text column start (statement.regionEnd start)).map (·.offset)
    renameColumn statement column replacement start = statement.withText
      (overwrite column.length replacement statement.text 0 places ++
        copiedEnd statement places) := by
  obtain ⟨before, inside, after, region⟩ := exists_region found
  obtain ⟨front, tokens, back, parts⟩ := region.exists_parts
  have stop_eq := region.regionEnd_eq statement rfl
  simp only [copiedEnd, found]
  rw [parts.renameColumn_eq replacement name rfl stop_eq, stop_eq,
    offsets_comparisons name region parts]
  have first : statement.text.drop 0 = spell front ++ spell (tokens ++ back) := by
    rw [List.drop_zero, ← spell_append, parts.spelled]
  have later : ∀ place ∈ renamedPlaces column (introduced (spell front).reverse) start tokens,
      0 + (spell front).length ≤ place := by
    rw [Nat.zero_add, parts.begins]
    exact le_of_mem_renamedPlaces
  rw [overwrite_before first later, Nat.zero_add, parts.begins, ← spell_rename parts.take_start.2,
    ← spell_append]

/-- The occurrences of a column that are overwritten do not overlap. -/
theorem pairwise_comparisons :
    (comparisons statement.text column start (statement.regionEnd start)).Pairwise
      fun site next => site.offset + column.length ≤ next.offset := by
  obtain ⟨before, inside, after, region⟩ := exists_region found
  obtain ⟨front, tokens, back, parts⟩ := region.exists_parts
  have apart := @pairwise_renamedPlaces column (introduced (spell front).reverse) start tokens
  rw [← offsets_comparisons name region parts, List.pairwise_map] at apart
  rwa [region.regionEnd_eq statement rfl]

end Overwrite

/-- Nothing comes twice in a text of closed literals. -/
theorem copiedEnd_nil (statement : Statement) : copiedEnd statement [] = [] := by
  rw [copiedEnd]
  split
  · rfl
  · exact if_pos (.inl rfl)

theorem copiedEnd_of_closed {statement : Statement} (closed : Closed (Site.start statement.text))
    (places : List Nat) : copiedEnd statement places = [] := by
  rw [copiedEnd]
  split
  · rfl
  · rename_i start found
    obtain ⟨before, inside, after, region⟩ := exists_region found
    obtain ⟨front, tokens, back, parts⟩ := region.exists_parts
    rw [← parts.spelled, closed_start_spell parts.lexed] at closed
    have whole := (List.forall_mem_append.mp (List.forall_mem_append.mp closed).2).1
    rw [region.regionEnd_eq statement rfl]
    exact if_pos (.inr (parts.closed_take.mpr whole))

section Alias

variable {rules : ScopeRules} {tenant : Tenant}

theorem aliasColumn_of_eq {statement : Statement}
    (same : rules.defaultColumn tenant = rules.columnOf tenant statement.outline.table) :
    aliasColumn rules tenant statement = statement := by
  rw [aliasColumn]
  exact if_pos (by simp [same])

theorem aliasColumn_of_ne {statement : Statement} {start : Nat}
    (found : statement.outline.find? .filter = some start)
    (other : rules.defaultColumn tenant ≠ rules.columnOf tenant statement.outline.table) :
    aliasColumn rules tenant statement = renameColumn statement (rules.defaultColumn tenant).upper
      (rules.columnOf tenant statement.outline.table) start := by
  have named : statement.outline.table.isEmpty = false := Bool.eq_false_iff.mpr fun nameless =>
    other (by rw [ScopeRules.columnOf, if_pos nameless])
  rw [aliasColumn]
  simp [named, other, found]

theorem aliasColumn_of_absent {statement : Statement}
    (absent : statement.outline.find? .filter = none) :
    aliasColumn rules tenant statement = statement := by
  rw [aliasColumn]
  simp [absent]

/-- Naming columns overwrites, in a text of closed literals, exactly the occurrences of the
default column in the region of the first `WHERE` that follow a `WHERE` or an `AND` and are
compared, whatever parentheses they stand in; so it touches nothing in parentheses if none
of them stands there. -/
theorem aliasColumn_overwrites_comparisons (columns : EveryColumn IsName rules tenant)
    {statement : Statement} (closed : Closed (Site.start statement.text)) :
    let column := rules.defaultColumn tenant
    let replacement := rules.columnOf tenant statement.outline.table
    let overwritten (places : List Site) := statement.withText
      (overwrite column.length replacement statement.text 0 (places.map (·.offset)))
    (column = replacement ∨ statement.outline.find? .filter = none →
      aliasColumn rules tenant statement = statement) ∧
    ∀ start, statement.outline.find? .filter = some start → column ≠ replacement →
      let found := comparisons statement.text column.upper start (statement.regionEnd start)
      aliasColumn rules tenant statement = overwritten found ∧
      found.Pairwise (fun site next => site.offset + column.length ≤ next.offset) ∧
      ((∀ site ∈ found, site.depth = 0) →
        aliasColumn rules tenant statement = overwritten (found.filter (·.depth == 0))) := by
  intro column replacement overwritten
  have name : IsName column.upper := columns.defaultColumn.upper
  refine ⟨fun nothing => nothing.elim aliasColumn_of_eq aliasColumn_of_absent, ?_⟩
  intro start start_found other found
  have replaced : aliasColumn rules tenant statement = overwritten found := by
    rw [aliasColumn_of_ne start_found other, renameColumn_eq_overwrite name start_found,
      copiedEnd_of_closed closed, List.append_nil, length_upper]
  refine ⟨replaced, ?_, fun outside => ?_⟩
  · have apart := pairwise_comparisons name start_found
    rwa [length_upper] at apart
  · rw [replaced, List.filter_eq_self.mpr fun site member => by simp [outside site member]]

theorem aliasColumn_overwrites_comparisons_group :
    let statement : Statement := ⟨[], ascii "SELECT 1 FROM tenants WHERE (a AND tenant_id = 'x')"⟩
    EveryColumn IsName {} {} ∧ Closed (Site.start statement.text) ∧
      aliasColumn {} {} statement =
        statement.withText (ascii "SELECT 1 FROM tenants WHERE (a AND id = 'x')") := by
  intro statement
  have columns : EveryColumn IsName {} {} := by decide
  have closed : Closed (Site.start statement.text) := by decide +kernel
  have named := (aliasColumn_overwrites_comparisons columns closed).2 22 (by decide +kernel)
    (by decide +kernel)
  refine ⟨columns, closed, ?_⟩
  rw [named.1]
  decide +kernel

/-- A column is named in a query in parentheses, which reads from another table. -/
theorem aliasColumn_in_parentheses :
    let statement : Statement := ⟨[], ascii
      "SELECT * FROM tenants WHERE a IN (SELECT b FROM u WHERE tenant_id = 1)"⟩
    EveryColumn IsName {} {} ∧ Closed (Site.start statement.text) ∧
      (comparisons statement.text (ascii "TENANT_ID") 22 (statement.regionEnd 22)).map
        (·.depth) = [1] ∧
      aliasColumn {} {} statement = statement.withText (ascii
        "SELECT * FROM tenants WHERE a IN (SELECT b FROM u WHERE id = 1)") := by
  decide +kernel

/-- Naming columns replaces some occurrences of the default column that do not overlap, and writes
the copied end behind. -/
theorem exists_overwrite (columns : EveryColumn IsName rules tenant) (statement : Statement) :
    let column := rules.defaultColumn tenant
    let replacement := rules.columnOf tenant statement.outline.table
    ∃ places, DisjointOccurrences column statement.text places ∧
      aliasColumn rules tenant statement = statement.withText
        (overwrite column.length replacement statement.text 0 places ++
          copiedEnd statement places) := by
  intro column replacement
  have name : IsName column.upper := columns.defaultColumn.upper
  have unchanged (kept : aliasColumn rules tenant statement = statement) :
      aliasColumn rules tenant statement = statement.withText
        (overwrite column.length replacement statement.text 0 [] ++ copiedEnd statement []) := by
    rw [kept, copiedEnd_nil, List.append_nil]
    rfl
  by_cases same : column = replacement
  · exact ⟨[], .nil _ _, unchanged (aliasColumn_of_eq same)⟩
  · cases found : statement.outline.find? .filter with
    | none => exact ⟨[], .nil _ _, unchanged (aliasColumn_of_absent found)⟩
    | some start =>
        have apart := pairwise_comparisons name found
        have replaced := renameColumn_eq_overwrite name found replacement
        rw [length_upper] at apart replaced
        refine ⟨_, ⟨List.pairwise_map.mpr apart, ?_⟩, (aliasColumn_of_ne found same).trans replaced⟩
        rw [List.forall_mem_map]
        intro site member
        have occurs := upper_slice_of_mem_comparisons member
        rwa [length_upper] at occurs

/-- Naming columns keeps every byte once and in order but for occurrences of the default column that
do not overlap.  Only when one of them is replaced and a literal of the region of the first `WHERE`
is never closed, the bytes behind the region come a second time at the end. -/
theorem aliasColumn_keeps_rest (columns : EveryColumn IsName rules tenant) (statement : Statement) :
    let column := rules.defaultColumn tenant
    let replacement := rules.columnOf tenant statement.outline.table
    ∃ places, DisjointOccurrences column statement.text places ∧
      aliasColumn rules tenant statement = statement.withText
        (overwrite column.length replacement statement.text 0 places ++
          copiedEnd statement places) ∧
      (aliasColumn rules tenant statement).text.length + places.length * column.length =
        statement.text.length + places.length * replacement.length +
          (copiedEnd statement places).length ∧
      (Closed (Site.start statement.text) → copiedEnd statement places = []) := by
  obtain ⟨places, occurrences, replaced⟩ := exists_overwrite columns statement
  have total := occurrences.length_overwrite columns.defaultColumn.nonempty
    (rules.columnOf tenant statement.outline.table)
  refine ⟨places, occurrences, replaced, ?_, fun closed => copiedEnd_of_closed closed places⟩
  rw [replaced, Statement.withText, List.length_append]
  omega

theorem aliasColumn_keeps_rest_closed :
    let statement : Statement := ⟨[], ascii "SELECT 1 FROM tenants WHERE tenant_id = 'x';"⟩
    EveryColumn IsName {} {} ∧ Closed (Site.start statement.text) ∧
      ∃ places, DisjointOccurrences (ascii "tenant_id") statement.text places ∧
        aliasColumn {} {} statement =
          statement.withText (overwrite 9 (ascii "id") statement.text 0 places) := by
  intro statement
  have columns : EveryColumn IsName {} {} := by decide
  have closed : Closed (Site.start statement.text) := by decide +kernel
  obtain ⟨places, occurrences, replaced, -, once⟩ := aliasColumn_keeps_rest columns statement
  have column_eq : ({} : ScopeRules).defaultColumn {} = ascii "tenant_id" := by decide +kernel
  have replacement_eq : ({} : ScopeRules).columnOf {} statement.outline.table = ascii "id" := by
    decide +kernel
  rw [once closed, List.append_nil, column_eq, replacement_eq] at replaced
  exact ⟨columns, closed, places, column_eq ▸ occurrences, replaced⟩

/-- The semicolon behind a region is written twice when a literal runs over the end of the
region. -/
theorem aliasColumn_copies_twice :
    let statement : Statement := ⟨[], ascii "SELECT * FROM tenants WHERE tenant_id = 'x;"⟩
    aliasColumn {} {} statement =
        statement.withText (ascii "SELECT * FROM tenants WHERE id = 'x;;") ∧
      ¬ ∃ places, DisjointOccurrences (ascii "tenant_id") statement.text places ∧
        (aliasColumn {} {} statement).text =
          overwrite (ascii "tenant_id").length (ascii "id") statement.text 0 places := by
  intro statement
  have written : aliasColumn {} {} statement =
      statement.withText (ascii "SELECT * FROM tenants WHERE id = 'x;;") := by decide +kernel
  refine ⟨written, ?_⟩
  rintro ⟨places, occurrences, replaced⟩
  have total := occurrences.length_overwrite (by decide) (ascii "id")
  have before_length : statement.text.length = 43 := by decide +kernel
  have after_length : (ascii "SELECT * FROM tenants WHERE id = 'x;;").length = 37 := by
    decide +kernel
  have column_length : (ascii "tenant_id").length = 9 := by decide +kernel
  have replacement_length : (ascii "id").length = 2 := by decide +kernel
  rw [← replaced, written, Statement.withText, after_length, before_length, column_length,
    replacement_length] at total
  omega

end Alias

end Repair

end TenantScope
