import TenantScope.Repair
import TenantScope.Proofs.IndexedCutting

/-!
# Repair by index

Moving a misplaced `WHERE` and normalizing never leave the text.  The repair of the column
looks at the byte before each place of the region of the `WHERE`, and there is none if that
region begins with the text: what the look back gives there is left open, and whatever byte it
is, the repair is the same.
-/

namespace TenantScope

open Text Site

namespace Indexed

variable {text : Text} {depth index stop : Nat}

/-! ## The misplaced `WHERE` -/

/-- A condition as one term of a conjunction. -/
def conjunct? (condition : Text) : Option Text := do
  let disjunction ← firstTopLevel? condition (ascii "OR") 0 condition.length
  some (if disjunction.isSome then [Byte.openParen] ++ condition ++ [Byte.closeParen]
    else condition)

/-- The text with a condition in front of the clause at `offset`. -/
def insertCondition? (text condition : Text) (offset : Nat) (filterAt? : Option Nat) :
    Option Text := do
  let front ← cut? text 0 offset
  let front ← trimRight? front
  let introduction := if filterAt?.any (· < offset) then " AND " else " WHERE "
  let term ← conjunct? condition
  let back ← from? text offset
  some (front ++ ascii introduction ++ term ++ [Byte.blank] ++ back)

theorem insertCondition?_eq {offset : Nat} (within : offset ≤ text.length) (condition : Text)
    (filterAt? : Option Nat) :
    insertCondition? text condition offset filterAt? =
      some (Repair.insertCondition text condition offset filterAt?) := by
  simp only [insertCondition?, cut?_zero within, trimRight?_eq, conjunct?, firstTopLevel?_eq,
    from?_of_le within, Option.bind_eq_bind, Option.bind_some]
  rfl

/-- The statement whose `WHERE` at `start` is put in front of the earliest other clause. -/
def moveFilter? (statement : Statement) (start : Nat) : Option Statement := do
  let length ← matchWord? statement.text Clause.filter.keyword start
  let stop ← regionEnd? statement start
  let region ← minus? stop start
  let region ← minus? region length
  let condition ← cut? statement.text (start + length) region
  let condition ← trim? condition
  let front ← cut? statement.text 0 start
  let back ← from? statement.text stop
  let without ← remade? statement (front ++ back)
  if condition = [] then some without
  else
    match without.outline.earliestTail? with
    | none => some statement
    | some offset => do
        let moved ← insertCondition? without.text condition offset (without.outline.find? .filter)
        -- the log shows the clause that the condition comes before
        let _ ← from? without.text offset
        let _ ← excerpt? 200 condition
        remade? statement moved

theorem word?_filter_of_find? {start : Nat}
    (found : (Outline.ofText text).find? .filter = some start) :
    (placed text 0 start).word? Clause.filter.keyword = some 5 :=
  Scope.word?_filter_of_mem_marks (Scope.mem_marks_of_find? found)

theorem lt_of_earliestTail? {statement : Statement} {offset : Nat}
    (found : statement.outline.earliestTail? = some offset) : offset < statement.text.length := by
  obtain ⟨clause, listed, rfl⟩ := List.mem_map.mp (List.min?_mem found)
  exact Scope.lt_length_of_mem_marks
    (Outline.mem_marks_of_mem_clauses (List.mem_filter.mp listed).1)

theorem moveFilter?_eq {statement : Statement} {start : Nat}
    (found : statement.outline.find? .filter = some start) :
    moveFilter? statement start = some (Repair.moveFilter statement start) := by
  have word_eq := word?_filter_of_find? found
  have room := add_five_le_regionEnd found
  have stop_le := regionEnd_le statement start
  have length_eq : ((atOffset statement.text start).word? Clause.filter.keyword).getD 0 = 5 :=
    congrArg (Option.getD · 0) word_eq
  have region_eq :
      statement.regionEnd start - start - 5 = statement.regionEnd start - (start + 5) := by
    omega
  simp only [moveFilter?, matchWord?_eq statement.text _ 0, word_eq, Option.getD_some,
    regionEnd?_eq, Option.bind_eq_bind, Option.bind_some,
    minus?_of_le (show start ≤ statement.regionEnd start by omega),
    minus?_of_le (show 5 ≤ statement.regionEnd start - start by omega), region_eq,
    cut?_slice room stop_le, trim?_eq, cut?_zero (show start ≤ statement.text.length by omega),
    from?_of_le stop_le, remade?_eq]
  simp only [Repair.moveFilter, length_eq, List.isEmpty_iff]
  split
  · rfl
  · cases tail_eq : (statement.withText _).outline.earliestTail? with
    | none => rfl
    | some offset =>
        have within := (lt_of_earliestTail? tail_eq).le
        simp only [insertCondition?_eq within, from?_of_le within, excerpt?_eq, Option.bind_some]

/-- The statement with its `WHERE` in front of every other clause. -/
def relocateFilter? (statement : Statement) : Option Statement :=
  match statement.outline.find? .filter, statement.outline.earliestTail? with
  | some start, some tail => if start < tail then some statement else moveFilter? statement start
  | _, _ => some statement

theorem relocateFilter?_eq (statement : Statement) :
    relocateFilter? statement = some (Repair.relocateFilter statement) := by
  rw [relocateFilter?, Repair.relocateFilter]
  cases found : statement.outline.find? .filter with
  | none => rfl
  | some start =>
      cases statement.outline.earliestTail? with
      | none => rfl
      | some tail =>
          dsimp only
          split
          · rfl
          · exact moveFilter?_eq found

/-! ## Normal form -/

/-- The literal that begins at an index, with the index behind it. -/
def literalAt? (text : Text) (index : Nat) : Option (Nat × Text) := do
  let next ← skipLiteral? text index
  let length ← minus? next index
  let literal ← cut? text index length
  some (next, literal)

theorem literalAt?_eq {mark : Byte} (depth : Nat) (here : byteAt? text index = some mark) :
    literalAt? text index = some (index + Literal.width .standard (placed text depth index),
      (text.drop index).take (Literal.width .standard (placed text depth index))) := by
  have inside := (List.getElem?_eq_some_iff.mp here).1
  have width_le := Literal.width_le .standard (placed text depth index)
  rw [rest_placed, List.length_drop] at width_le
  have fits : index + Literal.width .standard (placed text depth index) ≤ text.length := by omega
  simp only [literalAt?, skipLiteral?_eq depth here, minus?_of_le (Nat.le_add_right _ _),
    Nat.add_sub_cancel_left, cut?_of_le fits, Option.bind_eq_bind, Option.bind_some]

/-- A state of normalizing: the index, the text so far and whether white space has come since. -/
structure Gathering where
  index : Nat
  gathered : Text
  pending : Bool

/-- The text so far with a blank for the white space that has come since. -/
def Gathering.flushed (gathering : Gathering) : Text :=
  if gathering.pending && !gathering.gathered.isEmpty then gathering.gathered ++ [Byte.blank]
  else gathering.gathered

/-- A step of normalizing. -/
def gatherStep (text : Text) (gathering : Gathering) : Option (Step Gathering Text) :=
  if gathering.index < text.length then do
    let byte ← byteAt? text gathering.index
    if byte.isQuote then do
      let (next, literal) ← literalAt? text gathering.index
      some (.next ⟨next, gathering.flushed ++ literal, false⟩)
    else if byte.isSpace then some (.next ⟨gathering.index + 1, gathering.gathered, true⟩)
    else some (.next ⟨gathering.index + 1, gathering.flushed ++ [byte], false⟩)
  else some (.done gathering.gathered)

/-- The normal form of a text without markup. -/
def normalizeText? (text : Text) : Option Text := do
  let gathered ← loop (gatherStep text) (text.length + 1) ⟨0, [], false⟩
  let stop ← skipBack? gathered
      (fun byte => byte == Byte.semicolon || byte.isSpace) 0 gathered.length
  let body ← cut? gathered 0 stop
  some (if body = [] then [] else body ++ [Byte.semicolon])

/-- What is gathered in the end if fragments follow. -/
def Gathering.settle (gathering : Gathering) (fragments : List Fragment) : Text :=
  if gathering.gathered = [] then Fragment.join fragments
  else gathering.gathered ++ Fragment.joinAfter gathering.pending fragments

section Gathering

variable {gathering : Gathering} {byte : Byte}

theorem settle_kept {bytes : Text} (bytes_ne : bytes ≠ []) (next : Nat)
    (fragments : List Fragment) :
    gathering.settle (.kept bytes :: fragments) =
      (Gathering.mk next (gathering.flushed ++ bytes) false).settle fragments := by
  obtain ⟨index, gathered, pending⟩ := gathering
  by_cases nothing : gathered = []
  · simp [Gathering.settle, Gathering.flushed, nothing, bytes_ne, Fragment.join]
  · cases pending <;>
      simp [Gathering.settle, Gathering.flushed, nothing, bytes_ne, Fragment.joinAfter]

theorem settle_gap (next : Nat) (fragments : List Fragment) :
    gathering.settle (.gap :: fragments) =
      (Gathering.mk next gathering.gathered true).settle fragments := by
  simp [Gathering.settle, Fragment.join, Fragment.joinAfter]

/-- A text is what is gathered in the end, if the places from the index on follow at some depth. -/
def Gathers (text : Text) (gathering : Gathering) (result : Text) : Prop :=
  ∃ depth, result =
    gathering.settle ((placed text depth gathering.index).lexemes.map NormalForm.fragment)

theorem progress_gatherStep {result : Text} (gathers : Gathers text gathering result) :
    Progress (gatherStep text) (Gathers text) (fun gathering => text.length - gathering.index)
      gathering result := by
  obtain ⟨depth, rfl⟩ := gathers
  by_cases inside : gathering.index < text.length
  · obtain ⟨byte, byte_eq, drop_eq⟩ := exists_byteAt inside
    cases quote : byte.isQuote with
    | true =>
        have positive := width_pos depth byte_eq
        have kept : NormalForm.fragment (placed text depth gathering.index) = .kept
            ((text.drop gathering.index).take
              (Literal.width .standard (placed text depth gathering.index))) := by
          simp only [NormalForm.fragment, byte?_placed, byte_eq, if_pos quote, rest_placed]
        have kept_ne : (text.drop gathering.index).take
            (Literal.width .standard (placed text depth gathering.index)) ≠ [] := by
          rw [← List.length_pos_iff, List.length_take, List.length_drop]
          omega
        refine .next ⟨gathering.index + Literal.width .standard (placed text depth gathering.index),
          gathering.flushed ++ (text.drop gathering.index).take
            (Literal.width .standard (placed text depth gathering.index)), false⟩ ?_ ⟨depth, ?_⟩
          (by dsimp only; omega)
        · simp only [gatherStep, if_pos inside, byte_eq, Option.bind_eq_bind, Option.bind_some,
            if_pos quote, literalAt?_eq depth byte_eq]
        · rw [lexemes_placed_of_isQuote byte_eq quote, List.map_cons, kept, settle_kept kept_ne]
    | false =>
        have fragment_eq :
            NormalForm.fragment (placed text depth gathering.index) = .ofByte byte := by
          simp only [NormalForm.fragment, byte?_placed, byte_eq, quote, if_neg Bool.false_ne_true]
        cases space : byte.isSpace with
        | true =>
            refine .next ⟨gathering.index + 1, gathering.gathered, true⟩ ?_
              ⟨depthAfter byte depth, ?_⟩
              (by dsimp only; omega)
            · simp only [gatherStep, if_pos inside, byte_eq, Option.bind_eq_bind, Option.bind_some,
                quote, space, if_neg Bool.false_ne_true, if_true]
            · rw [lexemes_placed byte_eq quote, List.map_cons, fragment_eq, Fragment.ofByte,
                if_pos space, settle_gap]
        | false =>
            refine .next ⟨gathering.index + 1, gathering.flushed ++ [byte], false⟩ ?_
              ⟨depthAfter byte depth, ?_⟩ (by dsimp only; omega)
            · simp only [gatherStep, if_pos inside, byte_eq, Option.bind_eq_bind, Option.bind_some,
                quote, space, if_neg Bool.false_ne_true]
            · rw [lexemes_placed byte_eq quote, List.map_cons, fragment_eq, Fragment.ofByte,
                if_neg (by simp [space]), settle_kept (List.cons_ne_nil _ _)]
  · refine .done ?_
    rw [gatherStep, if_neg inside, lexemes, tour_placed_end _ (by omega), List.map_nil,
      Gathering.settle]
    split
    · rename_i nothing
      rw [nothing, Fragment.join]
    · rw [Fragment.joinAfter, List.append_nil]

end Gathering

theorem normalizeText?_eq (text : Text) : normalizeText? text = some text.normalize := by
  have gathered_eq : loop (gatherStep text) (text.length + 1) ⟨0, [], false⟩ =
      some (Fragment.join ((Site.start text).lexemes.map NormalForm.fragment)) := by
    refine loop_eq_some _ _ (fun _ _ => progress_gatherStep) ⟨0, ?_⟩ (by dsimp only; omega)
    rw [Gathering.settle, if_pos rfl, ← atOffset_zero]
    rfl
  have fits := length_dropRightWhile_le (fun byte => byte == Byte.semicolon || byte.isSpace)
    (Fragment.join ((Site.start text).lexemes.map NormalForm.fragment))
  simp only [normalizeText?, gathered_eq, Option.bind_eq_bind, Option.bind_some, skipBack?_length,
    cut?_zero fits, take_length_dropRightWhile, Text.normalize, NormalForm.terminate]
  cases dropRightWhile _ (Fragment.join _) <;> rfl

/-- The statement in normal form. -/
def normalize? (statement : Statement) : Option Statement := do
  let text ← normalizeText? statement.text
  if text = statement.text then some statement else remade? statement text

theorem normalize?_eq (statement : Statement) :
    normalize? statement = some (Repair.normalize statement) := by
  rw [normalize?, normalizeText?_eq, Option.bind_eq_bind, Option.bind_some, remade?_eq,
    Repair.normalize]
  split
  · rename_i same
    rw [same]
    rfl
  · rfl

/-! ## The column of the table -/

/-- The byte before an index; `outside` is what the look back gives at the beginning of a text. -/
def lookBack? (outside : Option Byte) (text : Text) (index : Nat) : Option Byte :=
  if index = 0 then outside else byteBefore? text index

/-- Length of the occurrence of a column that is compared at an index as a term of a
conjunction, or zero. -/
def comparedAt? (outside : Option Byte) (text column : Text) (stop index : Nat) : Option Nat := do
  let before ← lookBack? outside text index
  let length ← if before == Byte.dot then some 0 else matchWord? text column index
  if 0 < length then do
    let back ← skipBack? text Byte.isSpace 0 index
    let filter ← endsAt? text (ascii "WHERE") back
    let conjunction ← endsAt? text (ascii "AND") back
    let compared ← equalsBefore? text stop (index + length)
    some (if (filter || conjunction) && compared then length else 0)
  else some 0

/-- A state of copying: the index, the text so far and whether a column has been replaced. -/
structure Copying where
  index : Nat
  written : Text
  changed : Bool

/-- A step of copying with a column replaced. -/
def copyStep (outside : Option Byte) (text column replacement : Text) (stop : Nat)
    (copying : Copying) : Option (Step Copying (Text × Bool)) :=
  if copying.index < stop then do
    let byte ← byteAt? text copying.index
    if byte.isQuote then do
      let (next, literal) ← literalAt? text copying.index
      some (.next { copying with index := next, written := copying.written ++ literal })
    else do
      let length ← comparedAt? outside text column stop copying.index
      if 0 < length then
        some (.next ⟨copying.index + length, copying.written ++ replacement, true⟩)
      else
        some (.next { copying with
          index := copying.index + 1
          written := copying.written ++ [byte] })
  else some (.done (copying.written, copying.changed))

/-- The statement with its conditions on one column turned into conditions on another, from the
`WHERE` at `start` on. -/
def renameColumn? (outside : Option Byte) (statement : Statement) (column replacement : Text)
    (start : Nat) : Option Statement := do
  let stop ← regionEnd? statement start
  let front ← cut? statement.text 0 start
  let (written, changed) ← loop (copyStep outside statement.text column replacement stop)
    (statement.text.length + 1) ⟨start, front, false⟩
  let back ← from? statement.text stop
  if changed then remade? statement (written ++ back) else some statement

/-- The statement with its conditions on the default column turned into conditions on the scope
column of the table it reads from. -/
def aliasColumn? (outside : Option Byte) (rules : ScopeRules) (tenant : Tenant)
    (statement : Statement) : Option Statement :=
  let column := rules.defaultColumn tenant
  let replacement := rules.columnOf tenant statement.outline.table
  if statement.outline.table.isEmpty || column == replacement then some statement
  else
    match statement.outline.find? .filter with
    | none => some statement
    | some start => renameColumn? outside statement column.upper replacement start

section Renaming

variable {outside : Option Byte} {column replacement : Text} {byte : Byte}

theorem getD_filter {length? : Option Nat} (positive : ∀ length ∈ length?, 0 < length)
    (test : Nat → Bool) : (length?.filter test).getD 0 =
      if 0 < length?.getD 0 then if test (length?.getD 0) then length?.getD 0 else 0 else 0 := by
  cases length? with
  | none => rfl
  | some length =>
      rw [Option.getD_some, if_pos (positive length rfl), Option.filter_some]
      split <;> rfl

/-- What the look back gives at the beginning of a text, if anything, makes no difference. -/
theorem comparedAt?_eq (within : stop ≤ text.length) (inside : index < stop)
    (here : byteAt? text index = some byte) (plain : byte.isQuote = false)
    (seen : outside.isSome = true ∨ 0 < index) (depth : Nat) :
    comparedAt? outside text column stop index =
      some ((Repair.comparedColumn? text column stop (placed text depth index)).getD 0) := by
  have follows_eq : Repair.followsConjunction text (placed text depth index) =
      (Word.endsAt (ascii "WHERE") text
          (index - ((text.take index).reverse.takeWhile Byte.isSpace).length) ||
        Word.endsAt (ascii "AND") text
          (index - ((text.take index).reverse.takeWhile Byte.isSpace).length)) := rfl
  simp only [comparedAt?, matchWord?_eq text column depth,
    skipBack?_eq Byte.isSpace 0 (inside.trans_le within).le, backFrom_zero,
    endsAt?_eq (show ascii "WHERE" ≠ [] by decide), endsAt?_eq (show ascii "AND" ≠ [] by decide),
    equalsBefore?_eq within depth, Option.bind_eq_bind, Option.bind_some, ← follows_eq]
  rw [Repair.comparedColumn?, atQuote_placed depth here, plain, Bool.false_or]
  have matched_pos : ∀ length ∈ (placed text depth index).word? column, 0 < length :=
    fun length found => (word?_pos found).1
  by_cases first : index = 0
  · obtain ⟨before, rfl⟩ := Option.isSome_iff_exists.mp (seen.resolve_right (by omega))
    have apart : (placed text depth index).afterDot = false := by
      rw [first]
      rfl
    have nothing : Repair.followsConjunction text (placed text depth index) = false := by
      rw [follows_eq, first]
      rfl
    simp only [lookBack?, if_pos first, Option.bind_some, apart, nothing, Bool.false_and]
    cases (placed text depth index).word? column <;> cases before == Byte.dot <;> simp
  · obtain ⟨before, before_eq, previous_eq⟩ :=
      byteBefore?_eq depth (show 0 < index by omega) (inside.trans_le within).le
    have dotted_eq : (placed text depth index).afterDot = (before == Byte.dot) := by
      rw [afterDot, previous_eq]
      rfl
    simp only [lookBack?, if_neg first, before_eq, Option.bind_some, dotted_eq]
    cases before == Byte.dot with
    | true => rfl
    | false =>
        simp only [Bool.false_eq_true, if_false, getD_filter matched_pos]
        split <;> rfl

theorem comparedColumn?_pos {site : Site} {length : Nat}
    (compared : Repair.comparedColumn? text column stop site = some length) : 0 < length := by
  rw [Repair.comparedColumn?] at compared
  split at compared
  · cases compared
  · exact (word?_pos (Option.filter_eq_some_iff.mp compared).1).1

theorem comparingWidth_pos (column : Text) (stop depth : Nat)
    (here : byteAt? text index = some byte) :
    0 < Repair.comparingWidth text column stop (placed text depth index) := by
  rw [Repair.comparingWidth]
  cases compared : Repair.comparedColumn? text column stop (placed text depth index) with
  | some length => exact comparedColumn?_pos compared
  | none =>
      rw [Option.getD_none, lexemeWidth]
      split
      · exact width_pos depth here
      · exact Nat.one_pos

/-- A step copies the unit at its index. -/
theorem copyStep_eq (within : stop ≤ text.length) {copying : Copying}
    (inside : copying.index < stop) (seen : outside.isSome = true ∨ 0 < copying.index)
    (depth : Nat) :
    copyStep outside text column replacement stop copying = some (.next
      ⟨copying.index + Repair.comparingWidth text column stop (placed text depth copying.index),
        copying.written ++
          Repair.renamedUnit text column replacement stop (placed text depth copying.index),
        copying.changed ||
          (Repair.comparedColumn? text column stop (placed text depth copying.index)).isSome⟩) := by
  obtain ⟨byte, byte_eq, drop_eq⟩ := exists_byteAt (inside.trans_le within)
  have at_quote := atQuote_placed depth byte_eq
  rw [copyStep, if_pos inside, byte_eq, Option.bind_eq_bind, Option.bind_some,
    Repair.comparingWidth, Repair.renamedUnit, lexemeWidth, at_quote]
  cases quote : byte.isQuote with
  | true =>
      rw [Repair.comparedColumn?, at_quote, quote]
      simp [literalAt?_eq depth byte_eq]
  | false =>
      rw [comparedAt?_eq within inside byte_eq quote seen depth]
      cases compared :
          Repair.comparedColumn? text column stop (placed text depth copying.index) with
      | some length => simp [comparedColumn?_pos compared]
      | none => simp [drop_eq]

/-- What is copied in the end, with the answer whether a column has been replaced, if the units from
the index on follow at some depth. -/
def copied (text column replacement : Text) (stop depth : Nat) (copying : Copying) : Text × Bool :=
  let units :=
    ((placed text depth copying.index).tour (Repair.comparingWidth text column stop)).takeWhile
      (·.offset < stop)
  (copying.written ++ units.flatMap (Repair.renamedUnit text column replacement stop),
    copying.changed || units.any fun site => (Repair.comparedColumn? text column stop site).isSome)

theorem copied_eq {copying : Copying} (inside : copying.index < stop)
    (here : byteAt? text copying.index = some byte) (depth : Nat) :
    copied text column replacement stop depth copying =
      copied text column replacement stop (depthAfter byte depth)
        ⟨copying.index + Repair.comparingWidth text column stop (placed text depth copying.index),
          copying.written ++
            Repair.renamedUnit text column replacement stop (placed text depth copying.index),
          copying.changed ||
            (Repair.comparedColumn? text column stop
              (placed text depth copying.index)).isSome⟩ := by
  have positive := comparingWidth_pos column stop depth here
  have next_eq : copying.index + 1 +
      (Repair.comparingWidth text column stop (placed text depth copying.index) - 1) =
      copying.index + Repair.comparingWidth text column stop (placed text depth copying.index) :=
        by omega
  rw [copied, tour_placed _ here, List.takeWhile_cons_of_pos (by exact decide_eq_true inside),
    next_eq, copied, List.flatMap_cons, List.any_cons, List.append_assoc, Bool.or_assoc]

/-- The units from the index of a state on make a result, and the look back there gives
something. -/
def Copies (outside : Option Byte) (text column replacement : Text) (stop : Nat) (copying : Copying)
    (result : Text × Bool) : Prop :=
  (outside.isSome = true ∨ 0 < copying.index) ∧
    ∃ depth, result = copied text column replacement stop depth copying

theorem progress_copyStep (within : stop ≤ text.length) {copying : Copying} {result : Text × Bool}
    (copies : Copies outside text column replacement stop copying result) :
    Progress (copyStep outside text column replacement stop)
      (Copies outside text column replacement stop)
      (fun copying => stop - copying.index) copying result := by
  obtain ⟨seen, depth, rfl⟩ := copies
  by_cases inside : copying.index < stop
  · obtain ⟨byte, byte_eq, -⟩ := exists_byteAt (inside.trans_le within)
    have positive := comparingWidth_pos column stop depth byte_eq
    exact .next _ (copyStep_eq within inside seen depth)
      ⟨.inr (by dsimp only; omega), _, copied_eq inside byte_eq depth⟩ (by dsimp only; omega)
  · refine .done ?_
    rw [copyStep, if_neg inside, copied, takeWhile_tour_placed _ (by omega), List.flatMap_nil,
      List.append_nil, List.any_nil, Bool.or_false]

theorem renameColumn?_eq {statement : Statement} {start : Nat}
    (found : statement.outline.find? .filter = some start)
    (seen : outside.isSome = true ∨ 0 < start) :
    renameColumn? outside statement column replacement start =
      some (Repair.renameColumn statement column replacement start) := by
  have stop_le := regionEnd_le statement start
  have room := add_five_le_regionEnd found
  have run_eq :
      loop (copyStep outside statement.text column replacement (statement.regionEnd start))
          (statement.text.length + 1) ⟨start, statement.text.take start, false⟩ =
        some (copied statement.text column replacement (statement.regionEnd start) 0
          ⟨start, statement.text.take start, false⟩) :=
    loop_eq_some _ _ (fun _ _ => progress_copyStep stop_le) ⟨seen, 0, rfl⟩ (by dsimp only; omega)
  simp only [renameColumn?, regionEnd?_eq, cut?_zero (show start ≤ statement.text.length by omega),
    run_eq, from?_of_le stop_le, remade?_eq, Option.bind_eq_bind, Option.bind_some,
    Repair.renameColumn]
  rw [← apply_ite]
  rfl

/-- Without a byte before the text, a region that begins with it is not gone through. -/
theorem renameColumn?_none {statement : Statement}
    (found : statement.outline.find? .filter = some 0) :
    renameColumn? none statement column replacement 0 = none := by
  have room := add_five_le_regionEnd found
  have stop_le := regionEnd_le statement 0
  have occurs := (hasWord_of_isName (by decide +kernel) _).mp (hasWord_of_find? found)
  obtain ⟨byte, byte_eq, drop_eq⟩ := exists_byteAt (show 0 < statement.text.length by omega)
  have plain : byte.isQuote = false := by
    refine Byte.isQuote_of_isIdentifier byte ?_
    by_contra other
    rw [spoken, rest_placed, drop_eq, List.takeWhile_cons_of_neg other, upper, List.map_nil,
      ite_self] at occurs
    exact absurd occurs (by decide)
  have stuck : copyStep none statement.text column replacement (statement.regionEnd 0)
      ⟨0, statement.text.take 0, false⟩ = none := by
    rw [copyStep, if_pos (by dsimp only; omega), byte_eq, Option.bind_eq_bind, Option.bind_some,
      if_neg (by simp [plain])]
    rfl
  rw [renameColumn?, regionEnd?_eq, Option.bind_eq_bind, Option.bind_some,
    cut?_zero (Nat.zero_le _), Option.bind_eq_bind, Option.bind_some, loop, stuck]
  rfl

end Renaming

end Indexed

namespace Repair

/-- The repair of the column looks back from the beginning of the statement: it goes through the
region of a `WHERE` that begins there. -/
def LooksBack (rules : ScopeRules) (tenant : Tenant) (statement : Statement) : Prop :=
  (statement.outline.table.isEmpty ||
      rules.defaultColumn tenant == rules.columnOf tenant statement.outline.table) = false ∧
    statement.outline.find? .filter = some 0

instance (rules : ScopeRules) (tenant : Tenant) (statement : Statement) :
    Decidable (LooksBack rules tenant statement) :=
  inferInstanceAs (Decidable (_ ∧ _))

/-- What a pass of repair makes of a statement before it names the column. -/
def settled (statement : Statement) : Statement :=
  normalize (relocateFilter (cutTrailingConditions statement))

/-- One of a number of passes looks back from the beginning of its statement. -/
def LooksBackWithin (rules : ScopeRules) (tenant : Tenant) : (passes : Nat) → Statement → Prop
  | 0, _ => False
  | passes + 1, statement =>
      LooksBack rules tenant (settled statement) ∨
        (pass rules tenant statement).text ≠ statement.text ∧
          LooksBackWithin rules tenant passes (pass rules tenant statement)

instance decidableLooksBackWithin (rules : ScopeRules) (tenant : Tenant) :
    (passes : Nat) → (statement : Statement) →
    Decidable (LooksBackWithin rules tenant passes statement)
  | 0, _ => isFalse id
  | passes + 1, statement =>
      have := decidableLooksBackWithin rules tenant passes (pass rules tenant statement)
      inferInstanceAs (Decidable (_ ∨ _ ∧ _))

end Repair

namespace Indexed

open Repair (LooksBack LooksBackWithin settled)

variable {outside : Option Byte} {rules : ScopeRules} {tenant : Tenant} {statement : Statement}

theorem aliasColumn?_eq (seen : outside.isSome = true ∨ ¬ LooksBack rules tenant statement) :
    aliasColumn? outside rules tenant statement =
      some (Repair.aliasColumn rules tenant statement) := by
  simp only [aliasColumn?, Repair.aliasColumn]
  split
  · rfl
  · rename_i apart
    cases found : statement.outline.find? .filter with
    | none => rfl
    | some start =>
        refine renameColumn?_eq found (seen.imp_right fun stays => Nat.pos_of_ne_zero ?_)
        rintro rfl
        exact stays ⟨Bool.eq_false_iff.mpr apart, found⟩

theorem aliasColumn?_none : aliasColumn? none rules tenant statement =
    if LooksBack rules tenant statement then none
    else some (Repair.aliasColumn rules tenant statement) := by
  split
  · rename_i looks
    obtain ⟨apart, found⟩ := looks
    rw [aliasColumn?]
    simp only [apart, Bool.false_eq_true, if_false, found, renameColumn?_none found]
  · rename_i stays
    exact aliasColumn?_eq (.inr stays)

/-! ## Passes -/

/-- One pass of all repairs. -/
def pass? (outside : Option Byte) (rules : ScopeRules) (tenant : Tenant) (statement : Statement) :
    Option Statement := do
  let cut ← cutTrailingConditions? statement
  let moved ← relocateFilter? cut
  let settled ← normalize? moved
  aliasColumn? outside rules tenant settled

/-- Passes until one of them changes nothing, at most `passes` of them. -/
def run? (outside : Option Byte) (rules : ScopeRules) (tenant : Tenant) :
    (passes : Nat) → Statement → Option Statement
  | 0, statement => do
      let _ ← excerpt? 200 statement.text
      some statement
  | passes + 1, statement => do
      let repaired ← pass? outside rules tenant statement
      if repaired.text == statement.text then some repaired
      else run? outside rules tenant passes repaired

/-- The repaired statement. -/
def repair? (outside : Option Byte) (limits : RepairRules) (rules : ScopeRules) (tenant : Tenant)
    (statement : Statement) : Option Statement :=
  run? outside rules tenant (max 1 limits.passes) statement

theorem pass?_eq_aliasColumn? : pass? outside rules tenant statement =
    aliasColumn? outside rules tenant (settled statement) := by
  simp only [pass?, cutTrailingConditions?_eq, relocateFilter?_eq, normalize?_eq,
    Option.bind_eq_bind, Option.bind_some, settled]

theorem run?_eq (seen : outside.isSome = true) (passes : Nat) (statement : Statement) :
    run? outside rules tenant passes statement =
      some (Repair.run rules tenant passes statement) := by
  induction passes generalizing statement with
  | zero =>
      rw [run?, excerpt?_eq, Repair.run]
      rfl
  | succ passes ih =>
      have pass_eq :
          pass? outside rules tenant statement = some (Repair.pass rules tenant statement) :=
        pass?_eq_aliasColumn?.trans (aliasColumn?_eq (.inl seen))
      rw [run?, pass_eq, Option.bind_eq_bind, Option.bind_some, Repair.run, ih]
      split <;> rfl

theorem run?_none (passes : Nat) (statement : Statement) : run? none rules tenant passes statement =
    if LooksBackWithin rules tenant passes statement then none
    else some (Repair.run rules tenant passes statement) := by
  induction passes generalizing statement with
  | zero =>
      rw [run?, excerpt?_eq, Repair.run,
        if_neg (show ¬ LooksBackWithin rules tenant 0 statement from id)]
      rfl
  | succ passes ih =>
      rw [run?, pass?_eq_aliasColumn?, aliasColumn?_none]
      by_cases looks : LooksBack rules tenant (settled statement)
      · rw [if_pos looks, if_pos (.inl looks)]
        rfl
      · have pass_eq : Repair.aliasColumn rules tenant (settled statement) =
            Repair.pass rules tenant statement := rfl
        rw [if_neg looks, Option.bind_eq_bind, Option.bind_some, pass_eq, Repair.run]
        by_cases same : (Repair.pass rules tenant statement).text = statement.text
        · have rests : ¬ LooksBackWithin rules tenant (passes + 1) statement := by
            rintro (begun | ⟨changed, -⟩)
            · exact looks begun
            · exact changed same
          simp [same, rests]
        · have goes_on : LooksBackWithin rules tenant (passes + 1) statement ↔
              LooksBackWithin rules tenant passes (Repair.pass rules tenant statement) := by
            simp [LooksBackWithin, looks, same]
          simp [same, ih, goes_on]

end Indexed

end TenantScope
