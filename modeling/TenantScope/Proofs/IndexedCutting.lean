import TenantScope.Repair.TrailingCondition
import TenantScope.Proofs.IndexedOutline
import TenantScope.Proofs.Qualified

/-!
# Cutting by index

The region of a clause is cut at offsets of the outline, and the search for a trailing
condition looks back from the words of the region.  Both stay in the text, since the keyword of
the clause comes first.
-/

namespace TenantScope

open Text Site

namespace Indexed

variable {text : Text} {depth index stop : Nat}

/-! ## Regions -/

/-- The statement with another text, whose outline is scanned. -/
def remade? (statement : Statement) (text : Text) : Option Statement := do
  let _ ← scan? text
  some (statement.withText text)

theorem remade?_eq (statement : Statement) (text : Text) :
    remade? statement text = some (statement.withText text) := by
  rw [remade?, scan?_eq]
  rfl

/-- Offset of the end of a body. -/
def bodyEnd? (text : Text) : Option Nat := do
  let body ← trimRight? text
  if body = [] then some 0
  else do
    let last ← minus? body.length 1
    let byte ← byteAt? body last
    if byte == Byte.semicolon then some last else some body.length

theorem bodyEnd?_eq (text : Text) : bodyEnd? text = some (Statement.bodyEnd text) := by
  rw [bodyEnd?, trimRight?_eq, Option.bind_eq_bind, Option.bind_some, trimRight, dropRightWhile,
    Statement.bodyEnd]
  cases text.reverse.dropWhile Byte.isSpace with
  | nil => rfl
  | cons last body =>
      have byte_eq : byteAt? (last :: body).reverse body.length = some last := by
        simp [byteAt?]
      rw [if_neg (by simp), minus?_of_le (by simp)]
      simp only [Option.bind_eq_bind, Option.bind_some, List.length_reverse, List.length_cons,
        Nat.add_sub_cancel, byte_eq]
      split <;> rfl

/-- Offset of the end of the region that begins at an offset. -/
def regionEnd? (statement : Statement) (offset : Nat) : Option Nat := do
  let stop ← bodyEnd? statement.text
  some (statement.outline.clauses.foldl
    (fun stop found => if offset < found.offset && found.offset < stop then found.offset
      else stop) stop)

theorem regionEnd?_eq (statement : Statement) (offset : Nat) :
    regionEnd? statement offset = some (statement.regionEnd offset) := by
  rw [regionEnd?, bodyEnd?_eq]
  rfl

/-- A region ends with the body or where a later clause begins. -/
theorem regionEnd_cases (statement : Statement) (offset : Nat) :
    statement.regionEnd offset = Statement.bodyEnd statement.text ∨
      ∃ found ∈ statement.outline.clauses, offset < found.offset ∧
        statement.regionEnd offset = found.offset := by
  have fold_cases (clauses : List ClauseAt) (stop : Nat) :
      clauses.foldl (fun stop found =>
          if offset < found.offset && found.offset < stop then found.offset else stop) stop = stop ∨
        ∃ found ∈ clauses, offset < found.offset ∧ clauses.foldl (fun stop found =>
          if offset < found.offset && found.offset < stop then found.offset else stop) stop =
            found.offset := by
    induction clauses generalizing stop with
    | nil => exact .inl rfl
    | cons first clauses ih =>
        rw [List.foldl_cons]
        rcases ih (if offset < first.offset && first.offset < stop then first.offset else stop) with
          kept | ⟨found, member, later, found_eq⟩
        · rw [kept]
          split
          · rename_i nearer
            have later : offset < first.offset := by simpa using (Bool.and_eq_true_iff.mp nearer).1
            exact .inr ⟨first, List.mem_cons_self, later, rfl⟩
          · exact .inl rfl
        · exact .inr ⟨found, List.mem_cons_of_mem _ member, later, found_eq⟩
  exact fold_cases statement.outline.clauses (Statement.bodyEnd statement.text)

theorem regionEnd_le (statement : Statement) (offset : Nat) :
    statement.regionEnd offset ≤ statement.text.length := by
  rcases regionEnd_cases statement offset with body | ⟨found, member, -, found_eq⟩
  · rw [body]
    exact Statement.bodyEnd_le _
  · rw [found_eq]
    exact (Scope.lt_length_of_mem_marks (Outline.mem_marks_of_mem_clauses member)).le

/-- The region of a `WHERE` holds the keyword. -/
theorem add_five_le_regionEnd {statement : Statement} {start : Nat}
    (filter_eq : statement.outline.find? .filter = some start) :
    start + 5 ≤ statement.regionEnd start := by
  have filter_mem := Scope.mem_marks_of_find? filter_eq
  rcases regionEnd_cases statement start with body | ⟨found, member, later, found_eq⟩
  · rw [body]
    exact Scope.add_five_le_bodyEnd filter_mem
  · rw [found_eq]
    exact Scope.add_five_le_of_mem_marks_of_lt filter_mem
      (Outline.mem_marks_of_mem_clauses member) later

/-! ## Conditions that trail a later clause -/

/-- The byte before an index. -/
def byteBefore? (text : Text) (index : Nat) : Option Byte := do
  let before ← minus? index 1
  byteAt? text before

theorem byteBefore?_eq (depth : Nat) (positive : 0 < index) (within : index ≤ text.length) :
    ∃ byte, byteBefore? text index = some byte ∧
      (placed text depth index).previous? = some byte := by
  obtain ⟨byte, byte_eq, -⟩ := exists_byteBefore positive within
  refine ⟨byte, ?_, (previous?_placed depth positive within).trans byte_eq⟩
  rw [byteBefore?, minus?_of_le positive]
  exact byte_eq

/-- A state of the search for a condition: the index, the open parentheses and the open `CASE`s. -/
structure Search where
  index : Nat
  depth : Nat
  cases : Nat

/-- A step of the search at a word that it knows. -/
def keywordStep? (text : Text) (filterAt? : Option Nat) (search : Search) :
    Option (Option (Step Search (Option Nat))) :=
  if 0 < search.depth then some none
  else do
    let before ← byteBefore? text search.index
    if before == Byte.dot then some none
    else do
      let length ← matchWord? text (ascii "CASE") search.index
      if 0 < length then
        some (some (.next { search with index := search.index + length, cases :=
          search.cases + 1 }))
      else do
        let length ← matchWord? text (ascii "END") search.index
        if 0 < length then
          some (some (.next { search with index := search.index + length, cases :=
            search.cases - 1 }))
        else if search.cases = 0 then do
          let conjunction ← matchWord? text (ascii "AND") search.index
          let disjunction ← matchWord? text (ascii "OR") search.index
          let filter ← matchWord? text (ascii "WHERE") search.index
          if 0 < conjunction ∨ 0 < disjunction ∨ (0 < filter ∧ filterAt? ≠ some search.index) then
            some (some (.done (some search.index)))
          else some none
        else some none

/-- A step of the search for a condition. -/
def searchStep (text : Text) (filterAt? : Option Nat) (stop : Nat) (search : Search) :
    Option (Step Search (Option Nat)) :=
  if search.index < stop then do
    let byte ← byteAt? text search.index
    if byte.isQuote then do
      let next ← skipLiteral? text search.index
      some (.next { search with index := next })
    else if byte.isIdentifier then do
      let taken ← keywordStep? text filterAt? search
      match taken with
      | some step => some step
      | none => do
          let next ← skip? text Byte.isIdentifier stop search.index
          some (.next { search with index := next })
    else some (.next
      { search with index := search.index + 1, depth := depthAfter byte search.depth })
  else some (.done none)

/-- Offset of the condition in the region between two offsets. -/
def conditionStart? (text : Text) (filterAt? : Option Nat) (start stop : Nat) :
    Option (Option Nat) :=
  loop (searchStep text filterAt? stop) (text.length + 1) ⟨start, 0, 0⟩

/-- What the search finds from a state on. -/
def searchFrom (text : Text) (filterAt? : Option Nat) (stop : Nat) (search : Search) : Option Nat :=
  Repair.conditionStart? filterAt? search.cases
    ((placed text search.depth search.index).code.takeWhile (·.offset < stop))

section Search

variable {filterAt? : Option Nat} {search : Search} {byte : Byte}

theorem matched_iff {keyword : Text} {site : Site} :
    0 < (site.word? keyword).getD 0 ↔ site.hasWord keyword = true := by
  rw [hasWord]
  cases found : site.word? keyword with
  | none => simp
  | some length => simp [(word?_pos found).1]

/-- Where no word begins the search goes on. -/
theorem searchFrom_of_silent (filterAt? : Option Nat) (search : Search)
    (inside : search.index < stop) (here : byteAt? text search.index = some byte)
    (plain : byte.isQuote = false) (silent : (placed text search.depth search.index).spoken = []) :
    searchFrom text filterAt? stop search = searchFrom text filterAt? stop
      { search with index := search.index + 1, depth := depthAfter byte search.depth } := by
  have absent {name : Text} (is_name : IsName name) :
      (placed text search.depth search.index).hasWord name = false := by
    refine Bool.eq_false_iff.mpr fun occurs => is_name.nonempty ?_
    rw [← (hasWord_of_isName is_name _).mp occurs, silent]
  rw [searchFrom, takeWhile_code_placed_cons _ here plain inside, Repair.conditionStart?,
    searchFrom, Repair.beginsCondition, absent (by decide +kernel), absent (by decide +kernel),
    absent (by decide +kernel), absent (by decide +kernel), absent (by decide +kernel)]
  simp

theorem searchFrom_of_le (reached : stop ≤ search.index) :
    searchFrom text filterAt? stop search = none := by
  rw [searchFrom, takeWhile_code_placed reached, Repair.conditionStart?]

theorem depthAfter_of_isIdentifier (identifier : byte.isIdentifier = true) (depth : Nat) :
    depthAfter byte depth = depth :=
  depthAfter_of_flat (Byte.depthless_of_isIdentifier byte identifier) depth

/-- Inside a word no other begins. -/
theorem searchFrom_inside {cases place : Nat} (begun : index < place)
    (inside : place ≤ index + wordLength text index) :
    searchFrom text filterAt? stop ⟨index + 1, depth, cases⟩ =
      searchFrom text filterAt? stop ⟨place, depth, cases⟩ := by
  induction place, begun using Nat.le_induction with
  | base => rfl
  | succ place begun ih =>
      rw [ih (by omega)]
      by_cases reached : stop ≤ place
      · rw [searchFrom_of_le reached, searchFrom_of_le (Nat.le_succ_of_le reached)]
      · obtain ⟨byte, byte_eq, identifier⟩ :=
          exists_identifier (show index ≤ place by omega)
            (show place < index + wordLength text index by omega)
        obtain ⟨before, before_eq, joined⟩ :=
          exists_identifier (show index ≤ place - 1 by omega)
            (show place - 1 < index + wordLength text index by omega)
        have here := (List.getElem?_eq_some_iff.mp byte_eq).1
        have previous_eq : (placed text depth place).previous? = some before :=
          (previous?_placed depth (show 0 < place by omega) here.le).trans before_eq
        have silent : (placed text depth place).spoken = [] := by
          rw [spoken, afterIdentifier, previous_eq, Option.any_some, joined, if_pos rfl]
        rw [searchFrom_of_silent filterAt? ⟨place, depth, cases⟩ (by simpa using reached) byte_eq
          (Byte.isQuote_of_isIdentifier byte identifier) silent,
          depthAfter_of_isIdentifier identifier]

/-- At the beginning of a word the search tells what the word is. -/
theorem searchFrom_word (filterAt? : Option Nat) (inside : search.index < stop)
    (here : byteAt? text search.index = some byte) (identifier : byte.isIdentifier = true) :
    searchFrom text filterAt? stop search =
      if !Repair.mayBeginKeyword (placed text search.depth search.index) then
        searchFrom text filterAt? stop { search with index := search.index + 1 }
      else if (placed text search.depth search.index).hasWord (ascii "CASE") then
        searchFrom text filterAt? stop
          { search with index := search.index + 1, cases := search.cases + 1 }
      else if (placed text search.depth search.index).hasWord (ascii "END") then
        searchFrom text filterAt? stop
          { search with index := search.index + 1, cases := search.cases - 1 }
      else if search.cases == 0 &&
          Repair.beginsCondition filterAt? (placed text search.depth search.index) then
        some search.index
      else searchFrom text filterAt? stop { search with index := search.index + 1 } := by
  rw [searchFrom,
    takeWhile_code_placed_cons _ here (Byte.isQuote_of_isIdentifier byte identifier) inside,
    Repair.conditionStart?, depthAfter_of_isIdentifier identifier]
  rfl

theorem word?_le_wordLength {name : Text} (is_name : IsName name) :
    ((placed text depth index).word? name).getD 0 ≤ wordLength text index := by
  rw [word?_of_isName is_name]
  split
  · rename_i spoken_eq
    rw [Option.getD_some, ← spoken_eq, spoken]
    split
    · exact Nat.zero_le _
    · rw [length_upper]
      rfl
  · exact Nat.zero_le _

/-- What the search does at a word that it knows. -/
theorem keywordStep?_eq (positive : 0 < search.index) (within : search.index ≤ text.length) :
    keywordStep? text filterAt? search = some (
      if !Repair.mayBeginKeyword (placed text search.depth search.index) then none
      else if (placed text search.depth search.index).hasWord (ascii "CASE") then
        some (.next { search with
          index := search.index +
            ((placed text search.depth search.index).word? (ascii "CASE")).getD 0
          cases := search.cases + 1 })
      else if (placed text search.depth search.index).hasWord (ascii "END") then
        some (.next { search with
          index := search.index +
            ((placed text search.depth search.index).word? (ascii "END")).getD 0
          cases := search.cases - 1 })
      else if search.cases == 0 &&
          Repair.beginsCondition filterAt? (placed text search.depth search.index) then
        some (.done (some search.index))
      else none) := by
  obtain ⟨before, before_eq, previous_eq⟩ := byteBefore?_eq search.depth positive within
  simp only [keywordStep?, before_eq, matchWord?_eq text _ search.depth, Option.bind_eq_bind,
    Option.bind_some, matched_iff, Repair.mayBeginKeyword, afterDot, previous_eq, depth_placed,
    Repair.beginsCondition, offset_placed]
  by_cases nested : 0 < search.depth
  · rw [if_pos nested, if_pos (by simp; omega)]
  by_cases dotted : (before == Byte.dot) = true
  · rw [if_neg nested, if_pos dotted, if_pos (by simp [beq_iff_eq.mp dotted])]
  have begins_iff :
      (search.cases = 0 ∧ ((placed text search.depth search.index).hasWord (ascii "AND") = true ∨
      (placed text search.depth search.index).hasWord (ascii "OR") = true ∨
      ((placed text search.depth search.index).hasWord (ascii "WHERE") = true ∧
        filterAt? ≠ some search.index))) ↔
      (search.cases == 0 && ((placed text search.depth search.index).hasWord (ascii "AND") ||
        (placed text search.depth search.index).hasWord (ascii "OR") ||
        ((placed text search.depth search.index).hasWord (ascii "WHERE") &&
          filterAt? != some search.index))) = true := by
    simp [or_assoc]
  have may : (!(search.depth == 0 && !(some before == some Byte.dot))) = false := by
    have flat : search.depth = 0 := by omega
    simpa [flat] using dotted
  rw [if_neg nested, if_neg dotted, may, if_neg Bool.false_ne_true]
  simp only [← begins_iff]
  split_ifs <;> first | rfl | simp_all

/-- What the search does at the beginning of a word. -/
theorem searchStep_word (filterAt? : Option Nat) (within : stop ≤ text.length)
    (inside : search.index < stop) (here : byteAt? text search.index = some byte)
    (identifier : byte.isIdentifier = true) :
    ∃ place, search.index < place ∧ place ≤ search.index + wordLength text search.index ∧
      searchStep text filterAt? stop search = (keywordStep? text filterAt? search).bind fun taken =>
        some (taken.getD (.next { search with index := place })) := by
  have run_eq : (Statement.slice text search.index stop).takeWhile Byte.isIdentifier =
      ((text.drop search.index).takeWhile Byte.isIdentifier).take (stop - search.index) :=
    takeWhile_take _ _ _
  have word_pos : 0 < wordLength text search.index := by
    obtain ⟨other, other_eq, drop_eq⟩ := exists_byteAt (List.getElem?_eq_some_iff.mp here).1
    obtain rfl := Option.some_inj.mp (here.symm.trans other_eq)
    rw [wordLength, drop_eq, List.takeWhile_cons_of_pos identifier]
    exact Nat.succ_pos _
  refine ⟨search.index + min (stop - search.index) (wordLength text search.index), by omega,
    by omega, ?_⟩
  have plain := Byte.isQuote_of_isIdentifier byte identifier
  simp only [searchStep, if_pos inside, here, plain, if_neg Bool.false_ne_true, if_pos identifier,
    skip?_eq _ within, run_eq, List.length_take, Option.bind_eq_bind, Option.bind_some]
  congr 1
  funext taken
  cases taken <;> rfl

/-- The search goes on from where a word has been read to. -/
theorem progress_of_inside {place cases : Nat} (inside : search.index < stop)
    (further : search.index < place) (in_word : place ≤ search.index + wordLength text search.index)
    (step_eq : searchStep text filterAt? stop search = some (.next ⟨place, search.depth, cases⟩))
    (from_eq : searchFrom text filterAt? stop search =
      searchFrom text filterAt? stop ⟨search.index + 1, search.depth, cases⟩) :
    Progress (searchStep text filterAt? stop)
      (fun search result => 0 < search.index ∧ result = searchFrom text filterAt? stop search)
      (fun search => stop - search.index) search (searchFrom text filterAt? stop search) :=
  .next _ step_eq ⟨by dsimp only; omega, from_eq.trans (searchFrom_inside further in_word)⟩
    (by dsimp only; omega)

theorem progress_searchStep_word (within : stop ≤ text.length) (positive : 0 < search.index)
    (inside : search.index < stop) (here : byteAt? text search.index = some byte)
    (identifier : byte.isIdentifier = true) :
    Progress (searchStep text filterAt? stop)
      (fun search result => 0 < search.index ∧ result = searchFrom text filterAt? stop search)
      (fun search => stop - search.index) search (searchFrom text filterAt? stop search) := by
  obtain ⟨place, further, in_word, step_eq⟩ :=
    searchStep_word filterAt? within inside here identifier
  have word_eq := searchFrom_word filterAt? inside here identifier
  have matched {name : Text} (is_name : IsName name)
      (occurs : (placed text search.depth search.index).hasWord name = true) :
      search.index < search.index + ((placed text search.depth search.index).word? name).getD 0 ∧
        search.index + ((placed text search.depth search.index).word? name).getD 0 ≤
          search.index + wordLength text search.index :=
    ⟨Nat.lt_add_of_pos_right (matched_iff.mpr occurs),
      Nat.add_le_add_left (word?_le_wordLength is_name) _⟩
  rw [keywordStep?_eq positive (by omega), Option.bind_some] at step_eq
  by_cases mute : (!Repair.mayBeginKeyword (placed text search.depth search.index)) = true
  · rw [if_pos mute] at step_eq word_eq
    exact progress_of_inside inside further in_word step_eq word_eq
  rw [if_neg mute] at step_eq word_eq
  by_cases opens : (placed text search.depth search.index).hasWord (ascii "CASE") = true
  · obtain ⟨wide, within_word⟩ := matched (by decide +kernel) opens
    rw [if_pos opens] at step_eq word_eq
    exact progress_of_inside inside wide within_word step_eq word_eq
  rw [if_neg opens] at step_eq word_eq
  by_cases ends : (placed text search.depth search.index).hasWord (ascii "END") = true
  · obtain ⟨wide, within_word⟩ := matched (by decide +kernel) ends
    rw [if_pos ends] at step_eq word_eq
    exact progress_of_inside inside wide within_word step_eq word_eq
  rw [if_neg ends] at step_eq word_eq
  by_cases begins : (search.cases == 0 &&
      Repair.beginsCondition filterAt? (placed text search.depth search.index)) = true
  · rw [if_pos begins] at step_eq word_eq
    exact .done (step_eq.trans (congrArg (some ∘ Step.done) word_eq.symm))
  · rw [if_neg begins] at step_eq word_eq
    exact progress_of_inside inside further in_word step_eq word_eq

theorem progress_searchStep (within : stop ≤ text.length) (positive : 0 < search.index) :
    Progress (searchStep text filterAt? stop)
      (fun search result => 0 < search.index ∧ result = searchFrom text filterAt? stop search)
      (fun search => stop - search.index) search (searchFrom text filterAt? stop search) := by
  by_cases inside : search.index < stop
  · obtain ⟨byte, byte_eq, drop_eq⟩ := exists_byteAt (show search.index < text.length by omega)
    cases quote : byte.isQuote with
    | true =>
        have wide := width_pos search.depth byte_eq
        refine .next { search with
          index := search.index +
            Literal.width .standard (placed text search.depth search.index) } ?_
          ⟨by dsimp only; omega, ?_⟩ (by dsimp only; omega)
        · simp only [searchStep, if_pos inside, byte_eq, Option.bind_eq_bind, Option.bind_some,
            if_pos quote, skipLiteral?_eq search.depth byte_eq]
        · rw [searchFrom, code_placed_of_isQuote byte_eq quote, searchFrom]
    | false =>
        cases identifier : byte.isIdentifier with
        | true => exact progress_searchStep_word within positive inside byte_eq identifier
        | false =>
            have silent : (placed text search.depth search.index).spoken = [] := by
              rw [spoken, rest_placed, drop_eq, List.takeWhile_cons_of_neg (by simp [identifier]),
                upper, List.map_nil, ite_self]
            refine .next
              { search with index := search.index + 1, depth := depthAfter byte search.depth } ?_
              ⟨by dsimp only; omega, searchFrom_of_silent _ _ inside byte_eq quote silent⟩
              (by dsimp only; omega)
            simp only [searchStep, if_pos inside, byte_eq, Option.bind_eq_bind, Option.bind_some,
              quote, identifier, if_neg Bool.false_ne_true]
  · refine .done ?_
    rw [searchStep, if_neg inside, searchFrom_of_le (by omega)]

theorem conditionStart?_eq (filterAt? : Option Nat) {start : Nat} (within : stop ≤ text.length)
    (positive : 0 < start) :
    conditionStart? text filterAt? start stop =
      some (Repair.conditionStart? filterAt? 0 (Repair.codeBetween text start stop)) := by
  refine loop_eq_some (fun search result =>
    0 < search.index ∧ result = searchFrom text filterAt? stop search)
    (fun search => stop - search.index) (fun search _ holds => ?_) ⟨positive, rfl⟩
    (by dsimp only; omega)
  obtain ⟨positive, rfl⟩ := holds
  exact progress_searchStep within positive

end Search

/-- The condition that the search finds begins in the region. -/
theorem lt_of_conditionStart? {filterAt? : Option Nat} {cases start : Nat} {sites : List Site}
    (before : ∀ site ∈ sites, site.offset < stop)
    (found : Repair.conditionStart? filterAt? cases sites = some start) : start < stop := by
  induction sites generalizing cases with
  | nil => cases found
  | cons site sites ih =>
      rw [List.forall_mem_cons] at before
      rw [Repair.conditionStart?] at found
      split_ifs at found
      · exact ih before.2 found
      · exact ih before.2 found
      · exact ih before.2 found
      · exact Option.some_inj.mp found ▸ before.1
      · exact ih before.2 found

/-- The statement without the condition in the region of a clause. -/
def cutConditionOf? (statement : Statement) (clause : Clause) : Option Statement :=
  match statement.outline.find? clause with
  | none => some statement
  | some offset => do
      let length ← matchWord? statement.text clause.keyword offset
      let stop ← regionEnd? statement offset
      let found ← conditionStart? statement.text (statement.outline.find? .filter)
          (offset + length) stop
      match found with
      | none => some statement
      | some start => do
          let removed ← minus? stop start
          let condition ← cut? statement.text start removed
          let _ ← excerpt? 200 condition
          let front ← cut? statement.text 0 start
          let back ← from? statement.text stop
          remade? statement (front ++ back)

theorem hasWord_of_find? {clause : Clause} {offset : Nat}
    (found : (Outline.ofText text).find? clause = some offset) :
    (placed text 0 offset).hasWord clause.keyword = true := by
  have member := Scope.mem_marks_of_find? found
  have counted := (Mark.countsAt_iff.mp (Scope.atOffset_of_mem_marks member).2).2.1
  rw [placed_zero]
  simpa [Mark.occursAt, Mark.keywords] using counted

theorem cutConditionOf?_eq (statement : Statement) (clause : Clause) :
    cutConditionOf? statement clause = some (Repair.cutConditionOf statement clause) := by
  rw [cutConditionOf?, Repair.cutConditionOf]
  cases offset_eq : statement.outline.find? clause with
  | none => rfl
  | some offset =>
      have positive := matched_iff.mpr (hasWord_of_find? offset_eq)
      have stop_le := regionEnd_le statement offset
      have found_eq := conditionStart?_eq (statement.outline.find? .filter) stop_le
        (show 0 < offset + ((placed statement.text 0 offset).word? clause.keyword).getD 0 by omega)
      simp only [matchWord?_eq statement.text _ 0, regionEnd?_eq, found_eq, Option.bind_eq_bind,
        Option.bind_some]
      rw [placed_zero]
      cases start_eq : Repair.conditionStart? (statement.outline.find? .filter) 0 _ with
      | none => rfl
      | some start =>
          have start_lt := lt_of_conditionStart? (fun site member => by
            simpa using List.mem_takeWhile_imp member) start_eq
          dsimp only
          rw [minus?_of_le start_lt.le, Option.bind_some, cut?_of_le (by omega), Option.bind_some,
            excerpt?_eq, Option.bind_some, cut?_zero (by omega), Option.bind_some,
            from?_of_le stop_le, Option.bind_some, remade?_eq]

/-- The statement without conditions in the regions of clauses that hold none. -/
def cutTrailingConditions? (statement : Statement) : Option Statement :=
  Repair.conditionless.foldlM cutConditionOf? statement

theorem cutTrailingConditions?_eq (statement : Statement) :
    cutTrailingConditions? statement = some (Repair.cutTrailingConditions statement) := by
  simp [cutTrailingConditions?, Repair.cutTrailingConditions, Repair.conditionless,
    cutConditionOf?_eq]

end Indexed

end TenantScope
