import TenantScope.Proofs.IndexedWords
import TenantScope.Proofs.Scanning

/-!
# Scanning by index

The scanner reads a text by index, byte by byte in literals and word by word between them.  It never
leaves the text, and it finds the outline of the text.
-/

namespace TenantScope

open Text Site

namespace Indexed

variable {text : Text} {depth index : Nat}

/-! ## Words of the outline -/

/-- The first of some items whose keyword occurs at an index, and the length of the occurrence. -/
def firstMatch? {Item : Type} (keyword : Item → Text) (text : Text) (index : Nat) :
    List Item → Option (Option (Item × Nat))
  | [] => some none
  | item :: items => do
      let length ← matchWord? text (keyword item) index
      if 0 < length then some (some (item, length)) else firstMatch? keyword text index items

theorem firstMatch?_eq {Item : Type} (keyword : Item → Text) (text : Text) (depth index : Nat)
    (items : List Item) :
    firstMatch? keyword text index items = some (items.findSome? fun item =>
      ((placed text depth index).word? (keyword item)).map fun length => (item, length)) := by
  induction items with
  | nil => rfl
  | cons item items ih =>
      rw [firstMatch?, matchWord?_eq text (keyword item) depth, Option.bind_eq_bind,
        Option.bind_some, List.findSome?_cons, ih]
      cases found : (placed text depth index).word? (keyword item) with
      | none => rfl
      | some length =>
          rw [Option.getD_some, if_pos (word?_pos found).1]
          rfl

/-- The name of a table that is read from an index on. -/
def readTable? (text : Text) (index : Nat) : Option Text := do
  let first ← skip? text Byte.isSpace text.length index
  let stop ← skip? text TableName.continues text.length first
  let length ← minus? stop first
  let name ← cut? text first length
  some (name.filter fun byte => !TableName.isMark byte)

theorem readTable?_eq (within : index ≤ text.length) :
    readTable? text index = some (TableName.read (text.drop index)) := by
  have after_eq : text.drop (index + ((text.drop index).takeWhile Byte.isSpace).length) =
      (text.drop index).dropWhile Byte.isSpace := by
    rw [← List.drop_drop, drop_length_takeWhile]
  have fits : index + ((text.drop index).takeWhile Byte.isSpace).length +
      (((text.drop index).dropWhile Byte.isSpace).takeWhile TableName.continues).length ≤
        text.length := by
    have whole := congrArg List.length
      (List.takeWhile_append_dropWhile (p := Byte.isSpace) (l := text.drop index))
    have inner := (List.takeWhile_sublist (l := (text.drop index).dropWhile Byte.isSpace)
      TableName.continues).length_le
    rw [List.length_append, List.length_drop] at whole
    omega
  simp only [readTable?, skip?_length, Option.bind_eq_bind, Option.bind_some, after_eq]
  rw [minus?_of_le (Nat.le_add_right _ _), Option.bind_some, Nat.add_sub_cancel_left,
    cut?_of_le fits, Option.bind_some, after_eq, TableName.read]
  congr 2
  exact (List.prefix_iff_eq_take.mp (List.takeWhile_prefix _)).symm

/-- The outline with the keyword that occurs at an index, and the length of the occurrence. -/
def noteWord? (text : Text) (outline : Outline) (index : Nat) :
    Option (Option (Outline × Nat)) := do
  let clause ← firstMatch? Clause.keyword text index Clause.all
  match clause with
  | some (clause, length) => some (some (outline.addClause clause index, length))
  | none => do
      let length ← matchWord? text Outline.sourceKeyword index
      if 0 < length then
        if outline.source?.isSome then some (some (outline, length))
        else do
          let table ← readTable? text (index + length)
          some (some ({ outline with source? := some ⟨index, table⟩ }, length))
      else do
        let operator ← firstMatch? id text index Outline.setOperators
        match operator with
        | some (_, length) => some (some ({ outline with compound := true }, length))
        | none => some none

theorem findSome?_eq_bind {Item Found : Type} (find : Item → Option Found) (items : List Item) :
    items.findSome? find = (items.find? fun item => (find item).isSome).bind find := by
  induction items with
  | nil => rfl
  | cons item items ih =>
      rw [List.findSome?_cons, List.find?_cons]
      cases found : find item with
      | none => simpa [found] using ih
      | some other => simp [found]

/-- The keyword of the outline at a place is that of a clause, `FROM` or the name of an
operation on queries. -/
theorem keyword?_eq (site : Site) : Scanner.keyword? site =
    ((Outline.clauseAt? site).bind fun clause => site.word? clause.keyword).or
      ((site.word? Outline.sourceKeyword).or
        ((Outline.setOperators.find? site.hasWord).bind site.word?)) := by
  rw [Scanner.keyword?, Scanner.keywords, List.findSome?_append, List.findSome?_map,
    findSome?_eq_bind, List.findSome?_cons, findSome?_eq_bind, Outline.clauseAt?]
  cases site.word? Outline.sourceKeyword <;> rfl

theorem noteWord?_eq (text : Text) (outline : Outline) (depth index : Nat) :
    noteWord? text outline index =
      some ((Scanner.keyword? (placed text depth index)).map fun length =>
      (outline.note (placed text depth index), length)) := by
  have matched {Item : Type} (keyword : Item → Text) (items : List Item) :
      firstMatch? keyword text index items =
        some ((items.find? fun item => (placed text depth index).hasWord (keyword item)).bind
          fun item =>
          ((placed text depth index).word? (keyword item)).map fun length => (item, length)) := by
    rw [firstMatch?_eq keyword text depth, findSome?_eq_bind]
    simp only [Option.isSome_map, hasWord]
  simp only [noteWord?, matched, Option.bind_eq_bind, Option.bind_some, keyword?_eq, Outline.note]
  rw [← Outline.clauseAt?]
  cases clause_eq : Outline.clauseAt? (placed text depth index) with
  | some clause =>
      have occurs := List.find?_some
        (p := fun clause : Clause => (placed text depth index).hasWord clause.keyword) clause_eq
      obtain ⟨length, found⟩ := Option.isSome_iff_exists.mp occurs
      simp [found]
  | none =>
      simp only [Option.bind_none, Option.none_or, matchWord?_eq text _ depth, Option.bind_some]
      cases found : (placed text depth index).word? Outline.sourceKeyword with
      | some length =>
          have bounds := word?_pos found
          rw [rest_placed, List.length_drop] at bounds
          have table_eq := readTable?_eq (show index + length ≤ text.length by omega)
          simp only [Option.getD_some, if_pos bounds.1, table_eq, Option.bind_some, Option.some_or,
            Option.map_some, Outline.addSource, rest_placed, List.drop_drop, offset_placed]
          cases outline.source? <;> rfl
      | none =>
          simp only [Option.getD_none, lt_self_iff_false, if_false, Option.none_or, id]
          cases operator_eq : Outline.setOperators.find? (placed text depth index).hasWord with
          | some operator =>
              have occurs := List.find?_some operator_eq
              obtain ⟨length, found⟩ := Option.isSome_iff_exists.mp occurs
              have any_eq : Outline.setOperators.any (placed text depth index).hasWord = true :=
                List.any_eq_true.mpr ⟨operator, List.mem_of_find?_eq_some operator_eq, occurs⟩
              simp [found, any_eq]
          | none => rfl

/-! ## The scanner -/

/-- A step of the scanner at the beginning of a word. -/
def scanWord? (text : Text) (scanner : Scanner) (index : Nat) :
    Option (Step (Scanner × Nat) Outline) := do
  let before ← before? text index
  let noted ← if scanner.depth = 0 ∧
      before ≠ some Byte.dot then noteWord? text scanner.outline index
    else some none
  match noted with
  | some (outline, length) => some (.next ({ scanner with outline := outline }, index + length))
  | none => do
      let stop ← skip? text Byte.isIdentifier text.length index
      some (.next (scanner, stop))

/-- A step of the scanner. -/
def scanStep (text : Text) : Scanner × Nat → Option (Step (Scanner × Nat) Outline)
  | (scanner, index) =>
      if index < text.length then do
        let byte ← byteAt? text index
        match scanner.mode with
        | .literal mark escapes =>
            if escapes && byte == Byte.backslash then some (.next (scanner, index + 2))
            else if byte == mark then do
              let following ← peek? text (index + 1)
              if following == some mark then some (.next (scanner, index + 2))
              else some (.next ({ scanner with mode := .code }, index + 1))
            else some (.next (scanner, index + 1))
        | .code =>
            if byte.isQuote then do
              let escapes ← opensEscapeString? text index
              some (.next ({ scanner with mode := .literal byte escapes }, index + 1))
            else if byte.isIdentifier then scanWord? text scanner index
            else some (.next ({ scanner with depth := depthAfter byte scanner.depth }, index + 1))
      else some (.done scanner.outline)

/-- The outline that the scanner finds in a text. -/
def scan? (text : Text) : Option Outline :=
  loop (scanStep text) (text.length + 1) (⟨.code, 0, .empty⟩, 0)

/-- What the scanner finds from an index on. -/
def scanFrom (text : Text) (state : Scanner × Nat) : Outline :=
  Scanner.run state.1 (text.take state.2).reverse state.2 0 (text.drop state.2)

theorem run_of_length_le (scanner : Scanner) (back : Text) (offset : Nat) {skip : Nat} {rest : Text}
    (read : rest.length ≤ skip) : Scanner.run scanner back offset skip rest = scanner.outline := by
  induction rest generalizing back offset skip with
  | nil => cases skip <;> rfl
  | cons byte rest ih =>
      obtain ⟨skip, rfl⟩ := Nat.exists_eq_add_of_lt (show 0 < skip by simp at read; omega)
      rw [Nat.zero_add, Scanner.run, ih]
      simpa using read

/-- The scanner goes on behind what it has read in a step. -/
theorem run_eq_scanFrom (scanner : Scanner) {byte : Byte} (here : byteAt? text index = some byte)
    {width : Nat} (positive : 0 < width) :
    Scanner.run scanner (byte :: (text.take index).reverse) (index + 1) (width - 1)
        (text.drop (index + 1)) =
      scanFrom text (scanner, index + width) := by
  obtain ⟨inside, byte_eq⟩ := List.getElem?_eq_some_iff.mp here
  have back_eq : byte :: (text.take index).reverse = (text.take (index + 1)).reverse := by
    rw [List.take_succ_eq_append_getElem inside, byte_eq, List.reverse_append]
    rfl
  have next_eq : index + width = index + 1 + (width - 1) := by omega
  rw [back_eq, scanFrom, next_eq]
  generalize width - 1 = skip
  dsimp only
  by_cases room : index + 1 + skip ≤ text.length
  · have read_eq := List.take_append_drop skip (text.drop (index + 1))
    rw [List.drop_drop] at read_eq
    have length_eq : ((text.drop (index + 1)).take skip).length = skip := by
      rw [List.length_take, List.length_drop]
      omega
    have run_eq := Scanner.run_skip scanner (text.take (index + 1)).reverse (index + 1)
      ((text.drop (index + 1)).take skip) (text.drop (index + 1 + skip))
    rw [read_eq, length_eq] at run_eq
    rw [run_eq, ← List.reverse_append, ← List.take_add]
  · rw [List.drop_of_length_le (show text.length ≤ index + 1 + skip by omega), Scanner.run,
      run_of_length_le]
    rw [List.length_drop]
    omega

/-- What the scanner does at a byte, and the number of bytes it reads there. -/
def stepAt (text : Text) (scanner : Scanner) (index : Nat) (byte : Byte) : Scanner × Nat :=
  match scanner.mode with
  | .code => scanner.stepCode (placed text scanner.depth index) byte
  | .literal mark escapes => scanner.stepLiteral mark escapes byte (text.drop (index + 1)).head?

theorem scanWord?_eq (scanner : Scanner) (within : index ≤ text.length) :
    scanWord? text scanner index = some (.next
      ((scanner.stepWord (placed text scanner.depth index)).1,
        index + (scanner.stepWord (placed text scanner.depth index)).2)) := by
  have counts_iff :
      (scanner.depth = 0 ∧ (placed text scanner.depth index).previous? ≠ some Byte.dot) ↔
      (scanner.depth == 0 && !(placed text scanner.depth index).afterDot) = true := by
    simp [afterDot]
  rw [scanWord?, before?_eq scanner.depth within, Scanner.stepWord, skip?_length]
  simp only [Option.bind_eq_bind, Option.bind_some, noteWord?_eq text _ scanner.depth]
  by_cases counts : (scanner.depth == 0 && !(placed text scanner.depth index).afterDot) = true
  · rw [if_pos (counts_iff.mpr counts), if_pos counts]
    cases Scanner.keyword? (placed text scanner.depth index) <;> rfl
  · rw [if_neg (mt counts_iff.mp counts), if_neg counts]
    rfl

theorem scanStep_of_byteAt? (scanner : Scanner) {byte : Byte} (inside : index < text.length)
    (here : byteAt? text index = some byte) :
    scanStep text (scanner, index) =
      some (.next ((stepAt text scanner index byte).1,
        index + (stepAt text scanner index byte).2)) := by
  rw [scanStep, if_pos inside, here]
  obtain ⟨mode, depth, outline⟩ := scanner
  cases mode with
  | code =>
      simp only [opensEscapeString?_eq text depth, scanWord?_eq _ inside.le, Option.bind_eq_bind,
        Option.bind_some, stepAt, Scanner.stepCode]
      split
      · rfl
      · split <;> rfl
  | literal mark escapes =>
      simp only [peek?_eq, Option.bind_eq_bind, Option.bind_some, stepAt, Scanner.stepLiteral]
      split
      · rfl
      · split
        · split <;> rfl
        · rfl

theorem stepAt_pos (scanner : Scanner) {byte : Byte} (here : byteAt? text index = some byte) :
    0 < (stepAt text scanner index byte).2 := by
  obtain ⟨mode, depth, outline⟩ := scanner
  cases mode with
  | code =>
      simp only [stepAt, Scanner.stepCode]
      split
      · exact Nat.one_pos
      split
      · rename_i identifier
        obtain ⟨inside, byte_eq⟩ := List.getElem?_eq_some_iff.mp here
        have word_pos : 0 < ((text.drop index).takeWhile Byte.isIdentifier).length := by
          rw [List.drop_eq_getElem_cons inside, byte_eq, List.takeWhile_cons_of_pos identifier]
          exact Nat.succ_pos _
        simp only [Scanner.stepWord, rest_placed]
        split
        · split
          · rename_i length found
            obtain ⟨keyword, -, occurs⟩ := List.exists_of_findSome?_eq_some found
            exact (word?_pos occurs).1
          · exact word_pos
        · exact word_pos
      · exact Nat.one_pos
  | literal mark escapes =>
      simp only [stepAt, Scanner.stepLiteral]
      split
      · exact Nat.two_pos
      · split
        · split <;> simp
        · exact Nat.one_pos

theorem progress_scanStep (text : Text) (state : Scanner × Nat) :
    Progress (scanStep text) (fun state result => result = scanFrom text state)
      (fun state => text.length - state.2) state (scanFrom text state) := by
  obtain ⟨scanner, index⟩ := state
  by_cases inside : index < text.length
  · obtain ⟨byte, byte_eq, drop_eq⟩ := exists_byteAt inside
    have positive := stepAt_pos scanner byte_eq
    refine .next _ (scanStep_of_byteAt? scanner inside byte_eq) ?_ (by dsimp only; omega)
    have site_eq : placed text scanner.depth index =
        ⟨(text.take index).reverse, byte :: text.drop (index + 1), index, scanner.depth⟩ := by
      rw [placed, drop_eq]
    rw [← run_eq_scanFrom _ byte_eq positive, scanFrom, drop_eq, stepAt, site_eq]
    obtain ⟨mode, depth, outline⟩ := scanner
    cases mode <;> rfl
  · refine .done ?_
    rw [scanStep, if_neg inside, scanFrom, List.drop_of_length_le (by omega), Scanner.run]

theorem scan?_eq (text : Text) : scan? text = some (Outline.ofText text) := by
  rw [scan?, loop_eq_answer _ _ (progress_scanStep text) (by dsimp only; omega),
    ← Scanner.scan_eq_ofText, Scanner.scan, scanFrom]
  rfl

end Indexed

end TenantScope
