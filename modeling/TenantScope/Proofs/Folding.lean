import TenantScope.Outline
import TenantScope.Proofs.Bytes
import TenantScope.Tenant

/-!
# Reading texts in lower case

A text is read in lower case as it is read: its literals, words and clauses are at the same places.
Each operation on places commutes with folding the letters of the text, once the classes of bytes
that it asks for hold both cases of a letter or neither.
-/

namespace TenantScope

namespace Byte

/-- Both cases of a letter have the same value. -/
def Caseless {Value : Type} (value : Byte → Value) : Prop :=
  ∀ byte, value (toLower byte) = value byte

instance {Value : Type} [DecidableEq Value] (value : Byte → Value) : Decidable (Caseless value) :=
  decidableForall fun byte => value (toLower byte) = value byte

theorem Caseless.comp {Value : Type} {value : Byte → Value} (caseless : Caseless value) :
    value ∘ toLower = value :=
  funext caseless

theorem Caseless.not {test : Byte → Bool} (caseless : Caseless test) :
    Caseless fun byte => !test byte :=
  fun byte => congrArg Bool.not (caseless byte)

theorem Caseless.or {test other : Byte → Bool} (caseless : Caseless test)
    (otherCaseless : Caseless other) :
    Caseless fun byte => test byte || other byte :=
  fun byte => congrArg₂ Bool.or (caseless byte) (otherCaseless byte)

-- Every fact here that runs over all bytes is decided in one pass.
private theorem cases_agree : ∀ byte : Byte,
    ((byte.toLower.isSpace = byte.isSpace ∧ byte.toLower.isIdentifier = byte.isIdentifier) ∧
      (byte.toLower.isQuote = byte.isQuote ∧ byte.toLower.isAlpha = byte.isAlpha) ∧
      byte.toLower.isAlphanumeric = byte.isAlphanumeric) ∧
    (byte.toLower.toUpper = byte.toUpper ∧ byte.toLower.toLower = byte.toLower) ∧
    (byte.isAlpha = true ∨ byte.toLower = byte) ∧ (byte.isQuote = true → byte.isAlpha = false) := by
  decide +kernel

theorem caseless_isSpace : Caseless isSpace := fun byte => (cases_agree byte).1.1.1

theorem caseless_isIdentifier : Caseless isIdentifier := fun byte => (cases_agree byte).1.1.2

theorem caseless_isQuote : Caseless isQuote := fun byte => (cases_agree byte).1.2.1.1

theorem caseless_isAlpha : Caseless isAlpha := fun byte => (cases_agree byte).1.2.1.2

theorem caseless_isAlphanumeric : Caseless isAlphanumeric := fun byte => (cases_agree byte).1.2.2

theorem caseless_toUpper : Caseless toUpper := fun byte => (cases_agree byte).2.1.1

theorem caseless_toLower : Caseless toLower := fun byte => (cases_agree byte).2.1.2

theorem isAlpha_of_isQuote {byte : Byte} : byte.isQuote = true → byte.isAlpha = false :=
  (cases_agree byte).2.2.2

/-- What is no letter is its own lower case, and that of nothing else. -/
theorem toLower_eq_iff {other : Byte} (unlettered : other.isAlpha = false) (byte : Byte) :
    byte.toLower = other ↔ byte = other := by
  obtain letter | fixed := (cases_agree byte).2.2.1
  · refine iff_of_false ?_ ?_ <;> rintro rfl
    · simp [caseless_isAlpha byte, letter] at unlettered
    · simp [unlettered] at letter
  · rw [fixed]

theorem toLower_of_not_isAlpha {byte : Byte} (unlettered : byte.isAlpha = false) :
    byte.toLower = byte :=
  (toLower_eq_iff unlettered byte).mpr rfl

theorem caseless_beq {other : Byte} (unlettered : other.isAlpha = false) : Caseless (· == other) :=
  fun byte => by rw [Bool.eq_iff_iff, beq_iff_eq, beq_iff_eq, toLower_eq_iff unlettered]

end Byte

namespace Text

open Byte

@[simp]
theorem lower_nil : lower [] = [] :=
  rfl

@[simp]
theorem lower_cons (byte : Byte) (text : Text) :
    lower (byte :: text) = byte.toLower :: lower text :=
  rfl

@[simp]
theorem lower_append (text other : Text) : lower (text ++ other) = lower text ++ lower other :=
  List.map_append

theorem lower_reverse (text : Text) : lower text.reverse = (lower text).reverse :=
  List.map_reverse

theorem lower_take (count : Nat) (text : Text) :
    lower (text.take count) = (lower text).take count :=
  List.map_take

theorem lower_drop (count : Nat) (text : Text) :
    lower (text.drop count) = (lower text).drop count :=
  List.map_drop

theorem lower_flatMap {Item : Type} (items : List Item) (text : Item → Text) :
    lower (items.flatMap text) = items.flatMap fun item => lower (text item) :=
  List.map_flatMap

@[simp]
theorem lower_lower (text : Text) : lower (lower text) = lower text := by
  simp [lower, caseless_toLower.comp]

@[simp]
theorem upper_lower (text : Text) : upper (lower text) = upper text := by
  simp [lower, upper, caseless_toUpper.comp]

@[simp]
theorem isEmpty_lower (text : Text) : (lower text).isEmpty = text.isEmpty := by
  cases text <;> rfl

theorem head?_lower (text : Text) : (lower text).head? = text.head?.map toLower :=
  List.head?_map

theorem head?_lower_beq {byte : Byte} (unlettered : byte.isAlpha = false) (text : Text) :
    ((lower text).head? == some byte) = (text.head? == some byte) := by
  cases text with
  | nil => rfl
  | cons first rest => simpa using caseless_beq unlettered first

section Classes

variable {test : Byte → Bool} (caseless : Caseless test)

include caseless

theorem takeWhile_lower (text : Text) :
    (lower text).takeWhile test = lower (text.takeWhile test) := by
  rw [lower, List.takeWhile_map, caseless.comp, lower]

theorem dropWhile_lower (text : Text) :
    (lower text).dropWhile test = lower (text.dropWhile test) := by
  rw [lower, List.dropWhile_map, caseless.comp, lower]

theorem filter_lower (text : Text) : (lower text).filter test = lower (text.filter test) := by
  rw [lower, List.filter_map, caseless.comp, lower]

theorem any_lower (text : Text) : (lower text).any test = text.any test := by
  rw [lower, List.any_map, caseless.comp]

theorem any_head?_lower (text : Text) : (lower text).head?.any test = text.head?.any test := by
  cases text with
  | nil => rfl
  | cons byte rest => exact caseless byte

theorem dropRightWhile_lower (text : Text) :
    dropRightWhile test (lower text) = lower (dropRightWhile test text) := by
  rw [dropRightWhile, ← lower_reverse, dropWhile_lower caseless, ← lower_reverse, dropRightWhile]

end Classes

theorem trimRight_lower (text : Text) : trimRight (lower text) = lower (trimRight text) :=
  dropRightWhile_lower caseless_isSpace text

theorem trim_lower (text : Text) : trim (lower text) = lower (trim text) := by
  rw [trim, dropWhile_lower caseless_isSpace, trimRight_lower, trim]

/-- What holds no letters is a prefix in lower case where it is one. -/
theorem isPrefixOf_lower {mark : Text} (unlettered : ∀ byte ∈ mark, byte.isAlpha = false)
    (text : Text) :
    mark.isPrefixOf (lower text) = mark.isPrefixOf text := by
  induction mark generalizing text with
  | nil => cases text <;> rfl
  | cons byte mark ih =>
      rw [List.forall_mem_cons] at unlettered
      cases text with
      | nil => rfl
      | cons first rest =>
          have same : (byte == first.toLower) = (byte == first) := by
            rw [Bool.eq_iff_iff, beq_iff_eq, beq_iff_eq, eq_comm, toLower_eq_iff unlettered.1,
              eq_comm]
          rw [lower_cons, List.isPrefixOf_cons_cons, List.isPrefixOf_cons_cons, same,
            ih unlettered.2]

theorem through?_lower {mark : Text} (unlettered : ∀ byte ∈ mark, byte.isAlpha = false)
    (text : Text) :
    through? mark (lower text) = through? mark text := by
  induction text with
  | nil => rfl
  | cons byte rest ih =>
      have same := isPrefixOf_lower unlettered (byte :: rest)
      rw [lower_cons] at same ⊢
      rw [through?, through?, same, ih]

end Text

open Text Byte

/-! ## Places -/

namespace Site

/-- The same place of the text in lower case. -/
def lower (site : Site) : Site where
  back := Text.lower site.back
  rest := Text.lower site.rest
  offset := site.offset
  depth := site.depth

@[simp]
theorem lower_back (site : Site) : site.lower.back = Text.lower site.back :=
  rfl

@[simp]
theorem lower_rest (site : Site) : site.lower.rest = Text.lower site.rest :=
  rfl

@[simp]
theorem lower_offset (site : Site) : site.lower.offset = site.offset :=
  rfl

@[simp]
theorem lower_depth (site : Site) : site.lower.depth = site.depth :=
  rfl

theorem start_lower (text : Text) : start (Text.lower text) = (start text).lower :=
  rfl

theorem atOffset_lower (text : Text) (offset : Nat) :
    atOffset (Text.lower text) offset = (atOffset text offset).lower := by
  simp only [atOffset, lower, lower_take, lower_drop, lower_reverse]

@[simp]
theorem byte?_lower (site : Site) : site.lower.byte? = site.byte?.map toLower :=
  head?_lower site.rest

theorem byte?_lower_beq {byte : Byte} (unlettered : byte.isAlpha = false) (site : Site) :
    (site.lower.byte? == some byte) = (site.byte? == some byte) :=
  head?_lower_beq unlettered site.rest

@[simp]
theorem afterIdentifier_lower (site : Site) : site.lower.afterIdentifier = site.afterIdentifier :=
  any_head?_lower caseless_isIdentifier site.back

@[simp]
theorem afterDot_lower (site : Site) : site.lower.afterDot = site.afterDot :=
  head?_lower_beq (by decide) site.back

@[simp]
theorem atQuote_lower (site : Site) : site.lower.atQuote = site.atQuote :=
  any_head?_lower caseless_isQuote site.rest

@[simp]
theorem atParen_lower (site : Site) : site.lower.atParen = site.atParen := by
  rw [atParen, byte?_lower_beq (by decide), byte?_lower_beq (by decide), atParen]

@[simp]
theorem isTopLevel_lower (site : Site) : site.lower.isTopLevel = site.isTopLevel := by
  rw [isTopLevel, atParen_lower, lower_depth, isTopLevel]

theorem depthAfter_toLower (byte : Byte) (depth : Nat) :
    depthAfter byte.toLower depth = depthAfter byte depth := by
  have opening : (byte.toLower == openParen) = (byte == openParen) := caseless_beq (by decide) byte
  have closing : (byte.toLower == closeParen) = (byte == closeParen) :=
    caseless_beq (by decide) byte
  rw [depthAfter, depthAfter, opening, closing]

section Tours

variable {width folded : Site → Nat} (blind : ∀ site, folded site.lower = width site)

include blind

theorem walk_lower (back : Text) (offset depth skip : Nat) (rest : Text) :
    walk folded (Text.lower back) offset depth skip (Text.lower rest) =
      (walk width back offset depth skip rest).map Site.lower := by
  induction rest generalizing back offset depth skip with
  | nil => cases skip <;> rfl
  | cons byte rest ih =>
      cases skip with
      | succ skip => exact ih (byte :: back) (offset + 1) depth skip
      | zero =>
          have here := blind ⟨back, byte :: rest, offset, depth⟩
          have further := ih (byte :: back) (offset + 1) (depthAfter byte depth)
            (width ⟨back, byte :: rest, offset, depth⟩ - 1)
          rw [lower_cons, walk, walk, List.map_cons, ← further, ← here, depthAfter_toLower]
          rfl

/-- A tour of a text in lower case visits the places that a tour of the text visits. -/
theorem tour_lower (site : Site) : site.lower.tour folded = (site.tour width).map Site.lower :=
  walk_lower blind site.back site.offset site.depth 0 site.rest

end Tours

theorem everywhere_lower (site : Site) : site.lower.everywhere = site.everywhere.map Site.lower :=
  tour_lower (fun _ => rfl) site

end Site

/-! ## Literals -/

namespace Literal

theorem closing?_lower {mark : Byte} (unlettered : mark.isAlpha = false) (escapes : Bool)
    (text : Text) :
    closing? mark escapes (lower text) = closing? mark escapes text := by
  have same (byte : Byte) : byte.toLower = mark ↔ byte = mark := toLower_eq_iff unlettered byte
  have escape (byte : Byte) : byte.toLower = backslash ↔ byte = backslash :=
    toLower_eq_iff (by decide) byte
  fun_induction closing? mark escapes text with
  | case1 => rfl
  | case2 byte escaped => simp_all [closing?]
  | case3 byte escaped taken rest ih => simp_all [closing?]
  | case4 byte plain marked => simp_all [closing?]
  | case5 byte plain marked next rest doubled ih => simp_all [closing?]
  | case6 byte plain marked next rest single => simp_all [closing?]
  | case7 byte rest plain other ih =>
      rw [lower_cons, closing?_cons (by simp_all) (by simp_all), ih]

theorem endsInEscapeLetter_lower (back : Text) :
    endsInEscapeLetter (lower back) = endsInEscapeLetter back := by
  have letters : Caseless fun byte => byte == Byte.ofChar 'E' || byte == Byte.ofChar 'e' := by
    decide +kernel
  cases back with
  | nil => rfl
  | cons letter before =>
      have same := letters letter
      have apart := any_head?_lower caseless_isIdentifier before
      simp only [lower_cons, endsInEscapeLetter, same, apart]

@[simp]
theorem opensEscapeString_lower (site : Site) :
    opensEscapeString site.lower = opensEscapeString site := by
  rw [opensEscapeString, Site.byte?_lower_beq (by decide), Site.lower_back,
    endsInEscapeLetter_lower, opensEscapeString]

theorem escapesAt_lower (dialect : Dialect) (site : Site) :
    escapesAt dialect site.lower = escapesAt dialect site := by
  cases dialect with
  | standard => exact opensEscapeString_lower site
  | backslashes => exact Site.byte?_lower_beq (by decide) site

theorem width_lower (dialect : Dialect) {site : Site} (quote : site.atQuote = true) :
    width dialect site.lower = width dialect site := by
  have same := escapesAt_lower dialect site
  obtain ⟨back, rest, offset, depth⟩ := site
  cases rest with
  | nil => rfl
  | cons mark rest =>
      have unlettered := isAlpha_of_isQuote quote
      simp only [width, same, Site.lower_rest, lower_cons, toLower_of_not_isAlpha unlettered,
        closing?_lower unlettered, length_lower]

end Literal

namespace Site

theorem lexemeWidth_lower (dialect : Dialect) (site : Site) :
    site.lower.lexemeWidth dialect = site.lexemeWidth dialect := by
  rw [lexemeWidth, lexemeWidth, atQuote_lower]
  split
  · rename_i quote
    exact Literal.width_lower dialect quote
  · rfl

theorem lexemes_lower (dialect : Dialect) (site : Site) :
    site.lower.lexemes dialect = (site.lexemes dialect).map Site.lower :=
  tour_lower (lexemeWidth_lower dialect) site

theorem code_lower (dialect : Dialect) (site : Site) :
    site.lower.code dialect = (site.code dialect).map Site.lower := by
  rw [code, lexemes_lower, List.filter_map, code]
  simp only [Function.comp_def, atQuote_lower]

theorem literals_lower (dialect : Dialect) (site : Site) :
    site.lower.literals dialect = (site.literals dialect).map Site.lower := by
  rw [literals, lexemes_lower, List.filter_map, literals]
  simp only [Function.comp_def, atQuote_lower]

end Site

/-! ## Words -/

namespace Word

theorem spelled?_lower (keyword text : Text) :
    spelled? keyword (lower text) =
      (spelled? keyword text).map fun found => (found.1, lower found.2) := by
  induction keyword generalizing text with
  | nil => rfl
  | cons letter keyword ih =>
      unfold spelled?
      split
      · rw [takeWhile_lower caseless_isSpace, dropWhile_lower caseless_isSpace]
        cases text.takeWhile Byte.isSpace with
        | nil => rfl
        | cons blank blanks =>
            simp only [lower_cons, List.length_cons, length_lower, ih, Option.map_map]
            rfl
      · cases text with
        | nil => rfl
        | cons byte rest =>
            simp only [lower_cons, caseless_toUpper byte]
            split
            · rw [ih, Option.map_map, Option.map_map]
              rfl
            · rfl

end Word

namespace Site

@[simp]
theorem word?_lower (keyword : Text) (site : Site) :
    site.lower.word? keyword = site.word? keyword := by
  rw [word?, word?, lower_rest, isEmpty_lower, afterIdentifier_lower, Word.spelled?_lower]
  cases Word.spelled? keyword site.rest with
  | none => rfl
  | some found => simp only [Option.map_some, any_head?_lower caseless_isIdentifier]

@[simp]
theorem hasWord_lower (keyword : Text) (site : Site) :
    site.lower.hasWord keyword = site.hasWord keyword :=
  congrArg Option.isSome (word?_lower keyword site)

@[simp]
theorem equalsBefore_lower (stop length : Nat) (site : Site) :
    site.lower.equalsBefore stop length = site.equalsBefore stop length := by
  simp only [equalsBefore, lower_rest, lower_offset, ← lower_drop, takeWhile_lower caseless_isSpace,
    dropWhile_lower caseless_isSpace, length_lower,
    head?_lower_beq (show Byte.equals.isAlpha = false by decide)]

end Site

namespace Word

theorem endsAt_lower (keyword text : Text) (offset : Nat) :
    endsAt keyword (lower text) offset = endsAt keyword text offset := by
  rw [endsAt, Site.atOffset_lower, Site.word?_lower, endsAt]

theorem first?_lower (keyword text : Text) (start : Nat) :
    first? keyword (lower text) start = first? keyword text start := by
  rw [first?, Site.atOffset_lower, Site.everywhere_lower, List.find?_map, Option.map_map, first?]
  simp only [Function.comp_def, Site.hasWord_lower, Site.lower_offset]

theorem firstTopLevel?_lower (keyword text : Text) (start stop : Nat) :
    firstTopLevel? keyword (lower text) start stop = firstTopLevel? keyword text start stop := by
  simp only [firstTopLevel?, length_lower, Site.atOffset_lower, Site.code_lower, List.takeWhile_map,
    List.find?_map, Option.map_map, Function.comp_def, Site.isTopLevel_lower, Site.word?_lower,
    Site.lower_offset]
  rfl

theorem countingWidth_lower (keyword : Text) (site : Site) :
    countingWidth keyword site.lower = countingWidth keyword site := by
  rw [countingWidth, countingWidth, Site.atQuote_lower, Site.word?_lower]
  split
  · rename_i quote
    exact Literal.width_lower _ quote
  · rfl

theorem count_lower (keyword text : Text) : count keyword (lower text) = count keyword text := by
  rw [count, Site.start_lower, Site.tour_lower (countingWidth_lower keyword), List.countP_map,
    count]
  simp only [Function.comp_def, Site.atQuote_lower, Site.hasWord_lower]

end Word

/-! ## Outlines -/

namespace TableName

theorem caseless_isMark : Caseless isMark :=
  (caseless_beq (by decide)).or (caseless_beq (by decide))

theorem caseless_continues : Caseless continues :=
  (caseless_isIdentifier.or (caseless_beq (by decide))).or caseless_isMark

theorem read_lower (text : Text) : read (lower text) = lower (read text) := by
  rw [read, dropWhile_lower caseless_isSpace, takeWhile_lower caseless_continues,
    filter_lower caseless_isMark.not, read]

theorem key_lower (name : Text) : key (lower name) = key name := by
  have undotted : Caseless (· != Byte.dot) := (caseless_beq (by decide)).not
  rw [key, key, filter_lower caseless_isMark.not, ← lower_reverse, takeWhile_lower undotted,
    ← lower_reverse, lower_lower]

end TableName

/-- The source with its table in lower case. -/
def Source.lower (source : Source) : Source where
  offset := source.offset
  table := Text.lower source.table

namespace Outline

/-- The outline with its table in lower case. -/
def lower (outline : Outline) : Outline where
  clauses := outline.clauses
  source? := outline.source?.map Source.lower
  compound := outline.compound

theorem clauseAt?_lower (site : Site) : clauseAt? site.lower = clauseAt? site := by
  simp only [clauseAt?, Site.hasWord_lower]

theorem addClause_lower (outline : Outline) (clause : Clause) (offset : Nat) :
    outline.lower.addClause clause offset = (outline.addClause clause offset).lower := by
  by_cases listed : outline.clauses.any fun found => found.clause == clause
  · rw [addClause, addClause, if_pos listed]
    exact if_pos listed
  · rw [addClause, addClause, if_neg listed]
    exact if_neg listed

theorem addSource_lower (outline : Outline) (site : Site) (length : Nat) :
    outline.lower.addSource site.lower length = (outline.addSource site length).lower := by
  obtain ⟨clauses, source?, compound⟩ := outline
  cases source? with
  | some source => rfl
  | none => simp [addSource, lower, Source.lower, ← lower_drop, TableName.read_lower]

theorem note_lower (outline : Outline) (site : Site) :
    outline.lower.note site.lower = (outline.note site).lower := by
  simp only [note, clauseAt?_lower, Site.word?_lower, Site.hasWord_lower, Site.lower_offset,
    addClause_lower, addSource_lower]
  split
  · rfl
  · split
    · rfl
    · split <;> rfl

/-- The outline of a text in lower case is its outline, but for the case of the table. -/
theorem ofText_lower (text : Text) (dialect : Dialect) :
    ofText (Text.lower text) dialect = (ofText text dialect).lower := by
  have blind (site : Site) : counts site.lower = counts site := by
    rw [counts, Site.isTopLevel_lower, Site.afterDot_lower, counts]
  have notes (sites : List Site) (outline : Outline) :
      (sites.map Site.lower).foldl note outline.lower = (sites.foldl note outline).lower := by
    induction sites generalizing outline with
    | nil => rfl
    | cons site sites ih => rw [List.map_cons, List.foldl_cons, List.foldl_cons, note_lower, ih]
  rw [ofText, Site.start_lower, Site.code_lower, List.filter_map, ofText]
  simp only [Function.comp_def, blind]
  exact notes _ empty

theorem table_lower (outline : Outline) : outline.lower.table = Text.lower outline.table := by
  rw [table, table, lower]
  cases outline.source? <;> rfl

end Outline

theorem ScopeRules.columnOf_lower (rules : ScopeRules) (tenant : Tenant) (table : Text) :
    rules.columnOf tenant (lower table) = rules.columnOf tenant table := by
  rw [ScopeRules.columnOf, isEmpty_lower, TableName.key_lower, ScopeRules.columnOf]

end TenantScope
