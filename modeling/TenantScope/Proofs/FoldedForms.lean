import TenantScope.NormalForm
import TenantScope.Proofs.Folding

/-!
# Normal forms in lower case

Taking off fences, comments, tags and names of the database, and respacing what is left, commute
with folding the letters of a text.
-/

namespace TenantScope

open Text Byte

/-! ## Markup -/

namespace Markup

theorem isLanguage_lower (letters after : Text) :
    isLanguage (lower letters) (lower after) = isLanguage letters after := by
  cases after with
  | nil => rfl
  | cons byte rest =>
      have lineEnd : Caseless fun byte => byte == lineFeed || byte == carriageReturn :=
        (caseless_beq (by decide)).or (caseless_beq (by decide))
      simp only [lower_cons, isLanguage, lower_lower, caseless_isSpace byte, lineEnd byte]

theorem fence?_lower (text : Text) : fence? (lower text) = fence? text := by
  have unlettered : ∀ byte ∈ fenceMark, byte.isAlpha = false := by decide +kernel
  simp only [fence?, isPrefixOf_lower unlettered, ← lower_drop, takeWhile_lower caseless_isAlpha,
    dropWhile_lower caseless_isAlpha, isLanguage_lower, length_lower]

/-- Fences are taken off in lower case as they are. -/
theorem unfence_lower (text : Text) : unfence (lower text) = lower (unfence text) := by
  have blind (site : Site) : (fence? site.lower.rest).getD 1 = (fence? site.rest).getD 1 := by
    rw [Site.lower_rest, fence?_lower]
  rw [unfence, Site.start_lower, Site.tour_lower blind, List.flatMap_map, unfence, lower_flatMap]
  refine List.flatMap_congr fun site _ => ?_
  rw [Site.lower_rest, fence?_lower]
  split
  · rfl
  · rw [lower_take]

theorem comment?_lower (text : Text) : comment? (lower text) = comment? text := by
  have line : Caseless (· != lineFeed) := (caseless_beq (by decide)).not
  have marks :
      ∀ mark ∈ [ascii "--", ascii "/*", ascii "*/"], ∀ byte ∈ mark, byte.isAlpha = false := by
    decide +kernel
  rw [comment?, comment?, isPrefixOf_lower (marks _ (by simp)),
    isPrefixOf_lower (marks _ (by simp)), ← lower_drop, through?_lower (marks _ (by simp)),
    takeWhile_lower line, length_lower, length_lower]

namespace TagState

/-- The mark of a value is no letter. -/
def unlettered : TagState → Bool
  | value mark => !mark.isAlpha
  | _ => true

theorem step?_toLower {state : TagState} (marked : state.unlettered = true) (byte : Byte) :
    state.step? byte.toLower = state.step? byte := by
  cases state with
  | value mark =>
      have same : (byte.toLower == mark) = (byte == mark) :=
        caseless_beq (by simpa [unlettered] using marked) byte
      simp only [step?, same]
  | _ =>
      refine (show Caseless (step? _) from ?_) byte
      decide +kernel

theorem unlettered_of_step? {state next : TagState} (marked : state.unlettered = true) {byte : Byte}
    (stepped : state.step? byte = some next) : next.unlettered = true := by
  suffices all : ∀ byte, (state.step? byte).all unlettered = true by simpa [stepped] using all byte
  cases state with
  | value mark =>
      intro byte
      simp only [step?]
      split
      · rfl
      · exact marked
  | _ => decide +kernel

theorem length?_lower {state : TagState} (marked : state.unlettered = true) (text : Text) :
    state.length? (lower text) = state.length? text := by
  induction text generalizing state with
  | nil => rfl
  | cons byte rest ih =>
      have closing : (byte.toLower == greaterThan) = (byte == greaterThan) :=
        caseless_beq (by decide) byte
      rw [lower_cons, length?, length?, closing, step?_toLower marked]
      split
      · rfl
      · cases stepped : state.step? byte with
        | none => rfl
        | some next => exact congrArg (Option.map (· + 1)) (ih (unlettered_of_step? marked stepped))

end TagState

theorem tag?_lower (text : Text) : tag? (lower text) = tag? text := by
  cases text with
  | nil => rfl
  | cons byte rest =>
      have opening : (byte.toLower == lessThan) = (byte == lessThan) :=
        caseless_beq (by decide) byte
      rw [lower_cons, tag?, tag?, opening, TagState.length?_lower rfl]

end Markup

/-! ## Spacing -/

namespace Fragment

/-- The fragment in lower case. -/
def lower : Fragment → Fragment
  | kept bytes => kept (Text.lower bytes)
  | gap => gap

theorem ofByte_toLower (byte : Byte) : ofByte byte.toLower = (ofByte byte).lower := by
  rw [ofByte, ofByte, caseless_isSpace byte]
  split <;> rfl

theorem joinAfter_lower (pending : Bool) (fragments : List Fragment) :
    joinAfter pending (fragments.map lower) = Text.lower (joinAfter pending fragments) := by
  induction fragments generalizing pending with
  | nil => rfl
  | cons fragment fragments ih =>
      cases fragment with
      | gap => exact ih true
      | kept bytes =>
          rw [List.map_cons, lower, joinAfter, joinAfter, ih, lower_append, lower_append]
          cases pending <;> rfl

theorem join_lower (fragments : List Fragment) :
    join (fragments.map lower) = Text.lower (join fragments) := by
  induction fragments with
  | nil => rfl
  | cons fragment fragments ih =>
      cases fragment with
      | gap => exact ih
      | kept bytes => rw [List.map_cons, lower, join, join, joinAfter_lower, lower_append]

end Fragment

namespace NormalForm

theorem markup?_lower (site : Site) : markup? site.lower = markup? site := by
  rw [markup?, Site.lower_rest, Markup.comment?_lower, Markup.tag?_lower, markup?]

theorem plainWidth_lower (site : Site) : plainWidth site.lower = plainWidth site := by
  rw [plainWidth, plainWidth, Site.atQuote_lower, markup?_lower]
  split
  · rename_i quote
    exact Literal.width_lower _ quote
  · rfl

theorem plainFragment_lower (site : Site) :
    plainFragment site.lower = (plainFragment site).lower := by
  rw [plainFragment, plainFragment, Site.atQuote_lower]
  split
  · rename_i quote
    rw [Literal.width_lower _ quote, Site.lower_rest, ← lower_take]
    rfl
  · rw [markup?_lower, Site.byte?_lower]
    cases markup? site with
    | some length => rfl
    | none =>
        cases site.byte? with
        | none => rfl
        | some byte => exact Fragment.ofByte_toLower byte

theorem fragment_lower (site : Site) : fragment site.lower = (fragment site).lower := by
  rw [fragment, fragment, Site.byte?_lower]
  cases byte_eq : site.byte? with
  | none => rfl
  | some byte =>
      simp only [Option.map_some, caseless_isQuote byte]
      split
      · rename_i quote
        rw [Literal.width_lower _ (by simp [Site.atQuote, byte_eq, quote]), Site.lower_rest,
          ← lower_take]
        rfl
      · exact Fragment.ofByte_toLower byte

theorem terminate_lower (text : Text) : terminate (lower text) = lower (terminate text) := by
  have trailing : Caseless fun byte => byte == semicolon || byte.isSpace :=
    (caseless_beq (by decide)).or caseless_isSpace
  rw [terminate, dropRightWhile_lower trailing, terminate]
  cases dropRightWhile (fun byte => byte == semicolon || byte.isSpace) text with
  | nil => rfl
  | cons byte body => simp [show semicolon.toLower = semicolon by decide]

end NormalForm

namespace Text

open NormalForm

/-- A text is put in normal form in lower case as it is. -/
theorem normalize_lower (text : Text) : normalize (lower text) = lower (normalize text) := by
  rw [normalize, Site.start_lower, Site.lexemes_lower, List.map_map, normalize, ← terminate_lower,
    ← Fragment.join_lower, List.map_map]
  simp only [Function.comp_def, fragment_lower]

theorem normalizePlain_lower (text : Text) :
    normalizePlain (lower text) = lower (normalizePlain text) := by
  rw [normalizePlain, Site.start_lower, Site.tour_lower plainWidth_lower, List.map_map,
    normalizePlain, ← terminate_lower, ← Fragment.join_lower, List.map_map]
  simp only [Function.comp_def, plainFragment_lower]

/-- A text is sanitized in lower case as it is. -/
theorem sanitize_lower (text : Text) : sanitize (lower text) = lower (sanitize text) := by
  rw [sanitize, Markup.unfence_lower, normalizePlain_lower, sanitize]

end Text

/-! ## Names of the database -/

namespace TableName

theorem isQualifiedBy_lower (database : Text) (site : Site) :
    isQualifiedBy database site.lower = isQualifiedBy database site := by
  have continues : Caseless fun byte => byte.isIdentifier || isMark byte :=
    caseless_isIdentifier.or caseless_isMark
  simp only [isQualifiedBy, Site.atQuote_lower, Site.afterIdentifier_lower, Site.afterDot_lower,
    Site.lower_rest, ← lower_take, ← lower_drop, lower_lower]
  cases site.rest.drop database.length with
  | nil => rfl
  | cons stop rest =>
      have dotted : (stop.toLower == dot) = (stop == dot) := caseless_beq (by decide) stop
      cases rest with
      | nil => rfl
      | cons next rest => simp only [lower_cons, dotted, continues next]

/-- The name of the database is taken off in lower case as it is. -/
theorem unqualify_lower (database text : Text) :
    unqualify database (lower text) = lower (unqualify database text) := by
  have blind (site : Site) :
      unqualifyingWidth database site.lower = unqualifyingWidth database site := by
    rw [unqualifyingWidth, isQualifiedBy_lower, Site.lexemeWidth_lower, unqualifyingWidth]
  rw [unqualify, unqualify]
  split
  · rfl
  · rw [Site.start_lower, Site.tour_lower blind, List.flatMap_map, lower_flatMap]
    refine List.flatMap_congr fun site _ => ?_
    rw [isQualifiedBy_lower, Site.lexemeWidth_lower, Site.lower_rest]
    split
    · rfl
    · rw [lower_take]

end TableName

end TenantScope
