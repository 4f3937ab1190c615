import TenantScope.Proofs.Scanning
import TenantScope.Proofs.Tokens
import TenantScope.Repair.TrailingCondition

/-!
# Signs

Repair goes by few words: those that begin the clauses of a query, those that join conditions, and
those between which a case distinction stands.  A sign is an occurrence of one of them outside
literals and parentheses.  The outline of a text, and where a trailing condition begins in it, can
be read off the list of its signs.
-/

namespace TenantScope

open Text Site Literal

/-- What a word tells repair. -/
inductive Sign
  /-- It begins a clause. -/
  | clause (kind : Clause)
  /-- It is an `AND` or an `OR`. -/
  | junction
  /-- It is a `CASE`. -/
  | opening
  /-- It is an `END`. -/
  | ending
  deriving DecidableEq, Repr

namespace Sign

/-- The sign that a word makes, given in upper case together with the word after it. -/
def ofWords? (spoken next : Text) : Option Sign :=
  if spoken = ascii "CASE" then some opening
  else if spoken = ascii "END" then some ending
  else if spoken = ascii "AND" ∨ spoken = ascii "OR" then some junction
  else if spoken = ascii "WHERE" then some (clause .filter)
  else if spoken = ascii "HAVING" then some (clause .having)
  else if spoken = ascii "LIMIT" then some (clause .limit)
  else if spoken = ascii "GROUP" ∧ next = ascii "BY" then some (clause .grouping)
  else if spoken = ascii "ORDER" ∧ next = ascii "BY" then some (clause .ordering)
  else none

/-- Only after the first word of a phrase the next word matters. -/
theorem ofWords?_congr {spoken next other : Text}
    (same : spoken = ascii "GROUP" ∨ spoken = ascii "ORDER" →
      (next = ascii "BY" ↔ other = ascii "BY")) :
    ofWords? spoken next = ofWords? spoken other := by
  by_cases group : spoken = ascii "GROUP"
  · simp only [ofWords?, same (.inl group)]
  · by_cases order : spoken = ascii "ORDER"
    · simp only [ofWords?, same (.inr order)]
    · simp only [ofWords?, group, order, false_and]

end Sign

/-- A sign and where it stands. -/
structure SignAt where
  /-- Which sign. -/
  sign : Sign
  /-- Offset of its word. -/
  offset : Nat
  deriving DecidableEq, Repr

namespace Site

/-- The sign at a place, if one stands there. -/
def sign? (site : Site) : Option Sign :=
  if Repair.mayBeginKeyword site then Sign.ofWords? site.spoken site.nextSpoken else none

/-- The sign at a place, with its offset. -/
def signAt? (site : Site) : Option SignAt :=
  site.sign?.map fun sign => ⟨sign, site.offset⟩

/-- The signs from a place to the end. -/
def signs (site : Site) : List SignAt :=
  site.code.filterMap signAt?

/-- The signs from a place to the end without their offsets. -/
def kinds (site : Site) : List Sign :=
  site.signs.map SignAt.sign

theorem kinds_eq (site : Site) : site.kinds = site.code.filterMap sign? := by
  rw [kinds, signs, List.map_filterMap]
  congr 1
  funext place
  simp [signAt?, Function.comp_def]

theorem sign?_eq_some {site : Site} {sign : Sign} :
    site.sign? = some sign ↔
      (site.depth = 0 ∧ site.afterDot = false) ∧
        Sign.ofWords? site.spoken site.nextSpoken = some sign := by
  rw [sign?]
  split
  · rename_i begins
    simp [Repair.mayBeginKeyword] at begins
    simp [begins]
  · rename_i inside
    simp [Repair.mayBeginKeyword] at inside
    simp only [reduceCtorEq, false_iff]
    rintro ⟨⟨level, undotted⟩, -⟩
    simp [inside level] at undotted

theorem spoken_ne_of_sign? {site : Site} {sign : Sign} (signed : site.sign? = some sign) :
    site.spoken ≠ [] := by
  intro silent
  have words := (sign?_eq_some.mp signed).2
  rw [silent] at words
  exact absurd words (by simp [Sign.ofWords?, ascii])

end Site

/-! ## Words of repair -/

namespace Sign

theorem isName_case : IsName (ascii "CASE") := by decide
theorem isName_end : IsName (ascii "END") := by decide
theorem isName_and : IsName (ascii "AND") := by decide
theorem isName_or : IsName (ascii "OR") := by decide
theorem isName_where : IsName (ascii "WHERE") := by decide

/-- The words that begin a clause. -/
def Begins : Clause → (spoken next : Text) → Prop
  | .filter, spoken, _ => spoken = ascii "WHERE"
  | .having, spoken, _ => spoken = ascii "HAVING"
  | .limit, spoken, _ => spoken = ascii "LIMIT"
  | .grouping, spoken, next => spoken = ascii "GROUP" ∧ next = ascii "BY"
  | .ordering, spoken, next => spoken = ascii "ORDER" ∧ next = ascii "BY"

theorem ofWords?_eq_clause {clause : Clause} {spoken next : Text} :
    ofWords? spoken next = some (.clause clause) ↔ Begins clause spoken next := by
  constructor
  · intro signed
    unfold ofWords? at signed
    split_ifs at signed with _ _ _ filter having limit grouping ordering <;> cases signed
    · exact filter
    · exact having
    · exact limit
    · exact grouping
    · exact ordering
  · intro begins
    cases clause
    case grouping => obtain ⟨rfl, rfl⟩ := begins; rfl
    case ordering => obtain ⟨rfl, rfl⟩ := begins; rfl
    all_goals obtain rfl := begins; rfl

theorem occursAt_clause {clause : Clause} {site : Site} :
    (Mark.clause clause).occursAt site = true ↔ Begins clause site.spoken site.nextSpoken := by
  have occurs_eq : (Mark.clause clause).occursAt site = site.hasWord clause.keyword := by
    simp [Mark.occursAt, Mark.keywords]
  rw [occurs_eq]
  cases clause with
  | filter => exact hasWord_of_isName (by decide) site
  | having => exact hasWord_of_isName (by decide) site
  | limit => exact hasWord_of_isName (by decide) site
  | grouping => exact hasWord_phrase Mark.isName_group Mark.isName_by site
  | ordering => exact hasWord_phrase Mark.isName_order Mark.isName_by site

/-- A clause begins where the sign of its keyword stands. -/
theorem countsAt_clause {clause : Clause} {site : Site} :
    (Mark.clause clause).countsAt site = true ↔ site.sign? = some (.clause clause) := by
  rw [Mark.countsAt_iff, sign?_eq_some, occursAt_clause, ofWords?_eq_clause, and_assoc,
    and_congr_right_iff]
  intro _
  rw [and_comm]
  simp [Mark.inOutline]

end Sign

namespace Outline

/-- The outline has a clause where its first sign stands. -/
theorem find?_eq_signs (text : Text) (clause : Clause) :
    (ofText text).find? clause =
      ((start text).signs.find? fun found => found.sign == .clause clause).map (·.offset) := by
  have found_eq (site : Site) : (site.markAt?.any fun mark => mark.mark == .clause clause) =
      site.signAt?.any fun sign => sign.sign == .clause clause := by
    rw [any_markAt?, Bool.eq_iff_iff, Sign.countsAt_clause, signAt?]
    cases site.sign? <;> simp
  rw [find?_ofText, marks, find?_marks, signs, List.find?_filterMap]
  simp only [found_eq]
  cases found : (start text).code.find? fun place =>
      place.signAt?.any fun sign => sign.sign == .clause clause with
  | none => rfl
  | some place =>
      have holds := List.find?_some found
      cases signed : place.signAt? with
      | none => simp [signed] at holds
      | some sign =>
          obtain ⟨kind, -, rfl⟩ := Option.map_eq_some_iff.mp signed
          simp [signed]

end Outline

/-! ## Where a condition begins -/

namespace Sign

/-- No condition begins among the signs of a clause, where `cases` case distinctions are open
already and the first `WHERE` of the text comes before. -/
def Free : (cases : Nat) → List Sign → Prop
  | _, [] => True
  | cases, .opening :: signs => Free (cases + 1) signs
  | cases, .ending :: signs => Free (cases - 1) signs
  | cases, .junction :: signs => cases ≠ 0 ∧ Free cases signs
  | cases, .clause kind :: signs => (kind = .filter → cases ≠ 0) ∧ Free cases signs

end Sign

namespace Repair

theorem conditionStart?_cons (filterAt? : Option Nat) (cases : Nat) (site : Site)
    (sites : List Site) :
    conditionStart? filterAt? cases (site :: sites) =
      match site.sign? with
      | none => conditionStart? filterAt? cases sites
      | some .opening => conditionStart? filterAt? (cases + 1) sites
      | some .ending => conditionStart? filterAt? (cases - 1) sites
      | some .junction =>
          if cases = 0 then some site.offset else conditionStart? filterAt? cases sites
      | some (.clause kind) =>
          if kind = .filter ∧ filterAt? ≠ some site.offset ∧ cases = 0 then some site.offset
          else conditionStart? filterAt? cases sites := by
  have word_eq {name : Text} (is_name : IsName name) :
      site.hasWord name = decide (site.spoken = name) := by
    rw [Bool.eq_iff_iff, hasWord_of_isName is_name, decide_eq_true_iff]
  rw [conditionStart?, sign?]
  cases begins : mayBeginKeyword site with
  | false => simp
  | true =>
      simp only [beginsCondition, word_eq Sign.isName_case, word_eq Sign.isName_end,
        word_eq Sign.isName_and, word_eq Sign.isName_or, word_eq Sign.isName_where]
      generalize site.spoken = spoken
      have where_ne : ascii "WHERE" ≠ ascii "CASE" ∧ ascii "WHERE" ≠ ascii "END" ∧
          ascii "WHERE" ≠ ascii "AND" ∧ ascii "WHERE" ≠ ascii "OR" := by decide
      by_cases opens : spoken = ascii "CASE"
      · simp [Sign.ofWords?, opens]
      · by_cases ends : spoken = ascii "END"
        · simp [Sign.ofWords?, ends, show ascii "END" ≠ ascii "CASE" by decide]
        · by_cases joins : spoken = ascii "AND" ∨ spoken = ascii "OR"
          · simp [Sign.ofWords?, opens, ends, joins]
          · by_cases filters : spoken = ascii "WHERE"
            · simp only [Sign.ofWords?, filters, where_ne, if_false, or_self, decide_true,
                decide_false]
              by_cases outside : cases = 0 <;> simp [outside]
            · have neither := not_or.mp joins
              simp only [Sign.ofWords?, opens, ends, filters, neither, if_false]
              split_ifs <;> simp_all

/-- The search for a condition among places comes to their end if none of their signs begins one,
and otherwise ends at a sign, before which none does. -/
def Searched (filterAt? : Option Nat) (cases : Nat) (sites : List Site) : Prop :=
  (conditionStart? filterAt? cases sites = none ∧ Sign.Free cases (sites.filterMap sign?)) ∨
    ∃ front site back sign, sites = front ++ site :: back ∧ site.sign? = some sign ∧
      conditionStart? filterAt? cases sites = some site.offset ∧
      Sign.Free cases (front.filterMap sign?) ∧ ¬ Sign.Free cases (sites.filterMap sign?)

/-- The search goes on after a place that begins no condition. -/
theorem searched_cons {filterAt? : Option Nat} {cases next : Nat} {site : Site} {sites : List Site}
    (same : conditionStart? filterAt? cases (site :: sites) = conditionStart? filterAt? next sites)
    (free_iff : ∀ signs, Sign.Free cases (site.sign?.toList ++ signs) ↔ Sign.Free next signs)
    (searched : Searched filterAt? next sites) : Searched filterAt? cases (site :: sites) := by
  have split (others : List Site) :
      (site :: others).filterMap sign? = site.sign?.toList ++ others.filterMap sign? := by
    rw [List.filterMap_cons]
    cases site.sign? <;> rfl
  rw [Searched, same, split, free_iff]
  rcases searched with
    ⟨absent, free⟩ | ⟨front, other, back, sign, rfl, signed, found, free, not_free⟩
  · exact .inl ⟨absent, free⟩
  · refine .inr ⟨site :: front, other, back, sign, rfl, signed, found, ?_, not_free⟩
    rw [split, free_iff]
    exact free

theorem searched_of_later (filterAt? : Option Nat) (cases : Nat) (sites : List Site)
    (later : ∀ site ∈ sites, site.sign? = some (.clause .filter) → filterAt? ≠ some site.offset) :
    Searched filterAt? cases sites := by
  induction sites generalizing cases with
  | nil => exact .inl ⟨rfl, trivial⟩
  | cons site sites ih =>
      rw [List.forall_mem_cons] at later
      have start_eq := conditionStart?_cons filterAt? cases site sites
      have tail := fun cases => ih cases later.2
      cases signed : site.sign? with
      | none =>
          rw [signed] at start_eq
          exact searched_cons start_eq (by simp [signed]) (tail cases)
      | some sign =>
          have stop (found : conditionStart? filterAt? cases (site :: sites) = some site.offset)
              (begins : ∀ signs, ¬ Sign.Free cases (sign :: signs)) :
              Searched filterAt? cases (site :: sites) := by
            refine .inr ⟨[], site, sites, sign, rfl, signed, found, trivial, ?_⟩
            rw [List.filterMap_cons_some signed]
            exact begins _
          rw [signed] at start_eq
          cases sign with
          | opening => exact searched_cons start_eq (by simp [signed, Sign.Free]) (tail (cases + 1))
          | ending => exact searched_cons start_eq (by simp [signed, Sign.Free]) (tail (cases - 1))
          | junction =>
              by_cases outside : cases = 0
              · exact stop (start_eq.trans (if_pos outside)) fun _ free => free.1 outside
              · exact searched_cons (start_eq.trans (if_neg outside))
                  (by simp [signed, Sign.Free, outside]) (tail cases)
          | clause kind =>
              by_cases condition : kind = .filter ∧ cases = 0
              · have not_first := later.1 (by rw [signed, condition.1])
                exact stop (start_eq.trans (if_pos ⟨condition.1, not_first, condition.2⟩))
                  fun _ free => free.1 condition.1 condition.2
              · refine searched_cons (start_eq.trans (if_neg fun both =>
                  condition ⟨both.1, both.2.2⟩)) (fun signs => ?_) (tail cases)
                rw [signed]
                exact and_iff_right fun kind_eq outside => condition ⟨kind_eq, outside⟩

end Repair

namespace Site

/-! ## Reading words -/

section Silent

variable {element : Type} {read : Site → Option element}
  (silent : ∀ site : Site, site.spoken = [] → read site = none)

include silent

/-- A byte that belongs to no word says nothing. -/
theorem filterMap_code_plain (back rest : Text) {byte : Byte}
    (identifier : byte.isIdentifier = false) (quote : byte.isQuote = false) (offset depth : Nat) :
    (code ⟨back, byte :: rest, offset, depth⟩).filterMap read =
      (code ⟨byte :: back, rest, offset + 1, depthAfter byte depth⟩).filterMap read := by
  rw [code_cons _ _ _ _ quote,
    List.filterMap_cons_none (silent _ (by simp [spoken, identifier, upper]))]

/-- In the middle of a word nothing is said. -/
theorem filterMap_code_inside {written : Text} (rest : Text)
    (identifiers : ∀ byte ∈ written, byte.isIdentifier = true) {back : Text}
    (inside : back.head?.any Byte.isIdentifier = true) (offset depth : Nat) :
    (code ⟨back, written ++ rest, offset, depth⟩).filterMap read =
      (code ⟨written.reverse ++ back, rest, offset + written.length, depth⟩).filterMap read := by
  induction written generalizing back offset with
  | nil => rfl
  | cons byte written ih =>
      rw [List.forall_mem_cons] at identifiers
      have nothing : spoken ⟨back, byte :: (written ++ rest), offset, depth⟩ = [] := by
        simp [spoken, afterIdentifier, previous?, inside]
      rw [List.cons_append, code_cons _ _ _ _ (Byte.isQuote_of_isIdentifier byte identifiers.1),
        List.filterMap_cons_none (silent _ nothing),
        depthAfter_of_flat (Byte.depthless_of_isIdentifier byte identifiers.1),
        ih identifiers.2 (by simp [identifiers.1])]
      simp [Nat.add_assoc, Nat.add_comm 1]

/-- A word says what it says at its beginning. -/
theorem filterMap_code_word {written : Text} (back rest : Text) (name : IsName written)
    (offset depth : Nat) :
    (code ⟨back, written ++ rest, offset, depth⟩).filterMap read =
      (read ⟨back, written ++ rest, offset, depth⟩).toList ++
        (code ⟨written.reverse ++ back, rest, offset + written.length, depth⟩).filterMap read := by
  obtain ⟨first, others, rfl⟩ := List.exists_cons_of_ne_nil name.nonempty
  have identifiers := List.forall_mem_cons.mp name.identifiers
  have split (others : List Site) (site : Site) :
      (site :: others).filterMap read = (read site).toList ++ others.filterMap read := by
    rw [List.filterMap_cons]
    cases read site <;> rfl
  rw [List.cons_append, code_cons _ _ _ _ (Byte.isQuote_of_isIdentifier first identifiers.1), split,
    depthAfter_of_flat (Byte.depthless_of_isIdentifier first identifiers.1),
    filterMap_code_inside silent _ identifiers.2 (by simp [identifiers.1])]
  simp [Nat.add_assoc, Nat.add_comm 1]

/-- A text without bytes of words says nothing. -/
theorem filterMap_code_of_wordless {text : Text}
    (wordless : ∀ byte ∈ text, byte.isIdentifier = false) (back : Text) (offset depth : Nat) :
    (code ⟨back, text, offset, depth⟩).filterMap read = [] := by
  refine List.filterMap_eq_nil_iff.mpr fun site member => silent site ?_
  by_contra said
  obtain ⟨-, byte, rest, rest_eq, word⟩ := exists_of_spoken_ne said
  obtain ⟨before, text_eq, -, -⟩ := exists_closed_of_mem_code member
  have plain := wordless byte (by rw [text_eq, rest_eq]; simp)
  rw [word] at plain
  simp at plain

/-- White space before a text says nothing. -/
theorem filterMap_code_blank {blanks : Text} (blank : ∀ byte ∈ blanks, byte.isSpace = true)
    (back rest : Text) (offset depth : Nat) :
    (code ⟨back, blanks ++ rest, offset, depth⟩).filterMap read =
      (code ⟨blanks.reverse ++ back, rest, offset + blanks.length, depth⟩).filterMap read := by
  induction blanks generalizing back offset with
  | nil => rfl
  | cons byte blanks ih =>
      rw [List.forall_mem_cons] at blank
      rw [List.cons_append, filterMap_code_plain silent _ _
        (Byte.isIdentifier_of_isSpace byte blank.1) (Byte.isQuote_of_isSpace byte blank.1),
        depthAfter_of_flat (Byte.depthless_of_isSpace byte blank.1), ih blank.2]
      simp [Nat.add_assoc, Nat.add_comm 1]

end Silent

theorem sign?_of_silent (site : Site) (silent : site.spoken = []) : site.sign? = none := by
  cases signed : site.sign? with
  | none => rfl
  | some sign => exact absurd silent (spoken_ne_of_sign? signed)

theorem signAt?_of_silent (site : Site) (silent : site.spoken = []) : site.signAt? = none := by
  rw [signAt?, sign?_of_silent site silent, Option.map_none]

/-! ## Signs of texts in a row -/

/-- A break at which no sign becomes part of a qualified name either. -/
structure Parted (back text : Text) : Prop extends Break back text where
  dot : back.head? = some Byte.dot → (start text).sign? = none

/-- Where no word begins no sign stands. -/
theorem sign?_of_wordless {site : Site} (wordless : site.rest.head?.any Byte.isIdentifier = false) :
    site.sign? = none := by
  refine sign?_of_silent site ?_
  by_contra said
  obtain ⟨-, byte, rest, rest_eq, identifier⟩ := exists_of_spoken_ne said
  simp [rest_eq, identifier] at wordless

theorem sign?_extend {site : Site} {after : Text} (rest_ne : site.rest ≠ [])
    (broken : Break (site.rest.reverse ++ site.back) after) :
    (site.extend after).sign? = site.sign? := by
  have begins_eq : Repair.mayBeginKeyword (site.extend after) = Repair.mayBeginKeyword site := rfl
  rw [sign?, sign?, begins_eq, spoken_extend rest_ne broken.toSeam]
  congr 1
  refine Sign.ofWords?_congr fun first => ?_
  rcases first with first | first
  · exact nextSpoken_extend rest_ne broken
      (first.trans (show _ = ascii "GROU" ++ [Byte.ofChar 'P'] from rfl)) (by decide)
  · exact nextSpoken_extend rest_ne broken
      (first.trans (show _ = ascii "ORDE" ++ [Byte.ofChar 'R'] from rfl)) (by decide)

/-- A text that begins afresh has its own signs whatever comes before it. -/
theorem sign?_precede {before text : Text} (parted : Parted before text) {site : Site}
    (offset : Nat) (whole : site.back.reverse ++ site.rest = text) :
    (site.precede before offset).sign? = site.sign? := by
  have next_eq : (site.precede before offset).nextSpoken = site.nextSpoken := rfl
  have spoken_eq : (site.precede before offset).spoken = site.spoken :=
    spoken_precede offset fun empty word => Bool.eq_false_iff.mpr fun runs_on => by
      rw [empty, List.reverse_nil, List.nil_append] at whole
      rw [whole, parted.word runs_on] at word
      simp at word
  by_cases dotted : site.back = [] ∧ before.head? = some Byte.dot
  · obtain ⟨empty, dot⟩ := dotted
    rw [empty, List.reverse_nil, List.nil_append] at whole
    have unmarked := parted.dot dot
    rw [sign?, if_pos (show Repair.mayBeginKeyword (start text) = true from rfl), ← whole]
      at unmarked
    have silent : Sign.ofWords? site.spoken site.nextSpoken = none := by
      rw [← unmarked]
      simp [spoken, nextSpoken, afterIdentifier, previous?, start, empty]
    rw [sign?, sign?, spoken_eq, next_eq, silent, ite_self, ite_self]
  · have begins_eq :
      Repair.mayBeginKeyword (site.precede before offset) = Repair.mayBeginKeyword site := by
      cases back_eq : site.back with
      | cons byte back => simp [Repair.mayBeginKeyword, afterDot, previous?, precede, back_eq]
      | nil =>
          have undotted : before.head? ≠ some Byte.dot := fun dot => dotted ⟨back_eq, dot⟩
          simp [Repair.mayBeginKeyword, afterDot, previous?, precede, back_eq, undotted]
    rw [sign?, sign?, begins_eq, spoken_eq, next_eq]

section Append

variable {back text after : Text} (offset depth : Nat)

/-- The signs of two texts in a row are those of the one and those of the other. -/
theorem signs_append (closed : Closed ⟨back, text, offset, depth⟩)
    (broken : Break (text.reverse ++ back) after) :
    signs ⟨back, text ++ after, offset, depth⟩ =
      signs ⟨back, text, offset, depth⟩ ++
        signs ⟨text.reverse ++ back, after, offset + text.length,
          endDepth ⟨back, text, offset, depth⟩⟩ := by
  refine filterMap_code_append offset depth closed broken.toSeam fun site rest_ne whole => ?_
  rw [signAt?, signAt?, sign?_extend rest_ne (whole ▸ broken)]
  rfl

/-- A text that begins afresh has its own signs whatever comes before it. -/
theorem signs_of_parted (parted : Parted back text) :
    signs ⟨back, text, offset, depth⟩ =
      (signs ⟨[], text, 0, depth⟩).map fun found => { found with offset :=
        found.offset + offset } := by
  refine filterMap_code_of_seam parted.toSeam offset depth fun site whole => ?_
  rw [signAt?, signAt?, sign?_precede parted offset whole]
  cases site.sign? <;> rfl

end Append

/-- The signs of two texts in a row, the first of which leaves no parenthesis open. -/
theorem signs_start_append {text after : Text} (closed : Closed (start text))
    (level : endDepth (start text) = 0) (parted : Parted text.reverse after) :
    (start (text ++ after)).signs =
      (start text).signs ++ (start after).signs.map fun found =>
        { found with offset := found.offset + text.length } := by
  have parted' : Parted (text.reverse ++ []) after := by simpa using parted
  have split := signs_append 0 0 closed parted'.toBreak
  have rest_eq := signs_of_parted (0 + text.length) 0 parted'
  rw [Nat.zero_add] at rest_eq
  rw [start, split, show endDepth ⟨[], text, 0, 0⟩ = 0 from level, Nat.zero_add, rest_eq]
  rfl

end Site

end TenantScope
