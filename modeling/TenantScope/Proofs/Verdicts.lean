import TenantScope.Proofs.Occurrences

/-!
# The rules of a policy

A policy makes demands on a statement, each of them on places of the statement and on nothing
that a search remembers.  What it reports is the first demand in their order that the
statement does not meet.
-/

namespace TenantScope

open Text Site Literal

namespace Policy

/-- What a policy demands of a statement. -/
inductive Rule
  /-- There is more than a semicolon. -/
  | content
  /-- No forbidden keyword stands at the beginning. -/
  | beginning
  /-- The first word is one with which statements may begin. -/
  | opening
  /-- Of the patterns given at least one can be read. -/
  | readable
  /-- No backslash leaves open where a literal ends. -/
  | backslash
  /-- No `UNION` breaks out. -/
  | union
  /-- No pattern occurs. -/
  | pattern
  /-- There is one statement. -/
  | single
  /-- No forbidden keyword occurs. -/
  | keyword
  /-- Nothing is written into a table. -/
  | into
  /-- No forbidden function is called. -/
  | function
  /-- There are few `SELECT`. -/
  | selects
  /-- There are few `JOIN`. -/
  | joins
  /-- The number of rows is limited. -/
  | rows
  deriving DecidableEq, Repr

/-- The rules in the order in which they are applied. -/
def Rule.order : List Rule :=
  [.content, .beginning, .opening, .readable, .backslash, .union, .pattern, .single, .keyword,
    .into, .function, .selects, .joins, .rows]

/-- Number of places outside literals at which a word is. -/
def occurrences (keyword body : Text) : Nat :=
  (start body).code.countP (Site.hasWord keyword)

/-- A statement breaks a rule, and this is what is reported. -/
inductive Breaks (policy : Policy) (body : Text) : Rule → Rejection → Prop
  | content : body = [] ∨ body = [Byte.semicolon] → Breaks policy body .content .notReadOnly
  | beginning {keyword : Text} :
      FirstSuch (fun member => (atOffset body 0).hasWord member = true)
        policy.upperKeywords keyword →
      Breaks policy body .beginning (.dangerousKeyword keyword)
  | opening : upper (body.takeWhile Byte.isIdentifier) ∉ policy.openings.map upper →
      Breaks policy body .opening .notReadOnly
  | readable : policy.patterns ≠ [] → policy.readPatterns = [] →
      Breaks policy body .readable
        (.suspectedInjection (ascii "no valid injection patterns loaded"))
  | backslash {literal : Site} : literal ∈ (start body).literals →
      literal.byte? = some Byte.apostrophe →
      opensEscapeString literal = false →
      [Byte.backslash, Byte.apostrophe] <:+: (literal.rest.take (width .standard literal)).drop 1 →
      Breaks policy body .backslash
        (.suspectedInjection (ascii "backslash before quote in plain string literal"))
  | union {site : Site} {place : Nat} : site ∈ (start body).code →
      site.hasWord (ascii "UNION") = true →
      ((∃ earlier ∈ (start body).code, earlier.offset < site.offset ∧
        earlier.byte? = some Byte.semicolon) ∨
        ∃ literal ∈ (start body).literals, EndsBefore literal site) →
      site.offset + (ascii "UNION").length ≤ place →
      (atOffset body place).hasWord (ascii "SELECT") = true →
      Breaks policy body .union
        (.suspectedInjection (ascii "UNION SELECT after terminated statement or literal"))
  | pattern {found : Text × Pattern} :
      FirstSuch (fun pattern => pattern.2.occursIn body = true) policy.readPatterns found →
      Breaks policy body .pattern (.suspectedInjection found.1)
  | single {site : Site} {byte : Byte} : site ∈ (start body).code →
      site.byte? = some Byte.semicolon →
      byte ∈ site.rest → byte.isSpace = false → byte ≠ Byte.semicolon →
      Breaks policy body .single .stackedStatement
  | keyword {place : Nat} {keyword : Text} :
      FirstSuch (fun member => (atOffset body place).hasWord member = true)
        policy.upperKeywords keyword →
      (∀ member ∈ policy.upperKeywords, ∀ earlier < place,
        (atOffset body earlier).hasWord member = false) →
      Breaks policy body .keyword (.dangerousKeyword keyword)
  | into : 0 < occurrences (ascii "INTO") body →
      Breaks policy body .into (.dangerousKeyword (ascii "INTO"))
  | function {name : Text} :
      FirstSuch (fun name => ∃ place, (atOffset body place).hasWord (upper name) = true ∧
        opensCall (atOffset body place) (upper name).length = true) policy.functions name →
      Breaks policy body .function (.dangerousKeyword name)
  | selects : policy.selectLimit < occurrences (ascii "SELECT") body →
      Breaks policy body .selects
        (.excessiveComplexity (ascii "select_count") policy.selectLimit
          (occurrences (ascii "SELECT") body))
  | joins : policy.joinLimit < occurrences (ascii "JOIN") body →
      Breaks policy body .joins
        (.excessiveComplexity (ascii "join_count") policy.joinLimit
          (occurrences (ascii "JOIN") body))
  | rows : policy.rowLimitRequired = true → occurrences (ascii "LIMIT") body = 0 →
      (∀ site ∈ (start body).code, site.hasWord (ascii "COUNT") = true →
        opensCall site (ascii "COUNT").length = false) →
      Breaks policy body .rows .missingLimit

/-! ## Rules one by one -/

/-- What is reported by a rule alone. -/
def Rule.rejection? (policy : Policy) (body : Text) : Rule → Option Rejection
  | content => if body.isEmpty || body == [Byte.semicolon] then some .notReadOnly else none
  | beginning => (policy.upperKeywords.find? (start body).hasWord).map .dangerousKeyword
  | opening =>
      if (policy.openings.map upper).contains (openingWord body) then none else some .notReadOnly
  | readable =>
      if policy.failsClosed then
        some (.suspectedInjection (ascii "no valid injection patterns loaded")) else none
  | backslash =>
      if (ambiguousBackslash? body).isSome then
        some (.suspectedInjection (ascii "backslash before quote in plain string literal"))
      else none
  | union =>
      if breaksOut body false (start body).code then
        some (.suspectedInjection (ascii "UNION SELECT after terminated statement or literal"))
      else none
  | pattern =>
      (policy.readPatterns.find? fun pattern => pattern.2.occursIn body).map fun found =>
        .suspectedInjection found.1
  | single => if isStacked body then some .stackedStatement else none
  | keyword => (firstKeyword? policy.upperKeywords body).map fun found => .dangerousKeyword found.2
  | into => if 0 < Word.count (ascii "INTO") body then
    some (.dangerousKeyword (ascii "INTO")) else none
  | function => (policy.functions.find? fun name => calls (upper name) body).map .dangerousKeyword
  | selects =>
      let selects := Word.count (ascii "SELECT") body
      if policy.selectLimit < selects then
        some (.excessiveComplexity (ascii "select_count") policy.selectLimit selects)
      else none
  | joins =>
      let joins := Word.count (ascii "JOIN") body
      if policy.joinLimit < joins then
        some (.excessiveComplexity (ascii "join_count") policy.joinLimit joins)
      else none
  | rows =>
      if policy.rowLimitRequired && Word.count (ascii "LIMIT") body == 0 && !countsRows body then
        some .missingLimit
      else none

theorem openingRejection?_eq (policy : Policy) (body : Text) :
    policy.openingRejection? body =
      [Rule.content, .beginning, .opening].findSome? (Rule.rejection? policy body) := by
  simp only [openingRejection?, List.findSome?, Rule.rejection?]
  split
  · rfl
  · cases policy.upperKeywords.find? (start body).hasWord with
    | some keyword => rfl
    | none =>
        simp only [Option.map_none]
        split <;> rfl

theorem injectionRejection?_eq (policy : Policy) (body : Text) :
    policy.injectionRejection? body =
      [Rule.readable, .backslash, .union, .pattern, .single].findSome?
        (Rule.rejection? policy body) := by
  simp only [injectionRejection?, List.findSome?, Rule.rejection?]
  split
  · rfl
  · split
    · rfl
    · split
      · rfl
      · cases policy.readPatterns.find? fun pattern => pattern.2.occursIn body with
        | some found => rfl
        | none =>
            simp only [Option.map_none]
            split <;> rfl

theorem wordRejection?_eq (policy : Policy) (body : Text) :
    policy.wordRejection? body =
      [Rule.keyword, .into, .function].findSome? (Rule.rejection? policy body) := by
  simp only [wordRejection?, List.findSome?, Rule.rejection?]
  cases firstKeyword? policy.upperKeywords body with
  | some found => rfl
  | none =>
      simp only [Option.map_none]
      split
      · rfl
      · cases policy.functions.find? fun name => calls (upper name) body <;> rfl

theorem complexityRejection?_eq (policy : Policy) (body : Text) :
    policy.complexityRejection? body =
      [Rule.selects, .joins, .rows].findSome? (Rule.rejection? policy body) := by
  simp only [complexityRejection?, List.findSome?, Rule.rejection?]
  split
  · rfl
  · split
    · rfl
    · split <;> rfl

/-- A verdict is that of the first rule that reports something. -/
theorem rejection?_eq_findSome? (policy : Policy) (text : Text) :
    policy.rejection? text = Rule.order.findSome? (Rule.rejection? policy text.trim) := by
  have parts :
      Rule.order = [Rule.content, .beginning, .opening] ++
        ([.readable, .backslash, .union, .pattern, .single] ++
      ([.keyword, .into, .function] ++ [.selects, .joins, .rows])) := rfl
  rw [parts, List.findSome?_append, List.findSome?_append, List.findSome?_append,
    ← openingRejection?_eq, ← injectionRejection?_eq, ← wordRejection?_eq,
    ← complexityRejection?_eq, rejection?]
  simp only [Option.orElse_eq_orElse, Option.or_eq_orElse]

theorem countsRows_eq_false_iff (body : Text) :
    countsRows body = false ↔
      ∀ site ∈ (start body).code, site.hasWord (ascii "COUNT") = true →
        opensCall site (ascii "COUNT").length = false := by
  rw [countsRows, List.any_eq_false]
  refine forall₂_congr fun site _ => ?_
  rw [hasWord, word?_of_isName (by decide)]
  split <;> simp

/-- What a rule reports says that it is broken. -/
theorem Rule.rejection?_eq_some_iff {policy : Policy}
    (named : ∀ name ∈ policy.functions, IsName name) {body : Text} {rule : Rule}
    {rejection : Rejection} :
    rule.rejection? policy body = some rejection ↔ Breaks policy body rule rejection := by
  have reported (condition : Prop) [Decidable condition] (reason : Rejection) :
      (if condition then some reason else none) = some rejection ↔
        condition ∧ reason = rejection := by
    split <;> simp [*]
  cases rule with
  | content =>
      rw [Rule.rejection?, reported, Bool.or_eq_true, List.isEmpty_iff, beq_iff_eq]
      constructor
      · rintro ⟨nothing, rfl⟩
        exact .content nothing
      · intro | .content nothing => exact ⟨nothing, rfl⟩
  | beginning =>
      rw [Rule.rejection?, Option.map_eq_some_iff, ← atOffset_zero]
      constructor
      · rintro ⟨keyword, found, rfl⟩
        exact .beginning (find?_eq_some_iff_firstSuch.mp found)
      · intro | .beginning first => exact ⟨_, find?_eq_some_iff_firstSuch.mpr first, rfl⟩
  | opening =>
      have refused :
          (if (policy.openings.map upper).contains (openingWord body) then none
            else some Rejection.notReadOnly) =
          if openingWord body ∉ policy.openings.map upper then some .notReadOnly else none := by
        simp only [List.contains_iff_mem, ite_not]
      rw [Rule.rejection?, refused, reported]
      constructor
      · rintro ⟨foreign, rfl⟩
        exact .opening foreign
      · intro | .opening foreign => exact ⟨foreign, rfl⟩
  | readable =>
      rw [Rule.rejection?, reported, failsClosed, Bool.and_eq_true, Bool.not_eq_true',
        List.isEmpty_eq_false_iff, List.isEmpty_iff]
      constructor
      · rintro ⟨⟨given, unread⟩, rfl⟩
        exact .readable given unread
      · intro | .readable given unread => exact ⟨⟨given, unread⟩, rfl⟩
  | backslash =>
      rw [Rule.rejection?, reported, ambiguousBackslash?_isSome_iff]
      constructor
      · rintro ⟨⟨literal, member, mark, plain, escaped⟩, rfl⟩
        exact .backslash member mark plain escaped
      · intro
        | .backslash member mark plain escaped =>
            exact ⟨⟨_, member, mark, plain, escaped⟩, rfl⟩
  | union =>
      rw [Rule.rejection?, reported, breaksOut_iff]
      constructor
      · rintro ⟨⟨site, member, found, before, place, after, select⟩, rfl⟩
        exact .union member found before after select
      · intro
        | .union member found before after select =>
            exact ⟨⟨_, member, found, before, _, after, select⟩, rfl⟩
  | pattern =>
      rw [Rule.rejection?, Option.map_eq_some_iff]
      constructor
      · rintro ⟨found, first, rfl⟩
        exact .pattern (find?_eq_some_iff_firstSuch.mp first)
      · intro | .pattern first => exact ⟨_, find?_eq_some_iff_firstSuch.mpr first, rfl⟩
  | single =>
      rw [Rule.rejection?, reported, isStacked_iff]
      constructor
      · rintro ⟨⟨site, member, ends, byte, after, visible, other⟩, rfl⟩
        exact .single member ends after visible other
      · intro
        | .single member ends after visible other =>
            exact ⟨⟨_, member, ends, _, after, visible, other⟩, rfl⟩
  | keyword =>
      rw [Rule.rejection?, Option.map_eq_some_iff]
      constructor
      · rintro ⟨⟨place, keyword⟩, found, rfl⟩
        obtain ⟨first, none_before⟩ := firstKeyword?_eq_some_iff.mp found
        exact .keyword first none_before
      · intro
        | .keyword first none_before =>
            exact ⟨_, firstKeyword?_eq_some_iff.mpr ⟨first, none_before⟩, rfl⟩
  | into =>
      rw [Rule.rejection?, reported, Word.count_of_isName (by decide)]
      constructor
      · rintro ⟨written, rfl⟩
        exact .into written
      · intro | .into written => exact ⟨written, rfl⟩
  | function =>
      have called (name : Text) (member : name ∈ policy.functions) :
          calls (upper name) body = true ↔
            ∃ place, (atOffset body place).hasWord (upper name) = true ∧
              opensCall (atOffset body place) (upper name).length = true :=
        calls_iff_exists (named name member).upper body
      rw [Rule.rejection?, Option.map_eq_some_iff]
      simp only [find?_eq_some_iff_firstSuch, firstSuch_congr called]
      constructor
      · rintro ⟨name, first, rfl⟩
        exact .function first
      · intro | .function first => exact ⟨_, first, rfl⟩
  | selects =>
      simp only [Rule.rejection?]
      rw [reported, Word.count_of_isName (by decide)]
      constructor
      · rintro ⟨many, rfl⟩
        exact .selects many
      · intro | .selects many => exact ⟨many, rfl⟩
  | joins =>
      simp only [Rule.rejection?]
      rw [reported, Word.count_of_isName (by decide)]
      constructor
      · rintro ⟨many, rfl⟩
        exact .joins many
      · intro | .joins many => exact ⟨many, rfl⟩
  | rows =>
      rw [Rule.rejection?, reported, Word.count_of_isName (by decide), Bool.and_eq_true,
        Bool.and_eq_true, beq_iff_eq, Bool.not_eq_true', countsRows_eq_false_iff]
      constructor
      · rintro ⟨⟨⟨required, unlimited⟩, uncounted⟩, rfl⟩
        exact .rows required unlimited uncounted
      · intro
        | .rows required unlimited uncounted =>
            exact ⟨⟨⟨required, unlimited⟩, uncounted⟩, rfl⟩

/-- A policy allows a statement that breaks no rule, and of any other statement it reports
the first rule broken. -/
theorem verdict_eq_first_broken (policy : Policy) (named : ∀ name ∈ policy.functions, IsName name)
    (text : Text) :
    (policy.rejection? text = none ↔ ∀ rule rejection, ¬ Breaks policy text.trim rule rejection) ∧
      ∀ rejection, policy.rejection? text = some rejection ↔
        ∃ rule,
          FirstSuch (fun rule => ∃ rejection, Breaks policy text.trim rule rejection) Rule.order
            rule ∧
          Breaks policy text.trim rule rejection := by
  have listed (rule : Rule) : rule ∈ Rule.order := by cases rule <;> decide
  have silent (rule : Rule) : rule.rejection? policy text.trim = none ↔
      ¬ ∃ rejection, Breaks policy text.trim rule rejection := by
    simp only [← Rule.rejection?_eq_some_iff named, ← Option.isSome_iff_exists,
      Option.not_isSome_iff_eq_none]
  rw [rejection?_eq_findSome?, List.findSome?_eq_none_iff]
  refine ⟨?_, fun rejection => ?_⟩
  · simp only [silent, not_exists, listed, true_imp_iff]
  · rw [List.findSome?_eq_some_iff]
    simp only [silent, Rule.rejection?_eq_some_iff named]
    constructor
    · rintro ⟨earlier, rule, later, split, broken, none_before⟩
      exact ⟨rule, ⟨earlier, later, split, ⟨rejection, broken⟩, none_before⟩, broken⟩
    · rintro ⟨rule, ⟨earlier, later, split, -, none_before⟩, broken⟩
      exact ⟨earlier, rule, later, split, broken, none_before⟩

/-- A statement that breaks several rules of the plain policy is rejected for its `UNION`, which
comes before what follows the semicolon and before the call in the order of the rules, though after
them in the statement. -/
theorem verdict_of_union :
    (∀ name ∈ ({} : Policy).functions, IsName name) ∧
      ∃ rule, FirstSuch (fun rule => ∃ rejection, Breaks {}
          (trim (ascii " SELECT pg_read_file('a'); SELECT 'b' UNION SELECT c")) rule rejection)
          Rule.order rule ∧
        Breaks {} (trim (ascii " SELECT pg_read_file('a'); SELECT 'b' UNION SELECT c")) rule
          (.suspectedInjection (ascii "UNION SELECT after terminated statement or literal")) :=
  ⟨by decide, ((verdict_eq_first_broken {} (by decide) _).2 _).mp (by decide +kernel)⟩

/-- A pattern may write a letter as a number, and is found in either case of it. -/
example : ({ patterns := [ascii "\\x53LEEP\\s*\\("] } : Policy).rejection?
    (ascii "select sleep (5) FROM t") = some (.suspectedInjection (ascii "\\x53LEEP\\s*\\(")) := by
  decide +kernel

end Policy

end TenantScope
