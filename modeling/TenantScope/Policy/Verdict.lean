import TenantScope.Policy
import TenantScope.Word

/-!
# Verdicts

A policy judges a statement by four groups of rules, and the first rule that fails gives the reason:
how the statement begins, marks of injected text, forbidden words and calls, and complexity.
-/

namespace TenantScope

namespace Policy

/-! ## How a statement begins -/

/-- The word at the head of a text, in upper case. -/
def openingWord (body : Text) : Text :=
  Text.upper (body.takeWhile Byte.isIdentifier)

/-- The reason to reject a statement for how it begins. -/
def openingRejection? (policy : Policy) (body : Text) : Option Rejection :=
  if body.isEmpty || body == [Byte.semicolon] then some .notReadOnly
  else
    match policy.upperKeywords.find? (Site.start body).hasWord with
    | some keyword => some (.dangerousKeyword keyword)
    | none =>
        if (policy.openings.map Text.upper).contains (openingWord body) then none
        else some .notReadOnly

/-! ## Marks of injected text -/

/-- A string literal ends before the place, with nothing but white space between. -/
def followsString (site : Site) : Bool :=
  (site.back.dropWhile Byte.isSpace).head? == some Byte.apostrophe

/-- A `UNION` that follows a semicolon or a string literal has a `SELECT` somewhere after it. -/
def breaksOut (text : Text) : (terminated : Bool) → List Site → Bool
  | _, [] => false
  | terminated, site :: sites =>
      if site.byte? == some Byte.semicolon then breaksOut text true sites
      else
        match site.word? (Text.ascii "UNION") with
        | none => breaksOut text terminated sites
        | some length =>
            ((terminated || followsString site) &&
              (Word.first? (Text.ascii "SELECT") text (site.offset + length)).isSome) ||
                breaksOut text terminated sites

/-- Something other than semicolons and white space follows the first semicolon outside literals. -/
def isStacked (body : Text) : Bool :=
  match (Site.start body).code.find? fun site => site.byte? == some Byte.semicolon with
  | none => false
  | some site => site.rest.any fun byte => !byte.isSpace && byte != Byte.semicolon

/-- The reason to reject a statement for marks of injected text. -/
def injectionRejection? (policy : Policy) (body : Text) : Option Rejection :=
  if policy.failsClosed then
    some (.suspectedInjection (Text.ascii "no valid injection patterns loaded"))
  else if (Literal.ambiguousBackslash? body).isSome then
    some (.suspectedInjection (Text.ascii "backslash before quote in plain string literal"))
  else if breaksOut body false (Site.start body).code then
    some (.suspectedInjection (Text.ascii "UNION SELECT after terminated statement or literal"))
  else
    match policy.readPatterns.find? fun pattern => pattern.2.occursIn body with
    | some pattern => some (.suspectedInjection pattern.1)
    | none => if isStacked body then some .stackedStatement else none

/-! ## Forbidden words and calls -/

/-- The keyword that occurs first, literals included; of two at one place, the one listed first. -/
def firstKeyword? (keywords : List Text) (body : Text) : Option (Nat × Text) :=
  keywords.foldl
    (fun best keyword =>
      match Word.first? keyword body 0, best with
      | none, best => best
      | some offset, none => some (offset, keyword)
      | some offset, some found => if offset < found.1 then some (offset, keyword) else some found)
    none

/-- A parenthesis opens `length` bytes after the place, or after the white space there. -/
def opensCall (site : Site) (length : Nat) : Bool :=
  ((site.rest.drop length).dropWhile Byte.isSpace).head? == some Byte.openParen

/-- The function of this name, in upper case, is called somewhere in the text, literals included. -/
def calls (name body : Text) : Bool :=
  ((Site.start body).tour fun site => if site.hasWord name then name.length else 1).any fun site =>
    site.hasWord name && opensCall site name.length

/-- The reason to reject a statement for the words in it. -/
def wordRejection? (policy : Policy) (body : Text) : Option Rejection :=
  match firstKeyword? policy.upperKeywords body with
  | some (_, keyword) => some (.dangerousKeyword keyword)
  | none =>
      if 0 < Word.count (Text.ascii "INTO") body then some (.dangerousKeyword (Text.ascii "INTO"))
      else (policy.functions.find? fun name => calls name.upper body).map .dangerousKeyword

/-! ## Complexity -/

/-- The rows of a statement are counted, so that few come back. -/
def countsRows (body : Text) : Bool :=
  (Site.start body).code.any fun site => (site.word? (Text.ascii "COUNT")).any (opensCall site)

/-- The reason to reject a statement for its size. -/
def complexityRejection? (policy : Policy) (body : Text) : Option Rejection :=
  let selects := Word.count (Text.ascii "SELECT") body
  let joins := Word.count (Text.ascii "JOIN") body
  if policy.selectLimit < selects then
    some (.excessiveComplexity (Text.ascii "select_count") policy.selectLimit selects)
  else if policy.joinLimit < joins then
    some (.excessiveComplexity (Text.ascii "join_count") policy.joinLimit joins)
  else if policy.rowLimitRequired && Word.count (Text.ascii "LIMIT") body == 0 &&
      !countsRows body then
    some .missingLimit
  else
    none

/-! ## The verdict -/

/-- The reason to reject a statement, or nothing if the policy allows it. -/
def rejection? (policy : Policy) (text : Text) : Option Rejection :=
  let body := text.trim
  policy.openingRejection? body <|> policy.injectionRejection? body <|>
    policy.wordRejection? body <|> policy.complexityRejection? body

end Policy

end TenantScope
