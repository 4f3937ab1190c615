import TenantScope.Proofs.FoldedScope
import TenantScope.Rewriting

/-!
# The case of letters decides nothing

A policy judges a text in lower case as it judges the text, patterns included.  So two received
texts that differ in the case of letters have the same fate: they are rewritten alike, or rejected
or refused for the same reason.
-/

namespace TenantScope

open Text Byte

/-! ## Patterns -/

theorem ByteSet.accepts_toLower (set : ByteSet) : Caseless set.accepts := by
  intro byte
  rw [accepts, caseless_toLower, caseless_toUpper, accepts]

namespace Pattern

theorem isWordEdge_lower (frame : Frame) (site : Site) :
    isWordEdge frame site.lower = isWordEdge frame site := by
  have wordByte : Caseless isWordByte :=
    caseless_isAlphanumeric.or (caseless_beq (by decide))
  have earlier : site.lower.previous?.any isWordByte = site.previous?.any isWordByte :=
    any_head?_lower wordByte site.back
  have behind : site.lower.byte?.any isWordByte = site.byte?.any isWordByte :=
    any_head?_lower wordByte site.rest
  rw [isWordEdge, earlier, behind]
  rfl

theorem forward_lower (count : Nat) (site : Site) :
    forward count site.lower = (forward count site).lower := by
  simp only [forward, Site.lower, lower_append, lower_reverse, lower_take, lower_drop]

theorem taken_lower (site : Site) (span : Nat × Nat) :
    taken site.lower span = lower (taken site span) := by
  simp only [taken, Site.lower, lower_append, lower_reverse, lower_take, lower_drop]

/-- The same progress in the text in lower case. -/
def Progress.lower (progress : Progress) : Progress :=
  { progress with site := progress.site.lower }

/-- Two ways to go on that come to the same end, one of them in the text in lower case. -/
def Blind (next folded : Progress → Ending) : Prop :=
  ∀ progress, folded progress.lower = next progress

theorem blind_finish : Blind Progress.finish Progress.finish :=
  fun _ => rfl

section Rounds

variable {next folded : Progress → Ending}

theorem Blind.onceMore (blind : Blind next folded) (mark : Nat) :
    Blind (Pattern.onceMore mark next) (Pattern.onceMore mark folded) := by
  intro progress
  simp only [Pattern.onceMore]
  refine if_congr Iff.rfl ?_ rfl
  exact blind { progress with rounds := assign progress.rounds mark _ }

theorem Blind.choose {round foldedRound : Progress → Ending} (rounds : Blind round foldedRound)
    (blind : Blind next folded) (reluctant : Bool) :
    Blind (Pattern.choose reluctant round next) (Pattern.choose reluctant foldedRound folded) := by
  intro progress
  have again (groups : Groups) : foldedRound { progress.lower with groups := groups } =
      round { progress with groups := groups } := rounds { progress with groups := groups }
  have onwards (groups : Groups) : folded { progress.lower with groups := groups } =
      next { progress with groups := groups } := blind { progress with groups := groups }
  simp only [Pattern.choose, rounds progress, blind progress, again, onwards]

theorem Blind.repeatRounds {round : (Progress → Ending) → Progress → Ending}
    (rounds : ∀ {next folded}, Blind next folded → Blind (round next) (round folded))
    (blind : Blind next folded) (mark : Nat) (reluctant : Bool) (count : Nat) :
    Blind (Pattern.repeatRounds round mark reluctant next count)
      (Pattern.repeatRounds round mark reluctant folded count) := by
  induction count with
  | zero => exact blind
  | succ count ih => exact ((rounds ih).onceMore mark).choose blind reluctant

end Rounds

/-- The case of letters decides no search. -/
theorem search_lower (pattern : Pattern) (frame : Frame) {next folded : Progress → Ending}
    (blind : Blind next folded) :
    Blind (search pattern frame next) (search pattern frame folded) := by
  -- The search for a part goes on with the search for what follows it, which is blind by then.
  induction pattern generalizing frame next folded with
  | nothing => exact blind
  | oneOf set =>
      intro progress
      have same : progress.lower.site.byte?.any set.accepts = progress.site.byte?.any set.accepts :=
        any_head?_lower set.accepts_toLower progress.site.rest
      have further : forward 1 progress.lower.site = (forward 1 progress.site).lower :=
        forward_lower 1 progress.site
      simp only [search, same, further]
      exact if_congr Iff.rfl (blind { progress with site := forward 1 progress.site }) rfl
  | textStart => exact fun progress => if_congr Iff.rfl (blind progress) rfl
  | textEnd =>
      intro progress
      have same : progress.lower.site.rest.isEmpty = progress.site.rest.isEmpty :=
        isEmpty_lower progress.site.rest
      simp only [search, same]
      exact if_congr Iff.rfl (blind progress) rfl
  | wordEdge expected =>
      intro progress
      have same : isWordEdge frame progress.lower.site = isWordEdge frame progress.site :=
        isWordEdge_lower frame progress.site
      simp only [search, same]
      exact if_congr Iff.rfl (blind progress) rfl
  | again number =>
      intro progress
      have same : progress.lower.groups number = progress.groups number := rfl
      simp only [search, same]
      cases progress.groups number with
      | none => rfl
      | some span =>
          have wanted : taken progress.lower.site span = lower (taken progress.site span) :=
            taken_lower progress.site span
          have found (count : Nat) : lower (progress.lower.site.rest.take count) =
              lower (progress.site.rest.take count) := by
            rw [lower_take, lower_take]
            exact congrArg (List.take count) (lower_lower progress.site.rest)
          have further (count : Nat) : forward count progress.lower.site =
              (forward count progress.site).lower := forward_lower count progress.site
          simp only [wanted, length_lower, lower_lower, found, further]
          exact if_congr Iff.rfl (blind { progress with site := forward _ progress.site }) rfl
  | before expected body ih =>
      intro progress
      have same : search body ⟨progress.lower.site.offset, frame.seesBack⟩ Progress.finish
          { progress.lower with rounds := fun _ => (0, 0) } =
          search body ⟨progress.site.offset, frame.seesBack⟩ Progress.finish
            { progress with rounds := fun _ => (0, 0) } :=
        ih _ blind_finish { progress with rounds := fun _ => (0, 0) }
      simp only [search, same]
      split
      · rename_i groups _
        exact if_congr Iff.rfl (blind { progress with groups := groups }) rfl
      · exact if_congr Iff.rfl rfl (blind progress)
  | group number body ih =>
      intro progress
      refine ih frame (fun reached => ?_) progress
      exact congrArg (Ending.orElse · _)
        (blind { reached with groups := assign reached.groups number _ })
  | followedBy first second first_ih second_ih => exact first_ih frame (second_ih frame blind)
  | either first second first_ih second_ih =>
      intro progress
      have other (groups : Groups) :
          search second frame folded { progress.lower with groups := groups } =
          search second frame next { progress with groups := groups } :=
        second_ih frame blind { progress with groups := groups }
      simp only [search, first_ih frame blind progress, other]
  | optional mark reluctant body ih => exact ((ih frame blind).onceMore mark).choose blind reluctant
  | repeated mark reluctant once body ih =>
      have rounds : Blind
          (fun reached => repeatRounds (search body frame) mark reluctant next
            (roundsLeft reached) reached)
          fun reached => repeatRounds (search body frame) mark reluctant folded
            (roundsLeft reached) reached := by
        intro reached
        have same : roundsLeft reached.lower = roundsLeft reached := by
          simp only [roundsLeft, Progress.lower, Site.lower_rest, length_lower]
        simp only [same]
        exact Blind.repeatRounds (ih frame) blind mark reluctant _ reached
      intro progress
      cases once with
      | false => exact rounds progress
      | true => exact ih frame rounds progress

theorem occursAt_lower (pattern : Pattern) (site : Site) :
    pattern.occursAt site.lower = pattern.occursAt site :=
  congrArg Ending.isFound (search_lower pattern ⟨site.offset, site.offset != 0⟩ blind_finish
    ⟨site, fun _ => none, fun _ => (0, 0)⟩)

theorem occursIn_lower (pattern : Pattern) (text : Text) :
    pattern.occursIn (lower text) = pattern.occursIn text := by
  have last : [Site.atOffset (lower text) text.length] =
      [Site.atOffset text text.length].map Site.lower :=
    congrArg (fun site => [site]) (Site.atOffset_lower text text.length)
  rw [occursIn, length_lower, last, Site.start_lower, Site.everywhere_lower, ← List.map_append,
    List.any_map, occursIn]
  exact congrArg _ (funext pattern.occursAt_lower)

end Pattern

/-! ## Verdicts -/

namespace Literal

theorem backslashBeforeApostrophe?_lower (text : Text) :
    backslashBeforeApostrophe? (lower text) = backslashBeforeApostrophe? text := by
  induction text with
  | nil => rfl
  | cons first rest ih =>
      cases rest with
      | nil => rfl
      | cons second rest =>
          have escape : (first.toLower == backslash) = (first == backslash) :=
            caseless_beq (by decide) first
          have mark : (second.toLower == apostrophe) = (second == apostrophe) :=
            caseless_beq (by decide) second
          simp only [lower_cons] at ih ⊢
          rw [backslashBeforeApostrophe?, backslashBeforeApostrophe?, escape, mark, ih]

theorem ambiguousBackslash?_lower (text : Text) :
    ambiguousBackslash? (lower text) = ambiguousBackslash? text := by
  rw [ambiguousBackslash?, Site.start_lower, Site.literals_lower, List.findSome?_map,
    ambiguousBackslash?]
  congr 1
  funext site
  simp only [Function.comp_apply, Site.byte?_lower_beq (show apostrophe.isAlpha = false by decide),
    opensEscapeString_lower]
  split
  · rename_i opens
    have quote : site.atQuote = true := by
      have byte_eq : site.byte? = some apostrophe := by
        simpa using (Bool.and_eq_true_iff.mp opens).1
      rw [Site.atQuote, byte_eq]
      rfl
    rw [width_lower _ quote, Site.lower_rest, ← lower_take, ← lower_drop,
      backslashBeforeApostrophe?_lower, Site.lower_offset]
  · rfl

end Literal

namespace Policy

theorem openingWord_lower (body : Text) : openingWord (lower body) = openingWord body := by
  rw [openingWord, takeWhile_lower caseless_isIdentifier, upper_lower, openingWord]

theorem openingRejection?_lower (policy : Policy) (body : Text) :
    policy.openingRejection? (lower body) = policy.openingRejection? body := by
  have only : (lower body == [semicolon]) = (body == [semicolon]) := by
    rcases body with _ | ⟨first, _ | ⟨second, rest⟩⟩
    · rfl
    · simpa using caseless_beq (show semicolon.isAlpha = false by decide) first
    · simp
  have words : (Site.start (lower body)).hasWord = (Site.start body).hasWord :=
    funext fun keyword => Site.hasWord_lower keyword (Site.start body)
  rw [openingRejection?, isEmpty_lower, only, words, openingWord_lower, openingRejection?]

theorem breaksOut_lower (text : Text) (terminated : Bool) (sites : List Site) :
    breaksOut (lower text) terminated (sites.map Site.lower) = breaksOut text terminated sites := by
  induction sites generalizing terminated with
  | nil => rfl
  | cons site sites ih =>
      have ending : (site.lower.byte? == some semicolon) = (site.byte? == some semicolon) :=
        Site.byte?_lower_beq (by decide) site
      have follows : followsString site.lower = followsString site := by
        rw [followsString, Site.lower_back, dropWhile_lower caseless_isSpace,
          head?_lower_beq (by decide), followsString]
      simp only [List.map_cons, breaksOut, ending, follows, Site.word?_lower, Word.first?_lower,
        Site.lower_offset, ih]

theorem isStacked_lower (body : Text) : isStacked (lower body) = isStacked body := by
  have more : Caseless fun byte => !byte.isSpace && byte != semicolon := fun byte =>
    congrArg₂ Bool.and (caseless_isSpace.not byte) ((caseless_beq (by decide)).not byte)
  have ending (site : Site) :
      (site.lower.byte? == some semicolon) = (site.byte? == some semicolon) :=
    Site.byte?_lower_beq (by decide) site
  rw [isStacked, Site.start_lower, Site.code_lower, List.find?_map, isStacked]
  simp only [Function.comp_def, ending]
  cases (Site.start body).code.find? fun site => site.byte? == some semicolon with
  | none => rfl
  | some site => exact any_lower more site.rest

theorem injectionRejection?_lower (policy : Policy) (body : Text) :
    policy.injectionRejection? (lower body) = policy.injectionRejection? body := by
  simp only [injectionRejection?, Literal.ambiguousBackslash?_lower, Site.start_lower,
    Site.code_lower, breaksOut_lower, Pattern.occursIn_lower, isStacked_lower]

theorem opensCall_lower (site : Site) (length : Nat) :
    opensCall site.lower length = opensCall site length := by
  rw [opensCall, Site.lower_rest, ← lower_drop, dropWhile_lower caseless_isSpace,
    head?_lower_beq (by decide), opensCall]

theorem calls_lower (name body : Text) : calls name (lower body) = calls name body := by
  have blind (site : Site) : (if site.lower.hasWord name then name.length else 1) =
      if site.hasWord name then name.length else 1 := by
    rw [Site.hasWord_lower]
  rw [calls, Site.start_lower, Site.tour_lower blind, List.any_map, calls]
  simp only [Function.comp_def, Site.hasWord_lower, opensCall_lower]

theorem wordRejection?_lower (policy : Policy) (body : Text) :
    policy.wordRejection? (lower body) = policy.wordRejection? body := by
  simp only [wordRejection?, firstKeyword?, Word.first?_lower, Word.count_lower, calls_lower]

theorem complexityRejection?_lower (policy : Policy) (body : Text) :
    policy.complexityRejection? (lower body) = policy.complexityRejection? body := by
  have counts : countsRows (lower body) = countsRows body := by
    rw [countsRows, Site.start_lower, Site.code_lower, List.any_map, countsRows]
    simp only [Function.comp_def, Site.word?_lower]
    congr 1
    funext site
    congr 1
    funext length
    exact opensCall_lower site length
  simp only [complexityRejection?, Word.count_lower, counts]

/-- A policy judges a text in lower case as it judges the text. -/
theorem rejection?_lower (policy : Policy) (text : Text) :
    policy.rejection? (lower text) = policy.rejection? text := by
  simp only [rejection?, trim_lower, openingRejection?_lower, injectionRejection?_lower,
    wordRejection?_lower, complexityRejection?_lower]

end Policy

/-! ## Rewriting -/

/-- Texts that differ at most in the case of letters. -/
def Text.Alike (text other : Text) : Prop :=
  lower text = lower other

instance (text other : Text) : Decidable (text.Alike other) :=
  inferInstanceAs (Decidable (_ = _))

/-- Two results of rewriting that differ at most in the case of letters: two statements, two
rejections for the same reason, or two refusals for the same fault. -/
inductive Rules.Alike : Except RewriteError Text → Except RewriteError Text → Prop
  | rewritten {text other : Text} : text.Alike other → Alike (.ok text) (.ok other)
  | rejected (rejection : Rejection) :
      Alike (.error (.rejected rejection)) (.error (.rejected rejection))
  | refused {refusal other : Scope.Refusal} : refusal.fault = other.fault →
      Alike (.error (.refused refusal)) (.error (.refused other))

namespace Rules

theorem scopeFor_alike (rules : Rules) (tenant : Tenant) {statement other : Statement}
    (same : statement.lower = other.lower) :
    Alike (rules.scopeFor tenant statement) (rules.scopeFor tenant other) := by
  have blurred : Scope.blur (Scope.inject rules.scope tenant statement) =
      Scope.blur (Scope.inject rules.scope tenant other) := by
    rw [← Scope.inject_lower, same, Scope.inject_lower]
  rw [scopeFor, scopeFor]
  generalize Scope.inject rules.scope tenant statement = result at blurred ⊢
  generalize Scope.inject rules.scope tenant other = other_result at blurred ⊢
  rcases result with refusal | injected <;> rcases other_result with other_refusal | other_injected
  · exact .refused (Except.error.inj blurred)
  · cases blurred
  · cases blurred
  · have text_eq : lower injected.text = lower other_injected.text :=
      congrArg Statement.text (Except.ok.inj blurred)
    have verdict : rules.policy.rejection? injected.text =
        rules.policy.rejection? other_injected.text := by
      rw [← Policy.rejection?_lower, text_eq, Policy.rejection?_lower]
    simp only [verdict]
    cases rules.policy.rejection? other_injected.text with
    | some rejection => exact .rejected rejection
    | none => exact .rewritten text_eq

/-- Two received texts that differ at most in the case of letters are rewritten to such texts, or
they are both rejected for the same reason, or both refused for the same fault. -/
theorem rewrite_alike (rules : Rules) (tenant : Tenant) {received other : Text}
    (same : received.Alike other) :
    Alike (rules.rewrite tenant received).result (rules.rewrite tenant other).result := by
  have sanitized_eq : lower received.sanitize = lower other.sanitize := by
    rw [← sanitize_lower, same, sanitize_lower]
  have verdict : rules.policy.rejection? received.sanitize =
      rules.policy.rejection? other.sanitize := by
    rw [← Policy.rejection?_lower, sanitized_eq, Policy.rejection?_lower]
  have unqualified_eq : lower (TableName.unqualify rules.scope.database received.sanitize) =
      lower (TableName.unqualify rules.scope.database other.sanitize) := by
    rw [← TableName.unqualify_lower, sanitized_eq, TableName.unqualify_lower]
  rw [rewrite, rewrite, verdict]
  cases rules.policy.rejection? other.sanitize with
  | some rejection => exact .rejected rejection
  | none =>
      refine scopeFor_alike rules _ ?_
      have statement_eq : Statement.lower ⟨received, TableName.unqualify rules.scope.database
          received.sanitize⟩ = Statement.lower ⟨other, TableName.unqualify rules.scope.database
            other.sanitize⟩ := by
        rw [Statement.lower, same, unqualified_eq, Statement.lower]
      rw [repaired, repaired, ← Statement.repair_lower, statement_eq, Statement.repair_lower]

/-- A statement with words, names and an escape string in mixed case. -/
theorem rewrite_alike_mixed :
    Alike (rewrite {} { id := ascii "x" }
        (ascii "SELECT A FROM tenants WHERE E'\\'' = b LIMIT 1")).result
      (rewrite {} { id := ascii "x" }
        (ascii "select a From Tenants where e'\\'' = B limit 1")).result :=
  rewrite_alike {} _ (by decide +kernel)

end Rules

end TenantScope
