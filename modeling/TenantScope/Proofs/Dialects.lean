import TenantScope.Proofs.Lexemes
import TenantScope.Rewriting

/-!
# Literals that end at the same place in both dialects

The dialects differ on plain single-quoted literals: one of them takes a backslash for an ordinary
byte, the other takes the byte after it into the literal.  A text in which no backslash stands
directly before an apostrophe in such a literal is read in the same way by both, up to its last byte
and whether or not its literals are closed.  Policies allow no other text.
-/

namespace TenantScope

namespace Literal

/-! ## One literal -/

theorem backslashBeforeApostrophe?_cons {first second : Byte} {rest : Text} :
    backslashBeforeApostrophe? (first :: second :: rest) = none ↔
      ¬ (first = Byte.backslash ∧ second = Byte.apostrophe) ∧
        backslashBeforeApostrophe? (second :: rest) = none := by
  rw [backslashBeforeApostrophe?]
  split <;> simp_all

theorem backslashBeforeApostrophe?_tail {first : Byte} {rest : Text}
    (none_found : backslashBeforeApostrophe? (first :: rest) = none) :
    backslashBeforeApostrophe? rest = none := by
  cases rest with
  | nil => rfl
  | cons second rest => exact (backslashBeforeApostrophe?_cons.mp none_found).2

private theorem getD_map_add (length? : Option Nat) (count size : Nat) :
    (length?.map (· + count)).getD (size + count) = length?.getD size + count := by
  cases length? <;> rfl

/-- Without a backslash before an apostrophe, a literal closes at the same place whether or not
backslashes escape.  The literal is the part of the text through its closing mark, or all of it. -/
theorem closing?_escapes {text : Text}
    (none_found : backslashBeforeApostrophe?
      (text.take ((closing? Byte.apostrophe false text).getD text.length)) = none) :
    closing? Byte.apostrophe true text = closing? Byte.apostrophe false text := by
  fun_induction closing? Byte.apostrophe true text with
  | case1 => rfl
  | case2 byte escaped =>
      obtain rfl : byte = Byte.backslash := by simpa using escaped
      rfl
  | case3 byte escaped next rest ih =>
      obtain rfl : byte = Byte.backslash := by simpa using escaped
      have backslash_read : closing? Byte.apostrophe false (Byte.backslash :: next :: rest) =
          (closing? Byte.apostrophe false (next :: rest)).map (· + 1) :=
        closing?_cons (by decide) (by simp) _
      -- The escaped byte is no apostrophe, so the other dialect passes over it as well.
      have next_ne : next ≠ Byte.apostrophe := by
        rintro rfl
        have two_bytes : ∃ size,
            ((closing? Byte.apostrophe false (Byte.apostrophe :: rest)).map (· + 1)).getD
              (rest.length + 2) = size + 2 := by
          cases found : closing? Byte.apostrophe false (Byte.apostrophe :: rest) with
          | none => exact ⟨rest.length, rfl⟩
          | some length =>
              have last := getLast?_take_of_closing? found
              cases length with
              | zero => simp at last
              | succ length => exact ⟨length, rfl⟩
        obtain ⟨size, size_eq⟩ := two_bytes
        rw [backslash_read, List.length_cons, List.length_cons, size_eq, List.take_succ_cons,
          List.take_succ_cons, backslashBeforeApostrophe?_cons] at none_found
        exact none_found.1 ⟨rfl, rfl⟩
      have next_read : closing? Byte.apostrophe false (next :: rest) =
          (closing? Byte.apostrophe false rest).map (· + 1) :=
        closing?_cons next_ne (by simp) _
      have both_read : closing? Byte.apostrophe false (Byte.backslash :: next :: rest) =
          (closing? Byte.apostrophe false rest).map (· + 2) := by
        rw [backslash_read, next_read, Option.map_map]
        rfl
      rw [both_read, List.length_cons, List.length_cons, getD_map_add, List.take_succ_cons,
        List.take_succ_cons] at none_found
      rw [both_read,
        ih (backslashBeforeApostrophe?_tail (backslashBeforeApostrophe?_tail none_found))]
  | case4 byte plain same => simp [closing?, same]
  | case5 byte plain same next rest doubled ih =>
      have both_read : closing? Byte.apostrophe false (byte :: next :: rest) =
          (closing? Byte.apostrophe false rest).map (· + 2) := by
        simp [closing?, same, doubled]
      rw [both_read, List.length_cons, List.length_cons, getD_map_add, List.take_succ_cons,
        List.take_succ_cons] at none_found
      rw [both_read,
        ih (backslashBeforeApostrophe?_tail (backslashBeforeApostrophe?_tail none_found))]
  | case6 byte plain same next rest single => simp [closing?, same, single]
  | case7 byte rest plain other ih =>
      have byte_read : closing? Byte.apostrophe false (byte :: rest) =
          (closing? Byte.apostrophe false rest).map (· + 1) :=
        closing?_cons (by simpa using other) (by simp) _
      rw [byte_read, List.length_cons, getD_map_add, List.take_succ_cons] at none_found
      rw [byte_read, ih (backslashBeforeApostrophe?_tail none_found)]

/-! ## All literals of a text -/

/-- No backslash stands directly before an apostrophe in the literal at the place, or it is no plain
single-quoted one. -/
def Unambiguous (site : Site) : Prop :=
  site.byte? = some Byte.apostrophe → opensEscapeString site = false →
    backslashBeforeApostrophe? ((site.rest.take (width .standard site)).drop 1) = none

theorem ambiguousBackslash?_eq_none {text : Text} :
    ambiguousBackslash? text = none ↔ ∀ site ∈ (Site.start text).literals, Unambiguous site := by
  simp [ambiguousBackslash?, List.findSome?_eq_none_iff, Unambiguous]

theorem unambiguous_cons (back : Text) (mark : Byte) (rest : Text) (offset depth : Nat) :
    Unambiguous ⟨back, mark :: rest, offset, depth⟩ ↔
      (mark = Byte.apostrophe → escapesAfter .standard back mark = false →
        backslashBeforeApostrophe?
          (rest.take ((closing? mark false rest).getD rest.length)) = none) := by
  have opens_eq : opensEscapeString ⟨back, mark :: rest, offset, depth⟩ =
      escapesAfter .standard back mark := escapesAt_mk .standard back mark rest offset depth
  rw [Unambiguous, opens_eq, width_cons, List.take_succ_cons, List.drop_one, List.tail_cons]
  simp only [Site.byte?, List.head?_cons, Option.some.injEq]
  constructor <;> intro unambiguous same plain <;> simpa [plain] using unambiguous same plain

/-- At a literal without an ambiguous backslash the dialects find the same closing mark. -/
theorem closing?_dialects {site : Site} {mark : Byte} {rest : Text}
    (rest_eq : site.rest = mark :: rest) (unambiguous : Unambiguous site) :
    closing? mark (escapesAt .backslashes site) rest =
      closing? mark (escapesAt .standard site) rest := by
  obtain ⟨back, _, offset, depth⟩ := site
  simp only at rest_eq
  subst rest_eq
  rw [unambiguous_cons] at unambiguous
  rw [escapesAt_mk, escapesAt_mk]
  by_cases apostrophe : mark = Byte.apostrophe
  · subst apostrophe
    have always : escapesAfter .backslashes back Byte.apostrophe = true := by
      simp [escapesAfter]
    cases standard : escapesAfter .standard back Byte.apostrophe with
    | true => rw [always]
    | false =>
        rw [always]
        exact closing?_escapes (unambiguous rfl standard)
  · have other : (mark == Byte.apostrophe) = false := by simpa using apostrophe
    simp [escapesAfter, other]

theorem width_dialects {site : Site} (unambiguous : Unambiguous site) :
    width .standard site = width .backslashes site := by
  cases rest_eq : site.rest with
  | nil => simp [width, rest_eq]
  | cons mark rest => simp [width, rest_eq, closing?_dialects rest_eq unambiguous]

theorem closedAt_dialects {site : Site} (unambiguous : Unambiguous site) :
    closedAt .standard site = closedAt .backslashes site := by
  cases rest_eq : site.rest with
  | nil => simp [closedAt, rest_eq]
  | cons mark rest => simp [closedAt, rest_eq, closing?_dialects rest_eq unambiguous]

end Literal

namespace Site

open Literal

theorem lexemes_dialects {site : Site}
    (unambiguous : ∀ literal ∈ site.literals, Unambiguous literal) :
    site.lexemes .standard = site.lexemes .backslashes := by
  refine walk_congr fun lexeme member => ?_
  unfold lexemeWidth
  split
  · rename_i quote
    exact width_dialects (unambiguous lexeme (List.mem_filter.mpr ⟨member, quote⟩))
  · rfl

end Site

namespace Literal

/-- Where each literal of a text begins, where it ends and whether it is closed. -/
def boundaries (text : Text) (dialect : Dialect) : List (Nat × Nat × Bool) :=
  ((Site.start text).literals dialect).map fun site =>
    (site.offset, site.offset + width dialect site, closedAt dialect site)

theorem boundaries_dialects {text : Text}
    (unambiguous : ∀ literal ∈ (Site.start text).literals, Unambiguous literal) :
    boundaries text .standard = boundaries text .backslashes := by
  have same : (Site.start text).literals .standard = (Site.start text).literals .backslashes := by
    simp only [Site.literals, Site.lexemes_dialects unambiguous]
  rw [boundaries, boundaries, ← same]
  refine List.map_congr_left fun literal member => ?_
  rw [width_dialects (unambiguous literal member), closedAt_dialects (unambiguous literal member)]

/-! ## White space around a text -/

theorem backslashBeforeApostrophe?_eq_none {text : Text} (free : Byte.apostrophe ∉ text) :
    backslashBeforeApostrophe? text = none := by
  induction text with
  | nil => rfl
  | cons first rest ih =>
      have rest_free : Byte.apostrophe ∉ rest := fun member => free (List.mem_cons_of_mem _ member)
      cases rest with
      | nil => rfl
      | cons second rest =>
          refine backslashBeforeApostrophe?_cons.mpr ⟨?_, ih rest_free⟩
          rintro ⟨-, rfl⟩
          exact rest_free List.mem_cons_self

theorem backslashBeforeApostrophe?_append {text after : Text}
    (none_found : backslashBeforeApostrophe? text = none) (free : Byte.apostrophe ∉ after) :
    backslashBeforeApostrophe? (text ++ after) = none := by
  induction text with
  | nil => exact backslashBeforeApostrophe?_eq_none free
  | cons first rest ih =>
      have tail := ih (backslashBeforeApostrophe?_tail none_found)
      cases rest with
      | cons second rest =>
          exact backslashBeforeApostrophe?_cons.mpr
            ⟨(backslashBeforeApostrophe?_cons.mp none_found).1, tail⟩
      | nil =>
          cases after with
          | nil => rfl
          | cons second after =>
              refine backslashBeforeApostrophe?_cons.mpr ⟨?_, tail⟩
              rintro ⟨-, rfl⟩
              exact free List.mem_cons_self

theorem unambiguous_append {back text after : Text} {offset depth : Nat}
    (blank : ∀ byte ∈ after, byte.isSpace = true)
    (unambiguous : ∀ literal ∈ (Site.mk back text offset depth).literals, Unambiguous literal) :
    ∀ literal ∈ (Site.mk back (text ++ after) offset depth).literals, Unambiguous literal := by
  have free (mark : Byte) (quote : mark.isQuote = true) : mark ∉ after := fun member => by
    rw [Byte.isQuote_of_isSpace mark (blank mark member)] at quote
    simp at quote
  induction back, text using Site.lexeme_induction .standard generalizing offset depth with
  | nil back =>
      rw [List.nil_append, Site.literals_of_plain _ _ fun byte member =>
        Byte.isQuote_of_isSpace byte (blank byte member)]
      simp
  | code back byte rest plain ih =>
      rw [Site.literals_cons _ _ _ _ plain] at unambiguous
      rw [List.cons_append, Site.literals_cons _ _ _ _ plain]
      exact ih unambiguous
  | literal back mark literal rest quote closed ih =>
      have still_closed := Site.closing?_append_of_seam quote closed
        (Site.Seam.of_blank_right blank ((mark :: (literal ++ rest)).reverse ++ back))
      rw [Site.literals_literal _ _ _ _ _ quote closed] at unambiguous
      rw [List.cons_append, List.append_assoc,
        Site.literals_literal _ _ _ _ _ quote still_closed]
      rw [List.forall_mem_cons] at unambiguous ⊢
      refine ⟨?_, ih unambiguous.2⟩
      have here := unambiguous.1
      rw [unambiguous_cons] at here ⊢
      intro apostrophe plain
      rw [plain] at closed still_closed
      simpa [still_closed, closed] using here apostrophe plain
  | unclosed back mark rest quote unclosed =>
      have still_unclosed := closing?_append_eq_none unclosed (free mark quote)
      rw [Site.literals_unclosed _ _ _ _ quote unclosed] at unambiguous
      rw [List.cons_append, Site.literals_unclosed _ _ _ _ quote still_unclosed]
      simp only [List.mem_singleton, forall_eq] at unambiguous ⊢
      rw [unambiguous_cons] at unambiguous ⊢
      intro apostrophe plain
      rw [plain] at unclosed still_unclosed
      have none_found := unambiguous apostrophe plain
      rw [unclosed, Option.getD_none, List.take_length] at none_found
      rw [still_unclosed, Option.getD_none, List.take_length]
      exact backslashBeforeApostrophe?_append none_found (free _ rfl)

theorem unambiguous_precede {before inner text : Text} {offset depth offset' depth' : Nat}
    (same : Site.SameContext (inner ++ before) inner text)
    (unambiguous : ∀ literal ∈ (Site.mk inner text offset depth).literals, Unambiguous literal) :
    ∀ literal ∈ (Site.mk (inner ++ before) text offset' depth').literals,
      Unambiguous literal := by
  induction inner, text using Site.lexeme_induction .standard
      generalizing offset depth offset' depth' with
  | nil back => simp [Site.literals_nil]
  | code back byte rest plain ih =>
      rw [Site.literals_cons _ _ _ _ plain] at unambiguous ⊢
      exact ih same.cons unambiguous
  | literal back mark literal rest quote closed ih =>
      rw [Site.literals_literal _ _ _ _ _ quote closed] at unambiguous
      rw [Site.literals_literal _ _ _ _ _ quote (by rwa [same.escapesAfter_eq])]
      rw [List.forall_mem_cons] at unambiguous ⊢
      constructor
      · have here := unambiguous.1
        rw [unambiguous_cons] at here ⊢
        rwa [same.escapesAfter_eq]
      · have rest_same := Site.SameContext.literal quote closed back before
        exact List.append_assoc literal.reverse (mark :: back) before ▸
          ih (by simpa using rest_same) unambiguous.2
  | unclosed back mark rest quote unclosed =>
      rw [Site.literals_unclosed _ _ _ _ quote unclosed] at unambiguous
      rw [Site.literals_unclosed _ _ _ _ quote (by rwa [same.escapesAfter_eq])]
      simp only [List.mem_singleton, forall_eq] at unambiguous ⊢
      rw [unambiguous_cons] at unambiguous ⊢
      rwa [same.escapesAfter_eq]

theorem unambiguous_of_seam {before text : Text} (seam : Site.Seam before text)
    (unambiguous : ∀ literal ∈ (Site.start text).literals, Unambiguous literal)
    (offset depth : Nat) :
    ∀ literal ∈ (Site.mk before text offset depth).literals, Unambiguous literal :=
  unambiguous_precede seam.sameContext unambiguous

/-- White space around a text is of no account for its ambiguous backslashes. -/
theorem ambiguousBackslash?_of_trim {text : Text}
    (none_found : ambiguousBackslash? text.trim = none) : ambiguousBackslash? text = none := by
  obtain ⟨lead, trail, lead_blank, trail_blank, split⟩ := Text.exists_trim_append text
  rw [ambiguousBackslash?_eq_none] at none_found ⊢
  have lead_plain : ∀ byte ∈ lead, byte.isQuote = false := fun byte member =>
    Byte.isQuote_of_isSpace byte (lead_blank byte member)
  have seam : Site.Seam (lead.reverse ++ []) (text.trim ++ trail) :=
    Site.Seam.of_blank_left (by simpa using lead_blank) _
  have split_literals :=
    Site.literals_append 0 0 (Site.closed_of_plain 0 0 lead_plain) seam
  rw [Site.literals_of_plain 0 0 lead_plain, List.map_nil, List.nil_append, ← split]
    at split_literals
  intro literal member
  rw [Site.start, split_literals] at member
  exact unambiguous_of_seam seam (unambiguous_append trail_blank none_found) _ _ literal member

end Literal

/-! ## Texts that a policy allows -/

/-- A statement is allowed if none of the four groups of rules stands against it. -/
theorem Policy.rejection?_eq_none {policy : Policy} {text : Text} :
    policy.rejection? text = none ↔
      policy.openingRejection? text.trim = none ∧ policy.injectionRejection? text.trim = none ∧
        policy.wordRejection? text.trim = none ∧ policy.complexityRejection? text.trim = none := by
  simp [rejection?]

/-- A statement has no marks of injected text if nothing in it looks like one. -/
theorem Policy.injectionRejection?_eq_none {policy : Policy} {body : Text} :
    policy.injectionRejection? body = none ↔
      policy.failsClosed = false ∧ Literal.ambiguousBackslash? body = none ∧
        breaksOut body false (Site.start body).code = false ∧
        (∀ pattern ∈ policy.readPatterns, pattern.2.occursIn body = false) ∧
        isStacked body = false := by
  have passed {reason : Rejection} {stands : Prop} [Decidable stands] {others : Option Rejection} :
      (if stands then some reason else others) = none ↔ ¬ stands ∧ others = none := by
    by_cases holds : stands <;> simp [holds]
  unfold injectionRejection?
  rw [passed, passed, passed]
  cases found : policy.readPatterns.find? fun pattern => pattern.2.occursIn body with
  | none =>
      have absent := List.find?_eq_none.mp found
      simp only [Bool.not_eq_true] at absent
      simp only [eq_true absent]
      simp
  | some pattern =>
      have occurs := List.find?_some found
      have listed := List.mem_of_find?_eq_some found
      have present : ¬ ∀ pattern ∈ policy.readPatterns, pattern.2.occursIn body = false :=
        fun absent => by
        simp [absent pattern listed] at occurs
      simp only [eq_false present]
      simp

theorem Policy.ambiguousBackslash?_of_allowed {policy : Policy} {text : Text}
    (allowed : policy.rejection? text = none) : Literal.ambiguousBackslash? text = none :=
  Literal.ambiguousBackslash?_of_trim
    (injectionRejection?_eq_none.mp (rejection?_eq_none.mp allowed).2.1).2.1

theorem Rules.allowed_of_rewrite {rules : Rules} {tenant : Tenant} {received output : Text}
    (rewritten : (rules.rewrite tenant received).result = .ok output) :
    rules.policy.rejection? output = none := by
  simp only [rewrite] at rewritten
  split at rewritten
  · simp at rewritten
  · simp only [scopeFor] at rewritten
    split at rewritten
    · simp at rewritten
    · split at rewritten
      · simp at rewritten
      · rename_i allowed
        cases rewritten
        exact allowed

/-- The dialects read a text in the same way: its literals begin and end at the same places and are
closed or not alike, the bytes between them are the same, and so is its outline. -/
structure DialectsAgree (text : Text) : Prop where
  boundaries : Literal.boundaries text .standard = Literal.boundaries text .backslashes
  code : (Site.start text).code .standard = (Site.start text).code .backslashes
  outline : Outline.ofText text .standard = Outline.ofText text .backslashes

/-- The dialects agree on every text without an ambiguous backslash, on every text that some policy
allows and on every rewritten statement. -/
theorem dialects_agree {text : Text}
    (accepted : Literal.ambiguousBackslash? text = none ∨
      (∃ policy : Policy, policy.rejection? text = none) ∨
      ∃ (rules : Rules) (tenant : Tenant) (received : Text),
        (rules.rewrite tenant received).result = .ok text) :
    DialectsAgree text := by
  have none_found : Literal.ambiguousBackslash? text = none := by
    rcases accepted with none_found | ⟨policy, allowed⟩ | ⟨rules, tenant, received, rewritten⟩
    · exact none_found
    · exact Policy.ambiguousBackslash?_of_allowed allowed
    · exact Policy.ambiguousBackslash?_of_allowed (Rules.allowed_of_rewrite rewritten)
  have unambiguous := Literal.ambiguousBackslash?_eq_none.mp none_found
  have code_eq : (Site.start text).code .standard = (Site.start text).code .backslashes := by
    simp only [Site.code, Site.lexemes_dialects unambiguous]
  exact ⟨Literal.boundaries_dialects unambiguous, code_eq, by rw [Outline.ofText, code_eq]; rfl⟩

/-- An escape string, a doubled mark, a backslash inside a literal and one at the end of a literal
that nothing closes. -/
theorem dialects_agree_mixed :
    Literal.ambiguousBackslash?
        (Text.ascii "SELECT E'a\\'b', 'it''s', 'c\\d' FROM t WHERE x = 'e\\") = none ∧
      DialectsAgree (Text.ascii "SELECT E'a\\'b', 'it''s', 'c\\d' FROM t WHERE x = 'e\\") :=
  ⟨by decide +kernel, dialects_agree (.inl (by decide +kernel))⟩

end TenantScope
