import TenantScope.Proofs.Words
import TenantScope.Scope.Injection

/-!
# Marks

Few keywords tell where a predicate goes: those of the outline, those that come after every
condition, and `OR`.  A mark is an occurrence of one of them outside literals and parentheses.
Different marks never occur at one place, so what the outline says about a text and where its
condition ends can be read off the list of its marks.
-/

namespace TenantScope

/-- What a keyword does in the outermost query. -/
inductive Mark
  /-- It begins a clause. -/
  | clause (kind : Clause)
  /-- It names what the query reads from. -/
  | source
  /-- It combines queries. -/
  | combination
  /-- It ends the condition without beginning a clause of the outline. -/
  | later
  /-- It joins alternatives. -/
  | alternative
  deriving DecidableEq, Repr

namespace Mark

open Text

def all : List Mark :=
  Clause.all.map clause ++ [source, combination, later, alternative]

/-- The keywords that make a mark. -/
def keywords : Mark → List Text
  | clause kind => [kind.keyword]
  | source => [Outline.sourceKeyword]
  | combination => Outline.setOperators
  | later => Scope.laterKeywords
  | alternative => [ascii "OR"]

/-- The outline tells of the mark, unless it stands directly after a full stop. -/
def inOutline : Mark → Bool
  | later | alternative => false
  | _ => true

/-- No condition on rows goes on after the mark. -/
def isTail : Mark → Bool
  | clause kind => kind != .filter
  | later => true
  | _ => false

/-- A keyword of the mark occurs at the place. -/
def occursAt (mark : Mark) (site : Site) : Bool :=
  mark.keywords.any site.hasWord

/-- The mark occurs at the place, outside parentheses and not where it would be part of a name. -/
def countsAt (mark : Mark) (site : Site) : Bool :=
  site.depth == 0 && mark.occursAt site && !(mark.inOutline && site.afterDot)

theorem countsAt_iff {mark : Mark} {site : Site} :
    mark.countsAt site = true ↔
      site.depth = 0 ∧ mark.occursAt site = true ∧
        (mark.inOutline = true → site.afterDot = false) := by
  simp only [countsAt, Bool.and_eq_true, beq_iff_eq, Bool.not_eq_true', Bool.and_eq_false_imp,
    and_assoc]

theorem mem_all (mark : Mark) : mark ∈ all := by
  cases mark with
  | clause kind => cases kind <;> decide
  | _ => decide

/-- Every keyword is a name or one of the two phrases. -/
theorem keyword_cases {mark : Mark} {keyword : Text} (member : keyword ∈ mark.keywords) :
    IsName keyword ∨ keyword = ascii "GROUP" ++ Byte.blank :: ascii "BY" ∨
      keyword = ascii "ORDER" ++ Byte.blank :: ascii "BY" := by
  have table : ∀ mark ∈ all, ∀ keyword ∈ mark.keywords,
      IsName keyword ∨ keyword = ascii "GROUP" ++ Byte.blank :: ascii "BY" ∨
        keyword = ascii "ORDER" ++ Byte.blank :: ascii "BY" := by
    decide +kernel
  exact table mark (mem_all mark) keyword member

theorem isName_group : IsName (ascii "GROUP") := by
  decide +kernel

theorem isName_order : IsName (ascii "ORDER") := by
  decide +kernel

theorem isName_by : IsName (ascii "BY") := by
  decide +kernel

/-- The word at a place where a keyword occurs is the first word of the keyword. -/
theorem spoken_of_hasWord {mark : Mark} {keyword : Text} (member : keyword ∈ mark.keywords)
    {site : Site} (occurs : site.hasWord keyword = true) :
    site.spoken = keyword.takeWhile Byte.isIdentifier := by
  rcases keyword_cases member with is_name | rfl | rfl
  · rw [(Site.hasWord_of_isName is_name site).mp occurs,
      List.takeWhile_eq_self_iff.mpr is_name.identifiers]
  · exact ((Site.hasWord_phrase isName_group isName_by site).mp occurs).1
  · exact ((Site.hasWord_phrase isName_order isName_by site).mp occurs).1

/-- The mark that has a keyword with the given first word. -/
def ofWord? (word : Text) : Option Mark :=
  all.find? fun mark => mark.keywords.any fun keyword => keyword.takeWhile Byte.isIdentifier == word

/-- No two marks share a first word, so the word at a place tells which mark occurs there. -/
theorem ofWord?_spoken {mark : Mark} {site : Site} (occurs : mark.occursAt site = true) :
    ofWord? site.spoken = some mark := by
  have table : ∀ mark ∈ all, ∀ keyword ∈ mark.keywords,
      ofWord? (keyword.takeWhile Byte.isIdentifier) = some mark := by
    decide +kernel
  obtain ⟨keyword, member, occurs⟩ := List.any_eq_true.mp occurs
  rw [spoken_of_hasWord member occurs]
  exact table mark (mem_all mark) keyword member

theorem spoken_ne_of_occursAt {mark : Mark} {site : Site} (occurs : mark.occursAt site = true) :
    site.spoken ≠ [] := by
  intro silent
  have wordless : ofWord? [] = none := by decide +kernel
  have found := ofWord?_spoken occurs
  rw [silent, wordless] at found
  simp at found

/-- At most one mark occurs at a place. -/
theorem eq_of_occursAt {mark other : Mark} {site : Site} (occurs : mark.occursAt site = true)
    (other_occurs : other.occursAt site = true) : mark = other :=
  Option.some.inj ((ofWord?_spoken occurs).symm.trans (ofWord?_spoken other_occurs))

end Mark

/-- A mark and where it stands. -/
structure MarkAt where
  /-- Which mark. -/
  mark : Mark
  /-- Offset of its keyword. -/
  offset : Nat
  deriving DecidableEq, Repr

namespace Site

open Mark

/-- The mark at a place, if one counts there. -/
def mark? (site : Site) : Option Mark :=
  Mark.all.find? fun mark => mark.countsAt site

theorem mark?_eq_some {site : Site} {mark : Mark} :
    site.mark? = some mark ↔ mark.countsAt site = true := by
  constructor
  · exact fun found => List.find?_some (p := fun mark : Mark => mark.countsAt site) found
  · intro counts
    cases found : site.mark? with
    | none => exact absurd counts (List.find?_eq_none.mp found mark (Mark.mem_all mark))
    | some other =>
        have other_counts : other.countsAt site = true :=
          List.find?_some (p := fun mark : Mark => mark.countsAt site) found
        rw [eq_of_occursAt (countsAt_iff.mp counts).2.1 (countsAt_iff.mp other_counts).2.1]

/-- The mark at a place, with its offset. -/
def markAt? (site : Site) : Option MarkAt :=
  site.mark?.map fun mark => ⟨mark, site.offset⟩

/-- The marks from a place to the end. -/
def marks (site : Site) : List MarkAt :=
  site.code.filterMap markAt?

theorem any_markAt? (site : Site) (mark : Mark) :
    (site.markAt?.any fun found => found.mark == mark) = mark.countsAt site := by
  rw [markAt?, Option.any_map]
  cases counts : mark.countsAt site with
  | true => simp [mark?_eq_some.mpr counts]
  | false =>
      cases found : site.mark? with
      | none => rfl
      | some other =>
          have other_counts := mark?_eq_some.mp found
          have differs : other ≠ mark := by
            rintro rfl
            simp [other_counts] at counts
          simpa using differs

theorem mem_marks {site : Site} {mark : MarkAt} :
    mark ∈ site.marks ↔
      ∃ place ∈ site.code, place.mark? = some mark.mark ∧ place.offset = mark.offset := by
  simp only [marks, List.mem_filterMap, markAt?, Option.map_eq_some_iff]
  constructor
  · rintro ⟨place, member, found, found_eq, rfl⟩
    exact ⟨place, member, found_eq, rfl⟩
  · rintro ⟨place, member, found, offset_eq⟩
    exact ⟨place, member, mark.mark, found, by rw [offset_eq]⟩

/-- The first mark of a kind is at the first place where it counts. -/
theorem find?_marks (site : Site) (wanted : MarkAt → Bool) :
    (site.marks.find? wanted).map (·.offset) =
      (site.code.find? fun place => place.markAt?.any wanted).map (·.offset) := by
  rw [marks, List.find?_filterMap]
  cases found : site.code.find? fun place => place.markAt?.any wanted with
  | none => rfl
  | some place =>
      have holds := List.find?_some found
      cases marked : place.markAt? with
      | none => simp [marked] at holds
      | some mark =>
          obtain ⟨kind, -, rfl⟩ := Option.map_eq_some_iff.mp marked
          simp [marked]

end Site

namespace Outline

/-! ## The outline -/

theorem clauseAt?_eq_some {site : Site} {clause : Clause} :
    clauseAt? site = some clause ↔ (Mark.clause clause).occursAt site = true := by
  constructor
  · intro found
    simpa [Mark.occursAt, Mark.keywords] using List.find?_some found
  · intro occurs
    cases found : clauseAt? site with
    | none =>
        have absent := List.find?_eq_none.mp found clause (by cases clause <;> decide)
        simp [Mark.occursAt, Mark.keywords] at occurs
        exact absurd occurs absent
    | some other =>
        have other_occurs : (Mark.clause other).occursAt site = true := by
          simpa [Mark.occursAt, Mark.keywords] using List.find?_some found
        have same := Mark.eq_of_occursAt occurs other_occurs
        rw [Mark.clause.injEq] at same
        rw [same]

/-- Where a keyword of the outline occurs, its mark counts exactly when the outline takes note. -/
theorem counts_of_occursAt {mark : Mark} {site : Site} (occurs : mark.occursAt site = true)
    (in_outline : mark.inOutline = true) : counts site = mark.countsAt site := by
  have not_paren := Site.not_atParen_of_spoken_ne (Mark.spoken_ne_of_occursAt occurs)
  simp [counts, Site.isTopLevel, not_paren, Mark.countsAt, occurs, in_outline]

/-- Each clause is listed once, at the offset at which the outline has it. -/
def Listed (outline : Outline) : Prop :=
  ∀ found ∈ outline.clauses, outline.find? found.clause = some found.offset

theorem find?_addClause (outline : Outline) (clause other : Clause) (offset : Nat) :
    (outline.addClause other offset).find? clause =
      (outline.find? clause).or (if other = clause then some offset else none) := by
  unfold addClause find? ClauseAt.find?
  by_cases same : other = clause
  · subst same
    split
    · rename_i listed
      obtain ⟨found, member, found_eq⟩ := List.any_eq_true.mp listed
      cases known : outline.clauses.find? fun found => found.clause == other with
      | none => exact absurd found_eq (by simpa using List.find?_eq_none.mp known found member)
      | some found => simp
    · rw [if_pos rfl, List.find?_append]
      cases outline.clauses.find? fun found => found.clause == other <;> simp
  · split <;> simp [List.find?_append, same]

theorem source?_addClause (outline : Outline) (clause : Clause) (offset : Nat) :
    (outline.addClause clause offset).source? = outline.source? := by
  unfold addClause
  split <;> rfl

theorem listed_addClause {outline : Outline} (listed : outline.Listed) (clause : Clause)
    (offset : Nat) : (outline.addClause clause offset).Listed := by
  intro found member
  rw [find?_addClause]
  unfold addClause at member
  split at member
  · rw [listed found member]
    rfl
  · rename_i fresh
    simp only [List.mem_append, List.mem_singleton] at member
    rcases member with member | rfl
    · rw [listed found member]
      rfl
    · have unknown : outline.find? clause = none := by
        simpa [find?, ClauseAt.find?] using fresh
      simp [unknown]

theorem occursAt_source {site : Site} :
    Mark.source.occursAt site = (site.word? sourceKeyword).isSome := by
  simp [Mark.occursAt, Mark.keywords, Site.hasWord]

/-- Taking note of a place changes what the outline says about the mark there and nothing else. -/
theorem find?_note (outline : Outline) (site : Site) (clause : Clause) :
    (note outline site).find? clause =
      (outline.find? clause).or
        (if (Mark.clause clause).occursAt site then some site.offset else none) := by
  unfold note
  split
  · rename_i other found
    rw [clauseAt?_eq_some] at found
    have occurs_iff : (Mark.clause clause).occursAt site = true ↔ other = clause := by
      constructor
      · intro occurs
        simpa using Mark.eq_of_occursAt found occurs
      · rintro rfl
        exact found
    rw [find?_addClause]
    simp only [occurs_iff]
  · rename_i not_found
    have absent : (Mark.clause clause).occursAt site = false := by
      refine Bool.eq_false_iff.mpr fun occurs => ?_
      rw [clauseAt?_eq_some.mpr occurs] at not_found
      simp at not_found
    rw [absent]
    have kept : ∀ length, (outline.addSource site length).clauses = outline.clauses := by
      intro length
      unfold addSource
      split <;> rfl
    split
    · simp [find?, kept]
    · split <;> simp [find?]

theorem source?_note (outline : Outline) (site : Site) :
    (note outline site).source?.map (·.offset) =
      (outline.source?.map (·.offset)).or
        (if Mark.source.occursAt site then some site.offset else none) := by
  unfold note
  split
  · rename_i clause found
    rw [clauseAt?_eq_some] at found
    have absent : Mark.source.occursAt site = false :=
      Bool.eq_false_iff.mpr fun occurs => by
        simpa using Mark.eq_of_occursAt found occurs
    simp [absent, source?_addClause]
  · rw [occursAt_source]
    split
    · rename_i length found
      unfold addSource
      cases known : outline.source? <;> simp [found, known]
    · rename_i not_found
      split <;> simp [not_found]

theorem compound_note (outline : Outline) (site : Site) :
    (note outline site).compound = (outline.compound || Mark.combination.occursAt site) := by
  unfold note
  split
  · rename_i clause found
    rw [clauseAt?_eq_some] at found
    have absent : Mark.combination.occursAt site = false :=
      Bool.eq_false_iff.mpr fun occurs => by
        simpa using Mark.eq_of_occursAt found occurs
    unfold addClause
    split <;> simp [absent]
  · split
    · rename_i length found
      have source_occurs : Mark.source.occursAt site = true := by simp [occursAt_source, found]
      have absent : Mark.combination.occursAt site = false :=
        Bool.eq_false_iff.mpr fun occurs => by simpa using Mark.eq_of_occursAt source_occurs occurs
      unfold addSource
      split <;> simp [absent]
    · split <;> simp_all [Mark.occursAt, Mark.keywords]

theorem listed_note {outline : Outline} (listed : outline.Listed) (site : Site) :
    (note outline site).Listed := by
  unfold note
  split
  · exact listed_addClause listed _ _
  · split
    · unfold addSource
      split <;> exact listed
    · split <;> exact listed

theorem find?_foldl_note (sites : List Site) (outline : Outline) (clause : Clause) :
    (sites.foldl note outline).find? clause =
      (outline.find? clause).or
        ((sites.find? (Mark.clause clause).occursAt).map (·.offset)) := by
  induction sites generalizing outline with
  | nil => simp
  | cons site sites ih =>
      rw [List.foldl_cons, ih, find?_note, List.find?_cons, Option.or_assoc]
      cases (Mark.clause clause).occursAt site <;> simp

theorem source?_foldl_note (sites : List Site) (outline : Outline) :
    (sites.foldl note outline).source?.map (·.offset) =
      (outline.source?.map (·.offset)).or
        ((sites.find? Mark.source.occursAt).map (·.offset)) := by
  induction sites generalizing outline with
  | nil => simp
  | cons site sites ih =>
      rw [List.foldl_cons, ih, source?_note, List.find?_cons, Option.or_assoc]
      cases Mark.source.occursAt site <;> simp

theorem compound_foldl_note (sites : List Site) (outline : Outline) :
    (sites.foldl note outline).compound =
      (outline.compound || sites.any Mark.combination.occursAt) := by
  induction sites generalizing outline with
  | nil => simp
  | cons site sites ih =>
      rw [List.foldl_cons, ih, compound_note, List.any_cons, Bool.or_assoc]

theorem listed_foldl_note {outline : Outline} (listed : outline.Listed) (sites : List Site) :
    (sites.foldl note outline).Listed := by
  induction sites generalizing outline with
  | nil => exact listed
  | cons site sites ih => exact ih (listed_note listed site)

/-- The marks of a text. -/
def marks (text : Text) : List MarkAt :=
  (Site.start text).marks

private theorem counts_and_occursAt {mark : Mark} (in_outline : mark.inOutline = true)
    (site : Site) :
    (counts site && mark.occursAt site) = site.markAt?.any fun found => found.mark == mark := by
  rw [Site.any_markAt?]
  cases occurs : mark.occursAt site with
  | true => rw [counts_of_occursAt occurs in_outline, Bool.and_true]
  | false => simp [Mark.countsAt, occurs]

private theorem find?_filter_counts {mark : Mark} (in_outline : mark.inOutline = true)
    (text : Text) :
    ((((Site.start text).code).filter counts).find? mark.occursAt).map (·.offset) =
      ((marks text).find? fun found => found.mark == mark).map (·.offset) := by
  rw [List.find?_filter, marks, Site.find?_marks]
  simp only [Bool.decide_and, Bool.decide_eq_true, counts_and_occursAt in_outline]

/-- The outline has a clause where its first mark is. -/
theorem find?_ofText (text : Text) (clause : Clause) :
    (ofText text).find? clause =
      ((marks text).find? fun found => found.mark == .clause clause).map (·.offset) := by
  rw [ofText, find?_foldl_note, find?_filter_counts rfl]
  rfl

/-- The outline has the source where its first mark is. -/
theorem source?_ofText (text : Text) :
    (ofText text).source?.map (·.offset) =
      ((marks text).find? fun found => found.mark == .source).map (·.offset) := by
  rw [ofText, source?_foldl_note, find?_filter_counts rfl]
  rfl

/-- The outline tells of a combination when a text has such a mark. -/
theorem compound_ofText (text : Text) :
    (ofText text).compound = (marks text).any fun found => found.mark == .combination := by
  have in_outline : Mark.combination.inOutline = true := rfl
  rw [ofText, compound_foldl_note, List.any_filter, marks, Site.marks, List.any_filterMap]
  simp only [counts_and_occursAt in_outline, empty, Bool.false_or]
  rfl

theorem listed_ofText (text : Text) : (ofText text).Listed := by
  refine listed_foldl_note (fun found member => ?_) _
  simp [empty] at member

end Outline

/-! ## The order of the marks -/

open Outline in
theorem pairwise_marks (text : Text) :
    (marks text).Pairwise fun earlier later => earlier.offset < later.offset := by
  refine List.Pairwise.filterMap _ (fun earlier later ordered mark marked other other_marked => ?_)
    (Site.pairwise_code_start text)
  obtain ⟨_, -, rfl⟩ := Option.map_eq_some_iff.mp marked
  obtain ⟨_, -, rfl⟩ := Option.map_eq_some_iff.mp other_marked
  exact ordered

/-- The first element of an ordered list with a property comes before all others with it. -/
theorem offset_le_of_find? {element : Type} {offset : element → Nat} {list : List element}
    (ordered : list.Pairwise fun earlier later => offset earlier < offset later)
    {wanted : element → Bool} {first other : element} (found : list.find? wanted = some first)
    (member : other ∈ list) (holds : wanted other = true) : offset first ≤ offset other := by
  obtain ⟨-, before, after, rfl, none_before⟩ := List.find?_eq_some_iff_append.mp found
  rcases List.mem_append.mp member with member | member
  · have fails := none_before other member
    simp [holds] at fails
  · rcases List.mem_cons.mp member with rfl | member
    · exact Nat.le_refl _
    · have later := (List.pairwise_cons.mp (List.pairwise_append.mp ordered).2.1).1 other member
      exact Nat.le_of_lt later

/-- In an ordered list the elements before a bound come first. -/
theorem takeWhile_offset_lt {element : Type} {offset : element → Nat} {list : List element}
    (ordered : list.Pairwise fun earlier later => offset earlier < offset later) (stop : Nat) :
    (list.takeWhile fun found => offset found < stop) =
      list.filter fun found => offset found < stop := by
  induction list with
  | nil => rfl
  | cons first rest ih =>
      rw [List.pairwise_cons] at ordered
      by_cases before : offset first < stop
      · simp [before, ih ordered.2]
      · have none_before : rest.filter (fun found => decide (offset found < stop)) = [] := by
          refine List.filter_eq_nil_iff.mpr fun found member => ?_
          have later := ordered.1 found member
          simp only [decide_eq_true_eq]
          omega
        simp [before, none_before]

end TenantScope
