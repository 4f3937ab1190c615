import TenantScope.Proofs.Respacing
import TenantScope.Proofs.Signs

/-!
# Clauses and their regions

The outline lists the signs that begin a clause for the first time.  The region of a clause runs
through the signs after it, up to the next one that is listed, or else to the end of the body,
behind which no sign stands.
-/

namespace TenantScope

open Text Site Literal

/-! ## Clauses for the first time -/

namespace Sign

/-- The clause that a sign begins. -/
def clause? : Sign → Option Clause
  | clause kind => some kind
  | _ => none

theorem clause?_eq_some {sign : Sign} {kind : Clause} :
    sign.clause? = some kind ↔ sign = clause kind := by
  cases sign <;> simp [clause?]

section Newcomers

variable {element : Type} (begins? : element → Option Clause)

/-- The element begins no clause, or one that has been seen. -/
def isOld (seen : List Clause) (found : element) : Bool :=
  (begins? found).all (· ∈ seen)

/-- The elements that begin a clause for the first time, where some clauses have been seen. -/
def newcomers (seen : List Clause) : List element → List element
  | [] => []
  | found :: others =>
      (if isOld begins? seen found then [] else [found]) ++
        newcomers (seen ++ (begins? found).toList) others

variable {begins?}

theorem isOld_of_subset {seen more : List Clause} (subset : seen ⊆ more) {found : element}
    (old : isOld begins? seen found = true) : isOld begins? more found = true := by
  rw [isOld] at old ⊢
  cases begun : begins? found with
  | none => rfl
  | some kind =>
      simp only [begun, Option.all_some, decide_eq_true_eq] at old ⊢
      exact subset old

theorem filterMap_cons_toList {target : Type} (view : element → Option target) (first : element)
    (others : List element) :
    (first :: others).filterMap view = (view first).toList ++ others.filterMap view := by
  rw [List.filterMap_cons]
  cases view first <;> rfl

theorem newcomers_append (seen : List Clause) (found others : List element) :
    newcomers begins? seen (found ++ others) =
      newcomers begins? seen found ++
        newcomers begins? (seen ++ found.filterMap begins?) others := by
  induction found generalizing seen with
  | nil => simp [newcomers]
  | cons first found ih =>
      simp only [List.cons_append, newcomers, ih, filterMap_cons_toList begins?, List.append_assoc]

theorem newcomers_of_old {seen : List Clause} {found : List element}
    (old : ∀ sign ∈ found, isOld begins? seen sign = true) : newcomers begins? seen found = [] := by
  induction found generalizing seen with
  | nil => rfl
  | cons first found ih =>
      rw [List.forall_mem_cons] at old
      rw [newcomers, if_pos old.1, List.nil_append]
      exact ih fun sign member => isOld_of_subset (by simp) (old.2 sign member)

theorem newcomers_map {other : Type} (view : other → element) (seen : List Clause)
    (found : List other) :
    newcomers begins? seen (found.map view) =
      (newcomers (fun other => begins? (view other)) seen found).map view := by
  induction found generalizing seen with
  | nil => rfl
  | cons first found ih =>
      rw [List.map_cons, newcomers, newcomers, ih, List.map_append]
      change (if isOld begins? seen (view first) then [] else [view first]) ++ _ =
        (if isOld begins? seen (view first) then [] else [first]).map view ++ _
      split <;> rfl

theorem newcomers_sublist (seen : List Clause) (found : List element) :
    (newcomers begins? seen found).Sublist found := by
  induction found generalizing seen with
  | nil => exact List.Sublist.slnil
  | cons first found ih =>
      rw [newcomers]
      split
      · exact (ih _).cons first
      · exact (ih _).cons_cons first

/-- Only which clauses have been seen matters. -/
theorem isOld_congr {seen other : List Clause} (same : ∀ kind, kind ∈ seen ↔ kind ∈ other) :
    isOld begins? seen = isOld begins? other := by
  funext found
  simp only [isOld, same]

theorem newcomers_congr {seen other : List Clause} (same : ∀ kind, kind ∈ seen ↔ kind ∈ other)
    (found : List element) : newcomers begins? seen found = newcomers begins? other found := by
  induction found generalizing seen other with
  | nil => rfl
  | cons first found ih =>
      rw [newcomers, newcomers, isOld_congr same, ih]
      simp [same]

/-- One more clause that has been seen is no newcomer any more. -/
theorem newcomers_of_seen (seen : List Clause) (kind : Clause) (found : List element) :
    newcomers begins? (kind :: seen) found =
      (newcomers begins? seen found).filter fun sign => begins? sign != some kind := by
  induction found generalizing seen with
  | nil => rfl
  | cons first found ih =>
      have tail := ih (seen ++ (begins? first).toList)
      rw [newcomers, newcomers, List.filter_append, ← tail, ← List.cons_append]
      congr 1
      cases begun : begins? first with
      | none => simp [isOld, begun]
      | some other =>
          by_cases known : other ∈ seen
          · simp [isOld, begun, known]
          · by_cases same : other = kind <;> simp [isOld, begun, known, same]

/-- The newcomers begin the clauses that have not been seen. -/
theorem mem_newcomers {seen : List Clause} {found : List element} {kind : Clause} :
    kind ∈ (newcomers begins? seen found).filterMap begins? ↔
      kind ∈ found.filterMap begins? ∧ kind ∉ seen := by
  induction found generalizing seen with
  | nil => simp [newcomers]
  | cons first found ih =>
      rw [newcomers, List.filterMap_append, List.mem_append, ih, filterMap_cons_toList,
        List.mem_append]
      cases begun : begins? first with
      | none => simp [isOld, begun]
      | some other =>
          by_cases known : other ∈ seen
          · have apart : kind ∉ seen → kind ≠ other := fun unseen same => unseen (same ▸ known)
            simp only [isOld, begun, Option.all_some, known, decide_true, if_true,
              List.filterMap_nil, List.not_mem_nil, false_or, Option.toList_some, List.mem_append,
              List.mem_singleton, not_or]
            exact ⟨fun ⟨member, unseen, _⟩ => ⟨.inr member, unseen⟩, fun ⟨member, unseen⟩ =>
              ⟨member.resolve_left (apart unseen), unseen, apart unseen⟩⟩
          · have kept : (if isOld begins? seen first then [] else [first]).filterMap begins? =
                [other] := by
              simp [isOld, begun, known]
            rw [kept]
            simp only [Option.toList_some, List.mem_append, List.mem_singleton, not_or]
            constructor
            · rintro (rfl | ⟨member, unseen, -⟩)
              · exact ⟨.inl rfl, known⟩
              · exact ⟨.inr member, unseen⟩
            · rintro ⟨member, unseen⟩
              by_cases same : kind = other
              · exact .inl same
              · exact .inr ⟨member.resolve_left same, unseen, same⟩

/-- Behind a clause that comes first, only what is old may be left out. -/
theorem newcomers_of_region {before inside : List element} {own : element} {kind : Clause}
    (own_eq : begins? own = some kind) (first : kind ∉ before.filterMap begins?)
    (old : ∀ sign ∈ inside, isOld begins? (before.filterMap begins? ++ [kind]) sign = true)
    (after : List element) :
    newcomers begins? [] (before ++ own :: (inside ++ after)) =
      newcomers begins? [] before ++
        own :: newcomers begins? (before.filterMap begins? ++ [kind]) after := by
  have new : isOld begins? (before.filterMap begins?) own = false := by
    simpa [isOld, own_eq] using first
  rw [newcomers_append, List.nil_append, newcomers, new, if_neg Bool.false_ne_true, own_eq,
    Option.toList_some, newcomers_append, newcomers_of_old old, List.nil_append,
    List.singleton_append]
  congr 2
  refine newcomers_congr (fun other => ?_) after
  rw [List.mem_append, or_iff_left_of_imp]
  intro begun
  obtain ⟨sign, member, sign_eq⟩ := List.mem_filterMap.mp begun
  have known := old sign member
  rw [isOld, sign_eq] at known
  simpa using known

end Newcomers

/-- The clauses that signs begin for the first time, in their order. -/
def order (signs : List Sign) : List Clause :=
  (newcomers clause? [] signs).filterMap clause?

end Sign

/-- The sign of a clause. -/
def ClauseAt.toSign (found : ClauseAt) : SignAt :=
  ⟨.clause found.clause, found.offset⟩

/-- The clause that a sign at its place begins. -/
def SignAt.clause? (found : SignAt) : Option Clause :=
  found.sign.clause?

namespace Outline

theorem map_clause (clauses : List ClauseAt) :
    clauses.map (·.clause) = (clauses.map ClauseAt.toSign).filterMap SignAt.clause? := by
  simp [List.filterMap_map, Function.comp_def, ClauseAt.toSign, SignAt.clause?, Sign.clause?]

theorem clauseAt?_eq_of_counts {site : Site} (counted : counts site = true) :
    clauseAt? site = site.sign?.bind Sign.clause? := by
  have clause_iff (kind : Clause) : clauseAt? site = some kind ↔
      site.sign?.bind Sign.clause? = some kind := by
    simp only [counts, Site.isTopLevel, Bool.and_eq_true, beq_iff_eq, Bool.not_eq_true'] at counted
    rw [clauseAt?_eq_some]
    have signed := @Sign.countsAt_clause kind site
    rw [Mark.countsAt_iff] at signed
    simp only [counted.1.1, counted.2, true_and, implies_true, and_true] at signed
    rw [signed, Option.bind_eq_some_iff]
    simp [Sign.clause?_eq_some]
  cases clause_eq : clauseAt? site with
  | none =>
      cases begun : site.sign?.bind Sign.clause? with
      | none => rfl
      | some kind => simp [(clause_iff kind).mpr begun] at clause_eq
  | some kind => exact ((clause_iff kind).mp clause_eq).symm

/-- Taking note of a place adds the clause there, unless it has been seen. -/
theorem clauses_note_eq (outline : Outline) {site : Site} (counted : counts site = true) :
    (note outline site).clauses.map ClauseAt.toSign =
      outline.clauses.map ClauseAt.toSign ++
        Sign.newcomers SignAt.clause? (outline.clauses.map (·.clause)) site.signAt?.toList := by
  have clause_eq := clauseAt?_eq_of_counts counted
  unfold note
  cases found : clauseAt? site with
  | none =>
      rw [found] at clause_eq
      have nothing : Sign.newcomers SignAt.clause? (outline.clauses.map (·.clause))
          site.signAt?.toList = [] := by
        refine Sign.newcomers_of_old fun sign member => ?_
        simp only [signAt?, Option.mem_toList, Option.map_eq_some_iff] at member
        obtain ⟨kind, signed, rfl⟩ := member
        rw [signed, Option.bind_some] at clause_eq
        simp [Sign.isOld, SignAt.clause?, ← clause_eq]
      rw [nothing, List.append_nil]
      congr 1
      simp only
      split
      · unfold addSource
        split <;> rfl
      · split <;> rfl
  | some kind =>
      rw [found] at clause_eq
      obtain ⟨sign, signed, begun⟩ := Option.bind_eq_some_iff.mp clause_eq.symm
      obtain rfl := Sign.clause?_eq_some.mp begun
      have listed : (outline.clauses.any fun found => found.clause == kind) =
          Sign.isOld SignAt.clause? (outline.clauses.map (·.clause))
            ⟨.clause kind, site.offset⟩ := by
        rw [Bool.eq_iff_iff]
        simp [Sign.isOld, SignAt.clause?, Sign.clause?]
      have one : site.signAt?.toList = [⟨.clause kind, site.offset⟩] := by
        simp [signAt?, signed]
      rw [one, Sign.newcomers, Sign.newcomers, List.append_nil, ← listed]
      unfold addClause
      by_cases known : (outline.clauses.any fun found => found.clause == kind) = true
      · simp only [known, if_true, List.append_nil]
      · simp only [known, Bool.false_eq_true, if_false, List.map_append]
        rfl

/-- The outline lists the signs that begin a clause for the first time. -/
theorem clauses_ofText (text : Text) :
    (ofText text).clauses.map ClauseAt.toSign =
      Sign.newcomers SignAt.clause? [] (start text).signs := by
  have noted (sites : List Site) (counted : ∀ site ∈ sites, counts site = true)
      (outline : Outline) : (sites.foldl note outline).clauses.map ClauseAt.toSign =
        outline.clauses.map ClauseAt.toSign ++
          Sign.newcomers SignAt.clause? (outline.clauses.map (·.clause))
            (sites.filterMap signAt?) := by
    induction sites generalizing outline with
    | nil => simp [Sign.newcomers]
    | cons site sites ih =>
        rw [List.forall_mem_cons] at counted
        have first := clauses_note_eq outline counted.1
        rw [List.foldl_cons, ih counted.2, Sign.filterMap_cons_toList signAt?,
          Sign.newcomers_append, first, List.append_assoc]
        congr 2
        refine Sign.newcomers_congr (fun kind => ?_) _
        rw [map_clause, first, List.filterMap_append, ← map_clause, List.mem_append,
          List.mem_append, Sign.mem_newcomers, or_and_left]
        exact and_iff_left (em _)
  have counted : (((start text).code.filter counts).filterMap signAt?) =
      (start text).code.filterMap signAt? := by
    rw [List.filterMap_filter]
    refine List.filterMap_congr fun site _ => ?_
    split
    · rfl
    · rename_i uncounted
      cases signed : site.sign? with
      | none => simp [signAt?, signed]
      | some sign =>
          have placed := (sign?_eq_some.mp signed).1
          have flat := not_atParen_of_spoken_ne (spoken_ne_of_sign? signed)
          exact absurd (by simp [counts, isTopLevel, flat, placed]) uncounted
  rw [ofText, noted _ fun site member => (List.mem_filter.mp member).2, counted]
  rfl

/-- A clause is found where its sign is listed. -/
theorem find?_of_listed {text : Text} {kind : Clause} {offset : Nat}
    (listed : ⟨.clause kind, offset⟩ ∈ (ofText text).clauses.map ClauseAt.toSign) :
    (ofText text).find? kind = some offset := by
  obtain ⟨⟨other, place⟩, member, same⟩ := List.mem_map.mp listed
  simp only [ClauseAt.toSign, SignAt.mk.injEq, Sign.clause.injEq] at same
  obtain ⟨rfl, rfl⟩ := same
  exact mem_clauses_iff.mp member

/-- The clauses are listed in the order of their signs. -/
theorem clauses_sublist (text : Text) :
    ((ofText text).clauses.map ClauseAt.toSign).Sublist (start text).signs :=
  clauses_ofText text ▸ Sign.newcomers_sublist _ _

end Outline

/-! ## Where a region ends -/

namespace Site

/-- The signs of a text stand in its order. -/
theorem pairwise_signs (text : Text) :
    (start text).signs.Pairwise fun earlier later => earlier.offset < later.offset := by
  rw [signs, List.pairwise_filterMap]
  refine (pairwise_code_start text).imp
    fun {earlier later} before first first_mem second second_mem => ?_
  obtain ⟨-, -, rfl⟩ := Option.map_eq_some_iff.mp first_mem
  obtain ⟨-, -, rfl⟩ := Option.map_eq_some_iff.mp second_mem
  exact before

theorem mem_signs {site : Site} {found : SignAt} :
    found ∈ site.signs ↔
      ∃ place ∈ site.code, place.sign? = some found.sign ∧ place.offset = found.offset := by
  rw [signs, List.mem_filterMap]
  refine exists_congr fun place => and_congr_right fun _ => ?_
  obtain ⟨sign, offset⟩ := found
  simp [signAt?, SignAt.mk.injEq, Option.map_eq_some_iff]

end Site

namespace Statement

theorem bodyEnd_semicolon {body spaces : Text} (blank : ∀ byte ∈ spaces, byte.isSpace = true) :
    bodyEnd (body ++ Byte.semicolon :: spaces) = body.length := by
  have dropped : (body ++ Byte.semicolon :: spaces).reverse.dropWhile Byte.isSpace =
      Byte.semicolon :: body.reverse := by
    rw [List.reverse_append, List.reverse_cons, List.append_assoc,
      List.dropWhile_append_of_pos fun byte member => blank byte (List.mem_reverse.mp member)]
    exact List.dropWhile_cons_of_neg (by decide)
  rw [bodyEnd, dropped]
  simp

theorem bodyEnd_of_visible {body spaces : Text} (blank : ∀ byte ∈ spaces, byte.isSpace = true)
    (visible : ∀ last ∈ body.getLast?, Token.trails last = false) :
    bodyEnd (body ++ spaces) = body.length := by
  have dropped : (body ++ spaces).reverse.dropWhile Byte.isSpace =
      body.reverse.dropWhile Byte.isSpace := by
    rw [List.reverse_append,
      List.dropWhile_append_of_pos fun byte member => blank byte (List.mem_reverse.mp member)]
  rw [bodyEnd, dropped]
  rcases List.eq_nil_or_concat body with rfl | ⟨front, last, rfl⟩
  · rfl
  · have kept := visible last (by simp)
    simp only [Token.trails, Bool.or_eq_false_iff, beq_eq_false_iff_ne] at kept
    rw [List.concat_eq_append, List.reverse_concat, List.dropWhile_cons_of_neg (by simp [kept.2])]
    simp [kept.1]

/-- A text is its body with white space after it, before which a semicolon may stand. -/
theorem exists_body (text : Text) :
    ∃ body spaces, (∀ byte ∈ spaces, byte.isSpace = true) ∧ bodyEnd text = body.length ∧
      (text = body ++ Byte.semicolon :: spaces ∨
        text = body ++ spaces ∧ ∀ last ∈ body.getLast?, Token.trails last = false) := by
  obtain ⟨trail, blank, split⟩ : ∃ trail : Text, (∀ byte ∈ trail, byte.isSpace = true) ∧
      text = (text.reverse.dropWhile Byte.isSpace).reverse ++ trail := by
    refine ⟨(text.reverse.takeWhile Byte.isSpace).reverse, fun byte member => ?_, ?_⟩
    · exact List.mem_takeWhile_imp (List.mem_reverse.mp member)
    · rw [← List.reverse_append, List.takeWhile_append_dropWhile, List.reverse_reverse]
  have stops := List.head?_dropWhile_not Byte.isSpace text.reverse
  cases dropped : text.reverse.dropWhile Byte.isSpace with
  | nil =>
      rw [dropped, List.reverse_nil] at split
      have visible : ∀ last ∈ ([] : Text).getLast?, Token.trails last = false := by simp
      exact ⟨[], trail, blank, split ▸ bodyEnd_of_visible blank visible, .inr ⟨split, visible⟩⟩
  | cons last body =>
      rw [dropped, List.reverse_cons] at split
      have shown : last.isSpace = false := by simpa [dropped] using stops
      by_cases semicolon : last = Byte.semicolon
      · subst semicolon
        rw [List.append_assoc, List.singleton_append] at split
        exact ⟨body.reverse, trail, blank, split ▸ bodyEnd_semicolon blank, .inl split⟩
      · have visible : ∀ final ∈ (body.reverse ++ [last]).getLast?, Token.trails final = false := by
          simp [Token.trails, semicolon, shown]
        exact ⟨_, trail, blank, split ▸ bodyEnd_of_visible blank visible, .inr ⟨split, visible⟩⟩

/-- Behind the body there are semicolons and white space at most. -/
theorem trails_of_mem_drop (text : Text) :
    ∀ byte ∈ text.drop (bodyEnd text), Token.trails byte = true := by
  obtain ⟨body, spaces, blank, length_eq, split⟩ := exists_body text
  have trails := Token.trails_of_blank blank
  rw [length_eq]
  rcases split with split | ⟨split, -⟩
  · rw [split, List.drop_left, List.forall_mem_cons]
    exact ⟨by decide, trails⟩
  · rw [split, List.drop_left]
    exact trails

/-- The end of a body depends on the last byte before it only. -/
theorem bodyEnd_append {text other : Text}
    (same : other.getLast? = (text.take (bodyEnd text)).getLast?) :
    bodyEnd (other ++ text.drop (bodyEnd text)) = other.length := by
  obtain ⟨body, spaces, blank, length_eq, split⟩ := exists_body text
  rw [length_eq] at same ⊢
  rcases split with split | ⟨split, visible⟩
  · rw [split, List.drop_left]
    exact bodyEnd_semicolon blank
  · rw [split, List.take_left] at same
    rw [split, List.drop_left]
    exact bodyEnd_of_visible blank (same ▸ visible)

/-- A body ends where it ends without what comes before it. -/
theorem bodyEnd_append_left {text : Text} (nonempty : 0 < bodyEnd text) (before : Text) :
    bodyEnd (before ++ text) = before.length + bodyEnd text := by
  obtain ⟨body, spaces, blank, length_eq, split⟩ := exists_body text
  rw [length_eq, ← List.length_append]
  rcases split with split | ⟨split, visible⟩
  · rw [split, ← List.append_assoc]
    exact bodyEnd_semicolon blank
  · rw [split, ← List.append_assoc]
    refine bodyEnd_of_visible blank fun last last_eq => visible last ?_
    rwa [List.getLast?_append_of_ne_nil _ (List.ne_nil_of_length_pos (length_eq ▸ nonempty))]
      at last_eq

/-- From a place in a body on the text has the rest of it for a body. -/
theorem bodyEnd_drop {text : Text} {offset : Nat} (inside : offset < bodyEnd text) :
    bodyEnd (text.drop offset) = bodyEnd text - offset := by
  obtain ⟨body, spaces, blank, length_eq, split⟩ := exists_body text
  rw [length_eq] at inside ⊢
  rw [← List.length_drop]
  rcases split with split | ⟨split, visible⟩
  · rw [split, List.drop_append_of_le_length inside.le]
    exact bodyEnd_semicolon blank
  · rw [split, List.drop_append_of_le_length inside.le]
    refine bodyEnd_of_visible blank fun last last_eq => visible last ?_
    rwa [List.getLast?_drop, if_neg (Nat.not_le.mpr inside)] at last_eq

/-- A body goes on at least to the end of a word. -/
theorem lt_bodyEnd {text : Text} {place : Nat}
    (word : (text.drop place).head?.any Byte.isIdentifier = true) : place < bodyEnd text := by
  by_contra beyond
  cases drop_eq : text.drop place with
  | nil => simp [drop_eq] at word
  | cons byte rest =>
      have trailing := trails_of_mem_drop text byte
        ((List.drop_sublist_drop_left text (Nat.le_of_not_lt beyond)).subset (by simp [drop_eq]))
      rw [drop_eq, List.head?_cons, Option.any_some] at word
      rw [Token.trails_of_isIdentifier word] at trailing
      cases trailing

/-- No sign stands behind the body. -/
theorem offset_lt_bodyEnd {text : Text} {found : SignAt} (member : found ∈ (start text).signs) :
    found.offset < bodyEnd text := by
  obtain ⟨place, place_mem, signed, offset_eq⟩ := mem_signs.mp member
  obtain ⟨-, byte, rest, rest_eq, identifier⟩ := exists_of_spoken_ne (spoken_ne_of_sign? signed)
  obtain ⟨-, rest_drop⟩ := of_mem_tour_start (List.mem_filter.mp place_mem).1
  refine lt_bodyEnd ?_
  rw [← offset_eq, ← rest_drop, rest_eq]
  exact identifier

theorem foldl_nearest {offset stop : Nat} {front back : List Nat}
    (before : ∀ place ∈ front, place ≤ offset)
    (later : ∀ place ∈ back, offset < place ∧ place < stop) (ordered : back.Pairwise (· < ·)) :
    (front ++ back).foldl
        (fun stop place => if offset < place && place < stop then place else stop) stop =
      back.head?.getD stop := by
  rw [List.foldl_append]
  have passed : front.foldl
      (fun stop place => if offset < place && place < stop then place else stop) stop = stop := by
    induction front with
    | nil => rfl
    | cons place front ih =>
        rw [List.forall_mem_cons] at before
        rw [List.foldl_cons, if_neg (by simp; omega), ih before.2]
  rw [passed]
  cases back with
  | nil => rfl
  | cons nearest back =>
      rw [List.forall_mem_cons] at later
      rw [List.pairwise_cons] at ordered
      rw [List.foldl_cons, if_pos (by simpa using later.1), List.head?_cons, Option.getD_some]
      clear later
      induction back with
      | nil => rfl
      | cons place back ih =>
          have further := ordered.1 place (by simp)
          rw [List.foldl_cons, if_neg (by simp; omega)]
          exact ih ⟨fun place member => ordered.1 place (by simp [member]), ordered.2.of_cons⟩

end Statement

/-- Where a region ends before the given signs of a text. -/
def stopBefore (text : Text) (after : List SignAt) : Nat :=
  (after.head?.map SignAt.offset).getD (Statement.bodyEnd text)

/-- The region of a listed clause ends before the clause listed next. -/
theorem Statement.regionEnd_of_clauses (statement : Statement) {front back : List SignAt}
    {found : SignAt}
    (listed : statement.outline.clauses.map ClauseAt.toSign = front ++ found :: back) :
    statement.regionEnd found.offset = stopBefore statement.text back := by
  have places_eq : statement.outline.clauses.map (·.offset) =
      (front ++ [found]).map SignAt.offset ++ back.map SignAt.offset := by
    have offsets_eq := congrArg (List.map SignAt.offset) listed
    rw [List.map_map] at offsets_eq
    exact Eq.trans rfl (offsets_eq.trans (by simp))
  have sublist : (front ++ found :: back).Sublist (start statement.text).signs :=
    listed ▸ Outline.clauses_sublist statement.text
  have ordered := (pairwise_signs statement.text).sublist sublist
  rw [List.pairwise_append, List.pairwise_cons] at ordered
  obtain ⟨-, ⟨later, back_ordered⟩, earlier⟩ := ordered
  have nearest := @Statement.foldl_nearest found.offset (Statement.bodyEnd statement.text)
    ((front ++ [found]).map SignAt.offset) (back.map SignAt.offset) ?_ ?_ ?_
  · rw [← places_eq, List.foldl_map] at nearest
    refine nearest.trans (congrArg (Option.getD · _) ?_)
    cases back <;> rfl
  · rw [List.forall_mem_map, List.forall_mem_append]
    exact ⟨fun sign member => (earlier sign member found List.mem_cons_self).le, by simp⟩
  · rw [List.forall_mem_map]
    exact fun sign member =>
      ⟨later sign member, offset_lt_bodyEnd (sublist.subset (by simp [member]))⟩
  · exact List.pairwise_map.mpr back_ordered

/-- The region of a clause among the signs of a text: the first sign of the clause stands at
`offset`, and the signs after it are those inside the region, and those after its end. -/
structure Region (text : Text) (kind : Clause) (offset : Nat) (before inside after : List SignAt) :
    Prop where
  signs_eq : (start text).signs = before ++ ⟨.clause kind, offset⟩ :: (inside ++ after)
  first : kind ∉ before.filterMap SignAt.clause?
  old : ∀ sign ∈ inside,
    Sign.isOld SignAt.clause? (before.filterMap SignAt.clause? ++ [kind]) sign = true
  fresh : ∀ sign ∈ after.head?,
    Sign.isOld SignAt.clause? (before.filterMap SignAt.clause? ++ [kind]) sign = false

theorem exists_region {text : Text} {kind : Clause} {offset : Nat}
    (found : (Outline.ofText text).find? kind = some offset) :
    ∃ before inside after, Region text kind offset before inside after := by
  rw [Outline.find?_eq_signs, Option.map_eq_some_iff] at found
  obtain ⟨⟨sign, place⟩, found, rfl⟩ := found
  obtain ⟨same, before, rest, signs_eq, others⟩ := List.find?_eq_some_iff_append.mp found
  obtain rfl : sign = .clause kind := by simpa using same
  let old := Sign.isOld SignAt.clause? (before.filterMap SignAt.clause? ++ [kind])
  refine ⟨before, rest.takeWhile old, rest.dropWhile old, ?_, ?_, ?_, ?_⟩
  · rw [List.takeWhile_append_dropWhile, signs_eq]
  · intro listed
    obtain ⟨other, member, begun⟩ := List.mem_filterMap.mp listed
    have apart := others other member
    rw [SignAt.clause?, Sign.clause?_eq_some] at begun
    simp [begun] at apart
  · exact fun sign member => List.mem_takeWhile_imp (p := old) member
  · intro sign head_eq
    have stops := List.head?_dropWhile_not old rest
    rw [Option.mem_def.mp head_eq] at stops
    simpa using stops

namespace Region

variable {text : Text} {kind : Clause} {offset : Nat} {before inside after : List SignAt}
  (region : Region text kind offset before inside after)

include region

theorem offset_lt {sign : SignAt} (member : sign ∈ inside ++ after) : offset < sign.offset := by
  have ordered := region.signs_eq ▸ pairwise_signs text
  exact (List.pairwise_cons.mp (List.pairwise_append.mp ordered).2.1).1 sign member

/-- The clauses that come first after the region begins are those that come first after it ends. -/
theorem clauses_eq :
    (Outline.ofText text).clauses.map ClauseAt.toSign =
      Sign.newcomers SignAt.clause? [] before ++ ⟨.clause kind, offset⟩ ::
        Sign.newcomers SignAt.clause? (before.filterMap SignAt.clause? ++ [kind]) after := by
  rw [Outline.clauses_ofText, region.signs_eq]
  exact Sign.newcomers_of_region (show SignAt.clause? ⟨.clause kind, offset⟩ = some kind from rfl)
    region.first region.old after

/-- The clause is found where its region begins. -/
theorem find?_eq : (Outline.ofText text).find? kind = some offset := by
  refine Outline.find?_of_listed ?_
  rw [region.clauses_eq]
  exact List.mem_append_right _ List.mem_cons_self

theorem regionEnd_eq (statement : Statement) (text_eq : statement.text = text) :
    statement.regionEnd offset = stopBefore text after := by
  subst text_eq
  rw [statement.regionEnd_of_clauses region.clauses_eq]
  cases after with
  | nil => rfl
  | cons sign after =>
      have new := region.fresh sign (by simp)
      rw [Sign.newcomers, new, if_neg Bool.false_ne_true, List.singleton_append]
      rfl

end Region

end TenantScope
