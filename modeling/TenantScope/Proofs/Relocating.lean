import TenantScope.Proofs.Excising

/-!
# What moving a misplaced condition keeps

When the condition of a misplaced `WHERE` moves to the front, the other clauses stay in their order
and keep their regions.  A region that comes to stand at the end of the text may lose a semicolon,
which then ends the statement.
-/

namespace TenantScope

open Text Site Literal

/-! ## Regions as texts -/

namespace Statement

/-- The bytes of the region that begins at an offset. -/
def region (statement : Statement) (offset : Nat) : Text :=
  slice statement.text offset (statement.regionEnd offset)

/-- The condition after the `WHERE` at an offset, without white space around it. -/
def conditionAt (statement : Statement) (offset : Nat) : Text :=
  Text.trim (slice statement.text (offset + Clause.filter.keyword.length)
    (statement.regionEnd offset))

/-- The clauses are listed in the order in which they stand. -/
theorem lt_of_listed (statement : Statement) {front back : List SignAt} {found next : SignAt}
    (listed : statement.outline.clauses.map ClauseAt.toSign = front ++ found :: back)
    (member : next ∈ back) : found.offset < next.offset := by
  have sublist : (front ++ found :: back).Sublist (start statement.text).signs :=
    listed ▸ Outline.clauses_sublist statement.text
  have ordered := (pairwise_signs statement.text).sublist sublist
  exact (List.pairwise_cons.mp (List.pairwise_append.mp ordered).2.1).1 next member

theorem bodyEnd_append_blank {spaces : Text} (blank : ∀ byte ∈ spaces, byte.isSpace = true)
    (text : Text) : bodyEnd (text ++ spaces) = bodyEnd text := by
  rw [bodyEnd, bodyEnd, List.reverse_append,
    List.dropWhile_append_of_pos fun byte member => blank byte (List.mem_reverse.mp member)]

/-- What the end of another text makes of a text that comes before it. -/
theorem take_bodyEnd_append (front text : Text) :
    (front ++ text.drop (bodyEnd text)).take (bodyEnd (front ++ text.drop (bodyEnd text))) =
      if (text.drop (bodyEnd text)).all Byte.isSpace = true then front.take (bodyEnd front)
      else front := by
  obtain ⟨body, spaces, blank, end_eq, split⟩ := exists_body text
  have drop_eq : text.drop (bodyEnd text) = Byte.semicolon :: spaces ∨
      text.drop (bodyEnd text) = spaces := by
    rw [end_eq]
    refine split.imp (fun split => ?_) fun split => ?_
    · rw [split, List.drop_left]
    · rw [split.1, List.drop_left]
  rcases drop_eq with drop_eq | drop_eq
  · rw [drop_eq, if_neg (by simp [show Byte.semicolon.isSpace = false from rfl]),
      bodyEnd_semicolon blank, List.take_left]
  · rw [drop_eq, if_pos (List.all_eq_true.mpr blank), bodyEnd_append_blank blank,
      List.take_append_of_le_length (bodyEnd_le front)]

/-- A region reaches to the clause listed next, or through the body. -/
theorem region_eq (statement : Statement) {front back : List SignAt} {found : SignAt}
    (listed : statement.outline.clauses.map ClauseAt.toSign = front ++ found :: back) :
    statement.region found.offset =
      (statement.text.drop found.offset).take
        ((back.head?.map fun next => next.offset - found.offset).getD
          (bodyEnd (statement.text.drop found.offset))) := by
  rw [region, slice, statement.regionEnd_of_clauses listed]
  cases back with
  | cons next back => rfl
  | nil =>
      have sublist : (front ++ [found]).Sublist (start statement.text).signs :=
        listed ▸ Outline.clauses_sublist statement.text
      have member : found ∈ (start statement.text).signs := sublist.subset (by simp)
      rw [List.head?_nil, Option.map_none, Option.getD_none,
        bodyEnd_drop (offset_lt_bodyEnd member)]
      rfl

end Statement

/-! ## Signs of conditions -/

/-- One clause among elements that begin none is the only newcomer. -/
theorem Sign.newcomers_of_single {element : Type} {begins? : element → Option Clause}
    {before after : List element} {own : element} {kind : Clause} (own_eq : begins? own = some kind)
    (none_before : ∀ found ∈ before, begins? found = none)
    (none_after : ∀ found ∈ after, begins? found = none) :
    newcomers begins? [] (before ++ own :: after) = [own] ∧
      (before ++ own :: after).filterMap begins? = [kind] := by
  have front := List.filterMap_eq_nil_iff.mpr none_before
  have back := List.filterMap_eq_nil_iff.mpr none_after
  have old {seen : List Clause} {found : element} (silent : begins? found = none) :
      isOld begins? seen found = true := by
    simp [isOld, silent]
  refine ⟨?_, by rw [List.filterMap_append, List.filterMap_cons_some own_eq, front, back]; rfl⟩
  have inside_old (found : element) (member : found ∈ after) :
      isOld begins? (before.filterMap begins? ++ [kind]) found = true :=
        old (none_after found member)
  have split := newcomers_of_region own_eq (front ▸ List.not_mem_nil) inside_old []
  rwa [List.append_nil, newcomers_of_old fun found member => old (none_before found member)]
    at split

/-- In parentheses there are no signs. -/
theorem signs_of_nested {back text : Text} {offset depth : Nat}
    (nested : Nested ⟨back, text, offset, depth⟩) {outer : Nat} (inside : 0 < outer) :
    signs ⟨back, text, offset, depth + outer⟩ = [] := by
  refine List.eq_nil_iff_forall_not_mem.mpr fun found member => ?_
  obtain ⟨place, place_mem, signed, -⟩ := mem_signs.mp member
  have deep := (code_of_nested nested outer).2 place place_mem
  have level := (sign?_eq_some.mp signed).1.1
  omega

theorem Wellformed.signs_parenthesized {text : Text} (whole : Wellformed text) :
    (start ([Byte.openParen] ++ text ++ [Byte.closeParen])).signs = [] := by
  have parted : Parted [Byte.openParen] text :=
    { toSeam := Seam.of_plain_last (by decide) (by decide) [] text
      phrase := fun ends => absurd ends (by decide)
      dot := fun dotted => absurd dotted (by decide) }
  have closed : Closed ⟨[Byte.openParen], text, 1, 1⟩ :=
    (closed_of_seam parted.toSeam 1 1).mpr whole.closed
  have last : Break (text.reverse ++ [Byte.openParen]) [Byte.closeParen] :=
    Break.of_plain_head (by decide) (by decide) (by decide) _ _
  have inner : signs ⟨[], text, 0, 1⟩ = [] := by
    have deep := @signs_of_nested [] text 0 0 whole.balanced.nested 1 Nat.one_pos
    rwa [Nat.zero_add] at deep
  have opened : (start (Byte.openParen :: (text ++ [Byte.closeParen]))).signs =
      signs ⟨[Byte.openParen], text ++ [Byte.closeParen], 0 + 1, depthAfter Byte.openParen 0⟩ :=
    filterMap_code_plain signAt?_of_silent [] _ (by decide) (by decide) 0 0
  have split : [Byte.openParen] ++ text ++ [Byte.closeParen] =
      Byte.openParen :: (text ++ [Byte.closeParen]) := rfl
  rw [split, opened, show depthAfter Byte.openParen 0 = 1 from rfl, Nat.zero_add,
    signs_append 1 1 closed last, signs_of_parted 1 1 parted, inner]
  exact filterMap_code_of_wordless signAt?_of_silent (List.forall_mem_singleton.mpr rfl) _ _ _

namespace Region

variable {text : Text} {kind : Clause} {place : Nat} {before inside after : List SignAt}

/-- Through its region a clause has the signs before it, its own and those inside. -/
theorem signs_take (whole : Wellformed text) (region : Region text kind place before inside after) :
    (start (text.take (stopBefore text after))).signs = before ++ ⟨.clause kind, place⟩ ::
      inside := by
  cases after with
  | nil =>
      have body := (whole.take_drop .body).1
      have signs_eq := signs_append_trails body.closed body.balanced.level
        (Statement.trails_of_mem_drop text)
      rw [List.take_append_drop, region.signs_eq, List.append_nil] at signs_eq
      exact signs_eq.symm
  | cons found after =>
      have signs_eq := region.signs_eq
      rw [← List.cons_append, ← List.append_assoc] at signs_eq
      exact (signs_split signs_eq).1

/-- The signs of a condition stand in the region of its `WHERE`. -/
theorem exists_of_mem_signs_condition {head lead condition trail : Text} (whole : Wellformed text)
    (region : Region text .filter place before inside after)
    (layout : Scope.Layout (text.take (stopBefore text after)) place head lead condition trail)
    {sign : SignAt} (member : sign ∈ (start condition).signs) :
    ∃ found ∈ inside, found.sign = sign.sign := by
  have front := (whole.take_drop region.ends).1
  have core_closed := layout.closed_core front.closed
  have core_level := (layout.level_core front.closed).trans front.balanced.level
  have undotted : (head ++ lead).reverse.head? ≠ some Byte.dot := fun dotted =>
    (layout.last_byte dotted).elim (by decide) (by decide)
  have signs_eq := signs_append_trails core_closed core_level
    (Token.trails_of_blank layout.trail_blank)
  rw [show head ++ lead ++ condition ++ trail = text.take (stopBefore text after) by
      simp [layout.split],
    region.signs_take whole, signs_start_append layout.closed_lead layout.level_lead
      ⟨layout.broken, fun dotted => absurd dotted undotted⟩] at signs_eq
  -- The sign comes after the `WHERE`, so it is one of those inside.
  have listed : (⟨sign.sign, sign.offset + (head ++ lead).length⟩ : SignAt) ∈
      before ++ ⟨.clause .filter, place⟩ :: inside := by
    rw [signs_eq]
    exact List.mem_append_right _ (List.mem_map.mpr ⟨sign, member, rfl⟩)
  have later : place < sign.offset + (head ++ lead).length := by
    rw [List.length_append, layout.length_head]
    omega
  have ordered := region.signs_eq ▸ pairwise_signs text
  have earlier := (List.pairwise_append.mp ordered).2.2
  rcases List.mem_append.mp listed with early | late
  · exact absurd (earlier _ early _ List.mem_cons_self) (Nat.lt_asymm later)
  · rcases List.mem_cons.mp late with same | inner
    · simp only [SignAt.mk.injEq] at same
      omega
    · exact ⟨_, inner, rfl⟩

/-- The condition reaches to the end of the region. -/
theorem conditionAt_eq (region : Region text .filter place before inside after)
    (statement : Statement) (text_eq : statement.text = text) :
    statement.conditionAt place = Text.trim
      (Statement.slice statement.text (place + 5) (stopBefore text after)) := by
  rw [Statement.conditionAt, region.regionEnd_eq statement text_eq]
  rfl

theorem nodup_of_once {signs : List SignAt}
    (once : ∀ kind, (signs.countP fun found => found.sign == .clause kind) ≤ 1) :
    (signs.filterMap SignAt.clause?).Nodup := by
  refine List.nodup_iff_count_le_one.mpr fun kind => ?_
  rw [List.count_filterMap]
  refine le_trans (le_of_eq (List.countP_congr fun found _ => ?_)) (once kind)
  rw [beq_iff_eq, beq_iff_eq]
  exact Sign.clause?_eq_some

/-- Where each clause begins once, none begins inside of a region. -/
theorem clauseless_inside (region : Region text kind place before inside after)
    (once : ((start text).signs.filterMap SignAt.clause?).Nodup) :
    ∀ sign ∈ inside, sign.clause? = none := by
  intro sign member
  cases begun : sign.clause? with
  | none => rfl
  | some other =>
      have known := region.old sign member
      simp only [Sign.isOld, begun, Option.all_some, decide_eq_true_eq] at known
      have listed : other ∈ inside.filterMap SignAt.clause? :=
        List.mem_filterMap.mpr ⟨sign, member, begun⟩
      have own : SignAt.clause? ⟨.clause kind, place⟩ = some kind := rfl
      rw [region.signs_eq, List.filterMap_append, List.filterMap_cons_some own,
        ← List.singleton_append, ← List.append_assoc, List.filterMap_append,
        List.nodup_append] at once
      exact absurd rfl (once.2.2 other known other (List.mem_append_left _ listed))

end Region

/-! ## The text with the condition in front -/

namespace Repair

theorem clauseless_conjunct {condition : Text} (whole : Wellformed condition)
    (clauseless : ∀ sign ∈ (start condition).signs, sign.clause? = none) :
    ∀ sign ∈ (start (conjunct condition ++ [Byte.blank])).signs, sign.clause? = none := by
  have term := wellformed_conjunct whole
  rw [signs_append_trails term.closed term.balanced.level (List.forall_mem_singleton.mpr rfl),
    conjunct]
  split
  · rw [whole.signs_parenthesized]
    simp
  · exact clauseless

theorem visible_conjunct {condition : Text}
    (first_visible : ∀ byte, condition.head? = some byte → byte.isSpace = false)
    (last_visible : ∀ byte, condition.getLast? = some byte → byte.isSpace = false) :
    (∀ byte, (conjunct condition).head? = some byte → byte.isSpace = false) ∧
      ∀ byte, (conjunct condition).getLast? = some byte → byte.isSpace = false := by
  rw [conjunct]
  split
  · constructor
    · intro byte head_eq
      obtain rfl : Byte.openParen = byte := Option.some.inj head_eq
      rfl
    · intro byte last_eq
      rw [List.getLast?_concat] at last_eq
      obtain rfl : Byte.closeParen = byte := Option.some.inj last_eq
      rfl
  · exact ⟨first_visible, last_visible⟩

/-- A text with a condition introduced at its end. -/
def withCondition (head condition : Text) : Text :=
  head.trimRight ++ ascii " WHERE " ++ conjunct condition ++ [Byte.blank]

theorem halt_withCondition {head condition : Text} (front : Wellformed head)
    (inner : Wellformed condition) :
    Halt (withCondition head condition) := by
  have whole := wellformed_introduced front inner
  refine ⟨whole.closed, whole.balanced.level, ?_, ?_⟩
  · rw [withCondition, List.reverse_append]
    rfl
  · rw [withCondition, List.reverse_append]
    exact fun dotted => absurd (show some Byte.blank = some Byte.dot from dotted) (by decide)

/-- The introduced `WHERE` is the only clause where there was none before it and there is none in
the condition. -/
theorem clauses_withCondition {head condition : Text} (halt : Halt head)
    (whole : Wellformed condition) (front : ∀ sign ∈ (start head).signs, sign.clause? = none)
    (clauseless : ∀ sign ∈ (start condition).signs, sign.clause? = none) :
    Sign.newcomers SignAt.clause? [] (start (withCondition head condition)).signs =
        [⟨.clause .filter, head.trimRight.length + 1⟩] ∧
      (start (withCondition head condition)).signs.filterMap SignAt.clause? = [.filter] := by
  obtain ⟨closed, level, kinds_eq⟩ := halt.trimRight
  have front' : ∀ sign ∈ (start head.trimRight).signs, sign.clause? = none := by
    intro sign member
    have listed : sign.sign ∈ (start head).kinds := kinds_eq ▸ List.mem_map_of_mem member
    obtain ⟨found, found_mem, same⟩ := List.mem_map.mp listed
    rw [SignAt.clause?, ← same]
    exact front found found_mem
  have behind := clauseless_conjunct whole clauseless
  rw [withCondition, List.append_assoc, List.append_assoc,
    signs_start_append closed level (parted_where _ _), signs_where, List.map_cons]
  have single := @Sign.newcomers_of_single SignAt SignAt.clause? (start head.trimRight).signs
    (((start (conjunct condition ++ [Byte.blank])).signs.map fun found =>
      { found with offset := found.offset + 7 }).map fun found =>
        { found with offset := found.offset + head.trimRight.length })
    ⟨.clause .filter, 1 + head.trimRight.length⟩ .filter rfl front' (by
      rw [List.forall_mem_map, List.forall_mem_map]
      exact behind)
  rw [Nat.add_comm head.trimRight.length]
  exact single

/-- The text without the region of its `WHERE` and with a condition in front of the first clause. -/
def relocated (text : Text) (place : Nat) (after : List SignAt) (tail : Nat) (condition : Text) :
    Text :=
  withCondition (text.take tail) condition ++ (withoutRegion text place after).drop tail

/-- Where an offset from the first clause on lands in that text. -/
def landing (text : Text) (place : Nat) (after : List SignAt) (tail : Nat) (condition : Text)
    (offset : Nat) : Nat :=
  shift place (stopBefore text after) offset - tail +
    (withCondition (text.take tail) condition).length

/-- The sign where it lands. -/
def land (text : Text) (place : Nat) (after : List SignAt) (tail : Nat) (condition : Text)
    (found : SignAt) : SignAt :=
  { found with offset := landing text place after tail condition found.offset }

section Misplaced

variable {statement : Statement} {place : Nat} {before inside after : List SignAt} {tail : SignAt}
  {others : List SignAt} (region : Region statement.text .filter place before inside after)
  (first : Sign.newcomers SignAt.clause? [] before = tail :: others)

include region

theorem length_take_place : (statement.text.take place).length = place := by
  have own : (⟨.clause .filter, place⟩ : SignAt) ∈ (start statement.text).signs := by
    simp [region.signs_eq]
  exact List.length_take_of_le (halt_of_mem_signs own).2.2.le

theorem place_lt_stopBefore : place < stopBefore statement.text after := by
  cases after with
  | nil =>
      have own : (⟨.clause .filter, place⟩ : SignAt) ∈ (start statement.text).signs := by
        simp [region.signs_eq]
      exact Statement.offset_lt_bodyEnd own
  | cons next after => exact region.offset_lt (by simp)

/-- The signs of the text with a condition in front: behind the condition those from
the first clause on. -/
theorem signs_relocated {front rest : List SignAt} (before_eq : before = front ++ tail :: rest)
    {condition : Text} (halt : Halt (withCondition (statement.text.take tail.offset) condition)) :
    (start (relocated statement.text place after tail.offset condition)).signs =
      (start (withCondition (statement.text.take tail.offset) condition)).signs ++
        (tail :: rest ++ after).map (land statement.text place after tail.offset condition) := by
  have signs_eq := signs_withoutRegion region
  rw [length_take_place region, ← region.map_shift_after, before_eq, List.append_assoc,
    List.cons_append] at signs_eq
  have tail_mem : tail ∈ (start (withoutRegion statement.text place after)).signs := by
    simp [signs_eq]
  have ordered := region.signs_eq ▸ pairwise_signs statement.text
  have early : ∀ sign ∈ tail :: rest, sign.offset < stopBefore statement.text after :=
    fun sign member => ((List.pairwise_append.mp ordered).2.2 sign
      (before_eq ▸ List.mem_append_right front member) _ List.mem_cons_self).trans
        (place_lt_stopBefore region)
  have moved := (signs_split signs_eq).2
  rw [← List.cons_append, ← SignAt.map_shift_of_lt early, ← List.map_append] at moved
  rw [relocated, halt.signs_eq (.sign (halt_of_mem_signs tail_mem).2.1)]
  congr 1
  have back := congrArg (List.map fun found : SignAt => { found with offset := found.offset -
    tail.offset + (withCondition (statement.text.take tail.offset) condition).length }) moved
  rw [List.map_map, List.map_map] at back
  refine Eq.trans (List.map_congr_left fun sign _ => ?_) back
  simp

/-- From a clause before the `WHERE` on the new text has what came before the `WHERE`, and then what
came behind its region. -/
theorem drop_relocated_of_le {offset : Nat} (later : tail.offset ≤ offset) (early : offset ≤ place)
    (condition : Text) :
    (relocated statement.text place after tail.offset condition).drop
        (landing statement.text place after tail.offset condition offset) =
      (statement.text.take place).drop offset ++
        statement.text.drop (stopBefore statement.text after) := by
  have before_stop := place_lt_stopBefore region
  have length_eq := length_take_place region
  rw [landing, shift, if_pos (by omega), relocated, Nat.add_comm, List.drop_length_add_append,
    List.drop_drop, Nat.add_sub_cancel' later, withoutRegion,
    List.drop_append_of_le_length (by omega)]

/-- From a clause behind the `WHERE` on the new text is as it was. -/
theorem drop_relocated_of_ge {offset : Nat} (tail_lt : tail.offset < place)
    (behind : stopBefore statement.text after ≤ offset) (condition : Text) :
    (relocated statement.text place after tail.offset condition).drop
        (landing statement.text place after tail.offset condition offset) =
      statement.text.drop offset := by
  have before_stop := place_lt_stopBefore region
  have length_eq := length_take_place region
  have offset_eq : tail.offset + (offset - stopBefore statement.text after + place - tail.offset) =
      (statement.text.take place).length + (offset - stopBefore statement.text after) := by
    omega
  rw [landing, shift, if_neg (by omega), relocated, Nat.add_comm, List.drop_length_add_append,
    List.drop_drop, offset_eq, withoutRegion, List.drop_length_add_append, List.drop_drop,
    Nat.add_sub_cancel' behind]

/-- Two places on one side of the `WHERE` land as far apart as they were. -/
theorem landing_sub {offset next : Nat} (tail_le : tail.offset ≤ place) (le : offset ≤ next)
    (from_tail : tail.offset ≤ offset)
    (beside : next < stopBefore statement.text after ∨ stopBefore statement.text after ≤ offset)
    (condition : Text) :
    landing statement.text place after tail.offset condition next -
      landing statement.text place after tail.offset condition offset = next - offset := by
  have before_stop := place_lt_stopBefore region
  unfold landing shift
  split_ifs <;> omega

include first

/-- The first clause of all comes before the `WHERE`, and before the others in front of it. -/
theorem tail_le : tail.offset < place ∧
    ∀ found ∈ tail :: others, tail.offset ≤ found.offset ∧ found.offset < place := by
  have sublist : (tail :: others).Sublist before := first ▸ Sign.newcomers_sublist _ _
  have ordered := List.pairwise_append.mp (region.signs_eq ▸ pairwise_signs statement.text)
  have earlier (found : SignAt) (member : found ∈ tail :: others) : found.offset < place :=
    ordered.2.2 found (sublist.subset member) _ List.mem_cons_self
  refine ⟨earlier tail List.mem_cons_self, fun found member => ⟨?_, earlier found member⟩⟩
  rcases List.mem_cons.mp member with rfl | member
  · exact le_refl _
  · exact ((List.pairwise_cons.mp (ordered.1.sublist sublist)).1 found member).le

/-- The condition comes first, and the other clauses land behind it in their order. -/
theorem clauses_relocated (whole : Wellformed statement.text) {condition : Text}
    (inner : Wellformed condition)
    (clauseless : ∀ sign ∈ (start condition).signs, sign.clause? = none) :
    (Outline.ofText (relocated statement.text place after tail.offset condition)).clauses.map
        ClauseAt.toSign =
      ⟨.clause .filter, (Text.trimRight (statement.text.take tail.offset)).length + 1⟩ ::
        (tail :: others ++ Sign.newcomers SignAt.clause?
          (before.filterMap SignAt.clause? ++ [.filter]) after).map
            (land statement.text place after tail.offset condition) := by
  obtain ⟨front, rest, before_eq, front_eq, -⟩ := Sign.exists_of_newcomers_eq_cons first
  have signs_eq := region.signs_eq
  rw [before_eq, List.append_assoc, List.cons_append] at signs_eq
  have tail_mem : tail ∈ (start statement.text).signs := by simp [signs_eq]
  have head_signs : (start (statement.text.take tail.offset)).signs = front :=
    (signs_split signs_eq).1
  have head := (whole.take_drop (.sign tail_mem)).1
  obtain ⟨new, own_eq⟩ := clauses_withCondition (halt_of_mem_signs tail_mem).1 inner
    (fun sign member => List.filterMap_eq_nil_iff.mp front_eq sign (head_signs ▸ member)) clauseless
  have front_new : Sign.newcomers SignAt.clause? [] front = [] :=
    Sign.newcomers_of_old fun sign member => by
      simp [Sign.isOld, List.filterMap_eq_nil_iff.mp front_eq sign member]
  -- Before the `WHERE` no other one stands, so the clauses there are new behind it, too.
  have ahead : Sign.newcomers SignAt.clause? [.filter] (tail :: rest) = tail :: others := by
    rw [before_eq, Sign.newcomers_append, front_new, List.nil_append, List.nil_append, front_eq]
      at first
    rw [Sign.newcomers_of_seen, first, List.filter_eq_self]
    intro sign member
    refine bne_iff_ne.mpr fun is_filter => region.first ?_
    have listed := (Sign.newcomers_sublist _ _).subset (first ▸ member)
    exact List.mem_filterMap.mpr ⟨sign, before_eq ▸ List.mem_append_right front listed, is_filter⟩
  have seen : ∀ kind, kind ∈ [.filter] ++ (tail :: rest).filterMap SignAt.clause? ↔
      kind ∈ before.filterMap SignAt.clause? ++ [.filter] := fun kind => by
    rw [before_eq, List.filterMap_append, front_eq, List.nil_append, List.mem_append,
      List.mem_append, or_comm]
  rw [Outline.clauses_ofText, signs_relocated region before_eq (halt_withCondition head inner),
    Sign.newcomers_append, new, List.nil_append, own_eq, Sign.newcomers_map]
  change (⟨.clause .filter, _⟩ : SignAt) ::
    (Sign.newcomers SignAt.clause? [.filter] (tail :: rest ++ after)).map _ = _
  rw [Sign.newcomers_append, ahead, Sign.newcomers_congr seen]

section Regions

variable (whole : Wellformed statement.text) {condition : Text} (inner : Wellformed condition)
  (clauseless : ∀ sign ∈ (start condition).signs, sign.clause? = none)

include whole inner clauseless

/-- A clause that another one follows before the `WHERE` keeps its region. -/
theorem region_relocated_of_followed {front back : List SignAt} {found next : SignAt}
    (split : tail :: others = front ++ found :: next :: back) :
    statement.regionEnd found.offset ≠ place ∧
      (statement.withText (relocated statement.text place after tail.offset condition)).region
          (landing statement.text place after tail.offset condition found.offset) =
        statement.region found.offset := by
  have listed := region.clauses_eq
  have listed' := clauses_relocated region first whole inner clauseless
  rw [first, split, List.append_assoc, List.cons_append] at listed
  rw [split, List.append_assoc, List.cons_append, List.map_append, List.map_cons,
    ← List.cons_append]
    at listed'
  have ahead := (tail_le region first).2
  rw [split] at ahead
  obtain ⟨from_tail, -⟩ := ahead found (by simp)
  obtain ⟨-, early⟩ := ahead next (by simp)
  have later := statement.lt_of_listed listed (List.mem_append_left _ List.mem_cons_self)
  have before_stop := place_lt_stopBefore region
  have landed := landing_sub region (tail_le region first).1.le later.le from_tail
    (.inl (by omega : next.offset < stopBefore statement.text after)) condition
  have region_eq' := (statement.withText
    (relocated statement.text place after tail.offset condition)).region_eq listed'
  refine ⟨by rw [statement.regionEnd_of_clauses listed]; exact early.ne, region_eq'.trans ?_⟩
  rw [statement.region_eq listed, List.cons_append, List.cons_append, List.head?_cons,
    List.map_cons, List.head?_cons, Option.map_some, Option.map_some, Option.getD_some,
    Option.getD_some, land, land, landed]
  have length_eq := length_take_place region
  refine (congrArg (List.take _)
    (drop_relocated_of_le region from_tail (by omega) condition)).trans ?_
  rw [List.take_append_of_le_length (by rw [List.length_drop]; omega), List.drop_take,
    List.take_take, Nat.min_eq_left (by omega)]

/-- A clause behind the `WHERE` keeps its region. -/
theorem region_relocated_of_behind {front back : List SignAt} {found : SignAt}
    (split : Sign.newcomers SignAt.clause? (before.filterMap SignAt.clause? ++ [.filter]) after =
      front ++ found :: back) :
    statement.regionEnd found.offset ≠ place ∧
      (statement.withText (relocated statement.text place after tail.offset condition)).region
          (landing statement.text place after tail.offset condition found.offset) =
        statement.region found.offset := by
  have listed := region.clauses_eq
  have listed' := clauses_relocated region first whole inner clauseless
  rw [split, ← List.cons_append, ← List.append_assoc] at listed
  rw [split, ← List.append_assoc, List.map_append, List.map_cons, ← List.cons_append] at listed'
  have found_mem : found ∈ after :=
    (Sign.newcomers_sublist _ _).subset (split ▸ List.mem_append_right front List.mem_cons_self)
  have behind := region.stopBefore_le found_mem
  have before_stop := place_lt_stopBefore region
  have tail_lt := (tail_le region first).1
  have region_eq' := (statement.withText
    (relocated statement.text place after tail.offset condition)).region_eq listed'
  refine ⟨?_, region_eq'.trans ?_⟩
  · have later : found.offset < stopBefore statement.text back := by
      cases back with
      | nil => exact Statement.offset_lt_bodyEnd (by simp [region.signs_eq, found_mem])
      | cons next back => exact statement.lt_of_listed listed List.mem_cons_self
    rw [statement.regionEnd_of_clauses listed]
    omega
  · have drop_eq := drop_relocated_of_ge region tail_lt behind condition
    rw [statement.region_eq listed]
    simp only [Statement.withText, land, drop_eq]
    cases back with
    | nil => rfl
    | cons next back =>
        have later := statement.lt_of_listed listed (List.mem_cons_self (a := next))
        rw [List.map_cons, List.head?_cons, List.head?_cons, Option.map_some, Option.map_some,
          Option.getD_some, Option.getD_some, land,
          landing_sub region tail_lt.le later.le (by omega) (.inr behind) condition]

/-- The clause just before the `WHERE` keeps its region, unless it comes to stand at
the end of the text. -/
theorem region_relocated_of_last {front : List SignAt} {found : SignAt}
    (split : tail :: others = front ++ [found]) :
    statement.regionEnd found.offset = place ∧
      (statement.withText (relocated statement.text place after tail.offset condition)).region
          (landing statement.text place after tail.offset condition found.offset) =
        if (statement.text.drop (stopBefore statement.text after)).all Byte.isSpace = true then
          (statement.region found.offset).take (Statement.bodyEnd (statement.region found.offset))
        else statement.region found.offset := by
  have listed := region.clauses_eq
  have listed' := clauses_relocated region first whole inner clauseless
  rw [first, split, List.append_assoc, List.singleton_append] at listed
  rw [split, List.append_assoc, List.singleton_append, List.map_append, List.map_cons,
    ← List.cons_append] at listed'
  have ahead := (tail_le region first).2
  rw [split] at ahead
  obtain ⟨from_tail, early⟩ := ahead found (by simp)
  have before_stop := place_lt_stopBefore region
  have region_eq' := (statement.withText
    (relocated statement.text place after tail.offset condition)).region_eq listed'
  have own_region := statement.region_eq listed
  rw [List.head?_cons, Option.map_some, Option.getD_some] at own_region
  have length_eq : (statement.region found.offset).length = place - found.offset := by
    rw [own_region, ← List.drop_take, List.length_drop, length_take_place region]
  have drop_eq := drop_relocated_of_le region from_tail early.le condition
  rw [List.drop_take, ← own_region] at drop_eq
  refine ⟨statement.regionEnd_of_clauses listed, region_eq'.trans ?_⟩
  simp only [Statement.withText, land, drop_eq]
  cases after with
  | nil => exact Statement.take_bodyEnd_append _ _
  | cons next after =>
      have new := region.fresh next rfl
      have next_mem : next ∈ (start statement.text).signs := by simp [region.signs_eq]
      obtain ⟨byte, rest, trail_eq, identifier, -⟩ :=
        exists_of_sign? (halt_of_mem_signs next_mem).2.1
      have visible : ¬ (statement.text.drop (stopBefore statement.text (next :: after))).all
          Byte.isSpace = true := by
        rw [show stopBefore statement.text (next :: after) = next.offset from rfl, trail_eq]
        simp [Byte.isSpace_of_isIdentifier byte identifier]
      have landed : landing statement.text place (next :: after) tail.offset condition next.offset -
          landing statement.text place (next :: after) tail.offset condition found.offset =
            place - found.offset := by
        have stop_eq : stopBefore statement.text (next :: after) = next.offset := rfl
        have tail_lt := (tail_le region first).1
        rw [stop_eq] at before_stop
        rw [landing, landing, shift, shift, stop_eq, if_neg (lt_irrefl _), if_pos (by omega)]
        omega
      rw [if_neg visible, Sign.newcomers, new, if_neg Bool.false_ne_true, List.singleton_append,
        List.map_cons, List.head?_cons, Option.map_some, Option.getD_some, land]
      exact List.take_left' (length_eq.trans landed.symm)

/-- The clauses are those there were, with the `WHERE` at their head. -/
theorem map_clause_relocated :
    (Outline.ofText (relocated statement.text place after tail.offset condition)).clauses.map
        (·.clause) =
      .filter :: (statement.outline.clauses.map (·.clause)).filter (· != .filter) := by
  have own : SignAt.clause? ⟨.clause .filter, place⟩ = some .filter := rfl
  have ahead : ∀ kind ∈ (tail :: others).filterMap SignAt.clause?, (kind != .filter) = true := by
    intro kind member
    have listed := ((Sign.newcomers_sublist _ _).filterMap _).subset (first ▸ member)
    exact bne_iff_ne.mpr fun is_filter => region.first (is_filter ▸ listed)
  have behind :
      ∀ kind ∈ (Sign.newcomers SignAt.clause? (before.filterMap SignAt.clause? ++ [.filter])
      after).filterMap SignAt.clause?, (kind != .filter) = true := by
    intro kind member
    have unseen := (Sign.mem_newcomers.mp member).2
    exact bne_iff_ne.mpr fun is_filter => unseen (by simp [is_filter])
  rw [Outline.map_clause, Outline.map_clause, clauses_relocated region first whole inner clauseless,
    show statement.outline = Outline.ofText statement.text from rfl, region.clauses_eq, first,
    List.filterMap_append, List.filterMap_cons_some own, List.filter_append,
    List.filter_eq_self.mpr ahead, List.filter_cons_of_neg (by simp),
    List.filter_eq_self.mpr behind, ← List.filterMap_append]
  exact congrArg (List.cons _) List.filterMap_map

/-- What becomes of the region of a clause other than the `WHERE`. -/
theorem region_relocated {other : ClauseAt} (listed : other ∈ statement.outline.clauses)
    (apart : other.clause ≠ .filter) :
    (Outline.ofText (relocated statement.text place after tail.offset condition)).find?
          other.clause =
        some (landing statement.text place after tail.offset condition other.offset) ∧
      (statement.withText (relocated statement.text place after tail.offset condition)).region
          (landing statement.text place after tail.offset condition other.offset) =
        if statement.regionEnd other.offset = place ∧
            (statement.text.drop (stopBefore statement.text after)).all Byte.isSpace = true then
          (statement.region other.offset).take (Statement.bodyEnd (statement.region other.offset))
        else statement.region other.offset := by
  have member : other.toSign ∈ tail :: others ++ ⟨.clause .filter, place⟩ ::
      Sign.newcomers SignAt.clause? (before.filterMap SignAt.clause? ++ [.filter]) after := by
    rw [← first, ← region.clauses_eq]
    exact List.mem_map_of_mem listed
  have beside := (List.mem_append.mp member).imp_right fun later =>
    (List.mem_cons.mp later).resolve_left fun same => apart (by
      simpa [ClauseAt.toSign] using congrArg SignAt.sign same)
  refine ⟨Outline.find?_of_listed ?_, ?_⟩
  · rw [clauses_relocated region first whole inner clauseless]
    exact List.mem_cons_of_mem _ (List.mem_map.mpr ⟨_, List.mem_append.mpr beside, rfl⟩)
  · rcases beside with early | late
    · obtain ⟨front, back, split⟩ := List.append_of_mem early
      cases back with
      | nil =>
          obtain ⟨end_eq, region_eq⟩ :=
            region_relocated_of_last region first whole inner clauseless split
          exact region_eq.trans (if_congr (and_iff_right end_eq).symm rfl rfl)
      | cons next back =>
          obtain ⟨end_ne, region_eq⟩ :=
            region_relocated_of_followed region first whole inner clauseless split
          rw [if_neg fun both => end_ne both.1]
          exact region_eq
    · obtain ⟨front, back, split⟩ := List.append_of_mem late
      obtain ⟨end_ne, region_eq⟩ :=
        region_relocated_of_behind region first whole inner clauseless split
      rw [if_neg fun both => end_ne both.1]
      exact region_eq

/-- The condition stands after the introduced `WHERE`, and before it what came
before the first clause. -/
theorem conditionAt_relocated (first_visible : ∀ byte, (conjunct condition).head? = some byte →
      byte.isSpace = false)
    (last_visible : ∀ byte, (conjunct condition).getLast? = some byte → byte.isSpace = false) :
    (statement.withText (relocated statement.text place after tail.offset condition)).conditionAt
        ((Text.trimRight (statement.text.take tail.offset)).length + 1) = conjunct condition ∧
      Text.trimRight ((relocated statement.text place after tail.offset condition).take
          ((Text.trimRight (statement.text.take tail.offset)).length + 1)) =
        Text.trimRight (statement.text.take tail.offset) := by
  have listed := clauses_relocated region first whole inner clauseless
  have end_eq := (statement.withText
    (relocated statement.text place after tail.offset condition)).regionEnd_of_clauses
      (show _ = [] ++ _ :: _ from listed)
  have before_stop := place_lt_stopBefore region
  have tail_lt := (tail_le region first).1
  have landed : landing statement.text place after tail.offset condition tail.offset =
      (withCondition (statement.text.take tail.offset) condition).length := by
    rw [landing, shift, if_pos (by omega), Nat.sub_self, Nat.zero_add]
  set head := Text.trimRight (statement.text.take tail.offset) with head_eq
  have split : relocated statement.text place after tail.offset condition =
      (head ++ ascii " WHERE") ++ (([Byte.blank] ++ (conjunct condition ++ [Byte.blank])) ++
        (withoutRegion statement.text place after).drop tail.offset) := by
    rw [relocated, withCondition, ← head_eq]
    simp [show ascii " WHERE " = ascii " WHERE" ++ [Byte.blank] from rfl]
  have front_length : (head ++ ascii " WHERE").length =
      head.length + 1 + Clause.filter.keyword.length := by
    rw [List.length_append]
    rfl
  have width_eq : (withCondition (statement.text.take tail.offset) condition).length =
      (head ++ ascii " WHERE").length +
        ([Byte.blank] ++ (conjunct condition ++ [Byte.blank])).length := by
    rw [withCondition, ← head_eq]
    simp [show (ascii " WHERE ").length = 7 from rfl, show (ascii " WHERE").length = 6 from rfl]
    omega
  have blank : ∀ byte ∈ [Byte.blank], byte.isSpace = true := List.forall_mem_singleton.mpr rfl
  constructor
  · have stop_eq : (statement.withText
        (relocated statement.text place after tail.offset condition)).regionEnd (head.length + 1) =
          (withCondition (statement.text.take tail.offset) condition).length := end_eq.trans landed
    rw [Statement.conditionAt, stop_eq, Statement.slice, ← front_length, width_eq,
      Nat.add_sub_cancel_left, Statement.withText, split, List.drop_left, List.take_left]
    exact trim_of_visible blank blank first_visible last_visible
  · have head_blank : relocated statement.text place after tail.offset condition =
        (head ++ [Byte.blank]) ++ (ascii "WHERE" ++ ([Byte.blank] ++ (conjunct condition ++
          [Byte.blank])) ++ (withoutRegion statement.text place after).drop tail.offset) := by
      rw [split, show ascii " WHERE" = [Byte.blank] ++ ascii "WHERE" from rfl]
      simp
    rw [head_blank, show head.length + 1 = (head ++ [Byte.blank]).length by simp, List.take_left,
      trimRight_append_blank blank, head_eq, trimRight_of_visible getLast?_trimRight]

end Regions

end Misplaced

/-- A statement whose `WHERE` at `place` has moved, with its condition, in front
of the other clauses. -/
structure Relocates (statement : Statement) (place : Nat) (result : Statement) : Prop where
  /-- The other clauses stay in their order. -/
  clauses : result.outline.clauses.map (·.clause) =
    .filter :: (statement.outline.clauses.map (·.clause)).filter (· != .filter)
  /-- The condition is what it was, in parentheses if it has an `OR` outside of any, and it stands
  behind what came before the first clause. -/
  condition : ∃ moved, result.outline.find? .filter = some moved ∧
    result.conditionAt moved =
      (if (Word.firstTopLevel? (ascii "OR") (statement.conditionAt place) 0
          (statement.conditionAt place).length).isSome then
        [Byte.openParen] ++ statement.conditionAt place ++ [Byte.closeParen]
      else statement.conditionAt place) ∧
    ∀ first ∈ statement.outline.clauses.head?,
      Text.trimRight (result.text.take moved) = Text.trimRight (statement.text.take first.offset)
  /-- The other clauses keep their regions.  Where nothing but white space follows the region of the
  `WHERE`, the one before it becomes the last, and white space and one semicolon at its end no
  longer belong to it. -/
  regions : ∀ other ∈ statement.outline.clauses, other.clause ≠ .filter →
    ∃ moved, result.outline.find? other.clause = some moved ∧
      result.region moved =
        if statement.regionEnd other.offset = place ∧
            (statement.text.drop (statement.regionEnd place)).all Byte.isSpace = true then
          (statement.region other.offset).take (Statement.bodyEnd (statement.region other.offset))
        else statement.region other.offset

/-- Where a clause comes before the `WHERE`, one is the first of all. -/
theorem exists_first_of_misplaced {statement : Statement} {place : Nat}
    {before inside after : List SignAt}
    (region : Region statement.text .filter place before inside after)
    {tail : ClauseAt} (listed : tail ∈ statement.outline.clauses)
    (misplaced : tail.offset < place) :
    ∃ head others, Sign.newcomers SignAt.clause? [] before = head :: others := by
  refine List.exists_cons_of_ne_nil fun none_before => ?_
  have clauses_eq := region.clauses_eq
  rw [none_before, List.nil_append] at clauses_eq
  have member : tail.toSign ∈ _ := clauses_eq ▸ List.mem_map_of_mem listed
  rcases List.mem_cons.mp member with same | later
  · have same_offset : tail.offset = place := congrArg SignAt.offset same
    omega
  · have behind : place < tail.offset := region.offset_lt
      (List.mem_append_right inside ((Sign.newcomers_sublist _ _).subset later))
    omega

/-- Where each clause begins once, none begins in the condition. -/
theorem clauseless_conditionAt {statement : Statement} (whole : Wellformed statement.text)
    (once : ∀ kind,
      ((start statement.text).signs.countP fun found => found.sign == .clause kind) ≤ 1)
    {place : Nat} (found : statement.outline.find? .filter = some place) :
    ∀ sign ∈ (start (statement.conditionAt place)).signs, sign.clause? = none := by
  obtain ⟨before, inside, after, region⟩ := exists_region found
  intro sign member
  have condition_eq := region.conditionAt_eq statement rfl
  rcases exists_layout_condition found region.ends with empty | ⟨head, lead, trail, layout⟩
  · rw [condition_eq.trans empty] at member
    exact absurd member List.not_mem_nil
  · rw [← condition_eq] at layout
    obtain ⟨other, other_mem, same⟩ := region.exists_of_mem_signs_condition whole layout member
    rw [SignAt.clause?, ← same]
    exact region.clauseless_inside (Region.nodup_of_once once) other other_mem

/-- A misplaced `WHERE` with a condition moves in front of the other clauses, and one
without is taken out. -/
theorem relocateFilter_keeps_regions {statement : Statement} (whole : Wellformed statement.text)
    (once : ∀ kind,
      ((start statement.text).signs.countP fun found => found.sign == .clause kind) ≤ 1)
    {place : Nat} (found : statement.outline.find? .filter = some place)
    {tail : ClauseAt} (listed : tail ∈ statement.outline.clauses)
    (misplaced : tail.offset < place) :
    (statement.conditionAt place = [] → (relocateFilter statement).text =
      statement.text.take place ++ statement.text.drop (statement.regionEnd place)) ∧
    (statement.conditionAt place ≠ [] → Relocates statement place (relocateFilter statement)) := by
  obtain ⟨before, inside, after, region⟩ := exists_region found
  obtain ⟨head, others, first⟩ := exists_first_of_misplaced region listed misplaced
  have end_eq := region.regionEnd_eq statement rfl
  have condition_eq := region.conditionAt_eq statement rfl
  have moved := relocateFilter_of_misplaced region first
  simp only [← condition_eq] at moved
  rw [moved]
  refine ⟨fun empty => by rw [empty, end_eq]; rfl, fun nonempty => ?_⟩
  rw [if_neg (by simpa using nonempty)]
  have inner : Wellformed (statement.conditionAt place) :=
    condition_eq ▸ wellformed_condition whole found region.ends
  have clauseless := clauseless_conditionAt whole once found
  have visible : (∀ byte, (conjunct (statement.conditionAt place)).head? = some byte →
        byte.isSpace = false) ∧
      ∀ byte, (conjunct (statement.conditionAt place)).getLast? = some byte →
        byte.isSpace = false :=
    visible_conjunct head?_trim getLast?_trim
  obtain ⟨condition_kept, front_kept⟩ :=
    conditionAt_relocated region first whole inner clauseless visible.1 visible.2
  refine ⟨map_clause_relocated region first whole inner clauseless, ⟨_, ?_, condition_kept, ?_⟩,
    fun other other_mem apart => ?_⟩
  · refine Outline.find?_of_listed ?_
    exact (clauses_relocated region first whole inner clauseless) ▸ List.mem_cons_self
  · intro clause clause_mem
    have clauses_eq := region.clauses_eq
    obtain ⟨rest, clauses_split⟩ := List.head?_eq_some_iff.mp (Option.mem_def.mp clause_mem)
    rw [show (Outline.ofText statement.text).clauses = clause :: rest from clauses_split, first,
      List.map_cons, List.cons_append, List.cons.injEq] at clauses_eq
    rw [show clause.offset = head.offset from congrArg SignAt.offset clauses_eq.1]
    exact front_kept
  · have kept := region_relocated region first whole inner clauseless other_mem apart
    rw [← end_eq] at kept
    exact ⟨_, kept⟩

/-- The condition moves to the front in parentheses, and the clauses on both sides of it stay. -/
theorem relocateFilter_keeps_regions_between :
    let text := ascii "SELECT a FROM t GROUP BY b WHERE c OR d LIMIT 3;"
    let result := relocateFilter ⟨text, text⟩
    result.outline.clauses.map (·.clause) = [.filter, .grouping, .limit] ∧
      (∃ moved, result.outline.find? .filter = some moved ∧
        result.conditionAt moved = ascii "(c OR d)") ∧
      ∃ moved, result.outline.find? .limit = some moved ∧
        result.region moved = ascii "LIMIT 3" := by
  intro text result
  have kept := @relocateFilter_keeps_regions ⟨text, text⟩ (by decide +kernel)
    (fun kind => by cases kind <;> decide +kernel) 27 (by decide +kernel) ⟨.grouping, 16⟩
    (by decide +kernel) (by decide)
  have relocates := kept.2 (by decide +kernel)
  obtain ⟨moved, found, condition_eq, -⟩ := relocates.condition
  refine ⟨relocates.clauses.trans (by decide +kernel),
    ⟨moved, found, condition_eq.trans (by decide +kernel)⟩, ?_⟩
  obtain ⟨moved, found, region_eq⟩ := relocates.regions ⟨.limit, 40⟩ (by decide +kernel) (by decide)
  exact ⟨moved, found, region_eq.trans (by decide +kernel)⟩

/-- A region that becomes the last may lose its semicolon to the end of the statement. -/
theorem relocateFilter_loses_semicolon :
    let text := ascii "SELECT * FROM t ORDER BY a; WHERE x = 1"
    let statement : Statement := ⟨text, text⟩
    (Wellformed text ∧
        (∀ kind ∈ Clause.all,
          ((start text).signs.countP fun found => found.sign == .clause kind) ≤ 1) ∧
        statement.outline.find? .ordering = some 16 ∧ statement.outline.find? .filter = some 28 ∧
        statement.conditionAt 28 ≠ []) ∧
      (relocateFilter statement).outline.find? .ordering = some 28 ∧
      Text.trimRight ((relocateFilter statement).region 28) = ascii "ORDER BY a" ∧
      Text.trimRight (statement.region 16) = ascii "ORDER BY a;" := by
  decide +kernel

end Repair

end TenantScope
