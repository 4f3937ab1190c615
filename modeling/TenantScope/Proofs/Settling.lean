import Mathlib.Data.List.Nodup
import Mathlib.Data.List.Perm.Subperm
import TenantScope.Proofs.Moving

/-!
# What a pass of repair does to the signs of a text

Cuts keep the order in which the clauses come first, and leave nothing to cut.  Moving a misplaced
condition puts a `WHERE` before all other clauses, or takes an empty one out, after which fewer
clauses follow the first `WHERE` if it is misplaced still.
-/

namespace TenantScope

open Text Site Literal

namespace Sign

/-! ## Regions of signs -/

/-- The signs in the region of a clause. -/
@[irreducible]
def regionOf (kind : Clause) (signs : List Sign) : List Sign :=
  ((signs.dropWhile (· != clause kind)).drop 1).takeWhile
    (isOld clause? ((signs.takeWhile (· != clause kind)).filterMap clause? ++ [kind]))

theorem regionOf_append {kind : Clause} {before : List Sign} (first : clause kind ∉ before)
    (rest : List Sign) :
    regionOf kind (before ++ clause kind :: rest) =
      rest.takeWhile (isOld clause? (before.filterMap clause? ++ [kind])) := by
  have others : ∀ sign ∈ before, (sign != clause kind) = true := fun sign member => by
    simpa using fun same : sign = clause kind => first (same ▸ member)
  rw [regionOf, List.dropWhile_append_of_pos others, List.takeWhile_append_of_pos others]
  simp

theorem regionOf_of_not_mem {kind : Clause} {signs : List Sign} (absent : clause kind ∉ signs) :
    regionOf kind signs = [] := by
  have others : signs.dropWhile (· != clause kind) = [] := by
    rw [List.dropWhile_eq_nil_iff]
    intro sign member
    simpa using fun same : sign = clause kind => absent (same ▸ member)
  rw [regionOf, others]
  rfl

/-- The list `others` is left of signs when the region of a clause loses its end. -/
inductive Shortened (kind : Clause) : (signs others : List Sign) → Prop
  | cut {before inside kept after : List Sign} (first : clause kind ∉ before)
      (old : ∀ sign ∈ inside, isOld clause? (before.filterMap clause? ++ [kind]) sign = true)
      (fresh : ∀ sign ∈ after.head?,
        isOld clause? (before.filterMap clause? ++ [kind]) sign = false)
      (shorter : kept <+: inside) :
      Shortened kind (before ++ clause kind :: (inside ++ after))
        (before ++ clause kind :: (kept ++ after))

theorem takeWhile_append_fresh {seen : List Clause} {inside after : List Sign}
    (old : ∀ sign ∈ inside, isOld clause? seen sign = true)
    (fresh : ∀ sign ∈ after.head?, isOld clause? seen sign = false) :
    (inside ++ after).takeWhile (isOld clause? seen) = inside := by
  rw [List.takeWhile_append_of_pos old]
  cases after with
  | nil => simp
  | cons sign after => simp [fresh sign (by simp)]

/-- The region that is cut keeps its beginning. -/
theorem regionOf_cut {kind : Clause} {before inside after : List Sign}
    (first : clause kind ∉ before)
    (old : ∀ sign ∈ inside, isOld clause? (before.filterMap clause? ++ [kind]) sign = true)
    (fresh : ∀ sign ∈ after.head?,
      isOld clause? (before.filterMap clause? ++ [kind]) sign = false) :
    regionOf kind (before ++ clause kind :: (inside ++ after)) = inside := by
  rw [regionOf_append first, takeWhile_append_fresh old fresh]

/-- A region ends where a clause comes first, whatever follows. -/
theorem takeWhile_append_stop {seen : List Clause} {kind : Clause} (unseen : kind ∉ seen)
    (signs rest : List Sign) :
    (signs ++ clause kind :: rest).takeWhile (isOld clause? seen) =
      (signs ++ [clause kind]).takeWhile (isOld clause? seen) := by
  have stops : isOld clause? seen (clause kind) = false := by simp [isOld, clause?, unseen]
  induction signs with
  | nil => simp [stops]
  | cons sign signs ih =>
      rw [List.cons_append, List.cons_append, List.takeWhile_cons, List.takeWhile_cons, ih]

theorem mem_clauses {kind : Clause} {signs : List Sign} :
    kind ∈ signs.filterMap clause? ↔ clause kind ∈ signs := by
  rw [List.mem_filterMap]
  constructor
  · rintro ⟨sign, member, begun⟩
    rwa [clause?_eq_some.mp begun] at member
  · exact fun member => ⟨_, member, rfl⟩

namespace Shortened

variable {kind : Clause} {signs others : List Sign} (shortened : Shortened kind signs others)

include shortened

/-- The clauses come first in the same order. -/
theorem newcomers_eq : newcomers clause? [] others = newcomers clause? [] signs := by
  obtain ⟨first, old, fresh, shorter⟩ := shortened
  rw [← mem_clauses] at first
  have own : clause? (clause kind) = some kind := rfl
  rw [newcomers_of_region own first old,
    newcomers_of_region own first fun sign member => old sign (shorter.subset member)]

/-- The regions of other clauses stay. -/
theorem regionOf_eq {other : Clause} (apart : other ≠ kind) :
    regionOf other others = regionOf other signs := by
  obtain ⟨first, old, fresh, shorter⟩ := shortened
  rename_i before inside kept after
  by_cases early : clause other ∈ before
  · obtain ⟨front, rest, rfl, front_free⟩ := List.eq_append_cons_of_mem early
    have unseen : kind ∉ front.filterMap clause? ++ [other] := by
      rw [List.mem_append, List.mem_singleton, mem_clauses]
      rintro (listed | same)
      · exact first (List.mem_append_left _ listed)
      · exact apart same.symm
    simp only [List.append_assoc, List.cons_append]
    rw [regionOf_append front_free, regionOf_append front_free, takeWhile_append_stop unseen,
      takeWhile_append_stop unseen _ (inside ++ after)]
  · have not_inside : clause other ∉ inside := fun member => by
      have known := old _ member
      simp only [isOld, clause?, Option.all_some, decide_eq_true_eq, List.mem_append,
        List.mem_singleton, mem_clauses] at known
      exact known.elim early apart
    have apart_sign : clause other ≠ clause kind := fun same => apart (Sign.clause.inj same)
    by_cases late : clause other ∈ after
    · obtain ⟨front, rest, rfl, front_free⟩ := List.eq_append_cons_of_mem late
      have split (piece : List Sign) :
          before ++ clause kind :: (piece ++ (front ++ clause other :: rest)) =
            (before ++ clause kind :: (piece ++ front)) ++ clause other :: rest := by simp
      have free {piece : List Sign} (piece_free : clause other ∉ piece) :
          clause other ∉ before ++ clause kind :: (piece ++ front) := by
        simp [early, apart_sign, piece_free, front_free]
      rw [split, split, regionOf_append (free fun member => not_inside (shorter.subset member)),
        regionOf_append (free not_inside)]
      have listed {piece : List Sign}
          (known : ∀ sign ∈ piece, isOld clause? (before.filterMap clause? ++ [kind]) sign = true)
          (found : Clause) :
          found ∈ (before ++ clause kind :: (piece ++ front)).filterMap clause? ++
            [other] ↔ found ∈ before.filterMap clause? ++ [kind] ++ front.filterMap clause? ++
              [other] := by
        have inner : found ∈ piece.filterMap clause? →
            found ∈ before.filterMap clause? ++ [kind] := fun begun => by
          have old := known _ (mem_clauses.mp begun)
          simpa [isOld, clause?] using old
        have own : [clause kind].filterMap clause? = [kind] := rfl
        rw [← List.singleton_append, List.filterMap_append, List.filterMap_append,
          List.filterMap_append, own]
        simp only [List.mem_append] at inner ⊢
        tauto
      refine congrArg (List.takeWhile · rest) (isOld_congr fun found => ?_)
      rw [listed old, listed fun sign member => old sign (shorter.subset member)]
    · have absent {piece : List Sign} (piece_free : clause other ∉ piece) :
          clause other ∉ before ++ clause kind :: (piece ++ after) := by
        simp [early, apart_sign, piece_free, late]
      rw [regionOf_of_not_mem (absent fun member => not_inside (shorter.subset member)),
        regionOf_of_not_mem (absent not_inside)]

end Shortened

end Sign

/-! ## Cuts -/

/-- The signs of a region, without their offsets. -/
theorem Region.kinds {text : Text} {kind : Clause} {offset : Nat}
    {before inside after : List SignAt} (region : Region text kind offset before inside after) :
    (start text).kinds = before.map SignAt.sign ++
        .clause kind :: (inside.map SignAt.sign ++ after.map SignAt.sign) ∧
      .clause kind ∉ before.map SignAt.sign ∧
      (∀ sign ∈ inside.map SignAt.sign, Sign.isOld Sign.clause?
        ((before.map SignAt.sign).filterMap Sign.clause? ++ [kind]) sign = true) ∧
      ∀ sign ∈ (after.map SignAt.sign).head?, Sign.isOld Sign.clause?
        ((before.map SignAt.sign).filterMap Sign.clause? ++ [kind]) sign = false := by
  have clauses_eq : (before.map SignAt.sign).filterMap Sign.clause? =
      before.filterMap SignAt.clause? := List.filterMap_map
  refine ⟨?_, ?_, fun sign member => ?_, fun sign head_eq => ?_⟩
  · rw [Site.kinds, region.signs_eq]
    simp
  · rw [← Sign.mem_clauses, clauses_eq]
    exact region.first
  · obtain ⟨found, found_mem, rfl⟩ := List.mem_map.mp member
    rw [clauses_eq]
    exact region.old found found_mem
  · rw [List.head?_map] at head_eq
    obtain ⟨found, found_eq, rfl⟩ := Option.map_eq_some_iff.mp (Option.mem_def.mp head_eq)
    rw [clauses_eq]
    exact region.fresh found found_eq

namespace Repair

open Sign

/-- A statement is cut only where a condition begins, and then no condition begins there any
more. -/
theorem shortened_cutConditionOf (statement : Statement) (kind : Clause) :
    (cutConditionOf statement kind = statement ∨
        ¬ Free 0 (regionOf kind (start statement.text).kinds) ∧
        Shortened kind (start statement.text).kinds
          (start (cutConditionOf statement kind).text).kinds) ∧
      Free 0 (regionOf kind (start (cutConditionOf statement kind).text).kinds) := by
  rcases exists_cutConditionOf statement kind with
    ⟨absent, kept⟩ | ⟨offset, before, inside, after, region, outcome⟩
  · refine ⟨.inl kept, ?_⟩
    rw [kept, regionOf_of_not_mem ?_]
    · exact trivial
    · intro member
      obtain ⟨found, listed, sign_eq⟩ := List.mem_map.mp member
      rw [Statement.outline, Outline.find?_eq_signs, Option.map_eq_none_iff, List.find?_eq_none]
        at absent
      exact absent found listed (by simp [sign_eq])
  · obtain ⟨kinds_eq, first, old, fresh⟩ := region.kinds
    rcases outcome with ⟨kept, free⟩ | ⟨front, found, back, inside_eq, free, not_free, cut⟩
    · refine ⟨.inl kept, ?_⟩
      rw [kept, kinds_eq, regionOf_cut first old fresh]
      exact free
    · have shorter : front.map SignAt.sign <+: inside.map SignAt.sign := by
        rw [inside_eq, List.map_append]
        exact List.prefix_append _ _
      have cut_kinds : (start (cutConditionOf statement kind).text).kinds =
          before.map SignAt.sign ++
            .clause kind :: (front.map SignAt.sign ++ after.map SignAt.sign) := by
        have signs_eq : (start statement.text).signs =
            (before ++ ⟨.clause kind, offset⟩ :: front) ++ found :: (back ++ after) := by
          rw [region.signs_eq, inside_eq]
          simp
        rw [cut]
        refine (region.kinds_without signs_eq).trans ?_
        simp
      refine ⟨.inr ⟨?_, ?_⟩, ?_⟩
      · rwa [kinds_eq, regionOf_cut first old fresh]
      · rw [cut_kinds, kinds_eq]
        exact .cut first old fresh shorter
      · rw [cut_kinds,
          regionOf_cut first (fun sign member => old sign (shorter.subset member)) fresh]
        exact free

/-- Where no condition begins in the region of a clause, nothing is cut from it. -/
theorem cutConditionOf_of_free {statement : Statement} {kind : Clause}
    (free : Free 0 (regionOf kind (start statement.text).kinds)) :
    cutConditionOf statement kind = statement :=
  (shortened_cutConditionOf statement kind).1.resolve_right fun cut => cut.1 free

/-- No condition begins in the region of a clause without one. -/
def Tidy (signs : List Sign) : Prop :=
  ∀ kind ∈ conditionless, Free 0 (regionOf kind signs)

theorem cutTrailingConditions_of_tidy {statement : Statement}
    (tidy : Tidy (start statement.text).kinds) : cutTrailingConditions statement = statement := by
  rw [Tidy] at tidy
  rw [cutTrailingConditions]
  generalize conditionless = kinds at tidy ⊢
  induction kinds with
  | nil => rfl
  | cons kind kinds ih =>
      rw [List.forall_mem_cons] at tidy
      rw [List.foldl_cons, cutConditionOf_of_free tidy.1, ih tidy.2]

/-- Cuts leave nothing to cut in the regions they are made in. -/
theorem free_foldl_cutConditionOf {kinds : List Clause} {kind : Clause} {statement : Statement}
    (known : kind ∈ kinds ∨ Free 0 (regionOf kind (start statement.text).kinds)) :
    Free 0 (regionOf kind (start (kinds.foldl cutConditionOf statement).text).kinds) := by
  induction kinds generalizing statement with
  | nil => exact known.resolve_left List.not_mem_nil
  | cons cut kinds ih =>
      rw [List.foldl_cons]
      have step := shortened_cutConditionOf statement cut
      refine ih ?_
      by_cases own : kind = cut
      · subst own
        exact .inr step.2
      · refine known.imp (fun member => (List.mem_cons.mp member).resolve_left own) fun known => ?_
        rcases step.1 with kept | shortened
        · rwa [kept]
        · rwa [shortened.2.regionOf_eq own]

/-- Cuts keep the order in which the clauses come first. -/
theorem newcomers_foldl_cutConditionOf (kinds : List Clause) (statement : Statement) :
    newcomers clause? [] (start (kinds.foldl cutConditionOf statement).text).kinds =
      newcomers clause? [] (start statement.text).kinds := by
  induction kinds generalizing statement with
  | nil => rfl
  | cons cut kinds ih =>
      rw [List.foldl_cons, ih]
      rcases (shortened_cutConditionOf statement cut).1 with kept | shortened
      · rw [kept]
      · exact shortened.2.newcomers_eq

theorem tidy_cutTrailingConditions (statement : Statement) :
    Tidy (start (cutTrailingConditions statement).text).kinds := by
  rw [cutTrailingConditions]
  exact fun kind member => free_foldl_cutConditionOf (.inl member)

theorem newcomers_cutTrailingConditions (statement : Statement) :
    newcomers clause? [] (start (cutTrailingConditions statement).text).kinds =
      newcomers clause? [] (start statement.text).kinds := by
  rw [cutTrailingConditions, newcomers_foldl_cutConditionOf]

end Repair

/-! ## Moves -/

/-- How many clauses are listed from a `WHERE` on that another clause comes before. -/
def Clause.detour : List Clause → Nat
  | [] => 0
  | first :: later =>
      if first = .filter then 0 else (later.dropWhile (· != .filter)).length

namespace Clause

theorem detour_le (clauses : List Clause) : detour clauses ≤ clauses.length - 1 := by
  cases clauses with
  | nil => simp [detour]
  | cons first later =>
      rw [detour]
      split
      · simp
      · simpa using (List.dropWhile_sublist _).length_le

theorem detour_append {front : List Clause} (nonempty : front ≠ []) (other : filter ∉ front)
    (back : List Clause) : detour (front ++ back) = (back.dropWhile (· != filter)).length := by
  cases front with
  | nil => exact absurd rfl nonempty
  | cons first front =>
      rw [List.mem_cons, not_or] at other
      have others : ∀ kind ∈ front, (kind != filter) = true := fun kind member => by
        simpa using fun same : kind = filter => other.2 (same ▸ member)
      rw [List.cons_append, detour, if_neg (Ne.symm other.1), List.dropWhile_append_of_pos others]

/-- When the first `WHERE` goes, the detour gets shorter, even if another one is the first then. -/
theorem detour_lt_of_removed {front back : List Clause} (nonempty : front ≠ [])
    (other : filter ∉ front) (nodup : back.Nodup) (later : back.head? ≠ some filter) :
    detour (front ++ back) < detour (front ++ filter :: back.filter (· != filter)) := by
  rw [detour_append nonempty other, detour_append nonempty other,
    List.dropWhile_cons_of_neg (by simp), List.length_cons, Nat.lt_succ_iff]
  cases back with
  | nil => simp
  | cons first back =>
      have apart : (first != filter) = true := by simpa using later
      have once : back.count filter ≤ 1 := List.nodup_iff_count_le_one.mp nodup.of_cons filter
      have dropped := (List.dropWhile_sublist (l := back) (· != filter)).length_le
      have split := List.length_eq_countP_add_countP (l := back) (· == filter)
      have cut : (first :: back).dropWhile (· != filter) = back.dropWhile (· != filter) :=
        List.dropWhile_cons_of_pos apart
      have kept : (first :: back).filter (· != filter) = first :: back.filter (· != filter) :=
        List.filter_cons_of_pos apart
      have same : back.countP (fun kind => decide ¬(kind == filter) = true) =
          back.countP (· != filter) := by
        congr 1
        funext kind
        rw [bne, Bool.eq_iff_iff]
        simp
      rw [cut, kept, List.length_cons, ← List.countP_eq_length_filter]
      rw [List.count] at once
      omega

end Clause

namespace Sign

theorem nodup_newcomers {element : Type} {begins? : element → Option Clause} (seen : List Clause)
    (found : List element) : ((newcomers begins? seen found).filterMap begins?).Nodup := by
  induction found generalizing seen with
  | nil => exact List.nodup_nil
  | cons first found ih =>
      rw [newcomers, List.filterMap_append]
      split
      · exact ih _
      · rw [filterMap_cons_toList, List.filterMap_nil, List.append_nil]
        cases begun : begins? first with
        | none => exact ih _
        | some kind =>
            refine List.nodup_cons.mpr ⟨fun member => ?_, ih _⟩
            exact (mem_newcomers.mp member).2 (by simp)

theorem order_append (before others : List Sign) :
    order (before ++ others) = order before ++
      (newcomers clause? (before.filterMap clause?) others).filterMap clause? := by
  rw [order, newcomers_append, List.nil_append, List.filterMap_append]
  rfl

/-- Without a region the clause that begins it may begin later. -/
theorem order_of_region {before inside : List Sign} {kind : Clause} (first : clause kind ∉ before)
    (old : ∀ sign ∈ inside, isOld clause? (before.filterMap clause? ++ [kind]) sign = true)
    (after : List Sign) :
    order (before ++ clause kind :: (inside ++ after)) = order before ++ kind ::
      ((newcomers clause? (before.filterMap clause?) after).filterMap clause?).filter
        (· != kind) := by
  have own : clause? (clause kind) = some kind := rfl
  have seen : newcomers clause? (before.filterMap clause? ++ [kind]) after =
      newcomers clause? (kind :: before.filterMap clause?) after :=
    newcomers_congr (fun other => by simp [or_comm]) after
  rw [order, newcomers_of_region own (mem_clauses.not.mpr first) old, seen, newcomers_of_seen,
    List.filterMap_append, List.filterMap_cons_some own, List.filterMap_filter,
    List.filter_filterMap]
  congr 3
  funext sign
  cases clause? sign <;> simp [Option.filter]

theorem head?_newcomers_of_fresh {seen : List Clause} {kind : Clause} {after : List Sign}
    (fresh : ∀ sign ∈ after.head?, isOld clause? (seen ++ [kind]) sign = false) :
    ((newcomers clause? seen after).filterMap clause?).head? ≠ some kind := by
  cases after with
  | nil => simp [newcomers]
  | cons sign after =>
      have new := fresh sign rfl
      cases begun : clause? sign with
      | none => simp [isOld, begun] at new
      | some other =>
          simp only [isOld, begun, Option.all_some, decide_eq_false_iff_not, List.mem_append,
            List.mem_singleton, not_or] at new
          have unseen : isOld clause? seen sign = false := by simp [isOld, begun, new.1]
          rw [newcomers, unseen, if_neg Bool.false_ne_true, List.singleton_append,
            List.filterMap_cons_some begun]
          simpa using new.2

theorem mem_order {kind : Clause} {signs : List Sign} : kind ∈ order signs ↔
    clause kind ∈ signs := by
  rw [order, mem_newcomers, mem_clauses]
  simp

end Sign

/-- The clauses of a text are those that its signs begin. -/
theorem Outline.order_kinds (text : Text) :
    Sign.order (start text).kinds = (ofText text).clauses.map (·.clause) := by
  have listed : Sign.newcomers Sign.clause? [] (start text).kinds =
      ((ofText text).clauses.map ClauseAt.toSign).map SignAt.sign := by
    rw [clauses_ofText, Site.kinds, Sign.newcomers_map]
    rfl
  have named : Sign.clause? ∘ SignAt.sign ∘ ClauseAt.toSign = fun found => some found.clause := rfl
  rw [Sign.order, listed, List.map_map, List.filterMap_map, named, List.filterMap_eq_map']

/-- How many clauses the outline lists from a misplaced `WHERE` on. -/
def Outline.detour (outline : Outline) : Nat :=
  Clause.detour (outline.clauses.map (·.clause))

theorem Outline.detour_ofText (text : Text) :
    (ofText text).detour = Clause.detour (Sign.order (start text).kinds) := by
  rw [detour, order_kinds]

/-- A query holds each of its five clauses once. -/
theorem Outline.detour_le_four (text : Text) : (ofText text).detour ≤ 4 := by
  have bounded := Clause.detour_le ((ofText text).clauses.map (·.clause))
  have few : ((ofText text).clauses.map (·.clause)).length ≤ Clause.all.length :=
    ((nodup_clauses text).subperm fun kind _ => by cases kind <;> decide).length_le
  exact bounded.trans (Nat.sub_le_sub_right few 1)

namespace Repair

open Sign

/-- Without a detour nothing is moved. -/
theorem relocateFilter_of_detour {statement : Statement} (direct : statement.outline.detour = 0) :
    relocateFilter statement = statement := by
  rw [Outline.detour] at direct
  cases listed : statement.outline.clauses with
  | nil => exact relocateFilter_of_first (by simp [listed])
  | cons first later =>
      by_cases is_filter : first.clause = .filter
      · exact relocateFilter_of_first (by simp [listed, is_filter])
      · rw [listed, List.map_cons, Clause.detour, if_neg is_filter, List.length_eq_zero_iff,
          List.dropWhile_eq_nil_iff] at direct
        have absent : statement.outline.find? .filter = none := by
          rw [Outline.find?, ClauseAt.find?, listed, Option.map_eq_none_iff, List.find?_eq_none]
          intro found member
          rcases List.mem_cons.mp member with rfl | member
          · simpa using is_filter
          · simpa using direct found.clause (List.mem_map_of_mem member)
        rw [relocateFilter, absent]

/-- A misplaced `WHERE` comes behind another clause. -/
theorem exists_misplaced {statement : Statement} (detours : statement.outline.detour ≠ 0) :
    ∃ place before inside after tail others,
      Region statement.text .filter place before inside after ∧
        newcomers SignAt.clause? [] before = tail :: others := by
  rw [Outline.detour] at detours
  cases listed : statement.outline.clauses with
  | nil => simp [listed, Clause.detour] at detours
  | cons first rest =>
      rw [listed, List.map_cons, Clause.detour] at detours
      split at detours
      · exact absurd rfl detours
      · rename_i other
        cases found : statement.outline.find? .filter with
        | none =>
            rw [Outline.find?, ClauseAt.find?, Option.map_eq_none_iff, List.find?_eq_none, listed]
              at found
            refine absurd ?_ detours
            rw [List.length_eq_zero_iff, List.dropWhile_eq_nil_iff]
            intro kind member
            obtain ⟨clause, listed, rfl⟩ := List.mem_map.mp member
            simpa using found clause (List.mem_cons_of_mem first listed)
        | some place =>
            obtain ⟨before, inside, after, region⟩ := exists_region found
            cases first : newcomers SignAt.clause? [] before with
            | nil =>
                have clauses_eq := region.clauses_eq
                rw [first, List.nil_append,
                  show (Outline.ofText statement.text).clauses = _ from listed,
                  List.map_cons, List.cons.injEq] at clauses_eq
                exact absurd
                  (by simpa [ClauseAt.toSign] using congrArg SignAt.sign clauses_eq.1) other
            | cons tail others => exact ⟨place, before, inside, after, tail, others, region, first⟩

/-- A move makes the detour shorter. -/
theorem detour_relocateFilter (statement : Statement) :
    (relocateFilter statement).outline.detour ≤ statement.outline.detour - 1 := by
  by_cases direct : statement.outline.detour = 0
  · rw [relocateFilter_of_detour direct, direct]
  · obtain ⟨place, before, inside, after, tail, others, region, first⟩ := exists_misplaced direct
    obtain ⟨kinds_eq, absent, old, fresh⟩ := region.kinds
    rw [Statement.outline, Statement.outline, Outline.detour_ofText, Outline.detour_ofText]
    rcases kinds_relocateFilter region first with cut | ⟨front, rest, front_eq, moved⟩
    · rw [cut, kinds_eq, order_append, order_of_region absent old]
      refine Nat.le_sub_one_of_lt (Clause.detour_lt_of_removed ?_ (mem_order.not.mpr absent)
        (nodup_newcomers _ _) (head?_newcomers_of_fresh fresh))
      obtain ⟨ahead, later, before_eq, -, begins⟩ := exists_of_newcomers_eq_cons first
      obtain ⟨kind, begun⟩ := Option.ne_none_iff_exists'.mp begins
      refine List.ne_nil_of_mem
        (mem_order.mpr (List.mem_map.mpr ⟨tail, ?_, clause?_eq_some.mp begun⟩))
      rw [before_eq]
      exact List.mem_append_right _ List.mem_cons_self
    · have none_first : order front = [] := by
        rw [List.eq_nil_iff_forall_not_mem]
        intro kind member
        rw [mem_order, ← mem_clauses, front_eq] at member
        exact List.not_mem_nil member
      rw [moved, order_append, front_eq, none_first]
      exact Nat.zero_le _

end Repair

end TenantScope
