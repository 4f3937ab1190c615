import Mathlib.Data.Prod.Basic
import Mathlib.Order.Bounds.Basic
import TenantScope.Proofs.Settling

/-!
# What cutting trailing conditions takes out

From each region that holds no condition at most one range is taken out: from the first place
at which a condition begins to the end of the region.  A cut moves what comes behind it and
leaves the regions of the other clauses as they are, so the ranges can be read off the text as
it was before the first cut.
-/

namespace TenantScope

open Text Site Literal

/-- A sign stands at one place in the list of the signs. -/
theorem signs_parts_unique {text : Text} {found : SignAt} {before others after rest : List SignAt}
    (one : (start text).signs = before ++ found :: after)
    (other : (start text).signs = others ++ found :: rest) : before = others ∧ after = rest := by
  have ordered := one ▸ pairwise_signs text
  rw [List.pairwise_append, List.pairwise_cons] at ordered
  obtain ⟨-, ⟨later, -⟩, earlier⟩ := ordered
  rw [one] at other
  have parts := (List.append_cons_inj_of_notMem (fun listed => ?_) fun listed => ?_).mp other
  · exact ⟨parts.1, parts.2.2⟩
  · exact lt_irrefl _ (earlier _ listed _ List.mem_cons_self)
  · exact lt_irrefl _ (later _ listed)

/-- Where an element follows a list that it is not in, what is in between can be split off. -/
theorem exists_between {element : Type} {found : element} {back tail inner rest : List element}
    (split : back ++ found :: tail = inner ++ rest) (apart : found ∉ inner) :
    ∃ between, back = inner ++ between ∧ rest = between ++ found :: tail := by
  rcases List.append_eq_append_iff.mp split with
    ⟨between, inner_eq, rest_eq⟩ | ⟨between, back_eq, rest_eq⟩
  · cases between with
    | nil => exact ⟨[], by simpa using inner_eq.symm, by simpa using rest_eq.symm⟩
    | cons first between =>
        rw [List.cons_append, List.cons.injEq] at rest_eq
        exact absurd (by simp [inner_eq, rest_eq.1]) apart
  · exact ⟨between, back_eq, rest_eq⟩

/-! ## Conditions among signs -/

namespace Sign

/-- Number of open case distinctions after a sign. -/
def casesAfter (cases : Nat) : Sign → Nat
  | opening => cases + 1
  | ending => cases - 1
  | _ => cases

/-- The sign joins conditions or begins one. -/
def joins : Sign → Bool
  | junction => true
  | clause kind => kind == .filter
  | _ => false

theorem ofWords?_eq_junction {spoken next : Text} :
    ofWords? spoken next = some junction ↔ spoken = ascii "AND" ∨ spoken = ascii "OR" := by
  constructor
  · intro signed
    unfold ofWords? at signed
    split_ifs at signed <;> simp_all
  · rintro (rfl | rfl) <;> rfl

/-- Number of case distinctions that are open after signs, where `cases` are open already. -/
def openCases (cases : Nat) (signs : List SignAt) : Nat :=
  signs.foldl (fun cases found => found.sign.casesAfter cases) cases

end Sign

namespace Repair

/-- Offset of the first sign that begins a condition, where `cases` case distinctions are open. -/
def firstCondition? : (cases : Nat) → List SignAt → Option Nat
  | _, [] => none
  | cases, found :: others =>
      if cases = 0 ∧ found.sign.joins = true then some found.offset
      else firstCondition? (found.sign.casesAfter cases) others

/-- The search for a condition goes by signs where the first `WHERE` is not among them. -/
theorem conditionStart?_eq (filterAt? : Option Nat) (cases : Nat) {sites : List Site}
    (later : ∀ site ∈ sites, site.sign? = some (.clause .filter) → filterAt? ≠ some site.offset) :
    conditionStart? filterAt? cases sites = firstCondition? cases (sites.filterMap signAt?) := by
  induction sites generalizing cases with
  | nil => rfl
  | cons site sites ih =>
      rw [List.forall_mem_cons] at later
      have rest := fun cases => ih cases later.2
      rw [conditionStart?_cons, Sign.filterMap_cons_toList signAt?]
      cases signed : site.sign? with
      | none => simp [signAt?, signed, rest]
      | some sign =>
          have one : site.signAt?.toList = [⟨sign, site.offset⟩] := by simp [signAt?, signed]
          rw [one, List.singleton_append, firstCondition?]
          cases sign with
          | opening => simp [Sign.joins, Sign.casesAfter, rest]
          | ending => simp [Sign.joins, Sign.casesAfter, rest]
          | junction => simp [Sign.joins, Sign.casesAfter, rest]
          | clause kind =>
              have not_first :=
                fun is_filter : kind = .filter => later.1 (by rw [signed, is_filter])
              simp only [Sign.joins, Sign.casesAfter, rest, beq_iff_eq]
              refine if_congr ⟨fun both => ⟨both.2.2, both.1⟩, fun both => ?_⟩ rfl rfl
              exact ⟨both.2, not_first both.2, both.1⟩

/-- The places at which a condition begins among signs, where `cases` case distinctions are open. -/
def conditions (cases : Nat) (signs : List SignAt) : Set Nat :=
  {place | ∃ sign : Sign, ⟨sign, place⟩ ∈ signs ∧ sign.joins = true ∧
    Sign.openCases cases (signs.filter fun found => found.offset < place) = 0}

theorem mem_conditions_cons {cases : Nat} {found : SignAt} {others : List SignAt}
    (later : ∀ other ∈ others, found.offset < other.offset) {place : Nat} :
    place ∈ conditions cases (found :: others) ↔
      (place = found.offset ∧ cases = 0 ∧ found.sign.joins = true) ∨
        place ∈ conditions (found.sign.casesAfter cases) others := by
  have none_before : (found :: others).filter (fun other => other.offset < found.offset) = [] := by
    rw [List.filter_eq_nil_iff, List.forall_mem_cons]
    exact ⟨by simp, fun other member => by simpa using (later other member).le⟩
  have own_before {other : SignAt} (member : other ∈ others) :
      (found :: others).filter (fun sign => sign.offset < other.offset) =
        found :: others.filter fun sign => sign.offset < other.offset :=
    List.filter_cons_of_pos (by simpa using later other member)
  constructor
  · rintro ⟨sign, member, joins, outside⟩
    rcases List.mem_cons.mp member with rfl | member
    · rw [none_before] at outside
      exact .inl ⟨rfl, outside, joins⟩
    · rw [own_before member] at outside
      exact .inr ⟨sign, member, joins, outside⟩
  · rintro (⟨rfl, outside, joins⟩ | ⟨sign, member, joins, outside⟩)
    · refine ⟨found.sign, List.mem_cons_self, joins, ?_⟩
      rw [none_before]
      exact outside
    · refine ⟨sign, List.mem_cons_of_mem found member, joins, ?_⟩
      rw [own_before member]
      exact outside

/-- The search ends at the first place at which a condition begins. -/
theorem firstCondition?_eq_some {cases : Nat} {signs : List SignAt}
    (ordered : signs.Pairwise fun earlier later => earlier.offset < later.offset) {place : Nat} :
    firstCondition? cases signs = some place ↔ IsLeast (conditions cases signs) place := by
  induction signs generalizing cases with
  | nil =>
      simp only [firstCondition?, reduceCtorEq, false_iff]
      rintro ⟨⟨sign, member, -⟩, -⟩
      exact List.not_mem_nil member
  | cons found others ih =>
      rw [List.pairwise_cons] at ordered
      have split := fun place => @mem_conditions_cons cases found others ordered.1 place
      rw [firstCondition?]
      split
      · rename_i begins
        have least : IsLeast (conditions cases (found :: others)) found.offset := by
          refine ⟨(split _).mpr (.inl ⟨rfl, begins⟩), fun other member => ?_⟩
          rcases (split other).mp member with ⟨rfl, -⟩ | ⟨sign, member, -⟩
          · exact le_refl _
          · exact (ordered.1 _ member).le
        rw [Option.some_inj]
        exact ⟨fun same => same ▸ least, fun other => least.unique other⟩
      · rename_i begins_not
        have same : conditions cases (found :: others) =
            conditions (found.sign.casesAfter cases) others := by
          ext other
          rw [split]
          exact or_iff_right fun begins => begins_not begins.2
        rw [same]
        exact ih ordered.2

theorem mem_of_firstCondition? {cases : Nat} {signs : List SignAt} {place : Nat}
    (found : firstCondition? cases signs = some place) : ∃ sign, ⟨sign, place⟩ ∈ signs := by
  induction signs generalizing cases with
  | nil => simp [firstCondition?] at found
  | cons first others ih =>
      rw [firstCondition?] at found
      split at found
      · rw [← Option.some.inj found]
        exact ⟨first.sign, List.mem_cons_self⟩
      · obtain ⟨sign, member⟩ := ih found
        exact ⟨sign, List.mem_cons_of_mem first member⟩

end Repair

/-! ## Taking ranges out of a text -/

/-- One of the ranges, each given by its first offset and the offset after it, holds an offset. -/
def covers (ranges : List (Nat × Nat)) (offset : Nat) : Bool :=
  ranges.any fun range => range.1 ≤ offset && offset < range.2

/-- The text without the bytes in some ranges of offsets. -/
def without (ranges : List (Nat × Nat)) (text : Text) : Text :=
  (text.zipIdx.filter fun entry => !covers ranges entry.2).map Prod.fst

/-- Where an offset outside a range lands when the range is taken out. -/
def shift (start stop offset : Nat) : Nat :=
  if offset < stop then offset else offset - stop + start

/-- The same bytes are kept where the ranges hold them as other ranges do, counted
from another place. -/
theorem kept_congr {text : Text} {ranges others : List (Nat × Nat)} {place other : Nat}
    (same : ∀ index < text.length, covers ranges (place + index) = covers others (other + index)) :
    ((text.zipIdx place).filter fun entry => !covers ranges entry.2).map Prod.fst =
      ((text.zipIdx other).filter fun entry => !covers others entry.2).map Prod.fst := by
  induction text generalizing place other with
  | nil => rfl
  | cons byte text ih =>
      have first := same 0 (by simp)
      have rest := @ih (place + 1) (other + 1) fun index inside => by
        have next := same (index + 1) (by simpa using inside)
        rwa [Nat.add_comm index, ← Nat.add_assoc, ← Nat.add_assoc] at next
      rw [Nat.add_zero, Nat.add_zero] at first
      rw [List.zipIdx_cons, List.zipIdx_cons, List.filter_cons, List.filter_cons]
      simp only [first]
      split
      · rw [List.map_cons, List.map_cons, rest]
      · exact rest

theorem without_nil (text : Text) : without [] text = text := by
  have kept : ∀ entry ∈ text.zipIdx, (!covers [] entry.2) = true := fun _ _ => rfl
  rw [without, List.filter_eq_self.mpr kept, List.zipIdx_map_fst]

section Shift

variable {start stop : Nat} {ranges : List (Nat × Nat)} (le : start ≤ stop)
  (apart : ∀ range ∈ ranges, range.1 < range.2 ∧ (range.2 ≤ start ∨ stop ≤ range.1))

include le apart

/-- Ranges that lie apart hold an offset if and only if the moved ranges hold the moved offset. -/
theorem covers_shift {offset : Nat} (outside : offset < start ∨ stop ≤ offset) :
    covers ((start, stop) :: ranges) offset =
      covers (ranges.map (Prod.map (shift start stop) (shift start stop)))
        (shift start stop offset) := by
  have out : (decide (start ≤ offset) && decide (offset < stop)) = false := by
    rcases outside with before | behind
    · simp [Nat.not_le.mpr before]
    · simp [Nat.not_lt.mpr behind]
  rw [covers, covers, List.any_cons, out, Bool.false_or, List.any_map, Bool.eq_iff_iff,
    List.any_eq_true, List.any_eq_true]
  refine exists_congr fun range => and_congr_right fun member => ?_
  have placed := apart range member
  simp only [Function.comp_apply, Prod.map_fst, Prod.map_snd, Bool.and_eq_true, decide_eq_true_eq]
  unfold shift
  split_ifs <;> omega

/-- One range after another may be taken out, if those that are left are moved each time. -/
theorem without_cons {text : Text} (inside : stop ≤ text.length) :
    without ((start, stop) :: ranges) text =
      without (ranges.map (Prod.map (shift start stop) (shift start stop)))
        (text.take start ++ text.drop stop) := by
  have split :
      text = text.take start ++ ((text.drop start).take (stop - start) ++ text.drop stop) := by
    conv => lhs; rw [← List.take_append_drop start text,
      ← List.take_append_drop (stop - start) (text.drop start), List.drop_drop,
      Nat.add_sub_cancel' le]
  have front : (text.take start).length = start := List.length_take_of_le (le.trans inside)
  have middle : ((text.drop start).take (stop - start)).length = stop - start :=
    List.length_take_of_le (by rw [List.length_drop]; omega)
  have removed : ∀ entry ∈ ((text.drop start).take (stop - start)).zipIdx start,
      ¬ (!covers ((start, stop) :: ranges) entry.2) = true := by
    rintro ⟨byte, offset⟩ member
    have bounds := List.mem_zipIdx member
    simp [covers, List.any_cons]
    omega
  conv => lhs; rw [split]
  rw [without, without, List.zipIdx_append, List.zipIdx_append, List.zipIdx_append, front, middle,
    Nat.zero_add, Nat.add_sub_cancel' le, List.filter_append, List.filter_append,
    List.filter_append, List.filter_eq_nil_iff.mpr removed, List.nil_append, List.map_append,
    List.map_append]
  congr 1
  · refine kept_congr fun index below => ?_
    rw [front] at below
    rw [Nat.zero_add, covers_shift le apart (.inl below), shift, if_pos (by omega)]
  · refine kept_congr fun index _ => ?_
    rw [covers_shift le apart (.inr (Nat.le_add_right stop index)), shift, if_neg (by omega),
      Nat.add_sub_cancel_left, Nat.add_comm]

end Shift

/-! ## Regions beside a cut -/

namespace SignAt

/-- The sign where it lands when a range before it is taken out. -/
def shift (start stop : Nat) (found : SignAt) : SignAt :=
  { found with offset := TenantScope.shift start stop found.offset }

theorem map_shift_of_lt {start stop : Nat} {signs : List SignAt}
    (before : ∀ sign ∈ signs, sign.offset < stop) : signs.map (shift start stop) = signs := by
  refine (List.map_congr_left fun sign member => ?_).trans (List.map_id signs)
  rw [shift, TenantScope.shift, if_pos (before sign member), id]

end SignAt

namespace Region

variable {text other : Text} {kind : Clause} {offset : Nat} {before inside after : List SignAt}

/-- The signs that belong to the region of a clause. -/
theorem filter_signs (region : Region text kind offset before inside after) :
    ((start text).signs.filter fun found =>
      decide (offset < found.offset) && decide (found.offset < stopBefore text after)) =
        inside := by
  have ordered := region.signs_eq ▸ pairwise_signs text
  have earlier := (List.pairwise_append.mp ordered).2.2
  have outside (signs : List SignAt) (out : ∀ sign ∈ signs,
      ¬(offset < sign.offset ∧ sign.offset < stopBefore text after)) :
      (signs.filter fun found =>
        decide (offset < found.offset) && decide (found.offset < stopBefore text after)) = [] := by
    rw [List.filter_eq_nil_iff]
    intro sign member
    simpa using out sign member
  rw [region.signs_eq, ← List.singleton_append, List.filter_append, List.filter_append,
    List.filter_append, outside before, outside [_], outside after, List.filter_eq_self.mpr,
    List.nil_append, List.nil_append, List.append_nil]
  · intro sign member
    simpa using ⟨region.offset_lt (List.mem_append_left after member), region.lt_stopBefore member⟩
  · exact fun sign member within => (region.stopBefore_le member).not_gt within.2
  · exact fun sign member within => by simp [List.mem_singleton.mp member] at within
  · exact fun sign member within =>
      lt_asymm within.1 (earlier sign member _ List.mem_cons_self)

/-- The signs behind a region land where a range that ends with it is taken out. -/
theorem map_shift_after (region : Region text kind offset before inside after) (place : Nat) :
    after.map (SignAt.shift place (stopBefore text after)) =
      (start (text.drop (stopBefore text after))).signs.map fun sign =>
        { sign with offset := sign.offset + place } := by
  refine (congrArg (List.map _) region.signs_drop.symm).trans ?_
  rw [List.map_map]
  refine List.map_congr_left fun sign _ => ?_
  rw [Function.comp_apply, SignAt.shift, shift, if_neg (Nat.not_lt.mpr (Nat.le_add_left _ _)),
    Nat.add_sub_cancel]

/-- A list of signs with other offsets is made of regions in the same way. -/
theorem of_map {place : Nat → Nat}
    (signs_eq : (start other).signs = (before ++ ⟨.clause kind, offset⟩ :: (inside ++ after)).map
      fun found => { found with offset := place found.offset })
    (first : kind ∉ before.filterMap SignAt.clause?)
    (old : ∀ sign ∈ inside,
      Sign.isOld SignAt.clause? (before.filterMap SignAt.clause? ++ [kind]) sign = true)
    (fresh : ∀ sign ∈ after.head?,
      Sign.isOld SignAt.clause? (before.filterMap SignAt.clause? ++ [kind]) sign = false) :
    Region other kind (place offset)
      (before.map fun found => { found with offset := place found.offset })
      (inside.map fun found => { found with offset := place found.offset })
      (after.map fun found => { found with offset := place found.offset }) := by
  have clauses_eq : (before.map fun found => { found with offset := place found.offset }).filterMap
      SignAt.clause? = before.filterMap SignAt.clause? := List.filterMap_map
  refine ⟨?_, ?_, ?_, ?_⟩
  · rw [signs_eq, List.map_append, List.map_cons, List.map_append]
  · rwa [clauses_eq]
  · rw [clauses_eq, List.forall_mem_map]
    exact old
  · rw [clauses_eq, List.head?_map]
    intro sign head_eq
    obtain ⟨found, found_eq, rfl⟩ := Option.map_eq_some_iff.mp head_eq
    exact fresh found found_eq

/-- A region has its signs and its end where they land when a range beside it is taken out. -/
def Lands (text : Text) (start stop : Nat) (kind : Clause) (offset : Nat)
    (inside after : List SignAt) :
    Prop :=
  ∃ before rest, Region (text.take start ++ text.drop stop) kind (shift start stop offset) before
      (inside.map (SignAt.shift start stop)) rest ∧
    stopBefore (text.take start ++ text.drop stop) rest = shift start stop (stopBefore text after)

section Cut

variable {kept dropped : List SignAt} {found : SignAt}
  (own : Region text kind offset before (kept ++ found :: dropped) after)

include own

theorem cut_lt : offset < found.offset ∧ found.offset < stopBefore text after :=
  ⟨own.offset_lt (by simp), own.lt_stopBefore (by simp)⟩

/-- The signs that a cut leaves are moved if they come behind it. -/
theorem signs_cut :
    (start (text.take found.offset ++ text.drop (stopBefore text after))).signs =
      (before ++ ⟨.clause kind, offset⟩ :: (kept ++ after)).map
        (SignAt.shift found.offset (stopBefore text after)) := by
  have signs_eq : (start text).signs =
      (before ++ ⟨.clause kind, offset⟩ :: kept) ++ found :: (dropped ++ after) := by
    rw [own.signs_eq]
    simp
  have ordered := signs_eq ▸ pairwise_signs text
  have ahead : ∀ sign ∈ before ++ ⟨.clause kind, offset⟩ :: kept,
      sign.offset < stopBefore text after := fun sign member =>
    ((List.pairwise_append.mp ordered).2.2 sign member found List.mem_cons_self).trans own.cut_lt.2
  have length_eq : (text.take found.offset).length = found.offset :=
    List.length_take_of_le (own.cut_lt.2.le.trans own.ends.le_length)
  rw [signs_without signs_eq own.ends, length_eq, ← own.map_shift_after, ← List.cons_append,
    ← List.append_assoc, List.map_append, SignAt.map_shift_of_lt ahead]

/-- The end of the body is moved by a cut that a clause comes behind. -/
theorem bodyEnd_cut (followed : after ≠ []) :
    Statement.bodyEnd (text.take found.offset ++ text.drop (stopBefore text after)) =
      shift found.offset (stopBefore text after) (Statement.bodyEnd text) := by
  have nonempty : 0 < Statement.bodyEnd (text.drop (stopBefore text after)) := by
    have some_sign : (start (text.drop (stopBefore text after))).signs ≠ [] := fun none_left =>
      followed (by rw [← own.signs_drop, none_left, List.map_nil])
    obtain ⟨sign, member⟩ := List.exists_mem_of_ne_nil _ some_sign
    exact Nat.zero_lt_of_lt (Statement.offset_lt_bodyEnd member)
  have end_eq := Statement.bodyEnd_append_left nonempty (text.take (stopBefore text after))
  rw [List.take_append_drop, List.length_take_of_le own.ends.le_length] at end_eq
  rw [Statement.bodyEnd_append_left nonempty, end_eq, shift, if_neg (by omega),
    List.length_take_of_le (own.cut_lt.2.le.trans own.ends.le_length), Nat.add_sub_cancel_left,
    Nat.add_comm]

/-- A region that begins before the cut one keeps its place, and ends before the cut. -/
theorem beside_cut_of_early {kind' : Clause} {place : Nat} {front inner rest : List SignAt}
    (beside : Region text kind' place front inner rest) (apart : kind' ≠ kind)
    (early : ⟨.clause kind', place⟩ ∈ before) :
    Lands text found.offset (stopBefore text after) kind' place inner rest ∧
      stopBefore text rest ≤ found.offset := by
  obtain ⟨front', back, rfl⟩ := List.append_of_mem early
  have first := own.first
  have signs_eq := own.signs_eq
  rw [List.append_assoc, List.cons_append] at signs_eq
  obtain ⟨rfl, back_eq⟩ := signs_parts_unique signs_eq beside.signs_eq
  have own_not_mem : (⟨.clause kind, offset⟩ : SignAt) ∉ inner := fun listed => by
    have known := beside.old _ listed
    simp only [Sign.isOld, SignAt.clause?, Sign.clause?, Option.all_some, decide_eq_true_eq,
      List.mem_append, List.mem_singleton, Ne.symm apart, or_false] at known
    exact first (by rw [List.filterMap_append]; exact List.mem_append_left _ known)
  -- The cut region comes after the signs of the other one, so what follows them begins alike.
  obtain ⟨between, rfl, rfl⟩ := exists_between back_eq own_not_mem
  have head_eq (tail : List SignAt) : (between ++ ⟨.clause kind, offset⟩ :: tail).head? =
      (between ++ [(⟨.clause kind, offset⟩ : SignAt)]).head? := by
    cases between <;> rfl
  refine ⟨⟨_, _, @of_map _ _ _ front' inner (between ++ ⟨.clause kind, offset⟩ :: (kept ++ after))
    (shift found.offset (stopBefore text after)) ?_ beside.first beside.old ?_, ?_⟩, ?_⟩
  · rw [own.signs_cut]
    congr 1
    simp
  · rw [head_eq, ← head_eq (kept ++ found :: dropped ++ after)]
    exact beside.fresh
  · rw [stopBefore, stopBefore, List.head?_map, head_eq, head_eq]
    cases between <;> rfl
  · have own_mem : (⟨.clause kind, offset⟩ : SignAt) ∈
        between ++ ⟨.clause kind, offset⟩ :: (kept ++ found :: dropped ++ after) := by simp
    exact (beside.stopBefore_le own_mem).trans own.cut_lt.1.le

/-- The signs that a cut takes out begin no clause that has not begun before. -/
theorem begun_cut_iff (between : List SignAt) (known : Clause) :
    known ∈ (before ++ ⟨.clause kind, offset⟩ :: (kept ++ found :: dropped ++ between)).filterMap
        SignAt.clause? ↔
      known ∈ (before ++ ⟨.clause kind, offset⟩ :: (kept ++ between)).filterMap SignAt.clause? := by
  have taken : known ∈ (found :: dropped).filterMap SignAt.clause? →
      known ∈ before.filterMap SignAt.clause? ++ [kind] := fun begun => by
    obtain ⟨sign, member, sign_eq⟩ := List.mem_filterMap.mp begun
    simpa [Sign.isOld, sign_eq] using own.old sign (List.mem_append_right kept member)
  have own_eq : SignAt.clause? ⟨.clause kind, offset⟩ = some kind := rfl
  rw [List.mem_append] at taken
  simp only [List.mem_append, List.filterMap_append, List.filterMap_cons_some own_eq, List.mem_cons,
    List.not_mem_nil, or_false] at taken ⊢
  tauto

/-- A region that begins behind the cut one is moved by the cut. -/
theorem beside_cut_of_late {kind' : Clause} {place : Nat} {front inner rest : List SignAt}
    (beside : Region text kind' place front inner rest) (late : ⟨.clause kind', place⟩ ∈ after) :
    Lands text found.offset (stopBefore text after) kind' place inner rest ∧
      stopBefore text after ≤ place := by
  refine ⟨?_, own.stopBefore_le late⟩
  obtain ⟨between, tail, rfl⟩ := List.append_of_mem late
  have split : (start text).signs = (before ++ ⟨.clause kind, offset⟩ ::
      (kept ++ found :: dropped ++ between)) ++ ⟨.clause kind', place⟩ :: tail := by
    rw [own.signs_eq]
    simp
  obtain ⟨rfl, rfl⟩ := signs_parts_unique split beside.signs_eq
  have seen : ∀ known, known ∈ (before ++ ⟨.clause kind, offset⟩ ::
      (kept ++ found :: dropped ++ between)).filterMap SignAt.clause? ++ [kind'] ↔
        known ∈ (before ++ ⟨.clause kind, offset⟩ :: (kept ++ between)).filterMap SignAt.clause? ++
          [kind'] := fun known => by
    rw [List.mem_append, List.mem_append, own.begun_cut_iff]
  refine ⟨_, _, @of_map _ _ _ (before ++ ⟨.clause kind, offset⟩ :: (kept ++ between)) inner rest
    (shift found.offset (stopBefore text _)) ?_ (fun begun => ?_) ?_ ?_, ?_⟩
  · rw [own.signs_cut]
    congr 1
    simp
  · exact beside.first ((own.begun_cut_iff between kind').mpr begun)
  · rw [← Sign.isOld_congr seen]
    exact beside.old
  · rw [← Sign.isOld_congr seen]
    exact beside.fresh
  · cases rest with
    | nil => exact own.bodyEnd_cut (by simp)
    | cons sign rest => rfl

/-- The region of another clause stays as it is, up to its place, and lies on
one side of the cut. -/
theorem beside_cut {kind' : Clause} {place : Nat} {front inner rest : List SignAt}
    (beside : Region text kind' place front inner rest) (apart : kind' ≠ kind) :
    Lands text found.offset (stopBefore text after) kind' place inner rest ∧
      (stopBefore text rest ≤ found.offset ∨ stopBefore text after ≤ place) := by
  have member : ⟨.clause kind', place⟩ ∈ (start text).signs := by simp [beside.signs_eq]
  rw [own.signs_eq, List.mem_append, List.mem_cons, List.mem_append] at member
  rcases member with early | same | inner_mem | late
  · exact (own.beside_cut_of_early beside apart early).imp_right .inl
  · simp only [SignAt.mk.injEq, Sign.clause.injEq] at same
    exact absurd same.1 apart
  · exact absurd beside.find?_eq (own.not_first inner_mem)
  · exact (own.beside_cut_of_late beside late).imp_right .inr

end Cut

end Region

/-! ## The ranges that are taken out -/

namespace Repair

/-- The range from the first condition in the region of a clause to the end of the region. -/
def trailing? (statement : Statement) (kind : Clause) : Option (Nat × Nat) :=
  (statement.outline.find? kind).bind fun offset =>
    (firstCondition? 0 ((start statement.text).signs.filter fun found =>
      decide (offset < found.offset) && decide (found.offset < statement.regionEnd offset))).map
        fun place => (place, statement.regionEnd offset)

theorem trailing?_of_region {statement : Statement} {kind : Clause} {offset : Nat}
    {before inside after : List SignAt}
    (region : Region statement.text kind offset before inside after) :
    trailing? statement kind =
      (firstCondition? 0 inside).map fun place => (place, stopBefore statement.text after) := by
  rw [trailing?, show statement.outline.find? kind = some offset from region.find?_eq,
    Option.bind_some, region.regionEnd_eq statement rfl, region.filter_signs]

/-- A range begins at a sign in the region of its clause, and ends with the region. -/
theorem exists_cut_of_trailing? {statement : Statement} {kind : Clause} {range : Nat × Nat}
    (taken : trailing? statement kind = some range) :
    ∃ offset before kept found dropped after,
      Region statement.text kind offset before (kept ++ found :: dropped) after ∧
        range = (found.offset, stopBefore statement.text after) := by
  cases found : statement.outline.find? kind with
  | none => simp [trailing?, found] at taken
  | some offset =>
      obtain ⟨before, inside, after, region⟩ := exists_region found
      rw [trailing?_of_region region, Option.map_eq_some_iff] at taken
      obtain ⟨place, first, rfl⟩ := taken
      obtain ⟨sign, member⟩ := mem_of_firstCondition? first
      obtain ⟨kept, dropped, rfl⟩ := List.append_of_mem member
      exact ⟨offset, before, kept, ⟨sign, place⟩, dropped, after, region, rfl⟩

/-- A cut takes out the range of its clause, if there is one. -/
theorem cutConditionOf_eq (statement : Statement) (kind : Clause) :
    cutConditionOf statement kind =
      match trailing? statement kind with
      | none => statement
      | some (place, stop) =>
          statement.withText (statement.text.take place ++ statement.text.drop stop) := by
  cases found : statement.outline.find? kind with
  | none => rw [cutConditionOf, trailing?, found, Option.bind_none]
  | some offset =>
      obtain ⟨before, inside, after, region⟩ := exists_region found
      have signs_eq := region.filterMap_codeBetween
      rw [trailing?_of_region region, cutConditionOf, found]
      simp only [region.regionEnd_eq statement rfl]
      rw [conditionStart?_eq, signs_eq]
      · cases firstCondition? 0 inside <;> rfl
      · intro site member signed first
        refine @Region.not_first _ _ _ _ _ _ region .filter site.offset ?_ first
        rw [← signs_eq]
        exact List.mem_filterMap.mpr ⟨site, member, by simp [signAt?, signed]⟩

theorem firstCondition?_shift (start stop cases : Nat) (signs : List SignAt) :
    firstCondition? cases (signs.map (SignAt.shift start stop)) =
      (firstCondition? cases signs).map (shift start stop) := by
  induction signs generalizing cases with
  | nil => rfl
  | cons found others ih =>
      rw [List.map_cons, firstCondition?, firstCondition?]
      change (if cases = 0 ∧ found.sign.joins = true then
        some (shift start stop found.offset) else _) = _
      split
      · rfl
      · exact ih _

section Cut

variable {statement : Statement} {kind : Clause} {offset : Nat}
  {before kept dropped after : List SignAt} {found : SignAt}
  (own : Region statement.text kind offset before (kept ++ found :: dropped) after)
  {other : Clause} (apart : other ≠ kind)

include own apart

/-- After a cut the ranges of other clauses are taken out where they land. -/
theorem trailing?_cut :
    trailing? (statement.withText (statement.text.take found.offset ++
        statement.text.drop (stopBefore statement.text after))) other =
      (trailing? statement other).map
        (Prod.map (shift found.offset (stopBefore statement.text after))
          (shift found.offset (stopBefore statement.text after))) := by
  cases found_other : statement.outline.find? other with
  | none =>
      have absent : (statement.withText (statement.text.take found.offset ++
          statement.text.drop (stopBefore statement.text after))).outline.find? other = none := by
        rw [Statement.outline, Outline.find?_eq_signs, Option.map_eq_none_iff, List.find?_eq_none]
          at found_other ⊢
        rw [Statement.withText, own.signs_cut, List.forall_mem_map]
        intro sign member
        refine found_other sign ?_
        rw [own.signs_eq]
        simp only [List.mem_append, List.mem_cons] at member ⊢
        tauto
      rw [trailing?, trailing?, found_other, absent, Option.bind_none, Option.bind_none,
        Option.map_none]
  | some place =>
      obtain ⟨front, inner, rest, beside⟩ := exists_region found_other
      obtain ⟨⟨front', rest', moved, stop_eq⟩, -⟩ := own.beside_cut beside apart
      rw [trailing?_of_region beside, @trailing?_of_region (statement.withText _) _ _ _ _ _ moved,
        firstCondition?_shift, Option.map_map, Option.map_map]
      congr 1
      funext place
      exact Prod.ext rfl stop_eq

/-- The range of another clause lies apart from the one that is cut. -/
theorem apart_of_trailing? {range : Nat × Nat} (taken : trailing? statement other = some range) :
    range.1 < range.2 ∧
      (range.2 ≤ found.offset ∨ stopBefore statement.text after ≤ range.1) := by
  obtain ⟨place, front, kept, sign, dropped, rest, beside, rfl⟩ := exists_cut_of_trailing? taken
  exact ⟨beside.cut_lt.2,
    (own.beside_cut beside apart).2.imp_right fun le => le.trans beside.cut_lt.1.le⟩

end Cut

/-- Cuts for different clauses take out the ranges that the text has before the first of them. -/
theorem text_foldl_cutConditionOf {kinds : List Clause} (nodup : kinds.Nodup)
    (statement : Statement) :
    (kinds.foldl cutConditionOf statement).text =
      without (kinds.filterMap (trailing? statement)) statement.text := by
  induction kinds generalizing statement with
  | nil => exact (without_nil statement.text).symm
  | cons kind kinds ih =>
      rw [List.nodup_cons] at nodup
      rw [List.foldl_cons, ih nodup.2, cutConditionOf_eq]
      cases taken : trailing? statement kind with
      | none => rw [List.filterMap_cons_none taken]
      | some range =>
          obtain ⟨offset, before, kept, found, dropped, after, own, rfl⟩ :=
            exists_cut_of_trailing? taken
          have apart {other : Clause} (member : other ∈ kinds) : other ≠ kind := fun same =>
            nodup.1 (same ▸ member)
          have moved := List.filterMap_congr fun other listed => trailing?_cut own (apart listed)
          rw [← List.map_filterMap] at moved
          rw [List.filterMap_cons_some taken, without_cons own.cut_lt.2.le _ own.ends.le_length,
            ← moved]
          · rfl
          · intro range listed
            obtain ⟨other, other_mem, other_taken⟩ := List.mem_filterMap.mp listed
            exact apart_of_trailing? own (apart other_mem) other_taken

/-- A condition begins at a place of the region that begins at `offset`.  At the place stands an
`AND`, an `OR` or a `WHERE` other than the first one, outside literals and parentheses, and no case
distinction of the region is open there. -/
structure BeginsCondition (statement : Statement) (offset place : Nat) : Prop where
  within : offset < place ∧ place < statement.regionEnd offset
  word : ∃ site ∈ (start statement.text).code, site.offset = place ∧ mayBeginKeyword site = true ∧
    beginsCondition (statement.outline.find? .filter) site = true
  outside : Sign.openCases 0 ((start statement.text).signs.filter fun found =>
    decide (offset < found.offset) && decide (found.offset < place)) = 0

/-- The words that begin a condition make the signs that join one. -/
theorem beginsCondition_iff {filterAt? : Option Nat} {site : Site} :
    mayBeginKeyword site = true ∧ beginsCondition filterAt? site = true ↔
      ∃ sign, site.sign? = some sign ∧ sign.joins = true ∧
        (sign = .clause .filter → filterAt? ≠ some site.offset) := by
  have begins_iff : mayBeginKeyword site = true ↔ site.depth = 0 ∧ site.afterDot = false := by
    simp [mayBeginKeyword]
  rw [begins_iff, beginsCondition, Bool.or_eq_true, Bool.or_eq_true, Bool.and_eq_true,
    hasWord_of_isName Sign.isName_and, hasWord_of_isName Sign.isName_or,
    hasWord_of_isName Sign.isName_where, bne_iff_ne]
  constructor
  · rintro ⟨begins, (is_and | is_or) | ⟨is_where, later⟩⟩
    · exact ⟨.junction, sign?_eq_some.mpr ⟨begins, is_and ▸ rfl⟩, rfl, by simp⟩
    · exact ⟨.junction, sign?_eq_some.mpr ⟨begins, is_or ▸ rfl⟩, rfl, by simp⟩
    · exact ⟨.clause .filter, sign?_eq_some.mpr ⟨begins, is_where ▸ rfl⟩, rfl, fun _ => later⟩
  · rintro ⟨sign, signed, joins, later⟩
    obtain ⟨begins, words⟩ := sign?_eq_some.mp signed
    refine ⟨begins, ?_⟩
    cases sign with
    | opening => simp [Sign.joins] at joins
    | ending => simp [Sign.joins] at joins
    | junction => exact .inl (Sign.ofWords?_eq_junction.mp words)
    | clause kind =>
        obtain rfl : kind = .filter := by simpa [Sign.joins] using joins
        exact .inr ⟨Sign.ofWords?_eq_clause.mp words, later rfl⟩

theorem beginsCondition_iff_mem {statement : Statement} {kind : Clause} {offset place : Nat}
    {before inside after : List SignAt}
    (region : Region statement.text kind offset before inside after) :
    BeginsCondition statement offset place ↔ place ∈ conditions 0 inside := by
  have mem_inside {found : SignAt} : found ∈ inside ↔ found ∈ (start statement.text).signs ∧
      offset < found.offset ∧ found.offset < stopBefore statement.text after := by
    rw [← region.filter_signs, List.mem_filter]
    simp
  have earlier (within : place < stopBefore statement.text after) :
      (start statement.text).signs.filter (fun found =>
        decide (offset < found.offset) && decide (found.offset < place)) =
      inside.filter fun found => found.offset < place := by
    conv => rhs; rw [← region.filter_signs, List.filter_filter]
    refine List.filter_congr fun found _ => ?_
    rw [Bool.eq_iff_iff]
    simp
    omega
  have end_eq := region.regionEnd_eq statement rfl
  constructor
  · rintro ⟨within, ⟨site, member, rfl, word⟩, outside⟩
    rw [end_eq] at within
    obtain ⟨sign, signed, joins, -⟩ := beginsCondition_iff.mp word
    rw [earlier within.2] at outside
    exact ⟨sign, mem_inside.mpr ⟨mem_signs.mpr ⟨site, member, signed, rfl⟩, within⟩, joins, outside⟩
  · rintro ⟨sign, member, joins, outside⟩
    obtain ⟨listed, within⟩ := mem_inside.mp member
    obtain ⟨site, site_mem, signed, offset_eq⟩ := mem_signs.mp listed
    refine ⟨end_eq ▸ within, ⟨site, site_mem, offset_eq, ?_⟩, ?_⟩
    · refine beginsCondition_iff.mpr ⟨sign, signed, joins, fun is_filter first => ?_⟩
      subst is_filter
      exact region.not_first member (first.trans (congrArg some offset_eq))
    · rwa [earlier within.2]

/-- The range of a clause begins where the first condition of its region does, and ends with it. -/
theorem trailing?_eq_some {statement : Statement} {kind : Clause} {place stop : Nat} :
    trailing? statement kind = some (place, stop) ↔
      ∃ offset, statement.outline.find? kind = some offset ∧ stop = statement.regionEnd offset ∧
        IsLeast {place | BeginsCondition statement offset place} place := by
  cases found : statement.outline.find? kind with
  | none => simp [trailing?, found]
  | some offset =>
      obtain ⟨before, inside, after, region⟩ := exists_region found
      have ordered := region.signs_eq ▸ pairwise_signs statement.text
      rw [List.pairwise_append, List.pairwise_cons, List.pairwise_append] at ordered
      have same : {place | BeginsCondition statement offset place} = conditions 0 inside :=
        Set.ext fun place => beginsCondition_iff_mem region
      rw [trailing?_of_region region]
      simp only [Option.map_eq_some_iff, Prod.mk.injEq, firstCondition?_eq_some ordered.2.1.2.1,
        Option.some.injEq, exists_eq_left', same, region.regionEnd_eq statement rfl]
      constructor
      · rintro ⟨_, least, rfl, rfl⟩
        exact ⟨rfl, least⟩
      · rintro ⟨rfl, least⟩
        exact ⟨place, least, rfl, rfl⟩

/-- Cutting trailing conditions takes out, for each of the clauses that hold none, at most one
range: from the first place at which a condition begins in its region to the end of the region.  The
clauses stay in their order, and nothing is left to cut. -/
theorem cutTrailingConditions_eq_without (statement : Statement) :
    (∃ taken? : Clause → Option (Nat × Nat),
      (∀ kind place stop, taken? kind = some (place, stop) ↔
        ∃ offset, statement.outline.find? kind = some offset ∧ stop = statement.regionEnd offset ∧
          IsLeast {place | BeginsCondition statement offset place} place) ∧
      (cutTrailingConditions statement).text =
        without ([.grouping, .ordering, .limit].filterMap taken?) statement.text) ∧
    (cutTrailingConditions statement).outline.clauses.map (·.clause) =
      statement.outline.clauses.map (·.clause) ∧
    cutTrailingConditions (cutTrailingConditions statement) = cutTrailingConditions statement := by
  refine ⟨⟨trailing? statement, fun kind place stop => trailing?_eq_some, ?_⟩, ?_, ?_⟩
  · exact text_foldl_cutConditionOf (by decide) statement
  · rw [Statement.outline, Statement.outline, ← Outline.order_kinds, ← Outline.order_kinds,
      Sign.order, Sign.order, newcomers_cutTrailingConditions]
  · exact cutTrailingConditions_of_tidy (tidy_cutTrailingConditions statement)

/-- The `OR` of a case distinction begins no condition. -/
example :
    let text := ascii "GROUP BY CASE WHEN a OR b END AND c LIMIT 1 OR d"
    (cutTrailingConditions ⟨text, text⟩).text = ascii "GROUP BY CASE WHEN a OR b END LIMIT 1 " := by
  decide +kernel

end Repair

end TenantScope
