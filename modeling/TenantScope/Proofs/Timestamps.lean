import Mathlib.Data.List.Forall2
import Mathlib.Data.List.Lex
import Mathlib.Tactic.Ring
import TenantScope.Proofs.Calendar
import TenantScope.Proofs.Records

/-!
# Times of records

From 1970 to the end of the year 9999 a record shows its time in 24 bytes, as seven numbers of fixed
widths with a byte after each.  Read back by the calendar they give the milliseconds of the moment,
and the texts are ordered bytewise as the moments are in time.
-/

namespace TenantScope

namespace Text

/-! ## Numbers of a fixed width -/

theorem foldl_decimal (digits : Text) (value : Nat) :
    digits.foldl (fun value digit => 10 * value + (digit.toNat - 48)) value =
      value * 10 ^ digits.length + ofDecimal digits := by
  induction digits generalizing value with
  | nil => simp [ofDecimal]
  | cons digit digits ih =>
      have leading : ofDecimal (digit :: digits) =
          (10 * 0 + (digit.toNat - 48)) * 10 ^ digits.length + ofDecimal digits := ih _
      rw [List.foldl_cons, ih, leading, List.length_cons]
      ring

theorem ofDecimal_cons (byte : Byte) (digits : Text) :
    ofDecimal (byte :: digits) = (byte.toNat - 48) * 10 ^ digits.length + ofDecimal digits := by
  rw [ofDecimal, List.foldl_cons, foldl_decimal]
  simp

theorem digit_bounds {byte : Byte} (digit : byte.isDigit = true) : 48 ≤ byte.toNat ∧
    byte.toNat ≤ 57 := by
  simpa [Byte.isDigit, UInt8.le_iff_toNat_le] using digit

/-- The leading parts of two numbers decide, and the rest where they are equal. -/
theorem scaled_lt_iff {leading other base rest other_rest : Nat} (rest_lt : rest < base)
    (other_lt : other_rest < base) :
    leading * base + rest < other * base + other_rest ↔
      leading < other ∨ leading = other ∧ rest < other_rest := by
  rcases Nat.lt_trichotomy leading other with less | rfl | greater
  · have scaled := Nat.mul_le_mul_right base less
    rw [Nat.succ_mul] at scaled
    exact iff_of_true (by omega) (.inl less)
  · simp
  · have scaled := Nat.mul_le_mul_right base greater
    rw [Nat.succ_mul] at scaled
    exact iff_of_false (by omega) (by omega)

theorem ofDecimal_lt {digits : Text} (decimal : ∀ byte ∈ digits, byte.isDigit = true) :
    ofDecimal digits < 10 ^ digits.length := by
  induction digits with
  | nil => simp [ofDecimal]
  | cons byte digits ih =>
      rw [List.forall_mem_cons] at decimal
      have tail := ih decimal.2
      have bounds := digit_bounds decimal.1
      have scaled : (byte.toNat - 48) * 10 ^ digits.length ≤ 9 * 10 ^ digits.length :=
        Nat.mul_le_mul_right _ (by omega)
      rw [ofDecimal_cons, List.length_cons, pow_succ]
      omega

/-- Numbers of one width are ordered as their texts are. -/
theorem lt_iff_ofDecimal_lt {digits others : Text} (same_width : digits.length = others.length)
    (decimal : ∀ byte ∈ digits, byte.isDigit = true)
    (other_decimal : ∀ byte ∈ others, byte.isDigit = true) :
    digits < others ↔ ofDecimal digits < ofDecimal others := by
  induction digits generalizing others with
  | nil =>
      obtain rfl : others = [] := List.length_eq_zero_iff.mp same_width.symm
      simp
  | cons byte digits ih =>
      obtain ⟨other, others, rfl⟩ := List.exists_cons_of_length_eq_add_one same_width.symm
      rw [List.forall_mem_cons] at decimal other_decimal
      have width_eq : digits.length = others.length := Nat.succ.inj same_width
      have tail := ofDecimal_lt decimal.2
      have other_tail := ofDecimal_lt other_decimal.2
      have bounds := digit_bounds decimal.1
      have other_bounds := digit_bounds other_decimal.1
      rw [← width_eq] at other_tail
      rw [List.cons_lt_cons_iff, ih width_eq decimal.2 other_decimal.2, ofDecimal_cons,
        ofDecimal_cons, ← width_eq, scaled_lt_iff tail other_tail, UInt8.lt_iff_toNat_lt,
        ← UInt8.toNat_inj]
      omega

theorem length_decimal_le {value width : Nat} (small : value < 10 ^ width) (positive : 0 < width) :
    (decimal value).length ≤ width := by
  fun_induction decimal value generalizing width with
  | case1 value => exact positive
  | case2 value large ih =>
      obtain ⟨width, rfl⟩ := Nat.exists_eq_add_of_lt positive
      have quotient_small : value / 10 < 10 ^ (0 + width) := by
        rw [pow_succ] at small
        omega
      have long : 0 < 0 + width := by
        rcases Nat.eq_zero_or_pos width with rfl | width_pos
        · simp at quotient_small
          omega
        · omega
      have shorter := ih quotient_small long
      rw [List.length_append, List.length_singleton]
      omega

theorem ofDecimal_zeroFilled (width : Nat) (digits : Text) :
    ofDecimal (zeroFilled width digits) = ofDecimal digits := by
  rw [zeroFilled]
  induction width - digits.length with
  | zero => rfl
  | succ zeros ih =>
      rw [List.replicate_succ, List.cons_append, ofDecimal_cons, ih, toNat_digit (by decide)]
      simp

/-- A number written with so many digits. -/
def padded (width value : Nat) : Text :=
  zeroFilled width (decimal value)

theorem ofDecimal_padded (width value : Nat) : ofDecimal (padded width value) = value := by
  rw [padded, ofDecimal_zeroFilled, ofDecimal_decimal]

theorem length_padded {width value : Nat} (small : value < 10 ^ width) (positive : 0 < width) :
    (padded width value).length = width := by
  have fits := length_decimal_le small positive
  rw [padded, zeroFilled, List.length_append, List.length_replicate]
  omega

theorem isDigit_of_mem_padded (width value : Nat) :
    ∀ byte ∈ padded width value, byte.isDigit = true := by
  intro byte member
  rcases List.mem_append.mp member with member | member
  · rw [List.eq_of_mem_replicate member]
    exact isDigit_digit (by decide)
  · exact isDigit_of_mem_decimal value byte member

theorem padded_lt_padded_iff {width value other : Nat} (small : value < 10 ^ width)
    (other_small : other < 10 ^ width) (positive : 0 < width) :
    padded width value < padded width other ↔ value < other := by
  rw [lt_iff_ofDecimal_lt _ (isDigit_of_mem_padded width value) (isDigit_of_mem_padded width other),
    ofDecimal_padded, ofDecimal_padded]
  rw [length_padded small positive, length_padded other_small positive]

/-- Texts that begin with parts of one length are ordered by these, and by the rest
where they are equal. -/
theorem append_lt_append_iff {first other rest other_rest : Text}
    (same_length : first.length = other.length) :
    first ++ rest < other ++ other_rest ↔ first < other ∨ first = other ∧ rest < other_rest := by
  induction first generalizing other with
  | nil =>
      obtain rfl : other = [] := List.length_eq_zero_iff.mp same_length.symm
      simp
  | cons byte first ih =>
      obtain ⟨other_byte, other, rfl⟩ := List.exists_cons_of_length_eq_add_one same_length.symm
      rw [List.cons_append, List.cons_append, List.cons_lt_cons_iff, List.cons_lt_cons_iff,
        ih (Nat.succ.inj same_length), List.cons.injEq]
      tauto

end Text

/-! ## Numbers and the bytes between them -/

namespace Layout

open Text

/-- Numbers of given widths, each with the byte after it. -/
def write : (layout : List (Nat × Byte)) → (values : List Nat) → Text
  | (width, stop) :: layout, value :: values => padded width value ++ stop :: write layout values
  | _, _ => []

/-- The numbers that a text writes in a layout, if it keeps to the layout. -/
def read? : (layout : List (Nat × Byte)) → Text → Option (List Nat)
  | [], text => if text.isEmpty then some [] else none
  | (width, stop) :: layout, text =>
      let digits := text.take width
      if digits.length = width ∧ digits.all Byte.isDigit = true ∧ text[width]? = some stop then
        (read? layout (text.drop (width + 1))).map (ofDecimal digits :: ·)
      else none

/-- Each number has a width, and is not too great for it. -/
def Fits (layout : List (Nat × Byte)) (values : List Nat) : Prop :=
  List.Forall₂ (fun part value => 0 < part.1 ∧ value < 10 ^ part.1) layout values

theorem length_write {layout : List (Nat × Byte)} {values : List Nat} (fits : Fits layout values) :
    (write layout values).length = (layout.map fun part => part.1 + 1).sum := by
  induction fits with
  | nil => rfl
  | cons fit _ ih =>
      rw [write, List.length_append, length_padded fit.2 fit.1, List.length_cons, ih, List.map_cons,
        List.sum_cons]
      omega

/-- What is written in a layout reads back. -/
theorem read?_write {layout : List (Nat × Byte)} {values : List Nat} (fits : Fits layout values) :
    read? layout (write layout values) = some values := by
  induction fits with
  | nil => rfl
  | @cons part value layout values fit _ ih =>
      have width_eq := length_padded fit.2 fit.1
      have digits_eq :
          (write (part :: layout) (value :: values)).take part.1 = padded part.1 value :=
        List.take_left' width_eq
      have rest_eq :
          (write (part :: layout) (value :: values)).drop (part.1 + 1) = write layout values := by
        rw [write, List.append_cons]
        exact List.drop_left' (by rw [List.length_append, width_eq, List.length_singleton])
      have stop_eq : (write (part :: layout) (value :: values))[part.1]? = some part.2 := by
        rw [write, List.getElem?_append_right width_eq.le, width_eq, Nat.sub_self]
        rfl
      rw [read?, digits_eq, rest_eq, stop_eq, ih]
      rw [if_pos ⟨width_eq, List.all_eq_true.mpr (isDigit_of_mem_padded _ _), rfl⟩,
        ofDecimal_padded]
      rfl

/-- Texts of one layout are ordered as their numbers are. -/
theorem write_lt_write_iff {layout : List (Nat × Byte)} {values others : List Nat}
    (fits : Fits layout values) (other_fits : Fits layout others) :
    write layout values < write layout others ↔ values < others := by
  induction fits generalizing others with
  | nil =>
      cases other_fits
      simp [write]
  | @cons part value layout values fit _ ih =>
      obtain _ | @⟨_, other, _, others, other_fit, other_fits⟩ := other_fits
      have same_width : (padded part.1 value).length = (padded part.1 other).length := by
        rw [length_padded fit.2 fit.1, length_padded other_fit.2 other_fit.1]
      have same_iff : padded part.1 value = padded part.1 other ↔ value = other :=
        ⟨fun same => by simpa [ofDecimal_padded] using congrArg ofDecimal same,
          fun same => by rw [same]⟩
      rw [write, write, append_lt_append_iff same_width, same_iff,
        padded_lt_padded_iff fit.2 other_fit.2 fit.1, List.cons_lt_cons_iff, List.cons_lt_cons_iff,
        ih other_fits]
      simp

end Layout

namespace Moment

/-! ## Calendar times -/

/-- A year, a month and a day, then an hour, a minute, a second and milliseconds. -/
def layout : List (Nat × Byte) :=
  [(4, Byte.hyphen), (2, Byte.hyphen), (2, Byte.ofChar 'T'), (2, Byte.colon), (2, Byte.colon),
    (2, Byte.dot), (3, Byte.ofChar 'Z')]

/-- The milliseconds from the beginning of 1970 to a later time that the calendar
and the clock have. -/
def ofFields? : List Nat → Option Nat
  | [year, month, day, hour, minute, second, millisecond] =>
      let date : Date := ⟨year, month, day⟩
      if (1970 ≤ year ∧ date.InCalendar) ∧ hour < 24 ∧ minute < 60 ∧ second < 60 ∧
      millisecond < 1000 then
        some (1000 * (86400 * date.count + 3600 * hour + 60 * minute + second) + millisecond)
      else none
  | _ => none

/-- The milliseconds from the beginning of 1970 to the time that a text denotes. -/
def ofText? (text : Text) : Option Nat :=
  (Layout.read? layout text).bind ofFields?

/-- The moment is not before 1970 and not after the year 9999. -/
def InRange (moment : Moment) : Prop :=
  0 ≤ moment.microseconds ∧ moment.microseconds < 86400000000 * (⟨10000, 1, 1⟩ : Date).count

/-- The years up to 9999 have so many days. -/
theorem count_end : (⟨10000, 1, 1⟩ : Date).count = 2932897 := by
  have counted := @Date.dayNumber_eq_count ⟨10000, 1, 1⟩ (by decide) (by decide)
  have number_eq : (⟨10000, 1, 1⟩ : Date).dayNumber = 2932897 := by decide
  omega

theorem exists_of_ofFields? {fields : List Nat} {count : Nat}
    (counted : ofFields? fields = some count) :
    ∃ year month day hour minute second millisecond : Nat,
      fields = [year, month, day, hour, minute, second, millisecond] ∧ 1970 ≤ year ∧
        (⟨year, month, day⟩ : Date).InCalendar ∧ hour < 24 ∧ minute < 60 ∧ second < 60 ∧
        millisecond < 1000 ∧
        count =
          1000 * (86400 * (⟨year, month, day⟩ : Date).count + 3600 * hour + 60 * minute + second) +
            millisecond := by
  unfold ofFields? at counted
  split at counted
  · rename_i year month day hour minute second millisecond
    simp only [Option.ite_none_right_eq_some, Option.some.injEq] at counted
    obtain ⟨⟨⟨late, listed⟩, clock⟩, rfl⟩ := counted
    exact ⟨year, month, day, hour, minute, second, millisecond, rfl, late, listed, clock.1,
      clock.2.1, clock.2.2.1, clock.2.2.2, rfl⟩
  · simp at counted

/-- Times that come one after the other by their numbers do so in time. -/
theorem lt_of_fields_lt {fields others : List Nat} {count other : Nat}
    (counted : ofFields? fields = some count) (other_counted : ofFields? others = some other)
    (before : fields < others) : count < other := by
  obtain ⟨year, month, day, hour, minute, second, millisecond, rfl, late, listed, hour_lt,
    minute_lt, second_lt, millisecond_lt, rfl⟩ := exists_of_ofFields? counted
  obtain ⟨year', month', day', hour', minute', second', millisecond', rfl, late', listed', hour_lt',
    minute_lt', second_lt', millisecond_lt', rfl⟩ := exists_of_ofFields? other_counted
  have days_lt (date_before : year < year' ∨ year = year' ∧
      (month < month' ∨ month = month' ∧ day < day')) :
      (⟨year, month, day⟩ : Date).count < (⟨year', month', day'⟩ : Date).count := by
    have number_lt := Date.dayNumber_lt listed listed' (by simpa using date_before)
    rw [Date.dayNumber_eq_count listed (by simpa using late),
      Date.dayNumber_eq_count listed' (by simpa using late')] at number_lt
    exact_mod_cast number_lt
  simp only [List.cons_lt_cons_iff, List.not_lt_nil, and_false, or_false] at before
  by_cases same : year = year' ∧ month = month' ∧ day = day'
  · obtain ⟨rfl, rfl, rfl⟩ := same
    omega
  · have := days_lt (by omega)
    omega

theorem fields_lt_iff {fields others : List Nat} {count other : Nat}
    (counted : ofFields? fields = some count) (other_counted : ofFields? others = some other) :
    fields < others ↔ count < other := by
  refine ⟨lt_of_fields_lt counted other_counted, fun before => ?_⟩
  rcases lt_trichotomy fields others with less | rfl | greater
  · exact less
  · rw [counted, Option.some.injEq] at other_counted
    exact absurd before (by omega)
  · exact absurd (lt_of_fields_lt other_counted counted greater) (by omega)

/-! ## The time of a record -/

/-- The numbers that a record shows of a moment. -/
def fields (moment : Moment) : List Nat :=
  let date := Date.ofDayNumber (moment.seconds / 86400)
  let second := (moment.seconds % 86400).toNat
  [date.year.toNat, date.month, date.day, second / 3600, second / 60 % 60, second % 60,
    moment.milliseconds.toNat]

section InRange

variable {moment : Moment} (in_range : moment.InRange)

include in_range

theorem InRange.seconds_bounds : 0 ≤ moment.seconds ∧ moment.seconds / 86400 < 2932897 := by
  obtain ⟨late, early⟩ := in_range
  rw [count_end] at early
  rw [seconds, Int.tdiv_eq_ediv_of_nonneg late]
  omega

theorem InRange.milliseconds_bounds :
    0 ≤ moment.milliseconds ∧ moment.milliseconds < 1000 ∧
      1000 * moment.seconds + moment.milliseconds = moment.microseconds / 1000 := by
  rw [milliseconds, seconds, Int.tdiv_eq_ediv_of_nonneg in_range.1,
    Int.tdiv_eq_ediv_of_nonneg in_range.1]
  omega

theorem InRange.exists_date :
    ∃ year month day : Nat, Date.ofDayNumber (moment.seconds / 86400) = ⟨year, month, day⟩ ∧
      1970 ≤ year ∧
      year < 10000 ∧ (⟨year, month, day⟩ : Date).InCalendar ∧
      ((⟨year, month, day⟩ : Date).count : Int) = moment.seconds / 86400 := by
  obtain ⟨positive, before⟩ := in_range.seconds_bounds
  obtain ⟨late, counted⟩ := Date.count_ofDayNumber (show 0 ≤ moment.seconds / 86400 by omega)
  obtain ⟨listed, number_eq⟩ := Date.ofDayNumber_spec (moment.seconds / 86400)
  have early : (Date.ofDayNumber (moment.seconds / 86400)).year < 10000 := by
    by_contra beyond
    have begun := Date.newYear_le listed (not_lt.mp beyond)
    have origin : Date.newYear 10000 = 2932897 := by decide
    omega
  revert late counted listed early
  generalize Date.ofDayNumber (moment.seconds / 86400) = date
  intro late counted listed early
  obtain ⟨year, year_eq⟩ := Int.eq_ofNat_of_zero_le (show 0 ≤ date.year by omega)
  have date_eq : date = ⟨year, date.month, date.day⟩ := by rw [← year_eq]
  rw [date_eq] at counted listed
  exact ⟨year, date.month, date.day, date_eq, by omega, by omega, listed, counted⟩

/-- The numbers that a record shows are those of a calendar time, at which the moment lies. -/
theorem InRange.ofFields?_fields :
    ofFields? moment.fields = some (moment.microseconds / 1000).toNat := by
  obtain ⟨year, month, day, date_eq, late, -, listed, counted⟩ := in_range.exists_date
  obtain ⟨positive, -⟩ := in_range.seconds_bounds
  obtain ⟨milliseconds_pos, milliseconds_lt, total⟩ := in_range.milliseconds_bounds
  have clock := Int.emod_lt_of_pos moment.seconds (show (0 : Int) < 86400 by decide)
  rw [fields, date_eq]
  simp only [ofFields?, Int.toNat_natCast]
  rw [if_pos ⟨⟨late, listed⟩, by omega⟩]
  congr 1
  omega

theorem InRange.fits : Layout.Fits layout moment.fields := by
  obtain ⟨year, month, day, date_eq, -, early, listed, -⟩ := in_range.exists_date
  obtain ⟨-, milliseconds_lt, -⟩ := in_range.milliseconds_bounds
  have clock := Int.emod_lt_of_pos moment.seconds (show (0 : Int) < 86400 by decide)
  have month_le : month ≤ 12 := listed.month_le
  have day_le : day ≤ 31 := listed.day_le.trans (Date.monthLength_le year month)
  rw [fields, date_eq]
  simp only [Layout.Fits, layout, List.forall₂_cons, Int.toNat_natCast]
  norm_num
  omega

/-- A record writes the numbers of its moment in the layout of times. -/
theorem InRange.text_eq : moment.text = Layout.write layout moment.fields := by
  obtain ⟨year, month, day, date_eq, -⟩ := in_range.exists_date
  obtain ⟨milliseconds_pos, -⟩ := in_range.milliseconds_bounds
  have year_eq : Text.integer year = Text.decimal year := by
    rw [Text.integer, if_neg (by omega), Int.natAbs_natCast]
  have milliseconds_eq :
      Text.integer moment.milliseconds = Text.decimal moment.milliseconds.toNat := by
    rw [Text.integer, if_neg (by omega)]
    congr 1
    omega
  rw [text, fields, date_eq]
  simp only [year_eq, milliseconds_eq, Int.toNat_natCast, layout, Layout.write, Text.padded,
    List.append_assoc]
  rfl

end InRange

/-- A record shows its time in 24 bytes, which denote the time down to milliseconds and are ordered
as the times are. -/
theorem text_denotes {moment other : Moment} (in_range : moment.InRange)
    (other_in_range : other.InRange) :
    moment.text.length = 24 ∧ ofText? moment.text = some (moment.microseconds / 1000).toNat ∧
      (moment.text < other.text ↔ moment.microseconds / 1000 < other.microseconds / 1000) := by
  have fits := in_range.fits
  have counted := in_range.ofFields?_fields
  rw [in_range.text_eq, other_in_range.text_eq]
  refine ⟨Layout.length_write fits, ?_, ?_⟩
  · rw [ofText?, Layout.read?_write fits, Option.bind_some, counted]
  · rw [Layout.write_lt_write_iff fits other_in_range.fits,
      fields_lt_iff counted other_in_range.ofFields?_fields]
    have := in_range.1
    have := other_in_range.1
    omega

/-- The last microsecond of the leap day of 2000 comes before the first one of March. -/
theorem text_denotes_leap_day :
    InRange ⟨951868799999999⟩ ∧ InRange ⟨951868800000000⟩ ∧
      (text ⟨951868799999999⟩).length = 24 ∧ ofText? (text ⟨951868799999999⟩) = some 951868799999 ∧
      (text ⟨951868799999999⟩ < text ⟨951868800000000⟩ ↔ (951868799999 : Int) < 951868800000) := by
  have in_range : InRange ⟨951868799999999⟩ := ⟨by decide, by rw [count_end]; decide⟩
  have next_in_range : InRange ⟨951868800000000⟩ := ⟨by decide, by rw [count_end]; decide⟩
  exact ⟨in_range, next_in_range, text_denotes in_range next_in_range⟩

end Moment

end TenantScope
