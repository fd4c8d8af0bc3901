/-
Recurrence/Calendar/Weekday.lean

The seven days of the week, numbered from Sunday.

Day numbers count days from Monday the first of January of year 1, so the
remainder of a day number by seven is the number of its weekday.  That is why
the week starts at Sunday here: the number 0 falls on a Sunday.  A second
numbering, from Monday, is kept beside it for callers that count that way.
-/

namespace Recurrence

/-- A day of the week. -/
inductive Weekday where
  | su | mo | tu | we | th | fr | sa
deriving DecidableEq, Inhabited

namespace Weekday

/-- All days of the week, from Sunday on. -/
def all : List Weekday := [su, mo, tu, we, th, fr, sa]

/-- The position in the week, Sunday being 0. -/
def number : Weekday → Int
  | su => 0 | mo => 1 | tu => 2 | we => 3 | th => 4 | fr => 5 | sa => 6

/-- The weekday at a position counted from Sunday; positions wrap around. -/
def ofNumber (n : Int) : Weekday :=
  match (n % 7).toNat with
  | 0 => su | 1 => mo | 2 => tu | 3 => we | 4 => th | 5 => fr | _ => sa

/-- The position in a week that starts on Monday. -/
def numberFromMonday (d : Weekday) : Int := (d.number + 6) % 7

/-- The weekday at a position counted from Monday; positions wrap around. -/
def ofNumberFromMonday (n : Int) : Weekday := ofNumber (n + 1)

/-- The two-letter code of a weekday. -/
def code : Weekday → String
  | su => "SU" | mo => "MO" | tu => "TU" | we => "WE" | th => "TH" | fr => "FR" | sa => "SA"

/-- The weekday that a two-letter code in capitals names. -/
def ofCode? (s : String) : Option Weekday := all.find? fun d => d.code == s

/-! ### Laws of the two numberings -/

theorem number_nonneg (d : Weekday) : 0 ≤ d.number := by cases d <;> decide

theorem number_lt (d : Weekday) : d.number < 7 := by cases d <;> decide

@[simp] theorem ofNumber_number (d : Weekday) : ofNumber d.number = d := by cases d <;> rfl

theorem number_ofNumber (n : Int) : (ofNumber n).number = n % 7 := by
  have h0 : 0 ≤ n % 7 := Int.emod_nonneg n (by decide)
  have h7 : n % 7 < 7 := Int.emod_lt_of_pos n (by decide)
  unfold ofNumber
  generalize n % 7 = r at h0 h7
  obtain ⟨k, rfl⟩ := Int.eq_ofNat_of_zero_le h0
  have hk : k < 7 := by omega
  match k, hk with
  | 0, _ | 1, _ | 2, _ | 3, _ | 4, _ | 5, _ | 6, _ => rfl

@[simp] theorem ofCode?_code (d : Weekday) : ofCode? d.code = some d := by cases d <;> decide

end Weekday

end Recurrence
