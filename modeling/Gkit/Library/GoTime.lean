import Gkit.Library.Civil

/-!
Go's `time.Time` in zones of a fixed offset. An instant is its seconds since the zero time,
January 1 of year 1, 00:00:00 UTC, and its nanoseconds; its location is a value of a type `L`
whose offset east of UTC is `zone loc` seconds, the same at every instant. The fields of a
time are read from its local seconds, `sec + zone loc`, on the calendar of `Civil`; `Date`
normalizes its arguments as Go's does, and `Truncate` rounds down the time since the zero
time, whatever the location.
-/

namespace GoTime

open Civil

/-! ### Fields of local seconds -/

def yearAt (l : Int) : Int := (civil (l / 86400)).1
def monthAt (l : Int) : Int := (civil (l / 86400)).2.1
def dayAt (l : Int) : Int := (civil (l / 86400)).2.2
def hourAt (l : Int) : Int := l % 86400 / 3600
def minuteAt (l : Int) : Int := l % 3600 / 60
def secondAt (l : Int) : Int := l % 60
def weekdayAt (l : Int) : Int := weekday (l / 86400)

/-- A `time.Time`: seconds since the zero time, nanoseconds, and a location. -/
structure Time (L : Type) where
  sec : Int
  nsec : Nat
  loc : L
  nsec_lt : nsec < 1000000000

def Second : Int := 1000000000
def Minute : Int := 60 * Second
def Hour : Int := 60 * Minute

variable {L : Type} (zone : L → Int)

theorem toNat_emod_lt (x : Int) : (x % 1000000000).toNat < 1000000000 := by
  omega

namespace Time

/-- The local seconds of a time in its location. -/
def abs (t : Time L) : Int := t.sec + zone t.loc

def Year (t : Time L) : Int := yearAt (t.abs zone)
def Month (t : Time L) : Int := monthAt (t.abs zone)
def Day (t : Time L) : Int := dayAt (t.abs zone)
def Hour (t : Time L) : Int := hourAt (t.abs zone)
def Minute (t : Time L) : Int := minuteAt (t.abs zone)
def Second (t : Time L) : Int := secondAt (t.abs zone)
def Weekday (t : Time L) : Int := weekdayAt (t.abs zone)

def Nanosecond (t : Time L) : Int := t.nsec

/-- `t.Add(d)`, for a duration of `d` nanoseconds. -/
def Add (t : Time L) (d : Int) : Time L :=
  ⟨t.sec + (t.nsec + d) / 1000000000, ((t.nsec + d) % 1000000000).toNat, t.loc, toNat_emod_lt _⟩

def In (t : Time L) (loc : L) : Time L := ⟨t.sec, t.nsec, loc, t.nsec_lt⟩

/-- `t.Truncate(d)`: the time since the zero time rounded down to a multiple of `d`. -/
def Truncate (t : Time L) (d : Int) : Time L :=
  if d ≤ 0 then t else t.Add (-((t.sec * 1000000000 + t.nsec) % d))

end Time

/-- `time.Date`: every argument may lie outside its range and is carried into the next. -/
def Date (year month day hour min sec nsec : Int) (loc : L) : Time L :=
  ⟨dayNumber year month day * 86400 + hour * 3600 + min * 60 + sec - zone loc + nsec / 1000000000,
    (nsec % 1000000000).toNat, loc, toNat_emod_lt _⟩

/-- `t.AddDate(years, months, days)`: `Date` of the fields of `t` moved on. -/
def Time.AddDate (t : Time L) (years months days : Int) : Time L :=
  Date zone (t.Year zone + years) (t.Month zone + months) (t.Day zone + days) (t.Hour zone)
    (t.Minute zone) (t.Second zone) t.nsec t.loc

/-! ### Whole seconds

Times whose nanoseconds are `0` are their local seconds: adding, truncating and building with
`Date` move the local seconds by whole numbers and keep the nanoseconds at `0`. -/

theorem Minute_eq : Minute = 60 * Second := rfl

theorem Hour_eq : Hour = 3600 * Second := by
  unfold Hour Minute
  omega

namespace Time

@[simp] theorem loc_Add (t : Time L) (d : Int) : (t.Add d).loc = t.loc := rfl

@[simp] theorem loc_In (t : Time L) (loc : L) : (t.In loc).loc = loc := rfl

@[simp] theorem sec_In (t : Time L) (loc : L) : (t.In loc).sec = t.sec := rfl

@[simp] theorem nsec_In (t : Time L) (loc : L) : (t.In loc).nsec = t.nsec := rfl

theorem In_self (t : Time L) : t.In t.loc = t := rfl

variable {t : Time L}

theorem nsec_Add_seconds (h : t.nsec = 0) (k : Int) : (t.Add (k * GoTime.Second)).nsec = 0 := by
  simp only [Add, h, GoTime.Second]
  omega

theorem sec_Add_seconds (h : t.nsec = 0) (k : Int) : (t.Add (k * GoTime.Second)).sec = t.sec + k := by
  simp only [Add, h, GoTime.Second]
  omega

theorem abs_Add_seconds (h : t.nsec = 0) (k : Int) :
    (t.Add (k * GoTime.Second)).abs zone = t.abs zone + k := by
  simp only [abs, sec_Add_seconds h, loc_Add]
  omega

theorem Truncate_seconds (h : t.nsec = 0) {p : Int} (hp : 0 < p) :
    t.Truncate (p * GoTime.Second) = t.Add (-(t.sec % p) * GoTime.Second) := by
  have hrem : (t.sec * GoTime.Second + t.nsec) % (p * GoTime.Second) = t.sec % p * GoTime.Second := by
    rw [h, Int.natCast_zero, Int.add_zero, Int.mul_comm t.sec, Int.mul_comm p,
      Int.mul_emod_mul_of_pos _ _ (by decide), Int.mul_comm]
  have hd : ¬ p * GoTime.Second ≤ 0 := by unfold GoTime.Second; omega
  simp only [Truncate, hd, if_false]
  rw [show (t.sec * 1000000000 + (t.nsec : Int)) = t.sec * GoTime.Second + t.nsec from rfl, hrem,
    Int.neg_mul]

end Time

@[simp] theorem loc_Date (y m d h mi s nsec : Int) (loc : L) :
    (Date zone y m d h mi s nsec loc).loc = loc := rfl

theorem nsec_Date (y m d h mi s : Int) (loc : L) : (Date zone y m d h mi s 0 loc).nsec = 0 := rfl

theorem abs_Date (y m d h mi s : Int) (loc : L) :
    (Date zone y m d h mi s 0 loc).abs zone = dayNumber y m d * 86400 + h * 3600 + mi * 60 + s := by
  simp only [Time.abs, Date]
  omega

namespace Time

variable {t : Time L}

@[simp] theorem loc_AddDate (t : Time L) (a b c : Int) : (t.AddDate zone a b c).loc = t.loc := by
  rw [AddDate, loc_Date]

theorem nsec_AddDate (h : t.nsec = 0) (a b c : Int) : (t.AddDate zone a b c).nsec = 0 := by
  rw [AddDate, h, Int.natCast_zero, nsec_Date]

theorem abs_AddDate (h : t.nsec = 0) (a b c : Int) :
    (t.AddDate zone a b c).abs zone =
      dayNumber (t.Year zone + a) (t.Month zone + b) (t.Day zone + c) * 86400 + t.Hour zone * 3600 +
        t.Minute zone * 60 + t.Second zone := by
  rw [AddDate, h, Int.natCast_zero, abs_Date]

theorem abs_Add_hour (h : t.nsec = 0) : (t.Add GoTime.Hour).abs zone = t.abs zone + 3600 := by
  rw [Hour_eq]
  exact abs_Add_seconds zone h 3600

theorem abs_Add_minute (h : t.nsec = 0) : (t.Add GoTime.Minute).abs zone = t.abs zone + 60 := by
  rw [Minute_eq]
  exact abs_Add_seconds zone h 60

theorem abs_Add_second (h : t.nsec = 0) : (t.Add GoTime.Second).abs zone = t.abs zone + 1 := by
  rw [← Int.one_mul GoTime.Second]
  exact abs_Add_seconds zone h 1

theorem fields_of_day {D : Int} (h : t.abs zone = D * 86400) :
    (t.Year zone, t.Month zone, t.Day zone) = civil D ∧
      t.Hour zone = 0 ∧ t.Minute zone = 0 ∧ t.Second zone = 0 := by
  have hD : t.abs zone / 86400 = D := by omega
  refine ⟨?_, ?_, ?_, ?_⟩
  · simp only [Year, Month, Day, yearAt, monthAt, dayAt, hD]
  · simp only [Hour, hourAt]; omega
  · simp only [Minute, minuteAt]; omega
  · simp only [Second, secondAt]; omega

end Time

theorem date_spec (l : Int) :
    Valid (yearAt l) (monthAt l) (dayAt l) ∧
      firstOfMonth (yearAt l) (monthAt l) + dayAt l - 1 = l / 86400 :=
  civil_spec (l / 86400)

end GoTime
