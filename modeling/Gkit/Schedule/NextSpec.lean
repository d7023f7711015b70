import Gkit.Schedule.Next

/-!
What `Next` finds: the first second after its argument at which the schedule matches, when the
offset of its location is a whole number of minutes. The argument is over local seconds. A field
of a time reads the index of its period (`Pc.idx`: the year, the first day of the month, the
day, the hour, the minute, the second), and a period starts where its index changes
(`Pc.Starts`). A loop that finds its field wrong moves the time to the start of the field's next
period (`Pc.next`), so that every second it passes over has the wrong field, and it wraps to
`WRAP` where that start is also one of the coarser field's periods. `NextInv` says this of every
state of the machine, and `nextMeasure` counts the seconds left before the year limit;
`FuelLoop.loop_spec` puts the two together.
-/

namespace Gkit.Schedule

open GoTime Civil

variable {L : Type}

/-! ### Fields and their periods -/

namespace Pc

/-- The order of the labels: a field's loop comes after those of the coarser fields. -/
def rank : Pc → Nat
  | .wrap => 0
  | .month => 1
  | .day => 2
  | .hour => 3
  | .minute => 4
  | .second => 5

/-- The field one coarser, whose period starts are where a field's loop wraps. -/
def parent : Pc → Pc
  | .wrap => .wrap
  | .month => .wrap
  | .day => .month
  | .hour => .day
  | .minute => .hour
  | .second => .minute

/-- The index of the period of a field that the local second `l` is in. -/
def idx : Pc → Int → Int
  | .wrap, l => yearAt l
  | .month, l => firstOfMonth (yearAt l) (monthAt l)
  | .day, l => l / 86400
  | .hour, l => l / 3600
  | .minute, l => l / 60
  | .second, l => l

/-- The local second `l` starts a period of the field. -/
def Starts (x : Pc) (l : Int) : Prop := x.idx l ≠ x.idx (l - 1)

/-- Where a field's loop goes when the field matches. -/
def succ : Pc → Pc
  | .wrap => .month
  | .month => .day
  | .day => .hour
  | .hour => .minute
  | .minute => .second
  | .second => .second

/-- The start of the period of a field that `l` is in: where the loop's first turn resets the
time to. -/
def start : Pc → Int → Int
  | .wrap, l => l
  | .month, l => firstOfMonth (yearAt l) (monthAt l) * 86400
  | .day, l => l / 86400 * 86400
  | .hour, l => l / 3600 * 3600
  | .minute, l => l / 60 * 60
  | .second, l => l

/-- The start of the field's next period after `l`: where the field's loop moves the time. -/
def next : Pc → Int → Int
  | .wrap, l => l
  | .month, l => (firstOfMonth (yearAt l) (monthAt l) + daysIn (yearAt l) (monthAt l)) * 86400
  | .day, l => (l / 86400 + 1) * 86400
  | .hour, l => (l / 3600 + 1) * 3600
  | .minute, l => (l / 60 + 1) * 60
  | .second, l => l + 1

/-- The test of a field's loop after it moved on: the field is back at its first value. -/
def first : Pc → Int → Prop
  | .wrap, _ => True
  | .month, l => monthAt l = 1
  | .day, l => dayAt l = 1
  | .hour, l => hourAt l = 0
  | .minute, l => minuteAt l = 0
  | .second, l => secondAt l = 0

end Pc

theorem civil_idx_month (l : Int) : civil (Pc.idx .month l) = (yearAt l, monthAt l, 1) := by
  obtain ⟨⟨h1, h12, -, -⟩, -⟩ := date_spec l
  have hv : Valid (yearAt l) (monthAt l) 1 := ⟨h1, h12, le_refl _, one_le_daysIn _ _⟩
  have h := civil_firstOfMonth hv
  rw [Int.add_sub_cancel] at h
  exact h

/-- A second where a period starts is the start of its period. -/
theorem Pc.start_of_starts {l : Int} : ∀ x : Pc, x.Starts l → x.start l = l
  | .wrap, _ => rfl
  | .month, h => by
    have hmid : l % 86400 = 0 := by
      by_contra hne
      have hD : (l - 1) / 86400 = l / 86400 := by omega
      exact h (by simp only [idx, yearAt, monthAt, hD])
    have hciv : civil ((l - 1) / 86400) = (yearAt (l - 1), monthAt (l - 1), dayAt (l - 1)) := rfl
    have hD : (l - 1) / 86400 + 1 = l / 86400 := by omega
    have hday : dayAt l = 1 := by
      rcases civil_succ hciv with h1 | ⟨hy, hm⟩
      · rw [hD] at h1
        exact h1
      · rw [hD] at hy hm
        exact absurd (by simp only [idx]; rw [← hy, ← hm]; rfl) h
    obtain ⟨-, hfirst⟩ := date_spec l
    simp only [start]
    omega
  | .day, h => by
    simp only [Starts, idx] at h
    simp only [start]
    omega
  | .hour, h => by
    simp only [Starts, idx] at h
    simp only [start]
    omega
  | .minute, h => by
    simp only [Starts, idx] at h
    simp only [start]
    omega
  | .second, _ => rfl

/-- The index of a field's period determines that of the coarser field. -/
theorem Pc.idx_parent_congr {u l : Int} : ∀ x : Pc, x.idx u = x.idx l →
    x.parent.idx u = x.parent.idx l
  | .wrap, h => h
  | .month, h => by
    have hu := civil_idx_month u
    rw [h, civil_idx_month l] at hu
    exact (Prod.mk.inj hu).1.symm
  | .day, h => by
    simp only [parent, idx, yearAt, monthAt] at h ⊢
    rw [h]
  | .hour, h => by
    simp only [parent, idx] at h ⊢
    omega
  | .minute, h => by
    simp only [parent, idx] at h ⊢
    omega
  | .second, h => by
    simp only [parent, idx] at h ⊢
    rw [h]

theorem Pc.eq_of_rank_eq : ∀ {x y : Pc}, x.rank = y.rank → x = y := by
  intro x y h
  cases x <;> cases y <;> simp_all [rank]

theorem Pc.rank_parent_lt : ∀ {x : Pc}, x ≠ .wrap → x.parent.rank < x.rank := by
  intro x hx
  cases x <;> simp_all [rank, parent]

theorem Pc.rank_le_parent :
    ∀ {x y : Pc}, x ≠ .wrap → y.rank < x.rank → y.rank ≤ x.parent.rank := by
  intro x y hx hlt
  cases x <;> cases y <;> simp_all [rank, parent]

theorem Pc.idx_congr_of_le {u l : Int} (x : Pc) {y : Pc} (hle : y.rank ≤ x.rank)
    (h : x.idx u = x.idx l) : y.idx u = y.idx l := by
  by_cases hxy : y = x
  · rw [hxy]
    exact h
  · -- `y` is coarser than `x`, so also no finer than `x`'s parent
    have hlt : y.rank < x.rank := lt_of_le_of_ne hle fun he => hxy (Pc.eq_of_rank_eq he)
    have hx : x ≠ .wrap := by
      rintro rfl
      exact Nat.not_lt_zero _ hlt
    exact Pc.idx_congr_of_le x.parent (Pc.rank_le_parent hx hlt) (x.idx_parent_congr h)
termination_by x.rank
decreasing_by exact Pc.rank_parent_lt hx

theorem Pc.starts_of_le {x y : Pc} (hle : x.rank ≤ y.rank) {l : Int} (h : x.Starts l) :
    y.Starts l :=
  fun hy => h (y.idx_congr_of_le hle hy)

/-- Up to the start of the next period, a field stays in the period of `l`. -/
theorem Pc.idx_of_lt_next {l u : Int} : ∀ x : Pc, l ≤ u → u < x.next l → x.idx u = x.idx l
  | .wrap, hlu, hu => by
    simp only [next] at hu
    omega
  | .month, hlu, hu => by
    simp only [next] at hu
    have hciv : civil (l / 86400) = (yearAt l, monthAt l, dayAt l) := rfl
    obtain ⟨hy, hm⟩ := civil_of_le_of_lt hciv (show l / 86400 ≤ u / 86400 by omega)
      (show u / 86400 < _ by omega)
    show firstOfMonth (civil (u / 86400)).1 (civil (u / 86400)).2.1 = _
    rw [hy, hm]
    rfl
  | .day, hlu, hu => by
    simp only [next, idx] at hu ⊢
    omega
  | .hour, hlu, hu => by
    simp only [next, idx] at hu ⊢
    omega
  | .minute, hlu, hu => by
    simp only [next, idx] at hu ⊢
    omega
  | .second, hlu, hu => by
    simp only [next, idx] at hu ⊢
    omega

theorem next_month_div (l : Int) :
    Pc.next .month l / 86400 = dayNumber (yearAt l) (monthAt l + 1) 1 := by
  obtain ⟨⟨h1, h12, -, -⟩, -⟩ := date_spec l
  rw [dayNumber_next_month h1 h12, Pc.next]
  omega

theorem Pc.lt_next {l : Int} : ∀ x : Pc, x ≠ .wrap → l < x.next l
  | .wrap, hx => absurd rfl hx
  | .month, _ => by
    obtain ⟨⟨-, -, -, hd⟩, hD⟩ := date_spec l
    simp only [next]
    omega
  | .day, _ => by simp only [next]; omega
  | .hour, _ => by simp only [next]; omega
  | .minute, _ => by simp only [next]; omega
  | .second, _ => by simp only [next]; omega

/-- The next period of a field is another one. -/
theorem Pc.idx_next_ne {l : Int} : ∀ x : Pc, x ≠ .wrap → x.idx (x.next l) ≠ x.idx l
  | .wrap, hx => absurd rfl hx
  | .month, _ => by
    obtain ⟨⟨-, -, -, -⟩, -⟩ := date_spec l
    have hciv := civil_next_month (yearAt l) (monthAt l)
    rw [← next_month_div] at hciv
    have hn := one_le_daysIn (yearAt l) (monthAt l)
    have hnext := next_month_div l
    have hfirst : Pc.idx .month (Pc.next .month l) = Pc.next .month l / 86400 := by
      show firstOfMonth (civil _).1 (civil _).2.1 = _
      rw [hciv, hnext]
      simp only [dayNumber, Int.add_sub_cancel]
    rw [hfirst, hnext, dayNumber_next_month (date_spec l).1.1 (date_spec l).1.2.1]
    simp only [idx]
    omega
  | .day, _ => by simp only [next, idx]; omega
  | .hour, _ => by simp only [next, idx]; omega
  | .minute, _ => by simp only [next, idx]; omega
  | .second, _ => by simp only [next, idx]; omega

theorem Pc.starts_next {l : Int} (x : Pc) (hx : x ≠ .wrap) : x.Starts (x.next l) := by
  have hlt := x.lt_next hx (l := l)
  have hprev : x.idx (x.next l - 1) = x.idx l := x.idx_of_lt_next (by omega) (by omega)
  unfold Starts
  rw [hprev]
  exact x.idx_next_ne hx

theorem Pc.next_le_year (x : Pc) (l : Int) : x.next l ≤ daysBefore (yearAt l + 1) * 86400 := by
  have hY : l / 86400 < daysBefore (yearAt l + 1) := civil_year_le_iff.mp le_rfl
  cases x with
  | month =>
    obtain ⟨⟨h1, h12, -, -⟩, -⟩ := date_spec l
    have hin := cumDays_add_daysIn_le (yearAt l) h1 h12
    have hsucc := daysBefore_succ (yearAt l)
    simp only [next, firstOfMonth]
    omega
  | wrap => simp only [next]; omega
  | day => simp only [next]; omega
  | hour => simp only [next]; omega
  | minute => simp only [next]; omega
  | second => simp only [next]; omega

/-- Where a loop does not wrap, the coarser field's period goes on. -/
theorem Pc.not_starts_parent {l : Int} : ∀ x : Pc, x ≠ .wrap → ¬ x.first (x.next l) →
    ¬ x.parent.Starts (x.next l)
  | .wrap, hx, _ => absurd rfl hx
  | .month, _, hfirst => by
    obtain ⟨⟨h1, h12, -, -⟩, -⟩ := date_spec l
    have hciv := civil_next_month (yearAt l) (monthAt l)
    rw [← next_month_div] at hciv
    have hm : monthAt (Pc.next .month l) = monthAt l % 12 + 1 := by
      show (civil _).2.1 = _
      rw [hciv]
    have hy : yearAt (Pc.next .month l) = yearAt l + monthAt l / 12 := by
      show (civil _).1 = _
      rw [hciv]
    have hlt := Pc.lt_next (l := l) .month (by decide)
    have hprev := Pc.idx_parent_congr .month
      (Pc.idx_of_lt_next (l := l) (u := Pc.next .month l - 1) .month (by omega) (by omega))
    simp only [first] at hfirst
    simp only [Starts, parent, idx] at hprev ⊢
    rw [hprev, hy]
    omega
  | .day, _, hfirst => by
    have hciv : civil (l / 86400) = (yearAt l, monthAt l, dayAt l) := rfl
    have hsucc := civil_succ hciv
    have hD : Pc.next .day l / 86400 = l / 86400 + 1 := by simp only [Pc.next]; omega
    have hD' : (Pc.next .day l - 1) / 86400 = l / 86400 := by simp only [Pc.next]; omega
    simp only [first, dayAt, hD] at hfirst
    simp only [Starts, parent, idx, yearAt, monthAt, hD, hD']
    rcases hsucc with h1 | ⟨hy, hm⟩
    · exact absurd h1 hfirst
    · rw [hy, hm]
      exact fun h => h rfl
  | .hour, _, hfirst => by
    simp only [first, next, hourAt] at hfirst
    simp only [Starts, parent, idx, next]
    omega
  | .minute, _, hfirst => by
    simp only [first, next, minuteAt] at hfirst
    simp only [Starts, parent, idx, next]
    omega
  | .second, _, hfirst => by
    simp only [first, next, secondAt] at hfirst
    simp only [Starts, parent, idx, next]
    omega

/-! ### What the schedule matches -/

section Fields

variable (zone : L → Int)

/-- The test of one field of the schedule on a time; the label tests nothing. -/
def FieldOK (s : SpecSchedule L) (t : Time L) : Pc → Prop
  | .wrap => True
  | .month => noBit s.Month (t.Month zone) = false
  | .day => dayMatches zone s t = true
  | .hour => noBit s.Hour (t.Hour zone) = false
  | .minute => noBit s.Minute (t.Minute zone) = false
  | .second => noBit s.Second (t.Second zone) = false

/-- A time the schedule matches: its month, hour, minute and second bits are set, and its day
matches. -/
def Matches (s : SpecSchedule L) (t : Time L) : Prop :=
  noBit s.Month (t.Month zone) = false ∧ dayMatches zone s t = true ∧
    noBit s.Hour (t.Hour zone) = false ∧ noBit s.Minute (t.Minute zone) = false ∧
    noBit s.Second (t.Second zone) = false

instance (s : SpecSchedule L) (t : Time L) : Decidable (Matches zone s t) :=
  inferInstanceAs (Decidable (_ ∧ _ ∧ _ ∧ _ ∧ _))

variable {zone} {s : SpecSchedule L}

theorem matches_iff {t : Time L} : Matches zone s t ↔ ∀ x, FieldOK zone s t x := by
  constructor
  · rintro ⟨hm, hd, hh, hmi, hs⟩ x
    cases x with
    | wrap => trivial
    | month => exact hm
    | day => exact hd
    | hour => exact hh
    | minute => exact hmi
    | second => exact hs
  · intro h
    exact ⟨h .month, h .day, h .hour, h .minute, h .second⟩

/-- A field's test reads only the period of the field. -/
theorem fieldOK_congr {t u : Time L} : ∀ x : Pc, x.idx (u.abs zone) = x.idx (t.abs zone) →
    (FieldOK zone s u x ↔ FieldOK zone s t x)
  | .wrap, _ => Iff.rfl
  | .month, h => by
    have hu := civil_idx_month (u.abs zone)
    rw [h, civil_idx_month] at hu
    have hm : u.Month zone = t.Month zone := (Prod.mk.inj (Prod.mk.inj hu).2).1.symm
    simp only [FieldOK, hm]
  | .day, h => by
    simp only [Pc.idx] at h
    simp only [FieldOK, dayMatches, Time.Day, Time.Weekday, dayAt, weekdayAt, h]
  | .hour, h => by
    simp only [Pc.idx] at h
    have hh : u.Hour zone = t.Hour zone := by
      simp only [Time.Hour, hourAt]
      omega
    simp only [FieldOK, hh]
  | .minute, h => by
    simp only [Pc.idx] at h
    have hm : u.Minute zone = t.Minute zone := by
      simp only [Time.Minute, minuteAt]
      omega
    simp only [FieldOK, hm]
  | .second, h => by
    simp only [Pc.idx] at h
    simp only [FieldOK, Time.Second, h]

end Fields

/-! ### One step of `Next` -/

section Step

variable (zone : L → Int)

/-- A turn of the loop body of field `x`: it goes on with `added` set and the time at the
local second `l'` in `loc`, to `WRAP`, or to its own loop when the field is not back at its
first value. -/
def GoesOn (x : Pc) (loc : L) (l' : Int) : FuelLoop.Step (St L) (Option (Time L)) → Prop
  | .go st => st.added = true ∧ st.t.loc = loc ∧ st.t.nsec = 0 ∧ st.t.abs zone = l' ∧
      (st.pc = .wrap ∨ (st.pc = x ∧ ¬ x.first l'))
  | .done _ => False

variable {zone} {s : SpecSchedule L} {loc origLocation : L} {yearLimit : Int} {t : Time L}
  {added : Bool}

/-- The wrap test that ends each loop body. -/
theorem goesOn_ite {x : Pc} {l' : Int} {t' : Time L} {c : Prop} [Decidable c]
    (hc : c ↔ x.first (t'.abs zone)) (hloc : t'.loc = loc) (hns : t'.nsec = 0)
    (habs : t'.abs zone = l') :
    GoesOn zone x loc l' (if c then .go ⟨.wrap, t', true⟩ else .go ⟨x, t', true⟩) := by
  subst habs
  by_cases h : c
  · rw [if_pos h]
    exact ⟨rfl, hloc, hns, rfl, .inl rfl⟩
  · rw [if_neg h]
    exact ⟨rfl, hloc, hns, rfl, .inr ⟨rfl, fun h' => h (hc.mpr h')⟩⟩

theorem step_month_body (hloc : t.loc = loc) (hns : t.nsec = 0)
    (hbit : noBit s.Month (t.Month zone) = true)
    (hstart : added = true → Pc.month.Starts (t.abs zone)) :
    GoesOn zone .month loc (Pc.next .month (t.abs zone))
      (step zone s loc origLocation yearLimit ⟨.month, t, added⟩) := by
  obtain ⟨r, hr, hrns, hrloc, hrabs⟩ : ∃ r : Time L,
      (if !added then Date zone (t.Year zone) (t.Month zone) 1 0 0 0 0 loc else t) = r ∧
        r.nsec = 0 ∧ r.loc = loc ∧ r.abs zone = Pc.start .month (t.abs zone) := by
    cases added with
    | false =>
      obtain ⟨⟨h1, h12, -, -⟩, -⟩ := date_spec (t.abs zone)
      refine ⟨_, rfl, nsec_Date zone .., loc_Date zone .., ?_⟩
      show (Date zone _ _ _ _ _ _ _ loc).abs zone = _
      rw [abs_Date]
      simp only [Time.Year, Time.Month]
      rw [dayNumber_of_valid h1 h12]
      simp only [Pc.start]
      omega
    | true => exact ⟨t, rfl, hns, hloc, (Pc.start_of_starts .month (hstart rfl)).symm⟩
  have hciv := civil_idx_month (t.abs zone)
  obtain ⟨hdate, hh, hmi, hsec⟩ :=
    Time.fields_of_day zone (D := Pc.idx .month (t.abs zone)) hrabs
  rw [hciv, Prod.mk.injEq, Prod.mk.injEq] at hdate
  obtain ⟨hy, hm, hd⟩ := hdate
  simp only [step, hbit, if_true, hr]
  refine goesOn_ite Iff.rfl (by rw [Time.loc_AddDate, hrloc]) (Time.nsec_AddDate zone hrns 0 1 0) ?_
  obtain ⟨⟨h1, h12, -, -⟩, -⟩ := date_spec (t.abs zone)
  rw [Time.abs_AddDate zone hrns, hy, hm, hd, hh, hmi, hsec]
  simp only [Int.add_zero]
  rw [dayNumber_next_month h1 h12]
  simp only [Pc.next]
  omega

theorem step_day_body (hloc : t.loc = loc) (hns : t.nsec = 0)
    (hbit : dayMatches zone s t = false) (hstart : added = true → Pc.day.Starts (t.abs zone)) :
    GoesOn zone .day loc (Pc.next .day (t.abs zone))
      (step zone s loc origLocation yearLimit ⟨.day, t, added⟩) := by
  obtain ⟨r, hr, hrns, hrloc, hrabs⟩ : ∃ r : Time L,
      (if !added then Date zone (t.Year zone) (t.Month zone) (t.Day zone) 0 0 0 0 loc else t) = r ∧
        r.nsec = 0 ∧ r.loc = loc ∧ r.abs zone = Pc.start .day (t.abs zone) := by
    cases added with
    | false =>
      refine ⟨_, rfl, nsec_Date zone .., loc_Date zone .., ?_⟩
      show (Date zone _ _ _ _ _ _ _ loc).abs zone = _
      rw [abs_Date]
      have hD := dayNumber_civil (t.abs zone / 86400)
      simp only [Time.Year, Time.Month, Time.Day, yearAt, monthAt, dayAt, hD, Pc.start]
      omega
    | true => exact ⟨t, rfl, hns, hloc, (Pc.start_of_starts .day (hstart rfl)).symm⟩
  obtain ⟨hdate, hh, hmi, hsec⟩ := Time.fields_of_day zone (D := t.abs zone / 86400) hrabs
  have hD := dayNumber_civil (t.abs zone / 86400)
  rw [← hdate] at hD
  dsimp only at hD
  have habs : (r.AddDate zone 0 0 1).abs zone = Pc.next .day (t.abs zone) := by
    rw [Time.abs_AddDate zone hrns, hh, hmi, hsec]
    simp only [Int.add_zero]
    rw [dayNumber_add_day, hD]
    simp only [Pc.next]
    omega
  have hH : (r.AddDate zone 0 0 1).Hour zone = 0 := by
    show hourAt _ = 0
    rw [habs]
    simp only [Pc.next, hourAt]
    omega
  simp only [step, hbit, Bool.not_false, if_true, hr]
  rw [if_neg (show ¬ (r.AddDate zone 0 0 1).Hour zone ≠ 0 from fun h => h hH)]
  exact goesOn_ite Iff.rfl (by rw [Time.loc_AddDate, hrloc]) (Time.nsec_AddDate zone hrns 0 0 1)
    habs

theorem step_hour_body (hloc : t.loc = loc) (hns : t.nsec = 0)
    (hbit : noBit s.Hour (t.Hour zone) = true)
    (hstart : added = true → Pc.hour.Starts (t.abs zone)) :
    GoesOn zone .hour loc (Pc.next .hour (t.abs zone))
      (step zone s loc origLocation yearLimit ⟨.hour, t, added⟩) := by
  obtain ⟨r, hr, hrns, hrloc, hrabs⟩ : ∃ r : Time L,
      (if !added then Date zone (t.Year zone) (t.Month zone) (t.Day zone) (t.Hour zone) 0 0 0 loc
        else t) = r ∧
        r.nsec = 0 ∧ r.loc = loc ∧ r.abs zone = Pc.start .hour (t.abs zone) := by
    cases added with
    | false =>
      refine ⟨_, rfl, nsec_Date zone .., loc_Date zone .., ?_⟩
      show (Date zone _ _ _ _ _ _ _ loc).abs zone = _
      rw [abs_Date]
      have hD := dayNumber_civil (t.abs zone / 86400)
      simp only [Time.Year, Time.Month, Time.Day, Time.Hour, yearAt, monthAt, dayAt, hourAt, hD,
        Pc.start]
      omega
    | true => exact ⟨t, rfl, hns, hloc, (Pc.start_of_starts .hour (hstart rfl)).symm⟩
  simp only [step, hbit, if_true, hr]
  refine goesOn_ite Iff.rfl hrloc ?_ ?_
  · rw [Hour_eq]
    exact Time.nsec_Add_seconds hrns 3600
  · rw [Time.abs_Add_hour zone hrns, hrabs]
    simp only [Pc.start, Pc.next]
    omega

theorem step_minute_body (hzone : zone loc % 60 = 0) (hloc : t.loc = loc) (hns : t.nsec = 0)
    (hbit : noBit s.Minute (t.Minute zone) = true)
    (hstart : added = true → Pc.minute.Starts (t.abs zone)) :
    GoesOn zone .minute loc (Pc.next .minute (t.abs zone))
      (step zone s loc origLocation yearLimit ⟨.minute, t, added⟩) := by
  -- `Truncate` rounds the time since the zero time: the start of the local minute, as the
  -- offset is whole minutes
  obtain ⟨r, hr, hrns, hrloc, hrabs⟩ : ∃ r : Time L,
      (if !added then t.Truncate GoTime.Minute else t) = r ∧
        r.nsec = 0 ∧ r.loc = loc ∧ r.abs zone = Pc.start .minute (t.abs zone) := by
    cases added with
    | false =>
      have htr : t.Truncate GoTime.Minute = t.Add (-(t.sec % 60) * GoTime.Second) := by
        rw [Minute_eq]
        exact Time.Truncate_seconds hns (by decide)
      refine ⟨_, rfl, ?_, ?_, ?_⟩
      · show (t.Truncate GoTime.Minute).nsec = 0
        rw [htr]
        exact Time.nsec_Add_seconds hns _
      · show (t.Truncate GoTime.Minute).loc = loc
        rw [htr, Time.loc_Add, hloc]
      · show (t.Truncate GoTime.Minute).abs zone = _
        rw [htr, Time.abs_Add_seconds zone hns]
        rw [← hloc] at hzone
        simp only [Time.abs, Pc.start]
        omega
    | true => exact ⟨t, rfl, hns, hloc, (Pc.start_of_starts .minute (hstart rfl)).symm⟩
  simp only [step, hbit, if_true, hr]
  refine goesOn_ite Iff.rfl hrloc ?_ ?_
  · rw [Minute_eq]
    exact Time.nsec_Add_seconds hrns 60
  · rw [Time.abs_Add_minute zone hrns, hrabs]
    simp only [Pc.start, Pc.next]
    omega

theorem step_second_body (hloc : t.loc = loc) (hns : t.nsec = 0)
    (hbit : noBit s.Second (t.Second zone) = true) :
    GoesOn zone .second loc (Pc.next .second (t.abs zone))
      (step zone s loc origLocation yearLimit ⟨.second, t, added⟩) := by
  obtain ⟨r, hr, hrns, hrloc, hrabs⟩ : ∃ r : Time L,
      (if !added then t.Truncate GoTime.Second else t) = r ∧
        r.nsec = 0 ∧ r.loc = loc ∧ r.abs zone = t.abs zone := by
    have htr : t.Truncate GoTime.Second = t.Add (-(t.sec % 1) * GoTime.Second) := by
      conv_lhs => rw [← Int.one_mul GoTime.Second]
      exact Time.Truncate_seconds hns (by decide)
    have hadd : t.Add (-(t.sec % 1) * GoTime.Second) = t.Add (0 * GoTime.Second) := by
      rw [Int.emod_one, Int.neg_zero]
    cases added with
    | false =>
      refine ⟨_, rfl, ?_, ?_, ?_⟩
      · show (t.Truncate GoTime.Second).nsec = 0
        rw [htr, hadd]
        exact Time.nsec_Add_seconds hns _
      · show (t.Truncate GoTime.Second).loc = loc
        rw [htr, Time.loc_Add, hloc]
      · show (t.Truncate GoTime.Second).abs zone = _
        rw [htr, hadd, Time.abs_Add_seconds zone hns, Int.add_zero]
    | true => exact ⟨t, rfl, hns, hloc, rfl⟩
  simp only [step, hbit, if_true, hr]
  refine goesOn_ite Iff.rfl hrloc ?_ ?_
  · rw [← Int.one_mul GoTime.Second]
    exact Time.nsec_Add_seconds hrns 1
  · rw [Time.abs_Add_second zone hrns, hrabs]
    rfl

/-- A loop whose field is wrong turns its body. -/
theorem step_body (x : Pc) (hx : x ≠ .wrap) (hzone : zone loc % 60 = 0) (hloc : t.loc = loc)
    (hns : t.nsec = 0) (hbad : ¬ FieldOK zone s t x)
    (hstart : added = true → x.Starts (t.abs zone)) :
    GoesOn zone x loc (x.next (t.abs zone))
      (step zone s loc origLocation yearLimit ⟨x, t, added⟩) := by
  cases x with
  | wrap => exact absurd rfl hx
  | month =>
    exact step_month_body hloc hns (by simpa only [FieldOK, Bool.not_eq_false] using hbad) hstart
  | day =>
    exact step_day_body hloc hns (by simpa only [FieldOK, Bool.not_eq_true] using hbad) hstart
  | hour =>
    exact step_hour_body hloc hns (by simpa only [FieldOK, Bool.not_eq_false] using hbad) hstart
  | minute =>
    exact step_minute_body hzone hloc hns (by simpa only [FieldOK, Bool.not_eq_false] using hbad)
      hstart
  | second =>
    exact step_second_body hloc hns (by simpa only [FieldOK, Bool.not_eq_false] using hbad)

theorem step_ok (x : Pc) (hx : x ≠ .wrap) (hx' : x ≠ .second) (hok : FieldOK zone s t x) :
    step zone s loc origLocation yearLimit ⟨x, t, added⟩ = .go ⟨x.succ, t, added⟩ := by
  cases x with
  | wrap => exact absurd rfl hx
  | second => exact absurd rfl hx'
  | month =>
    simp only [FieldOK] at hok
    simp only [step, hok, Bool.false_eq_true, if_false, Pc.succ]
  | day =>
    simp only [FieldOK] at hok
    simp only [step, hok, Bool.not_true, Bool.false_eq_true, if_false, Pc.succ]
  | hour =>
    simp only [FieldOK] at hok
    simp only [step, hok, Bool.false_eq_true, if_false, Pc.succ]
  | minute =>
    simp only [FieldOK] at hok
    simp only [step, hok, Bool.false_eq_true, if_false, Pc.succ]

theorem step_second_ok (hok : FieldOK zone s t .second) :
    step zone s loc origLocation yearLimit ⟨.second, t, added⟩ =
      .done (some (t.In origLocation)) := by
  simp only [FieldOK] at hok
  simp only [step, hok, Bool.false_eq_true, if_false]

theorem step_wrap :
    step zone s loc origLocation yearLimit ⟨.wrap, t, added⟩ =
      if t.Year zone > yearLimit then .done none else .go ⟨.month, t, added⟩ := rfl

end Step

/-! ### Runs of `Next` -/

/-- The first local second after the year limit: `Next` gives up at a `WRAP` there. -/
def limitEnd (yearLimit : Int) : Int := daysBefore (yearLimit + 1) * 86400

theorem yearAt_le_iff {l Y : Int} : yearAt l ≤ Y ↔ l < limitEnd Y := by
  rw [yearAt, civil_year_le_iff, limitEnd]
  omega

theorem yearAt_mono {l l' : Int} (h : l ≤ l') : yearAt l ≤ yearAt l' :=
  yearAt_le_iff.mpr (lt_of_le_of_lt h (yearAt_le_iff.mp le_rfl))

theorem limitEnd_le_of_le {Y Y' : Int} (h : Y ≤ Y') : limitEnd Y ≤ limitEnd Y' := by
  have := daysBefore_le_of_le (show Y + 1 ≤ Y' + 1 by omega)
  unfold limitEnd
  omega

theorem Pc.rank_succ : ∀ {x : Pc}, x ≠ .second → x.succ.rank = x.rank + 1 := by
  intro x hx
  cases x <;> simp_all [rank, succ]

theorem Pc.rank_le_five (x : Pc) : x.rank ≤ 5 := by
  cases x <;> simp [rank]

/-- Where a loop does not wrap, the time stays in the coarser period it was in. -/
theorem Pc.parent_idx_next {x : Pc} {l : Int} (hx : x ≠ .wrap) (hfirst : ¬ x.first (x.next l)) :
    x.parent.idx (x.next l) = x.parent.idx l := by
  have hlt := x.lt_next hx (l := l)
  have hprev : x.idx (x.next l - 1) = x.idx l := x.idx_of_lt_next (by omega) (by omega)
  have hcont := x.not_starts_parent hx hfirst
  unfold Starts at hcont
  rw [not_not] at hcont
  rw [hcont]
  exact x.idx_parent_congr hprev

section Run

variable (zone : L → Int) (s : SpecSchedule L) (loc origLocation : L) (yearLimit l₀ : Int)

/-- What holds of every state of `Next` that starts at the local second `l₀`: the time stays in
`loc` on whole seconds, no second from `l₀` up to it matches, the fields coarser than the loop
it is at match, a field that does not match once a field has been added is at the start of its
period, and the time is within the year limit. -/
structure NextInv (st : St L) : Prop where
  loc_eq : st.t.loc = loc
  nsec_eq : st.t.nsec = 0
  start_le : l₀ ≤ st.t.abs zone
  none_before : ∀ u : Time L, u.loc = loc → l₀ ≤ u.abs zone → u.abs zone < st.t.abs zone →
    ¬ Matches zone s u
  coarser_ok : ∀ y : Pc, y.rank < st.pc.rank → FieldOK zone s st.t y
  added_ok : st.added = true → ∀ y : Pc, FieldOK zone s st.t y ∨ y.Starts (st.t.abs zone)
  le_end : st.t.abs zone ≤ limitEnd yearLimit
  lt_end : st.pc ≠ .wrap → st.t.abs zone < limitEnd yearLimit

/-- What `Next`'s loop returns: the first second from `l₀` that matches, in `origLocation`, or
none when no second matches before the year limit ends. -/
def NextPost : Option (Time L) → Prop
  | some r => r.loc = origLocation ∧ r.nsec = 0 ∧ l₀ ≤ (r.In loc).abs zone ∧
      Matches zone s (r.In loc) ∧
      ∀ u : Time L, u.loc = loc → l₀ ≤ u.abs zone → u.abs zone < (r.In loc).abs zone →
        ¬ Matches zone s u
  | none => ∀ u : Time L, u.loc = loc → l₀ ≤ u.abs zone → u.abs zone < limitEnd yearLimit →
      ¬ Matches zone s u

/-- Six for each second left before the year limit ends, and what is left of the labels. -/
def nextMeasure (st : St L) : Nat :=
  6 * (limitEnd yearLimit - st.t.abs zone).toNat + (5 - st.pc.rank)

variable {zone s loc origLocation yearLimit l₀}

/-- A turn of a loop body keeps the invariant and lowers the measure. -/
theorem NextInv.body {x : Pc} {t : Time L} {added : Bool} {st' : St L}
    (hinv : NextInv zone s loc yearLimit l₀ ⟨x, t, added⟩) (hx : x ≠ .wrap)
    (hbad : ¬ FieldOK zone s t x) (hgo : GoesOn zone x loc (x.next (t.abs zone)) (.go st')) :
    NextInv zone s loc yearLimit l₀ st' ∧
      nextMeasure zone yearLimit st' < nextMeasure zone yearLimit ⟨x, t, added⟩ := by
  obtain ⟨pc', t', added'⟩ := st'
  obtain ⟨-, hloc', hns', habs', hpc⟩ := hgo
  dsimp only at hloc' hns' habs' hpc
  have hlt := x.lt_next hx (l := t.abs zone)
  have hprev : x.idx (x.next (t.abs zone) - 1) = x.idx (t.abs zone) :=
    x.idx_of_lt_next (by omega) (by omega)
  have hend : t.abs zone < limitEnd yearLimit := hinv.lt_end hx
  have hsame : ∀ u : Time L, t.abs zone ≤ u.abs zone → u.abs zone < x.next (t.abs zone) →
      ¬ Matches zone s u := by
    intro u hlo hhi hm
    exact hbad ((fieldOK_congr x (x.idx_of_lt_next hlo hhi)).mp (matches_iff.mp hm x))
  have hcoarser : pc' = x → ¬ x.first (x.next (t.abs zone)) →
      ∀ y : Pc, y.rank < x.rank → y.idx (t'.abs zone) = y.idx (t.abs zone) := by
    intro _ hfirst y hy
    rw [habs']
    exact x.parent.idx_congr_of_le (Pc.rank_le_parent hx hy) (Pc.parent_idx_next hx hfirst)
  refine ⟨⟨hloc', hns', ?_, ?_, ?_, ?_, ?_, ?_⟩, ?_⟩
  · exact habs' ▸ le_of_lt (lt_of_le_of_lt hinv.start_le hlt)
  · intro u hu h0 h1
    by_cases hbefore : u.abs zone < t.abs zone
    · exact hinv.none_before u hu h0 hbefore
    · exact hsame u (by omega) (habs' ▸ h1)
  · intro y hy
    rcases hpc with hw | ⟨hpx, hfirst⟩
    · subst hw
      exact absurd hy (Nat.not_lt_zero _)
    · subst hpx
      exact (fieldOK_congr y (hcoarser rfl hfirst y hy)).mpr (hinv.coarser_ok y hy)
  · intro _ y
    by_cases hfine : x.rank ≤ y.rank
    · exact .inr (habs' ▸ Pc.starts_of_le hfine (x.starts_next hx))
    · by_cases hst : y.Starts (t'.abs zone)
      · exact .inr hst
      · -- `y` is coarser and its period goes on from the second before
        unfold Pc.Starts at hst
        rw [not_not] at hst
        have hy : y.idx (t'.abs zone) = y.idx (t.abs zone) := by
          rw [hst, habs', x.idx_congr_of_le (by omega) hprev]
        exact .inl ((fieldOK_congr y hy).mpr (hinv.coarser_ok y (show y.rank < x.rank by omega)))
  · have hyear := yearAt_le_iff.mpr hend
    rw [habs']
    exact le_trans (x.next_le_year _) (limitEnd_le_of_le hyear)
  · intro hpc'
    rcases hpc with hw | ⟨hpx, hfirst⟩
    · exact absurd hw hpc'
    · -- the year of `t'` is that of `t`
      have hy :=
        x.parent.idx_congr_of_le (y := .wrap) (Nat.zero_le _) (Pc.parent_idx_next hx hfirst)
      simp only [Pc.idx] at hy
      rw [habs']
      exact yearAt_le_iff.mp (hy ▸ yearAt_le_iff.mpr hend)
  · have hle : x.next (t.abs zone) ≤ limitEnd yearLimit :=
      le_trans (x.next_le_year _) (limitEnd_le_of_le (yearAt_le_iff.mpr hend))
    simp only [nextMeasure]
    omega

/-- A loop whose field matches keeps the invariant as it goes on to the next field. -/
theorem NextInv.advance {x : Pc} {t : Time L} {added : Bool}
    (hinv : NextInv zone s loc yearLimit l₀ ⟨x, t, added⟩) (hx : x ≠ .wrap) (hx' : x ≠ .second)
    (hok : FieldOK zone s t x) :
    NextInv zone s loc yearLimit l₀ ⟨x.succ, t, added⟩ ∧
      nextMeasure zone yearLimit ⟨x.succ, t, added⟩ <
        nextMeasure zone yearLimit ⟨x, t, added⟩ := by
  have hrank := Pc.rank_succ hx'
  have hfive : x.rank ≠ 5 := fun h => hx' (Pc.eq_of_rank_eq (y := .second) h)
  refine ⟨⟨hinv.loc_eq, hinv.nsec_eq, hinv.start_le, hinv.none_before, ?_, hinv.added_ok,
    hinv.le_end, fun _ => hinv.lt_end hx⟩, ?_⟩
  · intro y hy
    dsimp only at hy
    by_cases hyx : y = x
    · rw [hyx]
      exact hok
    · have hne : y.rank ≠ x.rank := fun h => hyx (Pc.eq_of_rank_eq h)
      exact hinv.coarser_ok y (show y.rank < x.rank by omega)
  · have := x.rank_le_five
    simp only [nextMeasure]
    omega

/-- A loop whose field is wrong keeps the invariant through its body. -/
theorem NextInv.sound_of_bad {x : Pc} {t : Time L} {added : Bool} (hzone : zone loc % 60 = 0)
    (hinv : NextInv zone s loc yearLimit l₀ ⟨x, t, added⟩) (hx : x ≠ .wrap)
    (hbad : ¬ FieldOK zone s t x) :
    FuelLoop.Sound (step zone s loc origLocation yearLimit) (NextInv zone s loc yearLimit l₀)
      (NextPost zone s loc origLocation yearLimit l₀) (nextMeasure zone yearLimit)
      ⟨x, t, added⟩ := by
  have hgo : GoesOn zone x loc (x.next (t.abs zone))
      (step zone s loc origLocation yearLimit ⟨x, t, added⟩) :=
    step_body x hx hzone hinv.loc_eq hinv.nsec_eq hbad
      (fun ha => (hinv.added_ok ha x).resolve_left hbad)
  unfold FuelLoop.Sound
  cases hs : step zone s loc origLocation yearLimit ⟨x, t, added⟩ with
  | done r =>
    rw [hs] at hgo
    exact hgo.elim
  | go st' =>
    rw [hs] at hgo
    exact NextInv.body hinv hx hbad hgo

/-- Every step of `Next` from a state of the invariant is sound for the loop rule. -/
theorem NextInv.sound (hzone : zone loc % 60 = 0) {st : St L}
    (hinv : NextInv zone s loc yearLimit l₀ st) :
    FuelLoop.Sound (step zone s loc origLocation yearLimit) (NextInv zone s loc yearLimit l₀)
      (NextPost zone s loc origLocation yearLimit l₀) (nextMeasure zone yearLimit) st := by
  obtain ⟨pc, t, added⟩ := st
  cases pc with
  | wrap =>
    unfold FuelLoop.Sound
    rw [step_wrap]
    by_cases hy : t.Year zone > yearLimit
    · -- past the year limit: no second is left before its end
      rw [if_pos hy]
      intro u hu h0 h1
      have hge : limitEnd yearLimit ≤ t.abs zone := by
        by_contra hlt
        have := yearAt_le_iff.mpr (show t.abs zone < limitEnd yearLimit by omega)
        exact absurd this (by simp only [Time.Year] at hy; omega)
      exact hinv.none_before u hu h0 (show u.abs zone < t.abs zone by omega)
    · rw [if_neg hy]
      have hyear : yearAt (t.abs zone) ≤ yearLimit := by
        simp only [Time.Year] at hy
        omega
      refine ⟨⟨hinv.loc_eq, hinv.nsec_eq, hinv.start_le, hinv.none_before, ?_, hinv.added_ok,
        hinv.le_end, fun _ => yearAt_le_iff.mp hyear⟩, ?_⟩
      · intro y hyr
        cases y with
        | wrap => trivial
        | _ => simp [Pc.rank] at hyr
      · simp only [nextMeasure, Pc.rank]
        omega
  | second =>
    by_cases hok : FieldOK zone s t .second
    · unfold FuelLoop.Sound
      rw [step_second_ok hok]
      have hback : (t.In origLocation).In loc = t := by
        rw [← hinv.loc_eq]
        rfl
      have hm : Matches zone s t := matches_iff.mpr fun y => by
        by_cases hys : y = .second
        · rw [hys]
          exact hok
        · have hne : y.rank ≠ 5 := fun h => hys (Pc.eq_of_rank_eq (y := .second) h)
          exact hinv.coarser_ok y (show y.rank < 5 by have := y.rank_le_five; omega)
      refine ⟨rfl, hinv.nsec_eq, ?_, ?_, ?_⟩
      · rw [hback]
        exact hinv.start_le
      · rw [hback]
        exact hm
      · rw [hback]
        exact hinv.none_before
    · exact hinv.sound_of_bad hzone (by decide) hok
  | month =>
    by_cases hok : FieldOK zone s t .month
    · unfold FuelLoop.Sound
      rw [step_ok .month (by decide) (by decide) hok]
      exact hinv.advance (by decide) (by decide) hok
    · exact hinv.sound_of_bad hzone (by decide) hok
  | day =>
    by_cases hok : FieldOK zone s t .day
    · unfold FuelLoop.Sound
      rw [step_ok .day (by decide) (by decide) hok]
      exact hinv.advance (by decide) (by decide) hok
    · exact hinv.sound_of_bad hzone (by decide) hok
  | hour =>
    by_cases hok : FieldOK zone s t .hour
    · unfold FuelLoop.Sound
      rw [step_ok .hour (by decide) (by decide) hok]
      exact hinv.advance (by decide) (by decide) hok
    · exact hinv.sound_of_bad hzone (by decide) hok
  | minute =>
    by_cases hok : FieldOK zone s t .minute
    · unfold FuelLoop.Sound
      rw [step_ok .minute (by decide) (by decide) hok]
      exact hinv.advance (by decide) (by decide) hok
    · exact hinv.sound_of_bad hzone (by decide) hok

theorem NextInv.init {t : Time L} (hloc : t.loc = loc) (hns : t.nsec = 0) :
    NextInv zone s loc (t.Year zone + 5) (t.abs zone) ⟨.wrap, t, false⟩ := by
  refine ⟨hloc, hns, le_rfl, fun u _ h0 h1 => absurd (lt_of_le_of_lt h0 h1) (lt_irrefl _),
    fun y hy => ?_,
    fun h => absurd h Bool.false_ne_true, ?_, fun h => absurd rfl h⟩
  · exact absurd hy (Nat.not_lt_zero _)
  · exact le_of_lt (lt_of_lt_of_le (yearAt_le_iff.mp le_rfl) (limitEnd_le_of_le (by
      show yearAt (t.abs zone) ≤ yearAt (t.abs zone) + 5
      omega)))

theorem nextMeasure_init_lt (t : Time L) :
    nextMeasure zone (t.Year zone + 5) ⟨.wrap, t, false⟩ < nextFuel := by
  have hY : t.Year zone = yearOf (t.abs zone / 86400) := rfl
  have hlo := (yearOf_spec (t.abs zone / 86400)).1
  have hsix := daysBefore_add_six_le (t.Year zone)
  rw [hY] at hsix
  simp only [nextMeasure, limitEnd, nextFuel, Pc.rank, hY,
    show yearOf (t.abs zone / 86400) + 5 + 1 = yearOf (t.abs zone / 86400) + 6 by omega]
  omega

/-- The loop rule for `Next`: its fuel is enough, and it returns what `NextPost` says. -/
theorem next_loop {t : Time L} (hzone : zone loc % 60 = 0) (hloc : t.loc = loc)
    (hns : t.nsec = 0) :
    ∃ r, FuelLoop.loop (step zone s loc origLocation (t.Year zone + 5)) nextFuel
        ⟨.wrap, t, false⟩ = some r ∧ NextPost zone s loc origLocation (t.Year zone + 5) (t.abs zone) r :=
  FuelLoop.loop_spec (fun _ h => h.sound hzone) nextFuel _ (NextInv.init hloc hns)
    (nextMeasure_init_lt t)

end Run

theorem in_nextLocation [DecidableEq L] (Local : L) (s : SpecSchedule L) (t : Time L) :
    (if s.Location ≠ Local then t.In s.Location else t) = t.In (nextLocation Local s t) := by
  unfold nextLocation
  by_cases h : s.Location = Local
  · rw [if_neg (not_not.mpr h), if_pos h, Time.In_self]
  · rw [if_pos h, if_neg h]

theorem upcoming_second (t : Time L) :
    (t.Add (GoTime.Second - t.Nanosecond)).sec = t.sec + 1 ∧
      (t.Add (GoTime.Second - t.Nanosecond)).nsec = 0 := by
  have hlt := t.nsec_lt
  simp only [Time.Add, Time.Nanosecond, GoTime.Second]
  omega

variable (zone : L → Int)

theorem next_is_least_match [DecidableEq L] (Local : L) (s : SpecSchedule L) (t : Time L)
    (hzone : zone (nextLocation Local s t) % 60 = 0) :
    (∀ r, Next zone Local s t = some r →
      r.loc = t.loc ∧ r.nsec = 0 ∧ t.sec < r.sec ∧
        Matches zone s (r.In (nextLocation Local s t)) ∧
        ∀ u : Time L, t.sec < u.sec → u.sec < r.sec →
          ¬ Matches zone s (u.In (nextLocation Local s t))) ∧
    (Next zone Local s t = none →
      ∀ u : Time L, t.sec < u.sec →
        (u.In (nextLocation Local s t)).Year zone ≤
          (t.In (nextLocation Local s t)).Year zone + 5 →
        ¬ Matches zone s (u.In (nextLocation Local s t))) := by
  have hup := upcoming_second (t.In (nextLocation Local s t))
  set loc := nextLocation Local s t with hloc
  set t₁ := (t.In loc).Add (GoTime.Second - (t.In loc).Nanosecond) with ht₁
  have hloc₁ : t₁.loc = loc := rfl
  have hsec₁ : t₁.sec = t.sec + 1 := hup.1
  have habs₁ : t₁.abs zone = t.sec + 1 + zone loc := by
    simp only [Time.abs, hloc₁, hsec₁]
  have habsIn : ∀ u : Time L, (u.In loc).abs zone = u.sec + zone loc := fun _ => rfl
  have hNext : Next zone Local s t =
      (FuelLoop.loop (step zone s loc t.loc (t₁.Year zone + 5)) nextFuel ⟨.wrap, t₁, false⟩).getD
        none := by
    simp only [Next, in_nextLocation]
    rfl
  obtain ⟨r, hrun, hpost⟩ : ∃ r, FuelLoop.loop (step zone s loc t.loc (t₁.Year zone + 5)) nextFuel
      ⟨.wrap, t₁, false⟩ = some r ∧ NextPost zone s loc t.loc (t₁.Year zone + 5) (t₁.abs zone) r :=
    next_loop hzone hloc₁ hup.2
  rw [hNext, hrun, Option.getD_some]
  refine ⟨fun r' hr' => ?_, fun hnone => ?_⟩
  · subst hr'
    obtain ⟨hrloc, hrns, hle, hm, hmin⟩ := hpost
    rw [habs₁, habsIn] at hle
    refine ⟨hrloc, hrns, by omega, hm, fun u h1 h2 => hmin (u.In loc) rfl ?_ ?_⟩
    · rw [habs₁, habsIn]
      omega
    · rw [habsIn, habsIn]
      omega
  · subst hnone
    intro u h1 hyear
    refine hpost (u.In loc) rfl (by rw [habs₁, habsIn]; omega) (yearAt_le_iff.mp ?_)
    have hmono : (t.In loc).Year zone ≤ t₁.Year zone :=
      yearAt_mono (show (t.In loc).abs zone ≤ t₁.abs zone by rw [habs₁, habsIn]; omega)
    exact le_trans hyear (by omega)

/-- The schedule `0 5 * * * *` of the second parser in the location `()`: five past every hour. -/
def fivePast : SpecSchedule Unit :=
  ⟨1#64, 32#64, 0x8000000000ffffff#64, 0x80000000fffffffe#64, 0x8000000000001ffe#64,
    0x800000000000007f#64, ()⟩

theorem next_is_least_match_utc :
    (fun _ : Unit => (0 : Int)) (nextLocation () fivePast ⟨36260, 0, (), by decide⟩) % 60 = 0 ∧
      ∀ u : Time Unit, 36260 < u.sec → u.sec < 36300 →
        ¬ Matches (fun _ => 0) fivePast (u.In ()) :=
  ⟨by decide, fun u h1 h2 =>
    ((next_is_least_match (fun _ => 0) () fivePast ⟨36260, 0, (), by decide⟩ (by decide)).1
      ⟨36300, 0, (), by decide⟩ rfl).2.2.2.2 u h1 h2⟩

deriving instance DecidableEq for ParseError, SpecSchedule, Schedule

/-- At an offset of 30 seconds, `Truncate(time.Minute)` rounds to the half minute of local time:
from 10:04:50 the minute loop goes to 10:05:30 and on to the next five past, 11:05:00, and
`Next` misses 10:05:00. -/
theorem next_misses_match_at_half_minute_offset :
    Parse ⟨(), fun _ => .ok (), fun _ => .ok 0⟩ secondParser
        (GoUtf8.encode "0 5 * * * *".toList) =
        .ok (.ok (.spec fivePast)) ∧
      (Next (fun _ => 30) () fivePast ⟨36260, 0, (), by decide⟩).map Time.sec = some 39870 ∧
      Matches (fun _ => 30) fivePast ⟨36270, 0, (), by decide⟩ :=
  ⟨by decide +kernel, by decide, by decide⟩

end Gkit.Schedule
