import Amm.Crypto.AGammaRamp
import Amm.Proofs.Rounding
import Amm.Proofs.Time
import Amm.Ramp
import Mathlib.Data.Int.ConditionallyCompleteOrder
import Mathlib.Order.Monotone.Defs
import Mathlib.Tactic.Ring

/-!
The course of a ramp. From its start on a parameter glides from its initial to its future value and
then rests there. The amplification of a stable pool rounds the distance it has covered, the two
parameters of a crypto pool their value, but both follow one line and round it in one direction.
Before the start nothing holds a ramp: it goes on backwards along the same line. A ramp whose times
are too far apart has its course as well, but no value can be found on it.
-/

namespace Amm

/-- A value that is `first` at one time and `last` from a later time on, never turns back and is never
outside the range between the two once it has started. -/
structure Glides (value : Time → Int) (first last : Int) (start finish : Time) : Prop where
  starts : value start = first
  ends : ∀ now, finish ≤ now → value now = last
  rises : first ≤ last → Monotone value
  falls : last ≤ first → Antitone value
  within : ∀ now, start ≤ now → min first last ≤ value now ∧ value now ≤ max first last

/-- A value that takes steps in one direction until the finish glides. -/
theorem glides_of_steps {value : Time → Int} {step : Int → Int} {first last : Int}
    {start finish : Time} (apart : start < finish)
    (course : ∀ now, value now = first + step ((min now finish).toInt - start.toInt))
    (still : step 0 = 0) (whole : step (finish.toInt - start.toInt) = last - first)
    (up : first ≤ last → Monotone step) (down : last ≤ first → Antitone step) :
    Glides value first last start finish := by
  have starts : value start = first := by
    rw [course, min_eq_left apart.le, sub_self, still, add_zero]
  have ends : ∀ now, finish ≤ now → value now = last := fun now ended => by
    rw [course, min_eq_right ended, whole, add_sub_cancel]
  have nearer : ∀ earlier later : Time, earlier ≤ later →
      (min earlier finish).toInt - start.toInt ≤ (min later finish).toInt - start.toInt :=
    fun earlier later sooner => Int.sub_le_sub_right
      (Int64.le_iff_toInt_le.mp (min_le_min_right finish sooner)) start.toInt
  have rises : first ≤ last → Monotone value := fun rising earlier later sooner => by
    rw [course, course]
    exact Int.add_le_add_left (up rising (nearer earlier later sooner)) first
  have falls : last ≤ first → Antitone value := fun falling earlier later sooner => by
    rw [course, course]
    exact Int.add_le_add_left (down falling (nearer earlier later sooner)) first
  refine ⟨starts, ends, rises, falls, fun now started => ?_⟩
  -- The value lies between its first and its last one, which it has at some time after now.
  have final : value (max now finish) = last := ends _ (le_max_right now finish)
  rcases le_total first last with rising | falling
  · rw [min_eq_left rising, max_eq_right rising]
    have early := rises rising started
    have late := rises rising (le_max_left now finish)
    rw [starts] at early
    rw [final] at late
    exact ⟨early, late⟩
  · rw [min_eq_right falling, max_eq_left falling]
    have early := falls falling started
    have late := falls falling (le_max_left now finish)
    rw [starts] at early
    rw [final] at late
    exact ⟨late, early⟩

/-- The part of a distance that is covered after `elapsed` of `window`, rounded down. -/
def covered (distance window elapsed : Int) : Int :=
  (distance * elapsed).fdiv window

section
variable {distance window elapsed : Int}

@[simp] theorem covered_at_start : covered distance window 0 = 0 := by
  rw [covered, mul_zero, Int.zero_fdiv]

@[simp] theorem covered_no_distance : covered 0 window elapsed = 0 := by
  rw [covered, zero_mul, Int.zero_fdiv]

theorem covered_window (positive : 0 < window) : covered distance window window = distance :=
  Int.mul_fdiv_cancel distance positive.ne'

theorem covered_mono (positive : 0 < window) (unsigned : 0 ≤ distance) :
    Monotone (covered distance window) := fun _ _ sooner =>
  fdiv_le_fdiv positive (mul_le_mul_of_nonneg_left sooner unsigned)

theorem covered_anti (positive : 0 < window) (negative : distance ≤ 0) :
    Antitone (covered distance window) := fun _ _ sooner =>
  fdiv_le_fdiv positive (mul_le_mul_of_nonpos_left sooner negative)

/-- Before the window is over something of a distance is left. -/
theorem covered_lt (positive : 0 < distance) (running : elapsed < window) (wide : 0 < window) :
    covered distance window elapsed < distance := by
  rw [covered, fdiv_lt_iff wide]
  exact mul_lt_mul_of_pos_left running positive

theorem covered_neg_iff (positive : 0 < window) :
    covered distance window elapsed < 0 ↔ distance * elapsed < 0 := by
  rw [covered, fdiv_lt_iff positive, zero_mul]

theorem covered_eq_zero_iff (positive : 0 < window) :
    covered distance window elapsed = 0 ↔ 0 ≤ distance * elapsed ∧ distance * elapsed < window := by
  have least : 0 ≤ covered distance window elapsed ↔ 0 * window ≤ distance * elapsed :=
    le_fdiv_iff positive
  have most : covered distance window elapsed ≤ 0 ↔ distance * elapsed < (0 + 1) * window :=
    fdiv_le_iff positive
  rw [zero_mul] at least
  rw [zero_add, one_mul] at most
  rw [le_antisymm_iff, least, most, and_comm]

end

namespace Ramp

variable (ramp : Ramp) (now : Time)

/-- The value of a ramp at a time, whether or not the seconds that it is found with are defined. -/
def course : Int :=
  if ramp.futureTime ≤ now then ramp.future
  else if ramp.futureTime.toInt - ramp.initialTime.toInt = 0 then ramp.initial
  else ramp.reached (ramp.futureTime.toInt - ramp.initialTime.toInt)
    (now.toInt - ramp.initialTime.toInt)

/-- The ramp has not ended, and seconds that its value is found with are not defined. -/
def Overflows : Prop :=
  now < ramp.futureTime ∧
    (¬ Time.Fits ramp.initialTime ramp.futureTime ∨
      ramp.initialTime ≠ ramp.futureTime ∧ ¬ Time.Fits ramp.initialTime now)

theorem value_spec :
    ramp.Overflows now ∧ ramp.value now = Priced.abort .timeOverflow ∨
      ¬ ramp.Overflows now ∧ ramp.value now = .ok (ramp.course now) := by
  unfold value course Overflows
  split
  · case isTrue ended => exact .inr ⟨fun overflows => ended.not_gt overflows.1, rfl⟩
  rename_i running
  rw [not_le] at running
  rw [and_iff_right running]
  by_cases whole : Time.Fits ramp.initialTime ramp.futureTime
  · rw [Time.since_of_fits whole, Priced.ok_bind]
    split
    · case isTrue same =>
      refine .inr ⟨?_, rfl⟩
      rintro (far | ⟨apart, -⟩)
      · exact far whole
      · exact apart (Int64.toInt_inj.mp (sub_eq_zero.mp same)).symm
    rename_i different
    have apart : ramp.initialTime ≠ ramp.futureTime := by
      rintro same
      rw [same, sub_self] at different
      exact different rfl
    by_cases part : Time.Fits ramp.initialTime now
    · rw [Time.since_of_fits part, Priced.ok_bind]
      refine .inr ⟨?_, rfl⟩
      rintro (far | ⟨-, far⟩)
      · exact far whole
      · exact far part
    · rw [Time.since_of_not_fits part]
      exact .inl ⟨.inr ⟨apart, part⟩, rfl⟩
  · rw [Time.since_of_not_fits whole]
    exact .inl ⟨.inl whole, rfl⟩

variable {ramp now}

theorem value_eq_ok {value : Int} :
    ramp.value now = .ok value ↔ ¬ ramp.Overflows now ∧ ramp.course now = value := by
  rcases value_spec ramp now with ⟨overflows, aborts⟩ | ⟨fits, found⟩
  · rw [aborts]
    exact iff_of_false (Priced.abort_ne_ok _ _) fun both => both.1 overflows
  · rw [found, Except.ok.injEq, and_iff_right fits]

theorem value_of_overflows (overflows : ramp.Overflows now) :
    ramp.value now = Priced.abort .timeOverflow := by
  rcases value_spec ramp now with ⟨-, aborts⟩ | ⟨fits, -⟩
  · exact aborts
  · exact absurd overflows fits

theorem value_avoids {cause : PoolError} : Priced.Avoids cause (ramp.value now) := by
  rcases value_spec ramp now with ⟨-, aborts⟩ | ⟨-, found⟩
  · rw [aborts]
    exact .abort
  · rw [found]
    exact .value _

/-- From its start on a ramp has a value once it has ended or if its whole window can be counted. -/
theorem overflows_iff (started : ramp.initialTime ≤ now) :
    ramp.Overflows now ↔
      now < ramp.futureTime ∧ ¬ Time.Fits ramp.initialTime ramp.futureTime := by
  constructor
  · rintro ⟨running, far | ⟨-, far⟩⟩
    · exact ⟨running, far⟩
    · exact ⟨running, fun fits => far (fits.of_le started running.le)⟩
  · rintro ⟨running, far⟩
    exact ⟨running, .inl far⟩

/-- A parameter that does not move has its value at every time. -/
@[simp] theorem course_constant (value : Int) : (constant value).course now = value := by
  simp [course, constant]

variable (ramp)

/-- The signed distance from the initial value after some time. The distance covered is rounded down
in both directions. -/
def step (elapsed : Int) : Int :=
  if ramp.initial < ramp.future then
    covered (ramp.future - ramp.initial) (ramp.futureTime.toInt - ramp.initialTime.toInt) elapsed
  else -covered (ramp.initial - ramp.future) (ramp.futureTime.toInt - ramp.initialTime.toInt) elapsed

variable {ramp} (apart : ramp.initialTime < ramp.futureTime)
include apart

theorem step_window :
    ramp.step (ramp.futureTime.toInt - ramp.initialTime.toInt) = ramp.future - ramp.initial := by
  have positive := Time.toInt_sub_pos.mpr apart
  unfold step
  split
  · exact covered_window positive
  · rw [covered_window positive, neg_sub]

theorem course_eq (now : Time) :
    ramp.course now =
      ramp.initial + ramp.step ((min now ramp.futureTime).toInt - ramp.initialTime.toInt) := by
  have nonzero := (Time.toInt_sub_pos.mpr apart).ne'
  rcases le_or_gt ramp.futureTime now with ended | running
  · rw [min_eq_right ended, step_window apart, course, if_pos ended, add_sub_cancel]
  · rw [min_eq_left running.le]
    simp only [course, if_neg (not_le.mpr running), if_neg nonzero, reached, step, covered]
    split
    · rfl
    · exact sub_eq_add_neg _ _

theorem glides : Glides ramp.course ramp.initial ramp.future ramp.initialTime ramp.futureTime := by
  have positive := Time.toInt_sub_pos.mpr apart
  refine glides_of_steps apart (course_eq apart) (by simp [step]) (step_window apart) ?_ ?_
  · intro rising earlier later sooner
    unfold step
    split
    · exact covered_mono positive (by omega) sooner
    · obtain same : ramp.initial - ramp.future = 0 := by omega
      simp [same]
  · intro falling earlier later sooner
    rw [step, step, if_neg (not_lt.mpr falling), if_neg (not_lt.mpr falling)]
    exact neg_le_neg (covered_mono positive (by omega) sooner)

/-- A ramp is inactive exactly from when its value is the final one for good. -/
theorem isActive_eq_false_iff (now : Time) :
    ramp.isActive now = false ↔ ∀ later, now ≤ later → ramp.course later = ramp.future := by
  have positive := Time.toInt_sub_pos.mpr apart
  simp only [isActive, Bool.and_eq_false_iff, decide_eq_false_iff_not, not_lt, not_not]
  constructor
  · rintro (ended | same) later after
    · exact (glides apart).ends later (ended.trans after)
    · rw [course_eq apart, step, if_neg (not_lt.mpr same.ge), same, sub_self, covered_no_distance,
        neg_zero, add_zero]
  · intro final
    by_contra moving
    rw [not_or, not_le] at moving
    obtain ⟨running, different⟩ := moving
    have elapsed : now.toInt - ramp.initialTime.toInt <
        ramp.futureTime.toInt - ramp.initialTime.toInt :=
      Int.sub_lt_sub_right (Int64.lt_iff_toInt_lt.mp running) ramp.initialTime.toInt
    have left := final now le_rfl
    rw [course_eq apart, min_eq_left running.le, step] at left
    rcases lt_or_gt_of_ne different with rising | falling
    · have short := covered_lt (sub_pos.mpr rising) elapsed positive
      rw [if_pos rising] at left
      omega
    · have short := covered_lt (sub_pos.mpr falling) elapsed positive
      rw [if_neg falling.le.not_gt] at left
      omega

/-- Before its start a ramp that moves is on the far side of its initial value. -/
theorem course_before {now : Time} (early : now < ramp.initialTime) :
    (ramp.initial < ramp.future → ramp.course now < ramp.initial) ∧
      (ramp.initial = ramp.future → ramp.course now = ramp.initial) ∧
      (ramp.future < ramp.initial → ramp.initial < ramp.course now) := by
  have positive := Time.toInt_sub_pos.mpr apart
  have elapsed : now.toInt - ramp.initialTime.toInt < 0 :=
    sub_neg.mpr (Int64.lt_iff_toInt_lt.mp early)
  rw [course_eq apart, min_eq_left (early.trans apart).le, step]
  refine ⟨fun rising => ?_, fun same => ?_, fun falling => ?_⟩
  · rw [if_pos rising]
    have behind := (covered_neg_iff positive).mpr (mul_neg_of_pos_of_neg (sub_pos.mpr rising) elapsed)
    omega
  · rw [if_neg same.ge.not_gt, same, sub_self, covered_no_distance, neg_zero, add_zero]
  · rw [if_neg falling.le.not_gt]
    have behind := (covered_neg_iff positive).mpr (mul_neg_of_pos_of_neg (sub_pos.mpr falling) elapsed)
    omega

/-- A ramp from a value that is not negative is below zero before its start if the line that it
follows is. -/
theorem course_neg_iff {now : Time} (early : now < ramp.initialTime) (unsigned : 0 ≤ ramp.initial) :
    ramp.course now < 0 ↔
      ramp.initial * (ramp.futureTime.toInt - ramp.initialTime.toInt) <
        (ramp.future - ramp.initial) * (ramp.initialTime.toInt - now.toInt) := by
  have positive := Time.toInt_sub_pos.mpr apart
  have lead := Time.toInt_sub_pos.mpr early
  rcases lt_or_ge ramp.initial ramp.future with rising | falling
  · rw [course_eq apart, min_eq_left (early.trans apart).le, step, if_pos rising,
      ← lt_neg_iff_add_neg', covered, fdiv_lt_iff positive]
    constructor <;> intro below <;> linarith
  · have above : ramp.initial ≤ ramp.course now := by
      rcases falling.lt_or_eq with falling | same
      · exact ((course_before apart early).2.2 falling).le
      · exact ((course_before apart early).2.1 same.symm).ge
    have whole := mul_nonneg unsigned positive.le
    have back := mul_nonpos_of_nonpos_of_nonneg (sub_nonpos.mpr falling) lead.le
    constructor <;> intro below <;> linarith

end Ramp

namespace Crypto
namespace AGammaRamp

/-- The course of one parameter between two values and two times. -/
def course (start finish : Time) (first last : Int) (now : Time) : Int :=
  first + covered (last - first) (finish.toInt - start.toInt) ((min now finish).toInt - start.toInt)

theorem course_glides {start finish : Time} (apart : start < finish) (first last : Int) :
    Glides (course start finish first last) first last start finish := by
  have positive := Time.toInt_sub_pos.mpr apart
  refine glides_of_steps apart (fun _ => rfl) covered_at_start (covered_window positive) ?_ ?_
  · intro rising
    exact covered_mono positive (sub_nonneg.mpr rising)
  · intro falling
    exact covered_anti positive (sub_nonpos.mpr falling)

/-- Before its start a parameter is at its first value only if it falls, and by less than one unit in
the time that is left. -/
theorem course_before {start finish : Time} (apart : start < finish) (first last : Int) {now : Time}
    (early : now < start) :
    course start finish first last now = first ↔
      last ≤ first ∧ (first - last) * (start.toInt - now.toInt) < finish.toInt - start.toInt := by
  have positive := Time.toInt_sub_pos.mpr apart
  have lead := Time.toInt_sub_pos.mpr early
  have turned : (last - first) * (now.toInt - start.toInt) =
      (first - last) * (start.toInt - now.toInt) := by ring
  have falling : 0 ≤ (first - last) * (start.toInt - now.toInt) ↔ last ≤ first := by
    rw [mul_nonneg_iff_of_pos_right lead, sub_nonneg]
  rw [course, min_eq_left (early.trans apart).le, add_eq_left, covered_eq_zero_iff positive, turned,
    falling]

theorem between_eq {window : Int} (positive : 0 < window) (first last elapsed : Int) :
    between first last window elapsed = .ok (first + covered (last - first) window elapsed) := by
  rw [between, Priced.quotient_eq_ok, covered]
  refine ⟨positive.ne', ?_⟩
  calc (first * (window - elapsed) + last * elapsed).fdiv window
      = ((last - first) * elapsed + first * window).fdiv window := by ring_nf
    _ = ((last - first) * elapsed).fdiv window + first :=
        Int.add_mul_fdiv_right _ _ positive.ne'
    _ = first + ((last - first) * elapsed).fdiv window := add_comm _ _

variable (ramp : AGammaRamp) (now : Time)

/-- The ramp has not ended, and seconds that its values are found with are not defined. -/
def Overflows : Prop :=
  now < ramp.futureTime ∧
    ¬ (Time.Fits ramp.initialTime ramp.futureTime ∧ Time.Fits ramp.initialTime now)

variable {ramp now}

theorem shape_of_overflows (overflows : ramp.Overflows now) :
    ramp.shape now = Priced.abort .timeOverflow := by
  obtain ⟨running, far⟩ := overflows
  rw [shape, if_pos running]
  by_cases whole : Time.Fits ramp.initialTime ramp.futureTime
  · rw [Time.since_of_fits whole, Priced.ok_bind,
      Time.since_of_not_fits fun part => far ⟨whole, part⟩]
    rfl
  · rw [Time.since_of_not_fits whole]
    rfl

/-- From its start on a ramp has values once it has ended or if its whole window can be counted. -/
theorem overflows_iff (started : ramp.initialTime ≤ now) :
    ramp.Overflows now ↔
      now < ramp.futureTime ∧ ¬ Time.Fits ramp.initialTime ramp.futureTime := by
  constructor
  · rintro ⟨running, far⟩
    exact ⟨running, fun whole => far ⟨whole, whole.of_le started running.le⟩⟩
  · rintro ⟨running, far⟩
    exact ⟨running, fun both => far both.1⟩

/-- Each parameter has a value where the seconds are defined, on a course that the other one has no
part in. -/
theorem shape_eq (apart : ramp.initialTime < ramp.futureTime) (fits : ¬ ramp.Overflows now) :
    ramp.shape now = .ok
      ⟨course ramp.initialTime ramp.futureTime (Shape.ofWord ramp.initial).ann
          (Shape.ofWord ramp.future).ann now,
        course ramp.initialTime ramp.futureTime (Shape.ofWord ramp.initial).gamma
          (Shape.ofWord ramp.future).gamma now⟩ := by
  have positive := Time.toInt_sub_pos.mpr apart
  rcases le_or_gt ramp.futureTime now with ended | running
  · rw [shape, if_neg (not_lt.mpr ended), (course_glides apart _ _).ends now ended,
      (course_glides apart _ _).ends now ended]
  · obtain ⟨whole, part⟩ := not_not.mp (not_and.mp fits running)
    simp only [shape, if_pos running, Time.since_of_fits whole, Time.since_of_fits part,
      between_eq positive, Priced.ok_bind, course, min_eq_left running.le]

end AGammaRamp
end Crypto

/-- The amplification of a stable pool has a course that glides from its initial to its future value,
and the ramp is inactive exactly from when it is there for good. Both parameters of a crypto pool
have such a course as well, each one that a ramp of the same times shares if it has the same end
points of this parameter, whatever it does with the other one. A pool is on its course once the ramp
has ended, and while it lasts exactly if its whole window can be counted in 64 bits. -/
theorem ramps_glide_unless_too_long (ramp : Ramp) (pair : Crypto.AGammaRamp) :
    (ramp.initialTime < ramp.futureTime →
      ∃ course : Time → Int,
        (∀ now, ramp.initialTime ≤ now → ramp.value now =
          if ramp.futureTime ≤ now ∨ Time.Fits ramp.initialTime ramp.futureTime then
            .ok (course now)
          else Priced.abort .timeOverflow) ∧
        Glides course ramp.initial ramp.future ramp.initialTime ramp.futureTime ∧
        ∀ now, ramp.isActive now = false ↔
          ∀ later, now ≤ later → course later = ramp.future) ∧
    (pair.initialTime < pair.futureTime →
      ∃ ann gamma : Time → Int,
        (∀ now, pair.initialTime ≤ now → pair.shape now =
          if pair.futureTime ≤ now ∨ Time.Fits pair.initialTime pair.futureTime then
            .ok ⟨ann now, gamma now⟩
          else Priced.abort .timeOverflow) ∧
        Glides ann (Crypto.Shape.ofWord pair.initial).ann (Crypto.Shape.ofWord pair.future).ann
          pair.initialTime pair.futureTime ∧
        Glides gamma (Crypto.Shape.ofWord pair.initial).gamma
          (Crypto.Shape.ofWord pair.future).gamma pair.initialTime pair.futureTime ∧
        ∀ other : Crypto.AGammaRamp, other.initialTime = pair.initialTime →
          other.futureTime = pair.futureTime → ∀ now shape, other.shape now = .ok shape →
            ((Crypto.Shape.ofWord other.initial).ann = (Crypto.Shape.ofWord pair.initial).ann →
              (Crypto.Shape.ofWord other.future).ann = (Crypto.Shape.ofWord pair.future).ann →
              shape.ann = ann now) ∧
            ((Crypto.Shape.ofWord other.initial).gamma = (Crypto.Shape.ofWord pair.initial).gamma →
              (Crypto.Shape.ofWord other.future).gamma = (Crypto.Shape.ofWord pair.future).gamma →
              shape.gamma = gamma now)) := by
  constructor
  · intro apart
    refine ⟨ramp.course, ?_, Ramp.glides apart, Ramp.isActive_eq_false_iff apart⟩
    intro now started
    have exactly := Ramp.overflows_iff started
    split
    · case isTrue counted =>
      exact Ramp.value_eq_ok.mpr ⟨fun overflows => (exactly.mp overflows).elim
        fun running far => counted.elim running.not_ge far, rfl⟩
    · case isFalse far =>
      rw [not_or, not_le] at far
      exact Ramp.value_of_overflows (exactly.mpr far)
  · intro apart
    refine ⟨_, _, ?_, Crypto.AGammaRamp.course_glides apart _ _,
      Crypto.AGammaRamp.course_glides apart _ _, ?_⟩
    · intro now started
      have exactly := Crypto.AGammaRamp.overflows_iff started
      split
      · case isTrue counted =>
        exact Crypto.AGammaRamp.shape_eq apart fun overflows => (exactly.mp overflows).elim
          fun running far => counted.elim running.not_ge far
      · case isFalse far =>
        rw [not_or, not_le] at far
        exact Crypto.AGammaRamp.shape_of_overflows (exactly.mpr far)
    · intro other starts finishes now shape found
      have apart' : other.initialTime < other.futureTime := by rwa [starts, finishes]
      have fits : ¬ other.Overflows now := fun overflows =>
        Priced.abort_ne_ok _ _ ((Crypto.AGammaRamp.shape_of_overflows overflows).symm.trans found)
      rw [Crypto.AGammaRamp.shape_eq apart' fits, Except.ok.injEq] at found
      subst found
      constructor
      · intro first last
        rw [starts, finishes, first, last]
      · intro first last
        rw [starts, finishes, first, last]

/-- A falling amplification, and a crypto pool whose amplification rises while its gamma falls. -/
theorem opposite_ramps_glide :
    (∃ course : Time → Int,
      (∀ now, 1000 ≤ now → Ramp.value ⟨5000, 2000, 1000, 2000⟩ now = .ok (course now)) ∧
      Glides course 5000 2000 1000 2000 ∧ ∀ later, 2000 ≤ later → course later = 2000) ∧
    ∃ ann gamma : Time → Int,
      (∀ now, 1000 ≤ now → Crypto.AGammaRamp.shape
        ⟨Lanes.pack [145000000000000, 200000], Lanes.pack [1000000000000, 400000], 1000, 2000⟩ now =
          .ok ⟨ann now, gamma now⟩) ∧
      Glides ann 200000 400000 1000 2000 ∧ Glides gamma 145000000000000 1000000000000 1000 2000 := by
  obtain ⟨single, double⟩ := ramps_glide_unless_too_long ⟨5000, 2000, 1000, 2000⟩
    ⟨Lanes.pack [145000000000000, 200000], Lanes.pack [1000000000000, 400000], 1000, 2000⟩
  obtain ⟨course, found, glides, inactive⟩ := single (by decide)
  obtain ⟨ann, gamma, shaped, rises, falls, -⟩ := double (by decide)
  have short : Time.Fits 1000 2000 := by decide
  refine ⟨⟨course, fun now started => (found now started).trans (if_pos (.inr short)), glides,
    (inactive 2000).mp (by decide)⟩, ann, gamma,
    fun now started => (shaped now started).trans (if_pos (.inr short)), rises, falls⟩

/-- A ramp over half of all times has no value ten minutes into 1970, when it is half way. -/
theorem longest_ramps_not_found :
    (¬ ∀ ramp : Ramp, ramp.initialTime < ramp.futureTime → ∀ now, ramp.initialTime ≤ now →
      ∃ value, ramp.value now = .ok value ∧ min ramp.initial ramp.future ≤ value ∧
        value ≤ max ramp.initial ramp.future) ∧
    ¬ ∀ ramp : Crypto.AGammaRamp, ramp.initialTime < ramp.futureTime →
      ∀ now, ramp.initialTime ≤ now → ∃ shape, ramp.shape now = .ok shape := by
  constructor
  · intro found
    obtain ⟨value, valued, -⟩ := found
      ⟨300000, 499998, -4611686018427387904, 4611686018427387904⟩ (by decide) 600 (by decide)
    exact Priced.abort_ne_ok .timeOverflow value valued
  · intro found
    obtain ⟨shape, shaped⟩ := found ⟨Lanes.pack [145000000000000, 200000],
      Lanes.pack [145000000000000, 400000], -4611686018427387904, 4611686018427387904⟩
      (by decide) 600 (by decide)
    exact Priced.abort_ne_ok .timeOverflow shape shaped

/-- Before its start, where the seconds to and in its window are defined, a stable pool's ramp is at
its initial value exactly if it does not move. If it rises it is below, far enough before the start
below zero, and if it falls it is above. A parameter of a crypto pool is at its initial value exactly
if it falls, or stays, by less than one unit in as much time. Where they are not defined neither pool
has a value. -/
theorem before_start_iff (now : Time) :
    (∀ ramp : Ramp, ramp.initialTime < ramp.futureTime → now < ramp.initialTime →
      if Time.Fits ramp.initialTime ramp.futureTime ∧ Time.Fits ramp.initialTime now then
        ∃ value, ramp.value now = .ok value ∧
          (value = ramp.initial ↔ ramp.initial = ramp.future) ∧
          (ramp.initial < ramp.future → value < ramp.initial) ∧
          (ramp.future < ramp.initial → ramp.initial < value) ∧
          (0 ≤ ramp.initial → (value < 0 ↔
            ramp.initial * (ramp.futureTime.toInt - ramp.initialTime.toInt) <
              (ramp.future - ramp.initial) * (ramp.initialTime.toInt - now.toInt)))
      else ramp.value now = Priced.abort .timeOverflow) ∧
    ∀ ramp : Crypto.AGammaRamp, ramp.initialTime < ramp.futureTime → now < ramp.initialTime →
      if Time.Fits ramp.initialTime ramp.futureTime ∧ Time.Fits ramp.initialTime now then
        ∃ shape, ramp.shape now = .ok shape ∧
          (shape.ann = (Crypto.Shape.ofWord ramp.initial).ann ↔
            (Crypto.Shape.ofWord ramp.future).ann ≤ (Crypto.Shape.ofWord ramp.initial).ann ∧
              ((Crypto.Shape.ofWord ramp.initial).ann - (Crypto.Shape.ofWord ramp.future).ann) *
                (ramp.initialTime.toInt - now.toInt) <
                ramp.futureTime.toInt - ramp.initialTime.toInt) ∧
          (shape.gamma = (Crypto.Shape.ofWord ramp.initial).gamma ↔
            (Crypto.Shape.ofWord ramp.future).gamma ≤ (Crypto.Shape.ofWord ramp.initial).gamma ∧
              ((Crypto.Shape.ofWord ramp.initial).gamma -
                  (Crypto.Shape.ofWord ramp.future).gamma) *
                (ramp.initialTime.toInt - now.toInt) <
                ramp.futureTime.toInt - ramp.initialTime.toInt)
      else ramp.shape now = Priced.abort .timeOverflow := by
  constructor
  · intro ramp apart early
    have running : now < ramp.futureTime := early.trans apart
    split
    · case isTrue fits =>
      have found : ramp.value now = .ok (ramp.course now) := by
        refine Ramp.value_eq_ok.mpr ⟨?_, rfl⟩
        rintro ⟨-, far | ⟨-, far⟩⟩
        · exact far fits.1
        · exact far fits.2
      obtain ⟨rising, still, falling⟩ := Ramp.course_before apart early
      refine ⟨_, found, ⟨fun held => ?_, still⟩, rising, falling, Ramp.course_neg_iff apart early⟩
      by_contra moving
      rcases lt_or_gt_of_ne moving with up | down
      · exact (rising up).ne held
      · exact (falling down).ne' held
    · case isFalse far =>
      rw [not_and_or] at far
      exact Ramp.value_of_overflows ⟨running, far.imp_right (And.intro apart.ne)⟩
  · intro ramp apart early
    have running : now < ramp.futureTime := early.trans apart
    split
    · case isTrue fits =>
      exact ⟨_, Crypto.AGammaRamp.shape_eq apart fun overflows => overflows.2 fits,
        Crypto.AGammaRamp.course_before apart _ _ early,
        Crypto.AGammaRamp.course_before apart _ _ early⟩
    · case isFalse far =>
      exact Crypto.AGammaRamp.shape_of_overflows ⟨running, far⟩

/-- One window and a half before its start, a doubling amplification is below zero. One second before,
the amplification of a crypto pool is not the initial one, while its gamma, which stays, is. -/
theorem early_ramps_move :
    (∃ value, Ramp.value ⟨100, 200, 1000, 2000⟩ (-500) = .ok value ∧ value < 0) ∧
    ∃ shape, Crypto.AGammaRamp.shape
        ⟨Lanes.pack [145000000000000, 200000], Lanes.pack [145000000000000, 400000], 1000, 2000⟩ 999 =
          .ok shape ∧ shape.ann ≠ 200000 ∧ shape.gamma = 145000000000000 := by
  have early := (before_start_iff (-500)).1 ⟨100, 200, 1000, 2000⟩ (by decide) (by decide)
  rw [if_pos (by decide)] at early
  obtain ⟨value, found, -, -, -, negative⟩ := early
  have soon := (before_start_iff 999).2
    ⟨Lanes.pack [145000000000000, 200000], Lanes.pack [145000000000000, 400000], 1000, 2000⟩
    (by decide) (by decide)
  rw [if_pos (by decide)] at soon
  obtain ⟨shape, shaped, amplification, gamma⟩ := soon
  exact ⟨⟨value, found, (negative (by decide)).mpr (by decide)⟩, shape, shaped,
    fun held => absurd (amplification.mp held) (by decide), gamma.mpr (by decide)⟩

/-- Half a window before its start a ramp is not at its initial value. -/
theorem ramps_not_held_before_start :
    (¬ ∀ ramp : Ramp, ramp.initialTime < ramp.futureTime → ∀ now < ramp.initialTime,
      ramp.value now = .ok ramp.initial) ∧
    ¬ ∀ ramp : Crypto.AGammaRamp, ramp.initialTime < ramp.futureTime → ∀ now < ramp.initialTime,
      ramp.shape now = .ok (Crypto.Shape.ofWord ramp.initial) := by
  constructor
  · intro held
    have still := held ⟨100, 200, 1000, 2000⟩ (by decide) 500 (by decide)
    exact absurd still (by decide)
  · intro held
    have still := held
      ⟨Lanes.pack [145000000000000, 200000], Lanes.pack [145000000000000, 400000], 1000, 2000⟩
      (by decide) 500 (by decide)
    exact absurd still (by decide)

end Amm
