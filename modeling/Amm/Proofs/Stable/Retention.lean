import Amm.Proofs.Stable.Comparison
import Amm.Proofs.Stable.Swap

/-!
What a swap leaves of the invariant. The balance that is left of the bought token completes the others
to a pool in which the equation allows the old invariant, but for what the solver has rounded, so the
new invariant is lower by no more than that, measured against the slope of the equation. A swap that
takes nothing lowers no balance, and the invariant can fall only by what it stood above its equation.
-/

namespace Amm
namespace Stable

namespace Curve

variable {curve : Curve} {xp xp' : List Int} {d d' e : Int}

/-- What the solver may lose of the invariant, in units of the equation: one unit, and the drift of
the product of the other balances. -/
def completionLoss (d : Int) (xp : List Int) (j : Nat) : ℚ :=
  1 + drift (· * xp.length) d 0 (xp.eraseIdx j) * (d / (xp.getD j 0 * xp.length : Int))

/-- What the invariant may stand above its equation, in units of the equation. -/
def overshoot (curve : Curve) (d : Int) (xp : List Int) : ℚ :=
  1 + (1 + 2 * (xp.length + 1) ^ 2 / d) * spread (curve.divisor xp.length) (d + 1) xp

/-- Balances that exceed a solved one and the others it was solved for have an invariant that falls
short of the one it was solved for by no more than the solver has lost. -/
theorem sub_le_invariant_of_solve {y : Int} {j : Nat} (admissible : curve.Admissible xp.length)
    (positive : ∀ x ∈ xp, 0 < x) (bound : j < xp.length) (start : 0 ≤ d)
    (solved : curve.solve xp.length d (xp.eraseIdx j) = .ok y) (above : y < xp[j])
    (below : List.Forall₂ (· ≤ ·) xp xp') (computed : curve.invariant xp' = .ok d') (k : Nat)
    (covered : completionLoss d xp j ≤
      k * max ((curve.plain.equation xp').leverage + xp'.length)
        ((curve.plain.equation xp').slope (d - k))) :
    d - k ≤ d' := by
  have positive' : ∀ x ∈ xp', 0 < x := le_of_forall₂ below positive
  have unsigned' : ∀ x ∈ xp', 0 ≤ x := fun x member => (positive' x member).le
  have admissible' : curve.Admissible xp'.length := below.length_eq ▸ admissible
  have some : xp' ≠ [] := List.ne_nil_of_length_pos (by rw [← below.length_eq]; omega)
  have present : total xp' ≠ 0 := (total_pos some positive').ne'
  by_contra short
  have origin : 0 ≤ d - k := by
    have := invariant_nonneg admissible' unsigned' computed
    omega
  have cast : (0 : ℚ) ≤ d - k := by exact_mod_cast origin
  have sound := plain_sound admissible' positive'
  -- The equation for the balances that are there does not allow `d - k`, ...
  have passed : curve.weighted xp' < (curve.plain.equation xp').level ((d - k : Int) : ℚ) :=
    (weighted_lt_level admissible' unsigned' present origin computed (not_le.mp short)).trans_le
      (level_le_plain admissible' positive' origin)
  have steep := max_le (leverage_add_le_slope admissible' positive' origin passed) (le_refl _)
  push_cast at passed steep
  -- ... but it allows `d` within what the solver has lost.
  have solvedLevel := plain_level_lt admissible bound start
    (fun x member => (positive x (List.mem_of_mem_eraseIdx member)).le) solved above
    (positive _ (List.getElem_mem bound))
  have compared := level_le_of_forall₂ (plain_sound admissible positive) below
    (fun x member => by
      rw [plain_divisor]
      exact mul_pos (positive x member) (by omega)) start
  have weighted := weighted_le_of_forall₂ admissible below
  have tangent := Equation.tangent_le_level sound cast (show (0 : ℚ) ≤ d by exact_mod_cast start)
  have rounded := leverage_mul_total_lt curve.plain xp admissible.precision
  have factor := mul_le_mul_of_nonneg_left steep (show (0 : ℚ) ≤ k by positivity)
  rw [completionLoss, List.getD_eq_getElem?_getD, List.getElem?_eq_getElem bound,
    Option.getD_some] at covered
  have chain : (curve.plain.equation xp').slope (d - k) * (d - (d - k)) <
      1 + drift (· * xp.length) d 0 (xp.eraseIdx j) * (d / (xp[j] * xp.length : Int)) := by
    have order : (curve.plain.weighted xp : ℚ) ≤ curve.weighted xp' := by exact_mod_cast weighted
    linarith
  rw [sub_sub_cancel, mul_comm] at chain
  linarith

/-- The equation allows what is below the invariant by enough to cover its overshoot. -/
theorem level_le_weighted_of_overshoot (admissible : curve.Admissible xp.length)
    (unsigned : ∀ x ∈ xp, 0 ≤ x) (present : total xp ≠ 0) (computed : curve.invariant xp = .ok d)
    (k : Nat) (origin : 0 ≤ d - k)
    (covered : curve.overshoot d xp ≤ k * (curve.equation xp).slope (d - k)) :
    (curve.equation xp).level ((d - k : Int) : ℚ) ≤ curve.weighted xp := by
  obtain ⟨_, _, _, settled⟩ := settled_of_invariant admissible unsigned present computed
  by_contra above
  have loss : 0 < curve.overshoot d xp := by
    have result : (0 : ℚ) ≤ d := by exact_mod_cast (show 0 ≤ d by omega)
    have lost := one_le_spread (show (0 : ℚ) ≤ d + 1 by positivity) settled.divisors
    unfold overshoot
    positivity
  have steps : 0 < k := by
    rcases k.eq_zero_or_pos with rfl | some
    · rw [Nat.cast_zero, zero_mul] at covered
      linarith
    · exact some
  have bound := overshoot_lt admissible unsigned present origin (by omega) (not_le.mp above) computed
  rw [← overshoot] at bound
  push_cast at bound
  rw [sub_sub_cancel] at bound
  linarith

/-- Where no balance falls, the invariant falls by no more than it stood above its equation. -/
theorem sub_le_invariant_of_forall₂ (admissible : curve.Admissible xp.length)
    (unsigned : ∀ x ∈ xp, 0 ≤ x) (below : List.Forall₂ (· ≤ ·) xp xp')
    (before : curve.invariant xp = .ok d) (after : curve.invariant xp' = .ok d') (k : Nat)
    (covered : curve.overshoot d xp ≤ k * (curve.equation xp).slope (d - k)) : d - k ≤ d' := by
  have unsigned' := le_of_forall₂ below unsigned
  have admissible' : curve.Admissible xp'.length := below.length_eq ▸ admissible
  rcases lt_or_ge d k with fallen | origin
  · have nonneg := invariant_nonneg admissible' unsigned' after
    omega
  rcases eq_or_ne (total xp) 0 with empty | present
  · obtain rfl : 0 = d := by simpa [invariant, empty] using before
    have nonneg := invariant_nonneg admissible' unsigned' after
    omega
  have grown : total xp ≤ total xp' := by
    rw [total_eq_sum, total_eq_sum]
    exact below.sum_le_sum
  have present' : total xp' ≠ 0 := by
    have := (total_nonneg unsigned).lt_of_ne present.symm
    omega
  obtain ⟨_, _, _, settled⟩ := settled_of_invariant admissible unsigned present before
  have start : 0 ≤ d - k := by omega
  have allowed := level_le_weighted_of_overshoot admissible unsigned present before k start covered
  have compared := level_le_of_forall₂ settled.sound below settled.divisors start
  have weighted : (curve.weighted xp : ℚ) ≤ curve.weighted xp' := by
    exact_mod_cast weighted_le_of_forall₂ admissible below
  exact le_invariant admissible' unsigned' present' start
    (compared.trans (allowed.trans weighted)) after

end Curve
/-- The scaled balances once `dx` of token `i` has been sold and `left` stays of token `j`. -/
def sale (xp rates : List Int) (i j : Nat) (dx left : Int) : List Int :=
  (xp.set i (xp.getD i 0 + (dx * rates.getD i 0).fdiv Fixed.one)).set j left

section
variable {xp rates : List Int} {i j : Nat} {dx left : Int}

@[simp] theorem sale_length : (sale xp rates i j dx left).length = xp.length := by
  rw [sale, List.length_set, List.length_set]

theorem sale_eraseIdx {balance rate : Int} (balanceAt : xp[i]? = some balance)
    (rateAt : rates[i]? = some rate) :
    (sale xp rates i j dx left).eraseIdx j =
      (xp.set i (balance + (dx * rate).fdiv Fixed.one)).eraseIdx j := by
  rw [sale, List.eraseIdx_set_eq, List.getD_eq_getElem?_getD, balanceAt, Option.getD_some,
    List.getD_eq_getElem?_getD, rateAt, Option.getD_some]

theorem sale_nonneg (unsigned : ∀ x ∈ xp, 0 ≤ x) (positive : ∀ rate ∈ rates, 0 < rate)
    (sold : 0 ≤ dx) (boundIn : i < xp.length) (count : rates.length = xp.length) :
    ∀ x ∈ (sale xp rates i j dx left).eraseIdx j, 0 ≤ x := by
  have boundRate : i < rates.length := count ▸ boundIn
  rw [sale_eraseIdx (List.getElem?_eq_getElem boundIn) (List.getElem?_eq_getElem boundRate)]
  exact Curve.remaining_nonneg unsigned (add_nonneg (unsigned _ (List.getElem_mem boundIn))
    (Int.fdiv_nonneg (mul_nonneg sold (positive _ (List.getElem_mem boundRate)).le)
      Fixed.one_pos.le))

theorem sale_getElem (bound : j < (sale xp rates i j dx left).length) :
    (sale xp rates i j dx left)[j] = left :=
  List.getElem_set_self _

theorem mem_sale {x : Int} (bound : j < (sale xp rates i j dx left).length) :
    x ∈ sale xp rates i j dx left ↔ x = left ∨ x ∈ (sale xp rates i j dx left).eraseIdx j := by
  rw [← (List.getElem_cons_eraseIdx_perm bound).mem_iff, List.mem_cons, sale_getElem bound]

end

/-- After a sale that leaves more than the solved balance, the invariant falls by no more than the
solver has lost. -/
theorem Curve.sub_le_invariant_of_sale {curve : Curve} {xp' : List Int} {d d' y z : Int}
    (admissible : curve.Admissible xp.length) (bound : j < xp.length) (start : 0 ≤ d)
    (unsigned : ∀ x ∈ (sale xp rates i j dx z).eraseIdx j, 0 ≤ x)
    (solved : curve.solve xp.length d ((sale xp rates i j dx z).eraseIdx j) = .ok y) (kept : y < z)
    (moved : List.Forall₂ (· ≤ ·) (sale xp rates i j dx z) xp')
    (computed : curve.invariant xp' = .ok d') (k : Nat)
    (covered : completionLoss d (sale xp rates i j dx z) j ≤
      k * max ((curve.plain.equation xp').leverage + xp'.length)
        ((curve.plain.equation xp').slope (d - k))) :
    d - k ≤ d' := by
  have present := solve_present admissible (Int.natCast_nonneg _) start unsigned solved
  have least := solve_nonneg admissible (Int.natCast_nonneg _) start unsigned solved
  have length : (sale xp rates i j dx z).length = xp.length := sale_length
  rw [← length] at admissible bound solved
  refine sub_le_invariant_of_solve admissible (fun x member => ?_) bound start solved
    (by rw [sale_getElem]; exact kept) moved computed k covered
  rcases (mem_sale bound).mp member with rfl | other
  · omega
  · exact (unsigned x other).lt_of_ne (present x other).symm

/-- Where something is taken, the balance that is left exceeds the solved one. -/
theorem SwapAmounts.lt_left {dy swapFee adminFee rate reserve y : Int} (positive : 0 < rate)
    (swap : IsFee swapFee) (admin : IsFee adminFee)
    (difference : dy = (reserve * rate).fdiv Fixed.one - y - 1)
    (taken : 0 < (ofDifference dy swapFee rate).out +
      (ofDifference dy swapFee rate).adminPart adminFee rate) :
    y < ((reserve - (ofDifference dy swapFee rate).out -
      (ofDifference dy swapFee rate).adminPart adminFee rate) * rate).fdiv Fixed.one := by
  have whole : (ofDifference dy swapFee rate).out +
      (ofDifference dy swapFee rate).adminPart adminFee rate ≤
        (max dy 0 * Fixed.one).fdiv rate := ofDifference_taken_le positive swap admin
  have bound := (le_fdiv_iff positive).mp whole
  have gain : 0 < dy := by
    by_contra loss
    rw [max_eq_right (not_lt.mp loss), zero_mul] at bound
    exact absurd (mul_pos taken positive) (not_lt.mpr bound)
  rw [max_eq_left gain.le] at bound
  have scaledReserve : (dy + (y + 1)) * Fixed.one ≤ reserve * rate :=
    (le_fdiv_iff Fixed.one_pos).mp (by omega)
  rw [← Int.add_one_le_iff, le_fdiv_iff Fixed.one_pos]
  linarith

namespace Holdings

variable {holdings next : Holdings} {rates xp xp' : List Int} {now : Time} {i j : Nat}
  {dx out d d' : Int}

/-- An exchange solves for the balance of the bought token after the sale. Where it takes something from
the reserve of this token, what is left exceeds the solved balance. -/
theorem exchange_solved (admissible : holdings.Admissible rates now)
    (scale : scaled holdings.reserves rates = .ok xp)
    (found : (holdings.curve now).invariant xp = .ok d)
    (exchanged : holdings.exchange i j dx rates now = .ok (out, next)) :
    ∃ reserve rate remaining y, holdings.reserves[j]? = some reserve ∧ rates[j]? = some rate ∧
      next = { holdings with reserves := (holdings.reserves.modify i (· + dx)).set j remaining } ∧
      i < xp.length ∧ j < xp.length ∧
      (∀ left, (holdings.curve now).solve xp.length d ((sale xp rates i j dx left).eraseIdx j) =
        .ok y) ∧
      (remaining < reserve → y < (remaining * rate).fdiv Fixed.one) := by
  simp only [exchange, Priced.bind_eq_ok, Priced.entry_eq_ok, Priced.bareQuotient_eq_ok,
    Except.ok.injEq, Prod.mk.injEq] at exchanged
  obtain ⟨amounts, computed, rate, rateAt, _, ⟨-, rfl⟩, reserve, reserveAt, _, -, -, rfl⟩ := exchanged
  obtain ⟨_, balanceIn, rateIn, y, _, _, scale', balanceInAt, rateInAt, solved, reserveAt', rateAt',
    -, -, same⟩ := swapAmounts_eq_ok computed
  obtain rfl := Except.ok.inj (scale.symm.trans scale')
  obtain rfl := Option.some.inj (rateAt.symm.trans rateAt')
  obtain rfl := Option.some.inj (reserveAt.symm.trans reserveAt')
  obtain ⟨-, boundIn, boundOut, _, found', solved⟩ := Curve.balanceAfter_eq_ok solved
  obtain rfl := Except.ok.inj (found.symm.trans found')
  refine ⟨reserve, rate, _, y, reserveAt, rateAt, rfl, boundIn, boundOut, fun left => ?_,
    fun taken => ?_⟩
  · rw [sale_eraseIdx balanceInAt rateInAt]
    exact solved
  · rw [← SwapAmounts.adminPart, same] at taken ⊢
    exact SwapAmounts.lt_left (admissible.rates rate (List.mem_of_getElem? rateAt))
      admissible.swapFee admissible.adminFee rfl (by omega)

/-- A sale moves the scaled balances up to rounding in favour of the pool. -/
theorem sale_forall₂ {reserves : List Int} {remaining : Int} (before : scaled reserves rates = .ok xp)
    (after : scaled ((reserves.modify i (· + dx)).set j remaining) rates = .ok xp') :
    List.Forall₂ (· ≤ ·) (sale xp rates i j dx (xp'.getD j 0)) xp' := by
  obtain ⟨count, rfl⟩ := scaled_eq_ok before
  obtain ⟨-, rfl⟩ := scaled_eq_ok after
  rw [List.forall₂_iff_get]
  refine ⟨by simp [sale], fun m first second => ?_⟩
  have inReserves : m < reserves.length := by simpa [sale, ← count] using first
  have inRates : m < rates.length := count ▸ inReserves
  rw [List.get_eq_getElem, List.get_eq_getElem]
  simp only [sale, List.getElem_set, List.getElem_zipWith, List.getElem_modify,
    List.getD_eq_getElem?_getD]
  by_cases bought : j = m
  · subst bought
    rw [if_pos rfl, if_pos rfl, List.getElem?_eq_getElem second, Option.getD_some,
      List.getElem_zipWith, List.getElem_set_self]
  · rw [if_neg bought, if_neg bought]
    by_cases sold : i = m
    · subst sold
      rw [if_pos rfl, if_pos rfl, List.getElem?_eq_getElem inRates, Option.getD_some,
        List.getElem?_eq_getElem (by simpa [← count] using inReserves), Option.getD_some,
        List.getElem_zipWith, add_mul]
      exact fdiv_add_fdiv_le Fixed.one_pos
    · rw [if_neg sold, if_neg sold]

/-- Where the reserve of the bought token does not fall, no scaled balance falls. -/
theorem scaled_forall₂ {reserves : List Int} {remaining : Int}
    (positive : ∀ rate ∈ rates, 0 < rate) (sold : 0 ≤ dx) (kept : reserves.getD j 0 ≤ remaining)
    (before : scaled reserves rates = .ok xp)
    (after : scaled ((reserves.modify i (· + dx)).set j remaining) rates = .ok xp') :
    List.Forall₂ (· ≤ ·) xp xp' := by
  obtain ⟨count, rfl⟩ := scaled_eq_ok before
  obtain ⟨-, rfl⟩ := scaled_eq_ok after
  rw [List.forall₂_iff_get]
  refine ⟨by simp, fun m first second => ?_⟩
  have inReserves : m < reserves.length := by simpa [← count] using first
  have inRates : m < rates.length := count ▸ inReserves
  rw [List.get_eq_getElem, List.get_eq_getElem, List.getElem_zipWith, List.getElem_zipWith]
  refine fdiv_le_fdiv Fixed.one_pos (mul_le_mul_of_nonneg_right ?_
    (positive _ (List.getElem_mem inRates)).le)
  rw [List.getElem_set, List.getElem_modify]
  by_cases bought : j = m
  · subst bought
    rw [List.getD_eq_getElem?_getD, List.getElem?_eq_getElem inReserves, Option.getD_some] at kept
    rw [if_pos rfl]
    exact kept
  · rw [if_neg bought]
    split <;> omega

/-- A swap keeps the invariant up to rounding. Where it takes something from the reserve of the bought
token, the new invariant is not below the old one by more units than cover what the solver has lost,
each worth the slope of the equation for the balances afterwards, and not less than its slope for
equal balances. Where it takes nothing, the units cover what the old invariant stood above its own
equation. -/
theorem exchange_keeps_invariant (unsigned : ∀ reserve ∈ holdings.reserves, 0 ≤ reserve)
    (admissible : holdings.Admissible rates now) (sold : 0 ≤ dx)
    (exchanged : holdings.exchange i j dx rates now = .ok (out, next))
    (before : holdings.invariant holdings.reserves rates now = .ok d)
    (after : next.invariant next.reserves rates now = .ok d') :
    ∃ xp xp', scaled holdings.reserves rates = .ok xp ∧ scaled next.reserves rates = .ok xp' ∧
      (next.reserves.getD j 0 < holdings.reserves.getD j 0 → ∀ k : Nat,
        Curve.completionLoss d (sale xp rates i j dx (xp'.getD j 0)) j ≤
          k * max (((holdings.curve now).plain.equation xp').leverage + xp'.length)
            (((holdings.curve now).plain.equation xp').slope (d - k)) →
        d - k ≤ d') ∧
      (holdings.reserves.getD j 0 ≤ next.reserves.getD j 0 → ∀ k : Nat,
        (holdings.curve now).overshoot d xp ≤
          k * ((holdings.curve now).equation xp).slope (d - k) →
        d - k ≤ d') := by
  obtain ⟨-, xp, scale, found⟩ := invariant_eq_ok.mp before
  obtain ⟨-, xp', scale', found'⟩ := invariant_eq_ok.mp after
  obtain ⟨reserve, rate, remaining, y, reserveAt, rateAt, rfl, boundIn, boundOut, solved, above⟩ :=
    exchange_solved admissible scale found exchanged
  change (holdings.curve now).invariant xp' = .ok d' at found'
  have count : xp.length = holdings.reserves.length := scaled_length scale
  have curve : (holdings.curve now).Admissible xp.length := count ▸ admissible.curve
  have balances : ∀ x ∈ xp, 0 ≤ x := scaled_nonneg unsigned admissible.rates scale
  have start : 0 ≤ d := Curve.invariant_nonneg curve balances found
  have boundAfter : j < (holdings.reserves.modify i (· + dx)).length := by
    rw [List.length_modify]
    omega
  have reserveD : holdings.reserves.getD j 0 = reserve := by
    rw [List.getD_eq_getElem?_getD, reserveAt, Option.getD_some]
  have remainingD : ((holdings.reserves.modify i (· + dx)).set j remaining).getD j 0 =
      remaining := by
    rw [List.getD_eq_getElem?_getD, List.getElem?_set_self boundAfter, Option.getD_some]
  refine ⟨xp, xp', scale, scale', fun taken k covered => ?_, fun kept k covered => ?_⟩
  · rw [remainingD, reserveD] at taken
    have bound : j < xp'.length := by
      rw [scaled_length scale', List.length_set]
      exact boundAfter
    obtain ⟨z, leftAt⟩ : ∃ z, xp'[j]? = some z := ⟨_, List.getElem?_eq_getElem bound⟩
    have leftD : xp'.getD j 0 = z := by
      rw [List.getD_eq_getElem?_getD, leftAt, Option.getD_some]
    have kept : y < z := by
      obtain ⟨_, remainingAt, rfl⟩ := scaled_getElem scale' leftAt rateAt
      rw [List.getElem?_set_self boundAfter] at remainingAt
      obtain rfl := Option.some.inj remainingAt
      exact above taken
    have moved := sale_forall₂ scale scale'
    rw [leftD] at moved covered
    exact Curve.sub_le_invariant_of_sale curve boundOut start
      (sale_nonneg balances admissible.rates sold boundIn
        ((scaled_eq_ok scale).1.symm.trans count.symm)) (solved z) kept moved found' k covered
  · rw [remainingD, reserveD] at kept
    exact Curve.sub_le_invariant_of_forall₂ curve balances
      (scaled_forall₂ admissible.rates sold (reserveD ▸ kept) scale scale') found found' k covered

end Holdings

/-- A pair in which a large sale loses one unit of the invariant, without fees. -/
def unevenPair : Holdings where
  reserves := [399799063022798522712776, 784847598700474165001708]
  supply := 1000000000000000000000000
  amp := .constant 1400
  precision := 100
  swapFee := 0
  adminFee := 0
  offset := false

theorem unevenPair_admissible (now : Time) :
    unevenPair.Admissible [Fixed.one, Fixed.one] now := by
  refine ⟨⟨show (1 : Int) ≤ 100 by decide, ?_⟩, by decide, ⟨by decide, by decide⟩,
    ⟨by decide, by decide⟩⟩
  simp [Holdings.curve, unevenPair]

theorem unevenPair_exchange :
    unevenPair.exchange 1 0 890678059846485301157742 [Fixed.one, Fixed.one] 600 =
      .ok (383978136962987050614640, { unevenPair with
        reserves := [15820926059811472098136, 1675525658546959466159450] }) := by
  decide +kernel

theorem unevenPair_before :
    unevenPair.invariant unevenPair.reserves [Fixed.one, Fixed.one] 600 =
      .ok 1180034569159684653683970 := by
  decide +kernel

theorem unevenPair_after :
    unevenPair.invariant [15820926059811472098136, 1675525658546959466159450]
      [Fixed.one, Fixed.one] 600 = .ok 1180034569159684653683969 := by
  decide +kernel

/-- The bound is attained: one unit covers what the solver has lost, and one unit is lost. -/
theorem unevenPair_keeps_all_but_one :
    unevenPair.exchange 1 0 890678059846485301157742 [Fixed.one, Fixed.one] 600 =
      .ok (383978136962987050614640, { unevenPair with
        reserves := [15820926059811472098136, 1675525658546959466159450] }) ∧
    (1180034569159684653683970 : Int) - (1 : Nat) ≤ 1180034569159684653683969 := by
  refine ⟨unevenPair_exchange, ?_⟩
  obtain ⟨xp, xp', scale, scale', taken, -⟩ := Holdings.exchange_keeps_invariant
    (by decide) (unevenPair_admissible 600) (by decide) unevenPair_exchange unevenPair_before
    unevenPair_after
  obtain rfl : [399799063022798522712776, 784847598700474165001708] = xp :=
    Except.ok.inj ((show _ = scaled _ _ by decide +kernel).trans scale)
  obtain rfl : [15820926059811472098136, 1675525658546959466159450] = xp' :=
    Except.ok.inj ((show _ = scaled _ _ by decide +kernel).trans scale')
  exact taken (by decide) 1 (by decide +kernel)

theorem swap_lowers_invariant :
    ¬ ∀ (holdings next : Holdings) (rates : List Int) (now : Time) (i j : Nat) (dx out d d' : Int),
      2 ≤ holdings.reserves.length → (∀ reserve ∈ holdings.reserves, 0 < reserve) →
      holdings.Admissible rates now → 0 < dx →
      holdings.exchange i j dx rates now = .ok (out, next) →
      holdings.invariant holdings.reserves rates now = .ok d →
      next.invariant next.reserves rates now = .ok d' → d ≤ d' := by
  intro keeps
  have kept := keeps _ _ _ _ _ _ _ _ _ _ (by decide) (by decide) (unevenPair_admissible 600)
    (by decide) unevenPair_exchange unevenPair_before unevenPair_after
  exact absurd kept (by decide)

end Stable
end Amm
