import Amm.Crypto.Lanes
import Mathlib.Tactic.Linarith

/-!
Values in the lanes of one word. Values that fit their lanes do not touch one another: the word is
their sum by place, and each reads back as it was put in; a word without bits above its lanes is packed
again from what reads back. A value that does not fit keeps the bits of its own lane there and puts the
rest on top of the next value.
-/

namespace Amm
namespace Lanes

/-- A value that fits one lane. -/
def Fits (value : Int) : Prop :=
  0 ≤ value ∧ value < size

instance (value : Int) : Decidable (Fits value) :=
  inferInstanceAs (Decidable (0 ≤ value ∧ value < size))

theorem size_eq : size = ((2 ^ 128 : Nat) : Int) := by
  decide

theorem size_pos : 0 < size := by
  decide

/-- Below the places of a shifted word the union with a value is a sum. -/
theorem union_shifted {word value : Int} (nonneg : 0 ≤ word) (fits : Fits value) :
    union (word * size) value = word * size + value := by
  obtain ⟨valueNonneg, below⟩ := fits
  obtain ⟨w, rfl⟩ := Int.eq_ofNat_of_zero_le nonneg
  obtain ⟨v, rfl⟩ := Int.eq_ofNat_of_zero_le valueNonneg
  rw [size_eq] at below ⊢
  have low : v < 2 ^ 128 := Int.ofNat_lt.mp below
  have joined : 2 ^ 128 * w + v = 2 ^ 128 * w ||| v := Nat.two_pow_add_eq_or_of_lt low w
  rw [← Int.natCast_mul, ← Int.natCast_add, Nat.mul_comm w, joined]
  rfl

theorem pack_nonneg {values : List Int} (fit : ∀ value ∈ values, Fits value) :
    0 ≤ pack values := by
  induction values with
  | nil => exact le_refl 0
  | cons value values ih =>
      obtain ⟨first, rest⟩ := List.forall_mem_cons.mp fit
      have above : 0 ≤ pack values := ih rest
      have word : pack (value :: values) = pack values * size + value := union_shifted above first
      rw [word]
      exact add_nonneg (mul_nonneg above size_pos.le) first.1

theorem pack_cons {value : Int} {values : List Int} (first : Fits value)
    (fit : ∀ value ∈ values, Fits value) :
    pack (value :: values) = pack values * size + value :=
  union_shifted (pack_nonneg fit) first

/-- The first of the values that were packed read back, as many as are asked for. -/
theorem unpack_pack {values : List Int} (fit : ∀ value ∈ values, Fits value) {count : Nat}
    (enough : count ≤ values.length) : unpack (pack values) count = values.take count := by
  induction values generalizing count with
  | nil =>
      obtain rfl : count = 0 := Nat.le_zero.mp enough
      rfl
  | cons value values ih =>
      cases count with
      | zero => rfl
      | succ count =>
          obtain ⟨first, rest⟩ := List.forall_mem_cons.mp fit
          have word : pack (value :: values) = value + pack values * size := by
            rw [add_comm]
            exact pack_cons first rest
          have lane : pack (value :: values) % size = value := by
            rw [word, Int.add_mul_emod_self_right, Int.emod_eq_of_lt first.1 first.2]
          have above : pack (value :: values) / size = pack values := by
            rw [word, Int.add_mul_ediv_right _ _ size_pos.ne', Int.ediv_eq_zero_of_lt first.1 first.2,
              zero_add]
          rw [unpack, lane, above, ih rest (Nat.le_of_succ_le_succ enough), List.take_succ_cons]

theorem unpack_length (word : Int) (count : Nat) : (unpack word count).length = count := by
  induction count generalizing word with
  | zero => rfl
  | succ count ih => rw [unpack, List.length_cons, ih]

/-- Whatever the word, what reads back from a lane fits it. -/
theorem fits_of_mem_unpack {word value : Int} {count : Nat} (member : value ∈ unpack word count) :
    Fits value := by
  induction count generalizing word with
  | zero => exact absurd member List.not_mem_nil
  | succ count ih =>
      rcases List.mem_cons.mp member with rfl | above
      · exact ⟨Int.emod_nonneg _ size_pos.ne', Int.emod_lt_of_pos _ size_pos⟩
      · exact ih above

section
variable (a b : Nat)

theorem ofNat_ediv_size : Int.ofNat a / size = Int.ofNat (a / 2 ^ 128) := by
  rw [size_eq]
  rfl

theorem negSucc_ediv_size : Int.negSucc a / size = Int.negSucc (a / 2 ^ 128) := by
  rw [Int.negSucc_ediv _ size_pos, Int.negSucc_eq, size_eq]
  rfl

theorem ofNat_emod_size : Int.ofNat a % size = ((a % 2 ^ 128 : Nat) : Int) := by
  rw [size_eq]
  rfl

theorem negSucc_emod_size : Int.negSucc a % size = size - 1 - ((a % 2 ^ 128 : Nat) : Int) := by
  rw [Int.negSucc_emod _ size_pos, ← ofNat_emod_size]
  rfl

theorem without_div : without a b / 2 ^ 128 = without (a / 2 ^ 128) (b / 2 ^ 128) := by
  rw [without, without, Nat.xor_div_two_pow, Nat.and_div_two_pow]

theorem without_mod : without a b % 2 ^ 128 = without (a % 2 ^ 128) (b % 2 ^ 128) := by
  rw [without, without, Nat.xor_mod_two_pow, Nat.and_mod_two_pow]

theorem without_zero : without a 0 = a := by
  rw [without, Nat.and_zero, Nat.xor_zero]

end

/-- The bits of a full lane that a value in the lane leaves. -/
theorem without_full {value : Nat} (low : value < 2 ^ 128) :
    without (2 ^ 128 - 1) value = 2 ^ 128 - 1 - value := by
  have covered : (2 ^ 128 - 1) &&& value = value := by
    rw [Nat.and_comm, Nat.and_two_pow_sub_one_eq_mod, Nat.mod_eq_of_lt low]
  rw [without, covered, Nat.sub_sub, Nat.add_comm 1]
  refine Nat.eq_of_testBit_eq fun place => ?_
  rw [Nat.testBit_xor, Nat.testBit_two_pow_sub_one, Nat.testBit_two_pow_sub_succ low]
  by_cases inLane : place < 128
  · simp [inLane]
  · have above : value.testBit place = false :=
      Nat.testBit_lt_two_pow (low.trans_le (Nat.pow_le_pow_right (by decide) (by omega)))
    simp [inLane, above]

/-- Above the first lane a union is the union of what the two words hold there. -/
theorem union_ediv_size (word value : Int) :
    union word value / size = union (word / size) (value / size) := by
  cases word <;> cases value <;>
    simp only [union, ofNat_ediv_size, negSucc_ediv_size, without_div, Nat.or_div_two_pow,
      Nat.and_div_two_pow]

/-- A word with an empty first lane leaves the first lane of what is joined to it as it is. -/
theorem union_emod_size {word : Int} (empty : word % size = 0) (value : Int) :
    union word value % size = value % size := by
  cases word with
  | ofNat w =>
      rw [ofNat_emod_size] at empty
      have bits : w % 2 ^ 128 = 0 := Int.natCast_eq_zero.mp empty
      cases value with
      | ofNat v => rw [union, ofNat_emod_size, ofNat_emod_size, Nat.or_mod_two_pow, bits, Nat.zero_or]
      | negSucc v => rw [union, negSucc_emod_size, negSucc_emod_size, without_mod, bits, without_zero]
  | negSucc w =>
      rw [negSucc_emod_size, size_eq] at empty
      have bits : w % 2 ^ 128 = 2 ^ 128 - 1 := by omega
      cases value with
      | ofNat v =>
          have low : v % 2 ^ 128 < 2 ^ 128 := Nat.mod_lt _ (by decide)
          rw [union, negSucc_emod_size, ofNat_emod_size, without_mod, bits, without_full low, size_eq]
          omega
      | negSucc v =>
          have covered : (2 ^ 128 - 1) &&& (v % 2 ^ 128) = v % 2 ^ 128 := by
            rw [Nat.and_comm, Nat.and_two_pow_sub_one_eq_mod, Nat.mod_mod]
          rw [union, negSucc_emod_size, negSucc_emod_size, Nat.and_mod_two_pow, bits, covered]

theorem union_zero_left (value : Int) : union 0 value = value := by
  cases value with
  | ofNat v => exact congrArg Int.ofNat (Nat.zero_or v)
  | negSucc v => exact congrArg Int.negSucc (without_zero v)

/-- What reads back of two values, whether they fit or not. The lower one loses what does not fit. The
upper one gets that on top. -/
theorem unpack_pack_two (lower upper : Int) :
    unpack (pack [lower, upper]) 2 = [lower % size, union upper (lower / size) % size] := by
  have word : pack [lower, upper] = union (upper * size) lower := by
    rw [pack, List.foldr, List.foldr, List.foldr, zero_mul, union_zero_left]
  rw [word, unpack, unpack, unpack, union_emod_size (Int.mul_emod_left _ _), union_ediv_size,
    Int.mul_ediv_cancel _ size_pos.ne']

theorem pack_lt {values : List Int} (fit : ∀ value ∈ values, Fits value) :
    pack values < size ^ values.length := by
  induction values with
  | nil => decide
  | cons value values ih =>
      obtain ⟨first, rest⟩ := List.forall_mem_cons.mp fit
      have above : pack values + 1 ≤ size ^ values.length := ih rest
      have below : value < size := first.2
      rw [pack_cons first rest, List.length_cons, pow_succ]
      calc
        pack values * size + value < (pack values + 1) * size := by linarith
        _ ≤ size ^ values.length * size := mul_le_mul_of_nonneg_right above size_pos.le

/-- A word without bits above its lanes is the word of what reads back from them. -/
theorem pack_unpack {word : Int} {count : Nat} (unsigned : 0 ≤ word) (fits : word < size ^ count) :
    pack (unpack word count) = word := by
  induction count generalizing word with
  | zero =>
      have zero : word = 0 := by
        rw [pow_zero] at fits
        omega
      rw [zero]
      rfl
  | succ count ih =>
      have lane : Fits (word % size) := ⟨Int.emod_nonneg _ size_pos.ne', Int.emod_lt_of_pos _ size_pos⟩
      have above : pack (unpack (word / size) count) = word / size := by
        apply ih
        · exact Int.ediv_nonneg unsigned size_pos.le
        · rw [pow_succ] at fits
          exact Int.ediv_lt_of_lt_mul size_pos fits
      rw [unpack, pack_cons lane fun value member => fits_of_mem_unpack member, above]
      exact Int.ediv_mul_add_emod word size

/-- The bits of a word from `128 k` up to `128 k + 128`. -/
def laneAt (word : Int) (k : Nat) : Int :=
  word / 2 ^ (128 * k) % 2 ^ 128

theorem size_pow (count : Nat) : size ^ count = 2 ^ (128 * count) := by
  rw [pow_mul]
  rfl

theorem laneAt_zero (word : Int) : laneAt word 0 = word % size := by
  rw [laneAt, mul_zero, pow_zero, Int.ediv_one]
  rfl

theorem laneAt_succ (word : Int) (k : Nat) : laneAt word (k + 1) = laneAt (word / size) k := by
  rw [laneAt, laneAt, Int.ediv_ediv_of_nonneg size_pos.le, ← size_pow, ← size_pow, pow_succ']

theorem unpack_eq_map (word : Int) (count : Nat) :
    unpack word count = (List.range count).map (laneAt word) := by
  induction count generalizing word with
  | zero => rfl
  | succ count ih =>
      have later : laneAt word ∘ Nat.succ = laneAt (word / size) := funext (laneAt_succ word)
      rw [unpack, ih, List.range_succ_eq_map, List.map_cons, List.map_map, laneAt_zero, later]

theorem laneAt_of_lt {word : Int} {count k : Nat} (unsigned : 0 ≤ word) (fits : word < size ^ count)
    (above : count ≤ k) : laneAt word k = 0 := by
  have places : size ^ count ≤ size ^ k := pow_le_pow_right₀ (by decide) above
  rw [laneAt, ← size_pow, Int.ediv_eq_zero_of_lt unsigned (fits.trans_le places)]
  rfl

theorem unpack_getD {word : Int} {count : Nat} (unsigned : 0 ≤ word) (fits : word < size ^ count)
    (k : Nat) : (unpack word count).getD k 0 = laneAt word k := by
  rw [unpack_eq_map, List.getD_eq_getElem?_getD, List.getElem?_map]
  by_cases bound : k < count
  · rw [List.getElem?_range bound]
    rfl
  · rw [laneAt_of_lt unsigned fits (not_lt.mp bound), List.getElem?_eq_none (by simpa using bound)]
    rfl

/-- A packed value stands in the lane of its place. -/
theorem laneAt_pack {values : List Int} (fit : ∀ value ∈ values, Fits value) (k : Nat) :
    laneAt (pack values) k = values.getD k 0 := by
  rw [← unpack_getD (pack_nonneg fit) (pack_lt fit), unpack_pack fit le_rfl, List.take_length]

/-- Writing one lane anew gives a word of as many lanes, with the value there and all others as they
were. -/
theorem laneAt_rewritten {word value : Int} {count lane : Nat} (unsigned : 0 ≤ word)
    (fits : word < size ^ count) (bound : lane < count) (fit : Fits value) (k : Nat) :
    laneAt (pack ((unpack word count).set lane value)) k =
      if k = lane then value else laneAt word k := by
  have all : ∀ entry ∈ (unpack word count).set lane value, Fits entry := fun entry member => by
    rcases List.mem_or_eq_of_mem_set member with kept | rfl
    · exact fits_of_mem_unpack kept
    · exact fit
  have inside : lane < (unpack word count).length := by rwa [unpack_length]
  rw [laneAt_pack all, List.getD_eq_getElem?_getD]
  split
  · rename_i same
    rw [same, List.getElem?_set_self inside]
    rfl
  · rename_i other
    rw [List.getElem?_set_ne (Ne.symm other), ← List.getD_eq_getElem?_getD, unpack_getD unsigned fits]

/-- Packing and reading back undo one another: values that fit their lanes read back in their order, as
many as are asked for, and a word without bits above its lanes is packed again from what they hold. So
writing one lane anew leaves all the others as they were. -/
theorem lanes_hold_their_values :
    (∀ (values : List Int) (count : Nat), (∀ value ∈ values, Fits value) → count ≤ values.length →
      unpack (pack values) count = values.take count) ∧
    (∀ (word : Int) (count : Nat), 0 ≤ word → word < 2 ^ (128 * count) →
      pack (unpack word count) = word) ∧
    ∀ (word value : Int) (count lane : Nat), 0 ≤ word → word < 2 ^ (128 * count) → lane < count →
      Fits value → ∀ k, laneAt (pack ((unpack word count).set lane value)) k =
        if k = lane then value else laneAt word k := by
  refine ⟨fun values count fit enough => ?_, fun word count unsigned fits => ?_,
    fun word value count lane unsigned fits bound fit k => ?_⟩
  · exact unpack_pack fit enough
  · rw [← size_pow] at fits
    exact pack_unpack unsigned fits
  · rw [← size_pow] at fits
    exact laneAt_rewritten unsigned fits bound fit k

/-- Three lanes, the first of them full. The second one is written anew. -/
theorem full_and_empty_lanes_hold :
    pack [2 ^ 128 - 1, 0, 7] = 2 ^ 256 * 7 + 2 ^ 128 - 1 ∧
      unpack (pack [2 ^ 128 - 1, 0, 7]) 2 = [2 ^ 128 - 1, 0] ∧
      pack (unpack (2 ^ 256 * 7 + 2 ^ 128 - 1) 3) = 2 ^ 256 * 7 + 2 ^ 128 - 1 ∧
      ∀ k, laneAt (pack ((unpack (2 ^ 256 * 7 + 2 ^ 128 - 1) 3).set 1 5)) k =
        if k = 1 then 5 else laneAt (2 ^ 256 * 7 + 2 ^ 128 - 1) k := by
  obtain ⟨reads, packs, rewrites⟩ := lanes_hold_their_values
  refine ⟨by decide, ?_, ?_, ?_⟩
  · exact reads [2 ^ 128 - 1, 0, 7] 2 (by decide) (by decide)
  · exact packs _ 3 (by decide) (by decide +kernel)
  · exact rewrites _ 5 3 1 (by decide) (by decide +kernel) (by decide) (by decide)

end Lanes
end Amm
