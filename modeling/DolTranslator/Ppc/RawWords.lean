import DolTranslator.Ppc.Words

/-!
# The raw-word recognizers

`PpcControlFlow` of `PpcWordAnalysis`, by which the image scanners find branches without the
decoder, and the facts about masks and fields that compare it with `PpcDecoder`.

* `isRelativeUnlinkedBranch`, `isRelativeLinkedBranch`   `b` and `bl`, told by a mask;
* `tryDecodeConditionalRelativeBranchTarget`   `bc`;
* `isReturn`, `isBctr`   one word each;
* `shifted_displacement`   the two ways to extend a sign.
-/

namespace DolTranslator.Ppc

/-! ## `PpcWordFields` -/

def primaryOpcode (word : Word) : Nat := getField word 26 6

def gprField1 (word : Word) : Nat := getField word 16 5

def gprField2 (word : Word) : Nat := getField word 11 5

def extendedOpcode (word : Word) : Nat := getField word 1 10

/-! ## `PpcControlFlow` -/

def relativeBranchMask : Word := 0xFC000003

def relativeBranch : Word := 0x48000000

def relativeBranchLink : Word := 0x48000001

def isRelativeUnlinkedBranch (word : Word) : Bool := word &&& relativeBranchMask == relativeBranch

def isRelativeLinkedBranch (word : Word) : Bool :=
  word &&& relativeBranchMask == relativeBranchLink

def decodeRelative24Target (address word : Word) : Word :=
  let offset := word &&& 0x03FFFFFC
  address + if offset &&& 0x02000000 ≠ 0 then offset ||| 0xFC000000 else offset

def tryDecodeRelativeBranchTarget (address word : Word) : Option Word :=
  if !isRelativeUnlinkedBranch word then none else some (decodeRelative24Target address word)

def tryDecodeRelativeBranchLinkTarget (address word : Word) : Option Word :=
  if !isRelativeLinkedBranch word then none else some (decodeRelative24Target address word)

def tryDecodeConditionalRelativeBranchTarget (address word : Word) : Option Word :=
  if primaryOpcode word ≠ 16 ∨ word &&& 2 ≠ 0 then none
  else
    let offset := word &&& 0xFFFC
    some (address + if offset &&& 0x8000 ≠ 0 then offset ||| 0xFFFF0000 else offset)

def mayChangeControlFlow (word : Word) : Bool :=
  primaryOpcode word = 16 ∨ primaryOpcode word = 18 ∨ primaryOpcode word = 19

def isReturn (word : Word) : Bool := word == 0x4E800020

def isBctr (word : Word) : Bool := word == 0x4E800420

/-! ## fields of a word -/

theorem getField_eq (word : Word) (startBit width : Nat) :
    getField word startBit width = word.toNat / 2 ^ startBit % 2 ^ width := by
  unfold getField
  rw [Nat.shiftRight_eq_div_pow]

theorem toNat_and_relativeBranchMask (word : Word) :
    (word &&& relativeBranchMask).toNat = 2 ^ 26 * getField word 26 6 + getField word 0 2 := by
  have hlow : getField word 0 2 < 2 ^ 26 := by rw [getField_eq]; omega
  have hmask : ∀ i, i < 32 → (0xFC000003 : Nat).testBit i = decide (i < 2 ∨ 26 ≤ i) := by decide
  apply Nat.eq_of_testBit_eq
  intro i
  rw [Nat.testBit_two_pow_mul_add _ hlow, BitVec.toNat_and, Nat.testBit_and]
  show (word.toNat.testBit i && (0xFC000003 : Nat).testBit i) = _
  by_cases hi : i < 32
  · rw [hmask i hi]
    split
    · rename_i h
      rw [getField, Nat.shiftRight_zero, Nat.testBit_mod_two_pow, Bool.and_comm]
      congr 1
      exact decide_eq_decide.mpr (by omega)
    · rename_i h
      rw [getField, Nat.testBit_mod_two_pow, Nat.testBit_shiftRight, Bool.and_comm,
        show 26 + (i - 26) = i by omega]
      congr 1
      exact decide_eq_decide.mpr (by omega)
  · have hword : word.toNat.testBit i = false :=
      Nat.testBit_lt_two_pow (lt_of_lt_of_le word.isLt (Nat.pow_le_pow_right (by omega) (by omega)))
    rw [hword, Bool.false_and, if_neg (by omega), getField, Nat.testBit_mod_two_pow,
      decide_eq_false (by omega), Bool.false_and]

theorem isRelativeUnlinkedBranch_iff (word : Word) : isRelativeUnlinkedBranch word = true ↔
    getField word 26 6 = 18 ∧ getField word 1 1 = 0 ∧ getField word 0 1 = 0 := by
  unfold isRelativeUnlinkedBranch
  rw [beq_iff_eq, ← BitVec.toNat_inj, toNat_and_relativeBranchMask,
    show relativeBranch.toNat = 2 ^ 26 * 18 from rfl]
  simp only [getField_eq]
  omega

theorem isRelativeLinkedBranch_iff (word : Word) : isRelativeLinkedBranch word = true ↔
    getField word 26 6 = 18 ∧ getField word 1 1 = 0 ∧ getField word 0 1 = 1 := by
  unfold isRelativeLinkedBranch
  rw [beq_iff_eq, ← BitVec.toNat_inj, toNat_and_relativeBranchMask,
    show relativeBranchLink.toNat = 2 ^ 26 * 18 + 1 from rfl]
  simp only [getField_eq]
  omega

theorem and_two_eq_zero_iff (word : Word) : word &&& 2 = 0 ↔ getField word 1 1 = 0 := by
  have htoNat : (word &&& 2).toNat = getField word 1 1 * 2 := by
    rw [BitVec.toNat_and, getField_eq]
    exact (Nat.and_two_pow word.toNat 1).trans (by rw [Nat.toNat_testBit]; omega)
  rw [← BitVec.toNat_inj, htoNat, show (0 : Word).toNat = 0 from rfl]
  omega

theorem getField_lt (word : Word) (startBit width : Nat) :
    getField word startBit width < 2 ^ width := by
  rw [getField_eq]
  exact Nat.mod_lt _ (Nat.two_pow_pos width)

theorem toNat_eq_fields (word : Word) : word.toNat =
    getField word 26 6 * 2 ^ 26 + getField word 21 5 * 2 ^ 21 + getField word 16 5 * 2 ^ 16 +
      getField word 11 5 * 2 ^ 11 + getField word 1 10 * 2 + getField word 0 1 := by
  have hword := word.isLt
  simp only [getField_eq]
  have h1 := Nat.div_add_mod word.toNat (2 ^ 1)
  have h11 := Nat.div_add_mod (word.toNat / 2 ^ 1) (2 ^ 10)
  have h16 := Nat.div_add_mod (word.toNat / 2 ^ 11) (2 ^ 5)
  have h21 := Nat.div_add_mod (word.toNat / 2 ^ 16) (2 ^ 5)
  have h26 := Nat.div_add_mod (word.toNat / 2 ^ 21) (2 ^ 5)
  have h32 : word.toNat / 2 ^ 26 % 2 ^ 6 = word.toNat / 2 ^ 26 := Nat.mod_eq_of_lt (by omega)
  rw [Nat.div_div_eq_div_mul, ← pow_add] at h11 h16 h21 h26
  rw [Nat.pow_zero, Nat.div_one, h32]
  omega

theorem toNat_register_iff (word : Word) {extended : Nat} (h : extended < 2 ^ 10) :
    word.toNat = 19 * 2 ^ 26 + 20 * 2 ^ 21 + extended * 2 ↔
      getField word 26 6 = 19 ∧ getField word 21 5 = 20 ∧ getField word 16 5 = 0 ∧
        getField word 11 5 = 0 ∧ getField word 1 10 = extended ∧ getField word 0 1 = 0 := by
  rw [toNat_eq_fields]
  have h26 := getField_lt word 26 6
  have h21 := getField_lt word 21 5
  have h16 := getField_lt word 16 5
  have h11 := getField_lt word 11 5
  have h1 := getField_lt word 1 10
  have h0 := getField_lt word 0 1
  omega

theorem isReturn_iff (word : Word) : isReturn word = true ↔
    getField word 26 6 = 19 ∧ getField word 21 5 = 20 ∧ getField word 16 5 = 0 ∧
      getField word 11 5 = 0 ∧ getField word 1 10 = 16 ∧ getField word 0 1 = 0 := by
  unfold isReturn
  rw [beq_iff_eq, ← BitVec.toNat_inj]
  exact toNat_register_iff word (by decide : 16 < 2 ^ 10)

theorem isBctr_iff (word : Word) : isBctr word = true ↔
    getField word 26 6 = 19 ∧ getField word 21 5 = 20 ∧ getField word 16 5 = 0 ∧
      getField word 11 5 = 0 ∧ getField word 1 10 = 528 ∧ getField word 0 1 = 0 := by
  unfold isBctr
  rw [beq_iff_eq, ← BitVec.toNat_inj]
  exact toNat_register_iff word (by decide : 528 < 2 ^ 10)

/-! ## the displacement of a branch -/

theorem getLsbD_signExtend (value : Word) {bits i : Nat} (hpos : 0 < bits) (hbits : bits ≤ 32)
    (hi : i < 32) : (signExtend value bits).getLsbD i = value.getLsbD (min i (bits - 1)) := by
  unfold signExtend
  rw [BitVec.getLsbD_sshiftRight, decide_eq_false (by omega), Bool.not_false, Bool.true_and]
  split
  · rw [BitVec.getLsbD_shiftLeft, decide_eq_true (by omega), decide_eq_false (by omega),
      Bool.not_false, Bool.true_and, Bool.true_and]
    congr 1
    omega
  · rw [BitVec.msb_eq_getLsbD_last, BitVec.getLsbD_shiftLeft, decide_eq_true (by omega),
      decide_eq_false (by omega), Bool.not_false, Bool.true_and, Bool.true_and]
    congr 1
    omega

theorem getLsbD_and_eq_zero (value : Word) {sign : Word} {n : Nat}
    (hsign : ∀ i, i < 32 → sign.getLsbD i = decide (i = n)) (hn : n < 32) :
    value &&& sign = 0 ↔ value.getLsbD n = false := by
  constructor
  · intro h
    have hbit := congrArg (BitVec.getLsbD · n) h
    simpa [BitVec.getLsbD_and, hsign n hn] using hbit
  · intro h
    apply BitVec.eq_of_getLsbD_eq
    intro i hi
    rw [BitVec.getLsbD_and, hsign i hi]
    by_cases hin : i = n
    · rw [hin, h, Bool.false_and]
      exact BitVec.getLsbD_zero.symm
    · rw [decide_eq_false hin, Bool.and_false]
      exact BitVec.getLsbD_zero.symm

theorem shifted_displacement (word low mask sign high : Word) {n : Nat} (hpos : 0 < n)
    (hn : n + 2 ≤ 31)
    (hlow : ∀ i, i < 32 → low.getLsbD i = decide (i < n))
    (hmask : ∀ i, i < 32 → mask.getLsbD i = decide (2 ≤ i ∧ i < n + 2))
    (hsign : ∀ i, i < 32 → sign.getLsbD i = decide (i = n + 1))
    (hhigh : ∀ i, i < 32 → high.getLsbD i = decide (n + 2 ≤ i)) :
    signExtend ((word >>> 2) &&& low) n <<< 2 =
      if (word &&& mask) &&& sign ≠ 0 then (word &&& mask) ||| high else word &&& mask := by
  have hzero := getLsbD_and_eq_zero (word &&& mask) hsign (by omega)
  rw [BitVec.getLsbD_and, hmask (n + 1) (by omega), decide_eq_true (by omega), Bool.and_true]
    at hzero
  have hfield : ∀ i, 2 ≤ i → i < 32 → (signExtend ((word >>> 2) &&& low) n).getLsbD (i - 2) =
      word.getLsbD (min i (n + 1)) := by
    intro i h2 hi
    rw [getLsbD_signExtend _ hpos (by omega) (by omega), BitVec.getLsbD_and,
      hlow _ (by omega), decide_eq_true (by omega), Bool.and_true, BitVec.getLsbD_ushiftRight]
    congr 1
    omega
  apply BitVec.eq_of_getLsbD_eq
  intro i hi
  rw [BitVec.getLsbD_shiftLeft, decide_eq_true hi, Bool.true_and]
  by_cases h2 : i < 2
  · -- both ways leave the low bits clear
    rw [decide_eq_true h2, Bool.not_true, Bool.false_and]
    split
    · rw [BitVec.getLsbD_or, BitVec.getLsbD_and, hmask i hi, hhigh i hi,
        decide_eq_false (by omega), decide_eq_false (by omega), Bool.and_false, Bool.or_false]
    · rw [BitVec.getLsbD_and, hmask i hi, decide_eq_false (by omega), Bool.and_false]
  · rw [decide_eq_false h2, Bool.not_false, Bool.true_and, hfield i (by omega) hi]
    by_cases hin : i < n + 2
    · rw [show min i (n + 1) = i by omega]
      split
      · rw [BitVec.getLsbD_or, BitVec.getLsbD_and, hmask i hi, hhigh i hi,
          decide_eq_true (by omega), decide_eq_false (by omega), Bool.and_true, Bool.or_false]
      · rw [BitVec.getLsbD_and, hmask i hi, decide_eq_true (by omega), Bool.and_true]
    · rw [show min i (n + 1) = n + 1 by omega]
      split
      · rename_i h
        rw [BitVec.getLsbD_or, hhigh i hi, decide_eq_true (by omega), Bool.or_true]
        exact Bool.eq_true_of_not_eq_false fun hbit => h (hzero.mpr hbit)
      · rename_i h
        rw [BitVec.getLsbD_and, hmask i hi, decide_eq_false (by omega), Bool.and_false]
        exact hzero.mp (not_not.mp h)

theorem displacement14_eq (word : Word) : signExtend ((word >>> 2) &&& 0x3FFF) 14 <<< 2 =
    if (word &&& 0xFFFC) &&& 0x8000 ≠ 0 then (word &&& 0xFFFC) ||| 0xFFFF0000
    else word &&& 0xFFFC :=
  shifted_displacement word 0x3FFF 0xFFFC 0x8000 0xFFFF0000 (by omega) (by omega) (by decide)
    (by decide) (by decide) (by decide)

theorem displacement24_eq (word : Word) : signExtend ((word >>> 2) &&& 0xFFFFFF) 24 <<< 2 =
    if (word &&& 0x03FFFFFC) &&& 0x02000000 ≠ 0 then (word &&& 0x03FFFFFC) ||| 0xFC000000
    else word &&& 0x03FFFFFC :=
  shifted_displacement word 0xFFFFFF 0x03FFFFFC 0x02000000 0xFC000000 (by omega) (by omega)
    (by decide) (by decide) (by decide) (by decide)

end DolTranslator.Ppc
