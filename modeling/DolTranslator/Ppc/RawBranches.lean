import DolTranslator.Ppc.Disassembler
import DolTranslator.Ppc.RawWords

/-!
# The recognizers and the decoder

What `PpcControlFlow` says of a word, compared with the instruction that `PpcDecoder.Decode` makes
of it.  The recognizers leave absolute branches to the decoder, and know an unconditional return by
one word.

* `decodeWord_ordinary`   a word of no branch opcode decodes to no branch;
* `BranchesAgree`   what the recognizers tell of a decoded word;
* `raw_branches_agree`   every word.
-/

namespace DolTranslator.Ppc

def PpcInstruction.isUnconditionalReturn (ins : PpcInstruction) : Bool :=
  ins.isReturn && !ins.isConditionalBranch

def isAbsolute (word : Word) : Bool := getField word 1 1 ≠ 0

def recognizedTargets (address word : Word) : List Word :=
  (tryDecodeRelativeBranchTarget address word).toList ++
    (tryDecodeRelativeBranchLinkTarget address word).toList ++
    (tryDecodeConditionalRelativeBranchTarget address word).toList

/-- the fields that a branch to a register ignores -/
def ignoredFieldsClear (word : Word) : Prop := gprField1 word = 0 ∧ gprField2 word = 0

/-- what the recognizers tell of a word that decodes to `ins` -/
structure BranchesAgree (address word : Word) (ins : PpcInstruction) : Prop where
  targets : recognizedTargets address word =
    if isAbsolute word then [] else ins.branchTargets
  unlinked : isRelativeUnlinkedBranch word = (ins.isUnconditionalBranch && !isAbsolute word)
  linked : isRelativeLinkedBranch word =
    (ins.isCall && !ins.isConditionalBranch && !ins.branchTargets.isEmpty && !isAbsolute word)
  conditional : (tryDecodeConditionalRelativeBranchTarget address word).isSome =
    (ins.isConditionalBranch && !ins.branchTargets.isEmpty && !isAbsolute word)
  returns : isReturn word || isBctr word →
    ins.isUnconditionalReturn = true ∧ ins.isCall = false ∧ ins.branchTargets = []
  returnLr : ignoredFieldsClear word →
    isReturn word = (ins.isUnconditionalReturn && decide (extendedOpcode word = 16))
  returnCtr : ignoredFieldsClear word →
    isBctr word = (ins.isUnconditionalReturn && decide (extendedOpcode word = 528))
  flow : (ins.branchTargets ≠ [] ∨ ins.isCall = true ∨ ins.isReturn = true) →
    mayChangeControlFlow word = true

variable {address word : Word}

theorem decode_plain {ins : PpcInstruction}
    (h16 : getField word 26 6 ≠ 16) (h18 : getField word 26 6 ≠ 18)
    (h19 : getField word 26 6 ≠ 19) (h : decode address word = some ins) :
    ∃ mnemonic operands isCond, ins = ordinary address word mnemonic operands isCond := by
  have plain : ∀ {mnemonic operands isCond},
      plainInstruction address word mnemonic operands isCond = some ins →
      ∃ mnemonic operands isCond, ins = ordinary address word mnemonic operands isCond :=
    fun h => ⟨_, _, _, (Option.some.inj h).symm⟩
  unfold decode at h
  dsimp only at h
  split at h
  all_goals first
    | exact plain h
    | contradiction
    | (split at h <;> exact plain h)
    | skip
  · unfold decodePrimary31 at h
    dsimp only at h
    split at h
    all_goals first
      | exact plain h
      | cases h
      | skip
    all_goals split at h
    all_goals first
      | exact plain h
      | cases h
      | skip
    all_goals split at h
    all_goals first
      | exact plain h
      | cases h

theorem decodeOther_plain (h19 : getField word 26 6 ≠ 19) :
    ∃ mnemonic operands isCond,
      decodeOther address word = ordinary address word mnemonic operands isCond := by
  unfold decodeOther
  dsimp only
  split
  all_goals first
    | exact ⟨_, _, _, rfl⟩
    | contradiction
    | skip
  · unfold decodePairedSingle
    dsimp only
    split
    all_goals first
      | exact ⟨_, _, _, rfl⟩
      | split <;> exact ⟨_, _, _, rfl⟩
  · unfold decodeSystem31
    dsimp only
    split
    all_goals first
      | exact ⟨_, _, _, rfl⟩
      | split <;> exact ⟨_, _, _, rfl⟩
  · unfold decodePrimary59
    dsimp only
    split <;> exact ⟨_, _, _, rfl⟩
  · unfold decodePrimary63
    dsimp only
    split <;> exact ⟨_, _, _, rfl⟩

theorem decodeWord_ordinary (address : Word) (h16 : getField word 26 6 ≠ 16)
    (h18 : getField word 26 6 ≠ 18) (h19 : getField word 26 6 ≠ 19) :
    ∃ mnemonic operands isCond,
      decodeWord address word = ordinary address word mnemonic operands isCond := by
  unfold decodeWord
  cases h : decode address word with
  | none => exact decodeOther_plain h19
  | some ins => exact decode_plain h16 h18 h19 h

/-! ## words of a branch opcode -/

theorem decodeWord_bc (h : getField word 26 6 = 16) :
    decodeWord address word = decodeBc address word := by
  unfold decodeWord decode
  rw [h]
  rfl

theorem decodeWord_b (h : getField word 26 6 = 18) :
    decodeWord address word = decodeB address word := by
  unfold decodeWord decode
  rw [h]
  rfl

/-- the flags of `bc`, whatever its mnemonic -/
theorem decodeBc_flags (address word : Word) :
    (decodeBc address word).branchTargets = [if getField word 1 1 ≠ 0
      then signExtend ((word >>> 2) &&& 0x3FFF) 14 <<< 2
      else address + signExtend ((word >>> 2) &&& 0x3FFF) 14 <<< 2] ∧
    (decodeBc address word).isReturn = false ∧
    (decodeBc address word).isCall = decide (getField word 0 1 ≠ 0) ∧
    (decodeBc address word).isConditionalBranch = true := by
  unfold decodeBc
  dsimp only
  split
  · exact ⟨rfl, rfl, rfl, rfl⟩
  split
  · exact ⟨rfl, rfl, rfl, rfl⟩
  split
  · exact ⟨rfl, rfl, rfl, rfl⟩
  · exact ⟨rfl, rfl, rfl, rfl⟩

theorem decodeBclr_flags (address word : Word) :
    (decodeBclr address word).branchTargets = [] ∧
    (decodeBclr address word).isUnconditionalReturn =
      decide (getField word 21 5 = 20 ∧ getField word 0 1 = 0) ∧
    (decodeBclr address word).isCall = decide (getField word 0 1 ≠ 0) := by
  unfold decodeBclr PpcInstruction.isUnconditionalReturn
  dsimp only
  split
  · rename_i hbo
    exact ⟨rfl, by simp [hbo], rfl⟩
  · rename_i hbo
    exact ⟨rfl, by simp [hbo], rfl⟩

theorem decodeBcctr_flags (address word : Word) :
    (decodeBcctr address word).branchTargets = [] ∧
    (decodeBcctr address word).isUnconditionalReturn =
      decide (getField word 21 5 = 20 ∧ getField word 0 1 = 0) ∧
    (decodeBcctr address word).isCall = decide (getField word 0 1 ≠ 0) := by
  unfold decodeBcctr PpcInstruction.isUnconditionalReturn
  dsimp only
  split
  · rename_i hbo
    exact ⟨rfl, by simp [hbo], rfl⟩
  · rename_i hbo
    exact ⟨rfl, by simp [hbo], rfl⟩

theorem decode_primary19 (h : getField word 26 6 = 19) :
    decode address word = decodePrimary19 address word := by
  unfold decode
  rw [h]
  rfl

theorem decodeWord_bclr (h : getField word 26 6 = 19)
    (hxo : getField word 1 10 = 16) : decodeWord address word = decodeBclr address word := by
  unfold decodeWord
  rw [decode_primary19 h]
  unfold decodePrimary19
  dsimp only
  rw [if_pos hxo]
  rfl

theorem decodeWord_bcctr (h : getField word 26 6 = 19)
    (hxo : getField word 1 10 = 528) : decodeWord address word = decodeBcctr address word := by
  unfold decodeWord
  rw [decode_primary19 h]
  unfold decodePrimary19
  dsimp only
  rw [if_neg (by omega), if_pos hxo]
  rfl

theorem decodeWord_primary19 (address : Word) (h : getField word 26 6 = 19)
    (h16 : getField word 1 10 ≠ 16) (h528 : getField word 1 10 ≠ 528) :
    (decodeWord address word).branchTargets = [] ∧ (decodeWord address word).isCall = false := by
  have hother : decodeOther address word = decodeSystem19 address word := by
    unfold decodeOther
    rw [h]
    rfl
  unfold decodeWord
  rw [decode_primary19 h, hother]
  unfold decodePrimary19
  dsimp only
  rw [if_neg h16, if_neg h528]
  split
  · exact ⟨rfl, rfl⟩
  · cases crLogicalMnemonic (getField word 1 10) with
    | some mnemonic => exact ⟨rfl, rfl⟩
    | none =>
      show (decodeSystem19 address word).branchTargets = [] ∧
        (decodeSystem19 address word).isCall = false
      unfold decodeSystem19
      split
      · exact ⟨rfl, rfl⟩
      · exact ⟨rfl, rfl⟩
      · exact ⟨rfl, rfl⟩

/-! ## the recognizers, opcode by opcode -/

theorem mayChangeControlFlow_eq (word : Word) : mayChangeControlFlow word =
    decide (getField word 26 6 = 16 ∨ getField word 26 6 = 18 ∨ getField word 26 6 = 19) := rfl

theorem not_relative (word : Word) (h : getField word 26 6 ≠ 18) :
    isRelativeUnlinkedBranch word = false ∧ isRelativeLinkedBranch word = false :=
  ⟨Bool.eq_false_iff.mpr fun hb => h ((isRelativeUnlinkedBranch_iff word).mp hb).1,
    Bool.eq_false_iff.mpr fun hb => h ((isRelativeLinkedBranch_iff word).mp hb).1⟩

theorem not_register_branch (word : Word) (h : getField word 26 6 ≠ 19) :
    isReturn word = false ∧ isBctr word = false :=
  ⟨Bool.eq_false_iff.mpr fun hb => h ((isReturn_iff word).mp hb).1,
    Bool.eq_false_iff.mpr fun hb => h ((isBctr_iff word).mp hb).1⟩

theorem tryDecodeConditional_eq (address word : Word) :
    tryDecodeConditionalRelativeBranchTarget address word =
      if getField word 26 6 = 16 ∧ getField word 1 1 = 0
      then some (address + signExtend ((word >>> 2) &&& 0x3FFF) 14 <<< 2) else none := by
  unfold tryDecodeConditionalRelativeBranchTarget primaryOpcode
  rw [displacement14_eq]
  by_cases h : getField word 26 6 = 16 ∧ getField word 1 1 = 0
  · have htwo := (and_two_eq_zero_iff word).mpr h.2
    rw [if_pos h, if_neg (by rw [not_or, not_not, not_not]; exact ⟨h.1, htwo⟩)]
  · rw [if_neg h, if_pos]
    rw [not_and_or] at h
    exact h.imp_right fun haa htwo => haa ((and_two_eq_zero_iff word).mp htwo)

theorem decodeRelative24Target_eq (address word : Word) : decodeRelative24Target address word =
    address + signExtend ((word >>> 2) &&& 0xFFFFFF) 24 <<< 2 := by
  unfold decodeRelative24Target
  rw [displacement24_eq]

theorem recognizedTargets_eq_nil (h16 : getField word 26 6 ≠ 16)
    (h18 : getField word 26 6 ≠ 18) : recognizedTargets address word = [] := by
  have hconditional := tryDecodeConditional_eq address word
  rw [if_neg fun h => h16 h.1] at hconditional
  unfold recognizedTargets tryDecodeRelativeBranchTarget tryDecodeRelativeBranchLinkTarget
  rw [(not_relative word h18).1, (not_relative word h18).2, hconditional]
  rfl

theorem BranchesAgree.of_not_register {ins : PpcInstruction}
    (h19 : getField word 26 6 ≠ 19) (hreturn : ins.isReturn = false)
    (htargets : recognizedTargets address word =
      if isAbsolute word then [] else ins.branchTargets)
    (hunlinked : isRelativeUnlinkedBranch word = (ins.isUnconditionalBranch && !isAbsolute word))
    (hlinked : isRelativeLinkedBranch word =
      (ins.isCall && !ins.isConditionalBranch && !ins.branchTargets.isEmpty && !isAbsolute word))
    (hconditional : (tryDecodeConditionalRelativeBranchTarget address word).isSome =
      (ins.isConditionalBranch && !ins.branchTargets.isEmpty && !isAbsolute word))
    (hflow : (ins.branchTargets ≠ [] ∨ ins.isCall = true) → mayChangeControlFlow word = true) :
    BranchesAgree address word ins := by
  obtain ⟨hlr, hctr⟩ := not_register_branch word h19
  have hnever : ins.isUnconditionalReturn = false := by
    show (ins.isReturn && !ins.isConditionalBranch) = false
    rw [hreturn, Bool.false_and]
  constructor
  · exact htargets
  · exact hunlinked
  · exact hlinked
  · exact hconditional
  · intro h
    rw [hlr, hctr] at h
    cases h
  · intro _
    rw [hlr, hnever, Bool.false_and]
  · intro _
    rw [hctr, hnever, Bool.false_and]
  · intro h
    rw [hreturn] at h
    exact hflow (h.imp_right fun hcall => hcall.resolve_right (by decide))

theorem agree_bc (h : getField word 26 6 = 16) :
    BranchesAgree address word (decodeWord address word) := by
  obtain ⟨htargets, hreturn, hcall, hcond⟩ := decodeBc_flags address word
  obtain ⟨hunlinked, hlinked⟩ := not_relative word (by omega)
  have hconditional := tryDecodeConditional_eq address word
  have hflow : mayChangeControlFlow word = true := by simp [mayChangeControlFlow_eq, h]
  rw [decodeWord_bc h]
  generalize decodeBc address word = ins at htargets hreturn hcall hcond
  by_cases haa : getField word 1 1 = 0
  · have habsolute : isAbsolute word = false := decide_eq_false (not_not.mpr haa)
    rw [if_pos ⟨h, haa⟩] at hconditional
    rw [if_neg (not_not.mpr haa)] at htargets
    apply BranchesAgree.of_not_register (by omega) hreturn
    · simp [recognizedTargets, tryDecodeRelativeBranchTarget, tryDecodeRelativeBranchLinkTarget,
        hunlinked, hlinked, hconditional, htargets, habsolute]
    · simp [hunlinked, PpcInstruction.isUnconditionalBranch, hcond]
    · simp [hlinked, hcond]
    · simp [hconditional, hcond, htargets, habsolute]
    · exact fun _ => hflow
  · have habsolute : isAbsolute word = true := decide_eq_true haa
    rw [if_neg fun hc => haa hc.2] at hconditional
    apply BranchesAgree.of_not_register (by omega) hreturn
    · simp [recognizedTargets, tryDecodeRelativeBranchTarget, tryDecodeRelativeBranchLinkTarget,
        hunlinked, hlinked, hconditional, habsolute]
    · simp [hunlinked, PpcInstruction.isUnconditionalBranch, hcond]
    · simp [hlinked, hcond]
    · simp [hconditional, habsolute]
    · exact fun _ => hflow

theorem agree_b (h : getField word 26 6 = 18) :
    BranchesAgree address word (decodeWord address word) := by
  have hunlinked := isRelativeUnlinkedBranch_iff word
  have hlinked := isRelativeLinkedBranch_iff word
  have hconditional := tryDecodeConditional_eq address word
  have hlk : getField word 0 1 < 2 := by rw [getField_eq]; omega
  have hflow : mayChangeControlFlow word = true := by simp [mayChangeControlFlow_eq, h]
  rw [if_neg (by omega)] at hconditional
  rw [decodeWord_b h]
  by_cases haa : getField word 1 1 = 0
  · have habsolute : isAbsolute word = false := decide_eq_false (not_not.mpr haa)
    have htarget : (decodeB address word).branchTargets = [decodeRelative24Target address word] := by
      rw [decodeRelative24Target_eq]
      simp [decodeB, haa]
    by_cases hzero : getField word 0 1 = 0
    · have hun : isRelativeUnlinkedBranch word = true := hunlinked.mpr ⟨h, haa, hzero⟩
      have hli : isRelativeLinkedBranch word = false :=
        Bool.eq_false_iff.mpr fun hc => by have := (hlinked.mp hc).2.2; omega
      apply BranchesAgree.of_not_register (by omega) rfl
      · simp [recognizedTargets, tryDecodeRelativeBranchTarget, tryDecodeRelativeBranchLinkTarget,
          hun, hli, hconditional, htarget, habsolute]
      · simp [hun, PpcInstruction.isUnconditionalBranch, htarget, habsolute]
        simp [decodeB, hzero]
      · simp [hli, decodeB, hzero]
      · simp [hconditional, decodeB]
      · exact fun _ => hflow
    · have hli : isRelativeLinkedBranch word = true := hlinked.mpr ⟨h, haa, by omega⟩
      have hun : isRelativeUnlinkedBranch word = false :=
        Bool.eq_false_iff.mpr fun hc => hzero (hunlinked.mp hc).2.2
      apply BranchesAgree.of_not_register (by omega) rfl
      · simp [recognizedTargets, tryDecodeRelativeBranchTarget, tryDecodeRelativeBranchLinkTarget,
          hun, hli, hconditional, htarget, habsolute]
      · simp [hun, PpcInstruction.isUnconditionalBranch, decodeB, hzero]
      · simp [hli, htarget, habsolute]
        simp [decodeB, hzero]
      · simp [hconditional, decodeB]
      · exact fun _ => hflow
  · -- an absolute branch is left to the decoder
    have habsolute : isAbsolute word = true := decide_eq_true haa
    have hun : isRelativeUnlinkedBranch word = false :=
      Bool.eq_false_iff.mpr fun hc => haa (hunlinked.mp hc).2.1
    have hli : isRelativeLinkedBranch word = false :=
      Bool.eq_false_iff.mpr fun hc => haa (hlinked.mp hc).2.1
    apply BranchesAgree.of_not_register (by omega) rfl
    · simp [recognizedTargets, tryDecodeRelativeBranchTarget, tryDecodeRelativeBranchLinkTarget,
        hun, hli, hconditional, habsolute]
    · simp [hun, habsolute]
    · simp [hli, habsolute]
    · simp [hconditional, habsolute]
    · exact fun _ => hflow

theorem agree_ordinary (h16 : getField word 26 6 ≠ 16)
    (h18 : getField word 26 6 ≠ 18) (h19 : getField word 26 6 ≠ 19) :
    BranchesAgree address word (decodeWord address word) := by
  obtain ⟨mnemonic, operands, isCond, hword⟩ := decodeWord_ordinary address h16 h18 h19
  obtain ⟨hunlinked, hlinked⟩ := not_relative word h18
  have hconditional := tryDecodeConditional_eq address word
  rw [if_neg fun h => h16 h.1] at hconditional
  rw [hword]
  apply BranchesAgree.of_not_register h19 rfl
  · simp [recognizedTargets_eq_nil h16 h18, ordinary]
  · simp [hunlinked, PpcInstruction.isUnconditionalBranch, ordinary]
  · simp [hlinked, ordinary]
  · simp [hconditional, ordinary]
  · simp [ordinary]

theorem agree_register {ins : PpcInstruction}
    (h : getField word 26 6 = 19) (htargets : ins.branchTargets = [])
    (hreturn : isReturn word || isBctr word →
      ins.isUnconditionalReturn = true ∧ ins.isCall = false)
    (hlr : ignoredFieldsClear word →
      isReturn word = (ins.isUnconditionalReturn && decide (extendedOpcode word = 16)))
    (hctr : ignoredFieldsClear word →
      isBctr word = (ins.isUnconditionalReturn && decide (extendedOpcode word = 528))) :
    BranchesAgree address word ins := by
  obtain ⟨hunlinked, hlinked⟩ := not_relative word (by omega)
  have hconditional := tryDecodeConditional_eq address word
  rw [if_neg (by omega)] at hconditional
  constructor
  · rw [recognizedTargets_eq_nil (by rw [h]; decide) (by rw [h]; decide), htargets, ite_self]
  · simp [hunlinked, PpcInstruction.isUnconditionalBranch, htargets]
  · simp [hlinked, htargets]
  · simp [hconditional, htargets]
  · exact fun hw => ⟨(hreturn hw).1, (hreturn hw).2, htargets⟩
  · exact hlr
  · exact hctr
  · simp [mayChangeControlFlow_eq, h]

theorem agree_primary19 (h : getField word 26 6 = 19) :
    BranchesAgree address word (decodeWord address word) := by
  have hlr := isReturn_iff word
  have hctr := isBctr_iff word
  have hlk : getField word 0 1 < 2 := by rw [getField_eq]; omega
  by_cases h16 : getField word 1 10 = 16
  · obtain ⟨htargets, hreturn, hcall⟩ := decodeBclr_flags address word
    have hnever : isBctr word = false :=
      Bool.eq_false_iff.mpr fun hc => by have := hctr.mp hc; omega
    rw [decodeWord_bclr h h16]
    apply agree_register h htargets
    · intro hw
      rw [hnever, Bool.or_false] at hw
      obtain ⟨-, hbo, -, -, -, hzero⟩ := hlr.mp hw
      rw [hreturn, hcall]
      exact ⟨decide_eq_true ⟨hbo, hzero⟩, decide_eq_false (not_not.mpr hzero)⟩
    · intro hclear
      rw [hreturn, extendedOpcode, h16, Bool.eq_iff_iff, hlr]
      obtain ⟨ha, hb⟩ : getField word 16 5 = 0 ∧ getField word 11 5 = 0 := hclear
      simp [h, h16, ha, hb]
    · intro _
      simp [hnever, extendedOpcode, h16]
  by_cases h528 : getField word 1 10 = 528
  · obtain ⟨htargets, hreturn, hcall⟩ := decodeBcctr_flags address word
    have hnever : isReturn word = false :=
      Bool.eq_false_iff.mpr fun hc => by have := hlr.mp hc; omega
    rw [decodeWord_bcctr h h528]
    apply agree_register h htargets
    · intro hw
      rw [hnever, Bool.false_or] at hw
      obtain ⟨-, hbo, -, -, -, hzero⟩ := hctr.mp hw
      rw [hreturn, hcall]
      exact ⟨decide_eq_true ⟨hbo, hzero⟩, decide_eq_false (not_not.mpr hzero)⟩
    · intro _
      simp [hnever, extendedOpcode, h528]
    · intro hclear
      rw [hreturn, extendedOpcode, h528, Bool.eq_iff_iff, hctr]
      obtain ⟨ha, hb⟩ : getField word 16 5 = 0 ∧ getField word 11 5 = 0 := hclear
      simp [h, h528, ha, hb]
  · -- a condition-register operation, `rfi` or `isync`
    obtain ⟨htargets, hcall⟩ := decodeWord_primary19 address h h16 h528
    have hneverLr : isReturn word = false :=
      Bool.eq_false_iff.mpr fun hc => by have := hlr.mp hc; omega
    have hneverCtr : isBctr word = false :=
      Bool.eq_false_iff.mpr fun hc => by have := hctr.mp hc; omega
    apply agree_register h htargets
    · simp [hneverLr, hneverCtr]
    · simp [hneverLr, extendedOpcode, h16]
    · simp [hneverCtr, extendedOpcode, h528]

/-- **The recognizers tell of a word what the decoder makes of it**: targets, links and conditions
of every relative branch, and the unconditional returns whose ignored fields are clear. -/
theorem raw_branches_agree (address word : Word) :
    BranchesAgree address word (decodeWord address word) := by
  by_cases h16 : getField word 26 6 = 16
  · exact agree_bc h16
  by_cases h18 : getField word 26 6 = 18
  · exact agree_b h18
  by_cases h19 : getField word 26 6 = 19
  · exact agree_primary19 h19
  · exact agree_ordinary h16 h18 h19

/-- an absolute branch has a target that no recognizer finds, and a return whose ignored field is
not clear is one to the decoder only -/
theorem raw_branches_differ :
    ((decodeWord 0x80004000 0x48000102).branchTargets = [0x100] ∧
      recognizedTargets 0x80004000 0x48000102 = []) ∧
    ((decodeWord 0x80004000 0x4E810020).isUnconditionalReturn = true ∧
      (isReturn 0x4E810020 || isBctr 0x4E810020) = false) := by
  decide +kernel

end DolTranslator.Ppc
