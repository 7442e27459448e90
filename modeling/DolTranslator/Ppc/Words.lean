import DolTranslator.Ppc.Decoder

/-!
# The decoder on every word

`PpcDecoder.Decode` on the words that `decode` leaves out: loads and stores, system instructions,
floating point and paired singles.

* `fReg`, `displacement`   the operands of these instructions;
* `decodeOther`   the words of the remaining families;
* `decodeWord`   `PpcDecoder.Decode`;
* `decodeWord_cases`   what a word can decode to.
-/

namespace DolTranslator.Ppc

/-! ## operands -/

def fReg (number : Nat) : PpcOperand := .register ("f" ++ toString number) number

/-- `new PpcDisplacementOperand(offset, RegName(rA), rA)` -/
def displacement (offset : Int) (rA : Nat) : PpcOperand := .displacement offset (gprName rA) rA

def decodeSpr (word : Word) : Nat := getField word 16 5 + 32 * getField word 11 5

/-- an instruction that is not a branch -/
def ordinary (address word : Word) (mnemonic : String) (operands : List PpcOperand)
    (isCond : Bool) : PpcInstruction :=
  ⟨address, word, mnemonic, operands, [], false, false, isCond⟩

/-! ## loads and stores -/

/-- primary opcodes 32 to 55, with the register file of the first operand -/
def displacementForm : Nat → Option (String × (Nat → PpcOperand))
  | 32 => some ("lwz", reg)
  | 33 => some ("lwzu", reg)
  | 34 => some ("lbz", reg)
  | 35 => some ("lbzu", reg)
  | 36 => some ("stw", reg)
  | 37 => some ("stwu", reg)
  | 38 => some ("stb", reg)
  | 39 => some ("stbu", reg)
  | 40 => some ("lhz", reg)
  | 41 => some ("lhzu", reg)
  | 42 => some ("lha", reg)
  | 43 => some ("lhau", reg)
  | 44 => some ("sth", reg)
  | 45 => some ("sthu", reg)
  | 46 => some ("lmw", reg)
  | 47 => some ("stmw", reg)
  | 48 => some ("lfs", fReg)
  | 49 => some ("lfsu", fReg)
  | 50 => some ("lfd", fReg)
  | 51 => some ("lfdu", fReg)
  | 52 => some ("stfs", fReg)
  | 53 => some ("stfsu", fReg)
  | 54 => some ("stfd", fReg)
  | 55 => some ("stfdu", fReg)
  | _ => none

/-- primary opcodes 56, 57, 60 and 61 -/
def quantizedForm : Nat → Option String
  | 56 => some "psq_l"
  | 57 => some "psq_lu"
  | 60 => some "psq_st"
  | 61 => some "psq_stu"
  | _ => none

/-- extended opcodes of primary opcode 31 with three registers -/
def indexedForm : Nat → Option (String × (Nat → PpcOperand))
  | 23 => some ("lwzx", reg)
  | 55 => some ("lwzux", reg)
  | 87 => some ("lbzx", reg)
  | 151 => some ("stwx", reg)
  | 183 => some ("stwux", reg)
  | 215 => some ("stbx", reg)
  | 247 => some ("stbux", reg)
  | 310 => some ("eciwx", reg)
  | 279 => some ("lhzx", reg)
  | 311 => some ("lhzux", reg)
  | 343 => some ("lhax", reg)
  | 375 => some ("lhaux", reg)
  | 407 => some ("sthx", reg)
  | 438 => some ("ecowx", reg)
  | 439 => some ("sthux", reg)
  | 533 => some ("lswx", reg)
  | 535 => some ("lfsx", fReg)
  | 567 => some ("lfsux", fReg)
  | 599 => some ("lfdx", fReg)
  | 631 => some ("lfdux", fReg)
  | 663 => some ("stfsx", fReg)
  | 661 => some ("stswx", reg)
  | 695 => some ("stfsux", fReg)
  | 727 => some ("stfdx", fReg)
  | 759 => some ("stfdux", fReg)
  | 534 => some ("lwbrx", reg)
  | 662 => some ("stwbrx", reg)
  | 790 => some ("lhbrx", reg)
  | 918 => some ("sthbrx", reg)
  | 983 => some ("stfiwx", fReg)
  | _ => none

/-- the words of primary opcode 31 that `decodePrimary31` leaves out -/
def decodeSystem31 (address word : Word) : PpcInstruction :=
  let xo10 := getField word 1 10
  let rs := getField word 21 5
  let ra := getField word 16 5
  let rb := getField word 11 5
  let plain (mnemonic : String) (operands : List PpcOperand) :=
    ordinary address word mnemonic operands false
  match getField word 1 9 with
  | 4 => plain "tw" [.immediate rs, reg ra, reg rb]
  | 19 => plain "mfcr" [reg rs]
  | 20 => plain "lwarx" [reg rs, reg ra, reg rb]
  | 83 =>
    if xo10 = 595 then plain "mfsr" [reg rs, .immediate (ra % 16)] else plain "mfmsr" [reg rs]
  | 146 => plain "mtmsr" [reg rs]
  | 144 => plain "mtcrf" [.immediate (getField word 12 8), reg rs]
  | 339 =>
    match decodeSpr word with
    | 8 => plain "mflr" [reg rs]
    | 9 => plain "mfctr" [reg rs]
    | 1 => plain "mfxer" [reg rs]
    | spr => plain "mfspr" [reg rs, .immediate spr]
  | 467 =>
    match decodeSpr word with
    | 8 => plain "mtlr" [reg rs]
    | 9 => plain "mtctr" [reg rs]
    | 1 => plain "mtxer" [reg rs]
    | spr => plain "mtspr" [.immediate spr, reg rs]
  | 210 => plain "mtsr" [.immediate (ra % 16), reg rs]
  | 242 => plain "mtsrin" [reg rs, reg rb]
  | 498 => ordinary address word "stwcx." [reg rs, reg ra, reg rb] true
  | _ =>
    match indexedForm xo10, xo10 with
    | some (mnemonic, file), _ => plain mnemonic [file rs, reg ra, reg rb]
    | none, 54 => plain "dcbst" [reg ra, reg rb]
    | none, 86 => plain "dcbf" [reg ra, reg rb]
    | none, 246 => plain "dcbtst" [reg ra, reg rb]
    | none, 278 => plain "dcbt" [reg ra, reg rb]
    | none, 306 => plain "tlbie" [reg rb]
    | none, 470 => plain "dcbi" [reg ra, reg rb]
    | none, 598 => plain "sync" []
    | none, 566 => plain "tlbsync" []
    | none, 597 => plain "lswi" [reg rs, reg ra, .immediate rb]
    | none, 725 => plain "stswi" [reg rs, reg ra, .immediate rb]
    | none, 758 => plain "dcba" [reg ra, reg rb]
    | none, 854 => plain "eieio" []
    | none, 371 =>
      let tbr := decodeSpr word
      plain (if tbr = 269 then "mftbu" else "mftb")
        (reg rs :: if tbr = 268 ∨ tbr = 269 then [] else [.immediate tbr])
    | none, 659 => plain "mfsrin" [reg rs, reg rb]
    | none, 982 => plain "icbi" [reg ra, reg rb]
    | none, 1014 => plain "dcbz" [reg ra, reg rb]
    | none, xo10 => plain ("xo_" ++ toString xo10) []

/-- the words of primary opcode 19 that `decodePrimary19` leaves out -/
def decodeSystem19 (address word : Word) : PpcInstruction :=
  match getField word 1 10 with
  | 50 => ⟨address, word, "rfi", [], [], true, false, false⟩
  | 150 => ordinary address word "isync" [] false
  | _ => ordinary address word "unk19" [] false

/-! ## floating point -/

/-- the operands of an A-form instruction: frD, frA, frC, frB -/
def fourOperands (word : Word) : List PpcOperand :=
  [fReg (getField word 21 5), fReg (getField word 16 5), fReg (getField word 6 5),
    fReg (getField word 11 5)]

def productOperands (word : Word) : List PpcOperand :=
  [fReg (getField word 21 5), fReg (getField word 16 5), fReg (getField word 6 5)]

def sumOperands (word : Word) : List PpcOperand :=
  [fReg (getField word 21 5), fReg (getField word 16 5), fReg (getField word 11 5)]

def moveOperands (word : Word) : List PpcOperand :=
  [fReg (getField word 21 5), fReg (getField word 11 5)]

def compareOperands (word : Word) : List PpcOperand :=
  [crField (getField word 23 3), fReg (getField word 16 5), fReg (getField word 11 5)]

/-- primary opcode 59 -/
def decodePrimary59 (address word : Word) : PpcInstruction :=
  let rc := getField word 0 1 ≠ 0
  let named (mnemonic : String) (operands : List PpcOperand) :=
    ordinary address word (withRc mnemonic rc) operands false
  match getField word 1 5 with
  | 18 => named "fdivs" (sumOperands word)
  | 20 => named "fsubs" (sumOperands word)
  | 21 => named "fadds" (sumOperands word)
  | 24 => named "fres" (moveOperands word)
  | 25 => named "fmuls" (productOperands word)
  | 28 => named "fmsubs" (fourOperands word)
  | 29 => named "fmadds" (fourOperands word)
  | 30 => named "fnmsubs" (fourOperands word)
  | 31 => named "fnmadds" (fourOperands word)
  | _ => ordinary address word "opc_59" [] false

/-- primary opcode 63 -/
def decodePrimary63 (address word : Word) : PpcInstruction :=
  let rc := getField word 0 1 ≠ 0
  let xo := getField word 1 10
  let named (mnemonic : String) (operands : List PpcOperand) :=
    ordinary address word (withRc mnemonic rc) operands false
  match xo % 32, xo with
  | 23, _ => named "fsel" (fourOperands word)
  | 25, _ => named "fmul" (productOperands word)
  | 28, _ => named "fmsub" (fourOperands word)
  | 29, _ => named "fmadd" (fourOperands word)
  | 30, _ => named "fnmsub" (fourOperands word)
  | 31, _ => named "fnmadd" (fourOperands word)
  | _, 64 =>
    ordinary address word "mcrfs" [crField (getField word 23 3), crField (getField word 18 3)] true
  | _, 0 => ordinary address word "fcmpu" (compareOperands word) true
  | _, 32 => ordinary address word "fcmpo" (compareOperands word) true
  | _, 38 => named "mtfsb1" [.immediate (getField word 21 5)]
  | _, 70 => named "mtfsb0" [.immediate (getField word 21 5)]
  | _, 134 => named "mtfsfi" [.immediate (getField word 23 3), .immediate (getField word 12 4)]
  | _, 583 => named "mffs" [fReg (getField word 21 5)]
  | _, 711 => named "mtfsf" [.immediate (getField word 17 8), fReg (getField word 11 5)]
  | _, 14 => named "fctiw" (moveOperands word)
  | _, 15 => named "fctiwz" (moveOperands word)
  | _, 12 => named "frsp" (moveOperands word)
  | _, 18 => named "fdiv" (sumOperands word)
  | _, 20 => named "fsub" (sumOperands word)
  | _, 21 => named "fadd" (sumOperands word)
  | _, 24 => named "fres" (moveOperands word)
  | _, 26 => named "frsqrte" (moveOperands word)
  | _, 40 => named "fneg" (moveOperands word)
  | _, 136 => named "fnabs" (moveOperands word)
  | _, 72 => named "fmr" (moveOperands word)
  | _, 264 => named "fabs" (moveOperands word)
  | _, xo => ordinary address word ("fp_" ++ toString xo) [] false

/-- primary opcode 4 -/
def decodePairedSingle (address word : Word) : PpcInstruction :=
  let rc := getField word 0 1 ≠ 0
  let xo := getField word 1 10
  let frt := getField word 21 5
  let fra := getField word 16 5
  let frb := getField word 11 5
  let named (mnemonic : String) (operands : List PpcOperand) :=
    ordinary address word (withRc mnemonic rc) operands false
  -- W and the quantization register stand in the fields of an indexed access
  let quantized (mnemonic : String) :=
    ordinary address word mnemonic [fReg frt, reg fra, reg frb, .immediate (getField word 10 1),
      .immediate (getField word 7 3)] false
  let compare (mnemonic : String) := ordinary address word mnemonic (compareOperands word) true
  match xo % 32 with
  | 29 => named "ps_madd" (fourOperands word)
  | 28 => named "ps_msub" (fourOperands word)
  | 30 => named "ps_nmsub" (fourOperands word)
  | 31 => named "ps_nmadd" (fourOperands word)
  | 25 => named "ps_mul" (productOperands word)
  | 23 => named "ps_sel" (fourOperands word)
  | 14 => named "ps_madds0" (fourOperands word)
  | 15 => named "ps_madds1" (fourOperands word)
  | 10 => named "ps_sum0" (fourOperands word)
  | 11 => named "ps_sum1" (fourOperands word)
  | 12 => named "ps_muls0" (productOperands word)
  | 13 => named "ps_muls1" (productOperands word)
  | _ =>
    match xo % 64, xo with
    | 6, _ => quantized "psq_lx"
    | 38, _ => quantized "psq_lux"
    | 7, _ => quantized "psq_stx"
    | 39, _ => quantized "psq_stux"
    | _, 21 => named "ps_add" (sumOperands word)
    | _, 20 => named "ps_sub" (sumOperands word)
    | _, 18 => named "ps_div" (sumOperands word)
    | _, 24 => named "ps_res" (moveOperands word)
    | _, 26 => named "ps_rsqrte" (moveOperands word)
    | _, 528 => named "ps_merge00" (sumOperands word)
    | _, 560 => named "ps_merge01" (sumOperands word)
    | _, 592 => named "ps_merge10" (sumOperands word)
    | _, 624 => named "ps_merge11" (sumOperands word)
    | _, 72 => named "ps_mr" (moveOperands word)
    | _, 40 => named "ps_neg" (moveOperands word)
    | _, 264 => named "ps_abs" (moveOperands word)
    | _, 136 => named "ps_nabs" (moveOperands word)
    | _, 0 => compare "ps_cmpu0"
    | _, 32 => compare "ps_cmpo0"
    | _, 64 => compare "ps_cmpu1"
    | _, 96 => compare "ps_cmpo1"
    | _, 1014 => ordinary address word "dcbz_l" [reg fra, reg frb] false
    | _, xo => ordinary address word ("opc_4_" ++ toString xo) [] false

/-- the words that `decode` leaves out -/
def decodeOther (address word : Word) : PpcInstruction :=
  let rD := getField word 21 5
  let rA := getField word 16 5
  let plain (mnemonic : String) (operands : List PpcOperand) :=
    ordinary address word mnemonic operands false
  match displacementForm (getField word 26 6), quantizedForm (getField word 26 6),
    getField word 26 6 with
  | some (mnemonic, file), _, _ =>
    plain mnemonic [file rD, displacement (shortImmediate word) rA]
  | _, some mnemonic, _ =>
    plain mnemonic [fReg rD, displacement (signExtend (word &&& 0xFFF) 12).toInt rA,
      .immediate (getField word 15 1), .immediate (getField word 12 3)]
  | _, _, 3 => plain "twi" [.immediate rD, reg rA, .immediate (shortImmediate word)]
  | _, _, 4 => decodePairedSingle address word
  | _, _, 17 => plain "sc" []
  | _, _, 19 => decodeSystem19 address word
  | _, _, 31 => decodeSystem31 address word
  | _, _, 59 => decodePrimary59 address word
  | _, _, 63 => decodePrimary63 address word
  | _, _, primary => plain ("opc_" ++ toString primary) []

/-- `PpcDecoder.Decode` -/
def decodeWord (address word : Word) : PpcInstruction :=
  (decode address word).getD (decodeOther address word)

/-! ## what a word decodes to -/

/-- an instruction that is not a branch, a branch, or a return from an interrupt -/
inductive DecodedAs (address word : Word) : PpcInstruction → Prop where
  | ordinary (mnemonic : String) (operands : List PpcOperand) (isCond : Bool) :
      DecodedAs address word (ordinary address word mnemonic operands isCond)
  | bc : DecodedAs address word (decodeBc address word)
  | b : DecodedAs address word (decodeB address word)
  | bclr : DecodedAs address word (decodeBclr address word)
  | bcctr : DecodedAs address word (decodeBcctr address word)
  | rfi : DecodedAs address word ⟨address, word, "rfi", [], [], true, false, false⟩

variable {ins : PpcInstruction} {address word : Word}

theorem DecodedAs.plain {mnemonic : String}
    {operands : List PpcOperand} {isCond : Bool}
    (h : plainInstruction address word mnemonic operands isCond = some ins) :
    DecodedAs address word ins :=
  Option.some.inj h ▸ .ordinary mnemonic operands isCond

theorem decodePrimary19_cases
    (h : decodePrimary19 address word = some ins) : DecodedAs address word ins := by
  unfold decodePrimary19 at h
  dsimp only at h
  split at h
  · exact Option.some.inj h ▸ .bclr
  split at h
  · exact Option.some.inj h ▸ .bcctr
  split at h
  · exact .plain h
  split at h
  · exact .plain h
  · cases h

theorem decodePrimary31_cases
    (h : decodePrimary31 address word = some ins) : DecodedAs address word ins := by
  unfold decodePrimary31 at h
  dsimp only at h
  split at h
  all_goals first
    | exact .plain h
    | cases h
    | skip
  all_goals split at h
  all_goals first
    | exact .plain h
    | cases h
    | skip
  all_goals split at h
  all_goals first
    | exact .plain h
    | cases h

theorem decode_cases (h : decode address word = some ins) : DecodedAs address word ins := by
  unfold decode at h
  dsimp only at h
  split at h
  all_goals first
    | exact .plain h
    | (split at h <;> exact .plain h)
    | exact decodePrimary19_cases h
    | exact decodePrimary31_cases h
    | skip
  · exact Option.some.inj h ▸ .bc
  · exact Option.some.inj h ▸ .b
  · cases h

theorem decodeSystem19_cases (address word : Word) :
    DecodedAs address word (decodeSystem19 address word) := by
  unfold decodeSystem19
  split
  · exact .rfi
  · exact .ordinary _ _ _
  · exact .ordinary _ _ _

theorem decodeOther_cases (address word : Word) :
    DecodedAs address word (decodeOther address word) := by
  unfold decodeOther
  dsimp only
  split
  all_goals first
    | exact .ordinary _ _ _
    | exact decodeSystem19_cases address word
    | skip
  · unfold decodePairedSingle
    dsimp only
    split
    all_goals first
      | exact .ordinary _ _ _
      | split <;> exact .ordinary _ _ _
  · unfold decodeSystem31
    dsimp only
    split
    all_goals first
      | exact .ordinary _ _ _
      | split <;> exact .ordinary _ _ _
  · unfold decodePrimary59
    dsimp only
    split <;> exact .ordinary _ _ _
  · unfold decodePrimary63
    dsimp only
    split <;> exact .ordinary _ _ _

/-- **Every word decodes to one of six forms.** -/
theorem decodeWord_cases (address word : Word) :
    DecodedAs address word (decodeWord address word) := by
  unfold decodeWord
  cases h : decode address word with
  | none => exact decodeOther_cases address word
  | some ins => exact decode_cases h

/-! ## addresses and calls -/

theorem decodeBc_shape (address word : Word) : (decodeBc address word).address = address ∧
    (decodeBc address word).branchTargets ≠ [] ∧ (decodeBc address word).isReturn = false := by
  unfold decodeBc
  dsimp only
  split
  · exact ⟨rfl, List.cons_ne_nil _ _, rfl⟩
  · split
    · exact ⟨rfl, List.cons_ne_nil _ _, rfl⟩
    · split <;> exact ⟨rfl, List.cons_ne_nil _ _, rfl⟩

theorem DecodedAs.address_eq (h : DecodedAs address word ins) : ins.address = address := by
  cases h with
  | ordinary | b | rfi => rfl
  | bc => exact (decodeBc_shape address word).1
  | bclr =>
    unfold decodeBclr
    dsimp only
    split <;> rfl
  | bcctr =>
    unfold decodeBcctr
    dsimp only
    split <;> rfl

@[simp]
theorem decodeWord_address (address word : Word) :
    (decodeWord address word).address = address :=
  (decodeWord_cases address word).address_eq

def linkMnemonics : List String :=
  ["blrl", "bltlrl", "bgtlrl", "beqlrl", "bsolrl", "bgelrl", "blelrl", "bnelrl", "bnslrl", "bclrl",
    "bctrl", "bcctrl"]

theorem bclrMnemonic_link (bo crBit : Nat) : bclrMnemonic bo crBit true ∈ linkMnemonics := by
  unfold bclrMnemonic
  split <;> first | decide | contradiction

theorem decodeBclr_isCall (h : (decodeBclr address word).isCall = true) :
    (decodeBclr address word).mnemonic ∈ linkMnemonics := by
  unfold decodeBclr at h ⊢
  dsimp only at h ⊢
  split at h
  · rename_i hbo
    have hlk : getField word 0 1 ≠ 0 := of_decide_eq_true h
    rw [if_pos hbo]
    dsimp only
    rw [if_pos hlk]
    decide
  · rename_i hbo
    rw [if_neg hbo]
    dsimp only at h ⊢
    rw [h]
    exact bclrMnemonic_link _ _

theorem decodeBcctr_isCall (h : (decodeBcctr address word).isCall = true) :
    (decodeBcctr address word).mnemonic ∈ linkMnemonics := by
  unfold decodeBcctr at h ⊢
  dsimp only at h ⊢
  split at h
  · rename_i hbo
    have hlk : getField word 0 1 ≠ 0 := of_decide_eq_true h
    rw [if_pos hbo]
    dsimp only
    rw [if_pos hlk]
    decide
  · rename_i hbo
    have hlk : getField word 0 1 ≠ 0 := of_decide_eq_true h
    rw [if_neg hbo]
    dsimp only
    rw [if_pos hlk]
    decide

theorem decodeWord_isCall (hcall : (decodeWord address word).isCall = true)
    (ht : (decodeWord address word).branchTargets = []) :
    (decodeWord address word).mnemonic ∈ linkMnemonics := by
  have hcases := decodeWord_cases address word
  generalize decodeWord address word = ins at hcall ht hcases ⊢
  cases hcases with
  | ordinary | rfi => cases hcall
  | bc => exact absurd ht (decodeBc_shape address word).2.1
  | b => cases ht
  | bclr => exact decodeBclr_isCall hcall
  | bcctr => exact decodeBcctr_isCall hcall

theorem DecodedAs.call_not_return
    (h : DecodedAs address word ins) (hcall : ins.isCall = true) : ins.isReturn = false := by
  cases h with
  | ordinary | rfi => cases hcall
  | b => rfl
  | bc => exact (decodeBc_shape address word).2.2
  | bclr =>
    unfold decodeBclr at hcall ⊢
    dsimp only at hcall ⊢
    split at hcall <;> simp_all
  | bcctr =>
    unfold decodeBcctr at hcall ⊢
    dsimp only at hcall ⊢
    split at hcall <;> simp_all

theorem DecodedAs.return_targets
    (h : DecodedAs address word ins) (hreturn : ins.isReturn = true) : ins.branchTargets = [] := by
  cases h with
  | ordinary | rfi => rfl
  | b => cases hreturn
  | bc =>
    rw [(decodeBc_shape address word).2.2] at hreturn
    cases hreturn
  | bclr =>
    unfold decodeBclr
    dsimp only
    split <;> rfl
  | bcctr =>
    unfold decodeBcctr
    dsimp only
    split <;> rfl

end DolTranslator.Ppc
