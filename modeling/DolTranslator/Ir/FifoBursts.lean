import DolTranslator.Ir.LinkedAddresses
import DolTranslator.Psq.PairedTags

/-!
# Bursts of FIFO writes

Stores to the gather pipe that follow each other are collected in a buffer, which is written to the
FIFO behind the last of them.

* `TryClassifyKnownGpuFifoStore`   the stores that are known to go to the pipe;
* `BuildGpuFifoBurstPlan`   the buffers, and where each store puts its bytes;
* `plainStep`, `burstStep`   an instruction as it is emitted without the plan, and with it;
* `pending_place`   inside a run the FIFO lacks what the buffer holds;
* `bursts_eq_writes`   the two bodies send the same.
-/

namespace DolTranslator.FifoBurst
open Dataflow Gqr Linked Paired

/-! ## the plan -/

/-- `BuildKnownUIntConstants`: of the whole function, by SSA name -/
def buildKnownUIntConstants (f : IrFunction) : Constants :=
  (f.blocks.flatMap IrBasicBlock.instructions).foldl (fun constants ins =>
    match ins, trackedValue constants ins with
    | .assign d _, some value | .binary d .., some value => constants.insert (foldCase d) value
    | _, _ => constants) ∅

def tryGetKnownEffectiveAddress (constants : Constants) (address : IrAddress) : Option Word :=
  (constants.lookup (foldCase address.base)).map (· + BitVec.ofInt 32 address.offset)

def isGpuFifoAddress (address : Word) : Bool :=
  decide (0xCC008000 ≤ address ∧ address < 0xCC008100)

structure GpuFifoStoreInfo where
  isFloat : Bool
  byteLength : Nat

def isFloatStore : IrValue → Bool
  | .register name => (floatBit name).isSome
  | .imm _ => false

def tryClassifyKnownGpuFifoStore (constants : Constants) :
    IrInstruction → Option GpuFifoStoreInfo
  | .store address source size =>
    if (tryGetKnownEffectiveAddress constants address).any isGpuFifoAddress then
      if isFloatStore source then if size = 4 then some ⟨true, 4⟩ else none
      else if size ∈ [1, 2, 4] then some ⟨false, size⟩ else none
    else none
  | _ => none

def isGpuFifoBurstTransparent : IrInstruction → Bool
  | .assign .. | .binary .. | .comment _ | .tracePpc .. | .phi .. | .setCrField .. => true
  | _ => false

def minimumGpuFifoBurstStores : Nat := 4

/-- an instruction with its index, its place in a buffer, and the size of the buffer that is
complete behind it; a buffer is named after the first store of its run -/
structure Placed where
  ins : IrInstruction
  index : Nat
  slot : Option (Nat × Nat × Nat)
  completion : Option (Nat × Nat × Nat)

def unplaced (x : IrInstruction × Nat) : Placed := ⟨x.1, x.2, none, none⟩

section
variable (constants : Constants) (b : Nat)

def isMember (x : IrInstruction × Nat) : Bool :=
  (tryClassifyKnownGpuFifoStore constants x.1).isSome

def totalBytes (members : List (IrInstruction × Nat)) : Nat :=
  (members.map fun x =>
    ((tryClassifyKnownGpuFifoStore constants x.1).map GpuFifoStoreInfo.byteLength).getD 0).sum

def placeRun (run total : Nat) : Nat → List (IrInstruction × Nat) → List Placed
  | _, [] => []
  | offset, (ins, i) :: rest =>
    match tryClassifyKnownGpuFifoStore constants ins with
    | none => ⟨ins, i, none, none⟩ :: placeRun run total offset rest
    | some info =>
      ⟨ins, i, some (b, run, offset),
        if rest.any (isMember constants) then none else some (b, run, total)⟩ ::
        placeRun run total (offset + info.byteLength) rest

def spans (x : IrInstruction × Nat) : Bool := isMember constants x || isGpuFifoBurstTransparent x.1

def buildGpuFifoBurstPlan : List (IrInstruction × Nat) → List Placed
  | [] => []
  | x :: rest =>
    if isMember constants x then
      let scanned := x :: rest.takeWhile (spans constants)
      (if minimumGpuFifoBurstStores ≤ scanned.countP (isMember constants) then
        placeRun constants b x.2 (totalBytes constants scanned) 0 scanned
      else scanned.map unplaced) ++ buildGpuFifoBurstPlan (rest.dropWhile (spans constants))
    else unplaced x :: buildGpuFifoBurstPlan rest
termination_by l => l.length
decreasing_by
  · exact Nat.lt_succ_of_le (List.length_dropWhile_le ..)
  · exact Nat.lt_succ_self _

end

/-! ## the two bodies -/

/-- what the emitted code runs on: the runtime, the FIFO, which takes bytes, the casts of an
operand to a word and to the bits of a single, the conversion of a pair that is stored as a scalar;
and for an instruction whether it leaves the function, is suppressed, or stores a pair -/
structure Target (V W : Type) where
  env : Env V W
  send : UInt8 → W → W
  toWord : V → Word
  toSingle : V → Word
  toScalar : V → V
  leaves : IrInstruction → State V W → Bool
  suppressed : Nat → Nat → Bool
  pairedSource : Nat → Nat → Bool

/-- the registers, the world, all that went out, and whether the function has been left -/
structure Progress (V W : Type) extends State V W where
  sent : List (UInt8 ⊕ Event V)
  left : Bool

abbrev Buffers := Nat → Nat → Nat → UInt8

section
variable {V W : Type} (t : Target V W) (constants : Constants) (b : Nat)

def sendAll (bytes : List UInt8) (s : Progress V W) : Progress V W :=
  { s with
    world := bytes.foldl (fun w byte => t.send byte w) s.world
    sent := s.sent ++ bytes.map .inl }

def storedWord (i : Nat) (info : GpuFifoStoreInfo) (s : Progress V W) : IrInstruction → Word
  | .store _ source _ =>
    let value := source.eval t.env fun x => s.regs (cellOf x)
    if info.isFloat then t.toSingle (if t.pairedSource b i then t.toScalar value else value)
    else t.toWord value
  | _ => 0

/-- `GX_HLE_FIFO_Write*`: an unsigned number of one, two or four bytes, the highest first -/
def fifoWrite (length value : Nat) : List UInt8 :=
  (List.range length).map fun k => UInt8.ofNat (value >>> (8 * (length - 1 - k)))

/-- any other instruction; a transparent one does not leave the function -/
def performOther (ins : IrInstruction) (s : Progress V W) : Progress V W :=
  let r := s.toState.emittedStep t.env ins
  ⟨r.1, s.sent ++ r.2.map .inr, !isGpuFifoBurstTransparent ins && t.leaves ins s.toState⟩

/-- nothing is emitted for the instruction, or control does not come to it -/
def passes (ins : IrInstruction) (i : Nat) (s : Progress V W) : Bool :=
  s.left || t.suppressed b i && suppressible ins

def plainStep (s : Progress V W) (x : IrInstruction × Nat) : Progress V W :=
  if passes t b x.1 x.2 s then s
  else
    match tryClassifyKnownGpuFifoStore constants x.1 with
    | some info => sendAll t (fifoWrite info.byteLength
        ((storedWord t b x.2 info s x.1).toNat % 2 ^ (8 * info.byteLength))) s
    | none => performOther t x.1 s

/-- `EmitGpuFifoBurstSlotStore` -/
def slotStore (info : GpuFifoStoreInfo) (word : Word) (slot : Nat × Nat × Nat)
    (buffers : Buffers) : Buffers := fun block run k =>
  if block = slot.1 ∧ run = slot.2.1 ∧ slot.2.2 ≤ k ∧ k < slot.2.2 + info.byteLength then
    UInt8.ofNat (word.toNat >>> (8 * (info.byteLength - 1 - (k - slot.2.2))))
  else buffers block run k

def burstStep (c : Progress V W × Buffers) (x : Placed) : Progress V W × Buffers :=
  if passes t b x.ins x.index c.1 then c
  else
    let done : Progress V W × Buffers :=
      match tryClassifyKnownGpuFifoStore constants x.ins, x.slot with
      | some info, some slot =>
        (c.1, slotStore info (storedWord t b x.index info c.1 x.ins) slot c.2)
      | _, _ => (plainStep t constants b c.1 (x.ins, x.index), c.2)
    match x.completion with
    | some (block, run, total) =>
      (sendAll t ((List.range total).map (done.2 block run)) done.1, done.2)
    | none => done

/-- a run block by block; `exit` is what both bodies do at the end of a block -/
def runPlain (f : IrFunction) (exit : Nat → Progress V W → Option (Nat × Progress V W)) :
    Nat → Nat × Progress V W → Option (Nat × Progress V W)
  | 0, c => some c
  | n + 1, (b, s) => (exit b ((f.body b).zipIdx.foldl
      (plainStep t (buildKnownUIntConstants f) b) s)).bind (runPlain f exit n)

def runBurst (f : IrFunction) (exit : Nat → Progress V W → Option (Nat × Progress V W)) :
    Nat → Nat × Progress V W → Buffers → Option (Nat × Progress V W)
  | 0, c, _ => some c
  | n + 1, (b, s), buffers =>
    let constants := buildKnownUIntConstants f
    let r := (buildGpuFifoBurstPlan constants b (f.body b).zipIdx).foldl (burstStep t constants b)
      (s, buffers)
    (exit b r.1).bind fun c => runBurst f exit n c r.2

end

/-! ## a run of stores -/

section
variable {V W : Type} {t : Target V W} {constants : Constants} {b run total offset : Nat}
  {s : Progress V W} {buffers : Buffers} {l : List (IrInstruction × Nat)}

theorem sendAll_append (xs ys : List UInt8) (s : Progress V W) :
    sendAll t (xs ++ ys) s = sendAll t ys (sendAll t xs s) := by
  simp [sendAll]

theorem burstStep_unplaced (c : Progress V W × Buffers) (x : IrInstruction × Nat) :
    burstStep t constants b c (unplaced x) = (plainStep t constants b c.1 x, c.2) := by
  unfold burstStep
  split_ifs with hpasses
  · exact Prod.ext (if_pos hpasses).symm rfl
  · simp [unplaced]

theorem foldl_unplaced (c : Progress V W × Buffers) :
    (l.map unplaced).foldl (burstStep t constants b) c =
      (l.foldl (plainStep t constants b) c.1, c.2) := by
  induction l generalizing c with
  | nil => rfl
  | cons x l ih => rw [List.map_cons, List.foldl_cons, burstStep_unplaced, ih, List.foldl_cons]

theorem foldl_left (buffers : Buffers) (hleft : s.left = true) :
    l.foldl (plainStep t constants b) s = s ∧
    ∀ placed : List Placed, placed.foldl (burstStep t constants b) (s, buffers) = (s, buffers) := by
  constructor
  · exact List.foldl_fixed' (fun x => by rw [plainStep, if_pos (by rw [passes, hleft]; rfl)]) l
  · exact fun placed => List.foldl_fixed'
      (fun x => by rw [burstStep, if_pos (by rw [passes, hleft]; rfl)]) placed

theorem no_members (b run total offset : Nat) (h : l.any (isMember constants) = false) :
    placeRun constants b run total offset l = l.map unplaced ∧ totalBytes constants l = 0 := by
  induction l with
  | nil => exact ⟨rfl, rfl⟩
  | cons x l ih =>
    rw [List.any_cons, Bool.or_eq_false_iff] at h
    have hx : tryClassifyKnownGpuFifoStore constants x.1 = none := by simpa [isMember] using h.1
    obtain ⟨hplace, htotal⟩ := ih h.2
    constructor
    · rw [placeRun, hx, List.map_cons, ← hplace]
      rfl
    · rw [totalBytes, List.map_cons, List.sum_cons, hx]
      simpa [totalBytes] using htotal

theorem performOther_sendAll {ins : IrInstruction} (h : isGpuFifoBurstTransparent ins = true)
    (pending : List UInt8) (s : Progress V W) :
    performOther t ins (sendAll t pending s) = sendAll t pending (performOther t ins s) ∧
      (performOther t ins s).left = false := by
  constructor
  · cases ins <;> simp only [isGpuFifoBurstTransparent, Bool.false_eq_true] at h <;>
      simp [performOther, sendAll, State.emittedStep, execute, isGpuFifoBurstTransparent]
  · rw [performOther, h]
    rfl

theorem fifoWrite_mod (n word : Nat) : fifoWrite n (word % 2 ^ (8 * n)) = fifoWrite n word := by
  refine List.map_congr_left fun k hk => ?_
  have hlt := List.mem_range.mp hk
  refine UInt8.toNat_inj.mp (Nat.eq_of_testBit_eq fun i => ?_)
  rw [UInt8.toNat_ofNat', UInt8.toNat_ofNat', Nat.testBit_mod_two_pow, Nat.testBit_mod_two_pow,
    Nat.testBit_shiftRight, Nat.testBit_shiftRight, Nat.testBit_mod_two_pow]
  by_cases hi : i < 8
  · rw [decide_eq_true (by omega : 8 * (n - 1 - k) + i < 8 * n), Bool.true_and]
  · rw [decide_eq_false hi, Bool.false_and, Bool.false_and]

theorem range_slotStore (b run offset : Nat) (buffers : Buffers) (info : GpuFifoStoreInfo)
    (word : Word) :
    (List.range (offset + info.byteLength)).map
        (slotStore info word (b, run, offset) buffers b run) =
      (List.range offset).map (buffers b run) ++ fifoWrite info.byteLength word.toNat := by
  rw [List.range_add, List.map_append, List.map_map]
  congr 1 <;> refine List.map_congr_left fun k hk => ?_ <;> have hk := List.mem_range.mp hk
  · exact if_neg fun h => absurd (show offset ≤ k from h.2.2.1) (by omega)
  · rw [Function.comp_apply, slotStore, if_pos ⟨rfl, rfl, Nat.le_add_right _ _,
      Nat.add_lt_add_left hk _⟩, Nat.add_sub_cancel_left]

/-- **Inside a run the FIFO lacks the bytes that are in the buffer.** -/
theorem pending_place (hspans : ∀ x ∈ l, spans constants x = true)
    (hany : l.any (isMember constants) = true) (hleft : s.left = false)
    (htotal : total = offset + totalBytes constants l) :
    ((placeRun constants b run total offset l).foldl (burstStep t constants b) (s, buffers)).1 =
      l.foldl (plainStep t constants b)
        (sendAll t ((List.range offset).map (buffers b run)) s) := by
  induction l generalizing s buffers offset with
  | nil => cases hany
  | cons x l ih =>
    obtain ⟨ins, i⟩ := x
    have hspans' := fun x hx => hspans x (List.mem_cons_of_mem _ hx)
    cases hins : tryClassifyKnownGpuFifoStore constants ins with
    | none =>
      have hmember : isMember constants (ins, i) = false := by rw [isMember, hins]; rfl
      have hclear : isGpuFifoBurstTransparent ins = true := by
        simpa [spans, hmember] using hspans (ins, i) List.mem_cons_self
      rw [List.any_cons, hmember, Bool.false_or] at hany
      have htotal' : total = offset + totalBytes constants l := by
        simpa [totalBytes, hins] using htotal
      simp only [placeRun, hins, List.foldl_cons]
      rw [show (⟨ins, i, none, none⟩ : Placed) = unplaced (ins, i) from rfl, burstStep_unplaced]
      obtain ⟨hsend, hstays⟩ := performOther_sendAll (t := t) hclear
        ((List.range offset).map (buffers b run)) s
      have hpasses : passes t b ins i (sendAll t ((List.range offset).map (buffers b run)) s) =
        passes t b ins i s := rfl
      unfold plainStep
      simp only [hins, hpasses, hsend]
      split_ifs with hp
      · exact ih hspans' hany hleft htotal'
      · exact ih hspans' hany hstays htotal'
    | some info =>
      have hmember : isMember constants (ins, i) = true := by rw [isMember, hins]; rfl
      -- a store is not among the instructions that can be suppressed
      have hpasses (s : Progress V W) (hs : s.left = false) : passes t b ins i s = false := by
        cases ins <;> simp_all [tryClassifyKnownGpuFifoStore, passes, suppressible]
      have htotal' : total = offset + info.byteLength + totalBytes constants l := by
        rw [htotal, totalBytes, List.map_cons, List.sum_cons, hins, Nat.add_assoc]
        rfl
      have hfull := range_slotStore b run offset buffers info (storedWord t b i info s ins)
      have hplain : plainStep t constants b (sendAll t ((List.range offset).map (buffers b run)) s)
          (ins, i) = sendAll t ((List.range (offset + info.byteLength)).map (slotStore info
            (storedWord t b i info s ins) (b, run, offset) buffers b run)) s := by
        have hp := Bool.eq_false_iff.mp (hpasses (sendAll t ((List.range offset).map
          (buffers b run)) s) hleft)
        rw [hfull, sendAll_append, ← fifoWrite_mod, plainStep, if_neg hp]
        simp only [hins]
        rfl
      have hp : ¬passes t b ins i s = true := by rw [hpasses s hleft]; decide
      rw [placeRun, hins, List.foldl_cons, List.foldl_cons, hplain]
      cases hrest : l.any (isMember constants) with
      | true =>
        rw [burstStep, if_neg hp]
        simp only [hins]
        exact ih hspans' hrest hleft htotal'
      | false =>
        obtain ⟨hplace, hnone⟩ := no_members b run total (offset + info.byteLength) hrest
        rw [hnone, Nat.add_zero] at htotal'
        rw [hplace, foldl_unplaced, burstStep, if_neg hp]
        simp only [hins, htotal', Bool.false_eq_true, if_false]

theorem block_eq (c : Progress V W × Buffers) :
    ((buildGpuFifoBurstPlan constants b l).foldl (burstStep t constants b) c).1 =
      l.foldl (plainStep t constants b) c.1 := by
  induction l using buildGpuFifoBurstPlan.induct constants generalizing c with
  | case1 => rw [buildGpuFifoBurstPlan, List.foldl_nil, List.foldl_nil]
  | case2 x rest hx ih =>
    rw [buildGpuFifoBurstPlan, if_pos hx, List.foldl_append, ih]
    have hsplit : x :: rest = (x :: rest.takeWhile (spans constants)) ++
        rest.dropWhile (spans constants) := by
      rw [List.cons_append, List.takeWhile_append_dropWhile]
    rw [hsplit, List.foldl_append]
    congr 1
    split_ifs with hmin
    · cases hleft : c.1.left with
      | true =>
        rw [(foldl_left c.2 hleft).1]
        exact congrArg Prod.fst ((foldl_left (l := []) c.2 hleft).2 _)
      | false =>
        have hmem : ∀ y ∈ x :: rest.takeWhile (spans constants), spans constants y = true := by
          intro y hy
          rcases List.mem_cons.mp hy with rfl | hy
          · rw [spans, hx]
            rfl
          · exact List.mem_takeWhile_imp hy
        have hany : (x :: rest.takeWhile (spans constants)).any (isMember constants) = true := by
          rw [List.any_cons, hx]
          rfl
        refine (pending_place hmem hany hleft (Nat.zero_add _).symm).trans ?_
        rw [List.range_zero, List.map_nil]
        simp [sendAll]
    · rw [foldl_unplaced]
  | case3 x rest hx ih =>
    rw [buildGpuFifoBurstPlan, if_neg hx, List.foldl_cons, ih, burstStep_unplaced, List.foldl_cons]

/-- **A function sends the same with bursts and without**, whatever the buffers hold at first. -/
theorem bursts_eq_writes (t : Target V W) (f : IrFunction)
    (exit : Nat → Progress V W → Option (Nat × Progress V W)) (n : Nat) (c : Nat × Progress V W)
    (buffers : Buffers) : runBurst t f exit n c buffers = runPlain t f exit n c := by
  induction n generalizing c buffers with
  | zero => rfl
  | succ n ih =>
    rw [runBurst, runPlain, block_eq]
    exact Option.bind_congr fun c _ => ih c _

end

end DolTranslator.FifoBurst
