import DolTranslator.Audio.CommandList

/-!
# What is read of a command list

The scan and the execution come to the same commands, and differ in the last one: the scan does not
go into a command that the announced size cuts, the execution reads and performs it. Neither looks
at the size of the buffer.

* `Takes`, `Yields`   what a reader takes of the list, and what it answers;
* `scanLoop_eq`, `executeLoop_eq`   both walks, over the places of the commands;
* `Whole`, `Probed`   what the commands of a list have to be;
* `foretold_iff`   the accesses are within bounds, and the mails as many as the outputs, just for
  these lists.
-/

namespace DolTranslator.Ax

open Streams

variable {α β : Type}

/-! ## readers -/

/-- it takes the next words, and reads each of them -/
def Takes (n : Nat) (m : StateM Cursor α) : Prop :=
  ∀ c, (m c).2 = ⟨c.idx + n, c.reads ++ List.range' c.idx n⟩

def Yields (P : α → Prop) (m : StateM Cursor α) : Prop := ∀ c, P (m c).1

theorem takes_pure (a : α) : Takes 0 (pure a : StateM Cursor α) := by
  intro c
  show c = _
  rw [List.range'_zero, List.append_nil]
  rfl

theorem takes_bind {m : StateM Cursor α} {f : α → StateM Cursor β} {n k : Nat} (hm : Takes n m)
    (hf : ∀ a, Takes k (f a)) : Takes (n + k) (m >>= f) := by
  intro c
  show (f (m c).1 (m c).2).2 = _
  rw [hf, hm, List.append_assoc, Nat.add_assoc]
  show (⟨_, c.reads ++ (List.range' c.idx n ++ List.range' (c.idx + n) k)⟩ : Cursor) = _
  rw [List.range'_append_1]

theorem takes_readWord (list : Nat → UInt16) : Takes 1 (readWord list) := fun _ => rfl

theorem takes_ReadAddress (list : Nat → UInt16) : Takes 2 (ReadAddress list) :=
  takes_bind (takes_readWord list) fun _ => takes_bind (takes_readWord list) fun _ => takes_pure _

theorem takes_readAddresses (list : Nat → UInt16) (n : Nat) :
    Takes (2 * n) (readAddresses list n) := by
  induction n with
  | zero => exact takes_pure _
  | succ n ih =>
    have h := takes_bind (takes_ReadAddress list) fun addr =>
      takes_bind ih fun addrs => takes_pure (addr :: addrs)
    rwa [show 2 + (2 * n + 0) = 2 * (n + 1) by omega] at h

theorem yields_pure {P : α → Prop} {a : α} (h : P a) : Yields P (pure a : StateM Cursor α) :=
  fun _ => h

theorem yields_bind {P : β → Prop} {m : StateM Cursor α} {f : α → StateM Cursor β}
    (hf : ∀ a, Yields P (f a)) : Yields P (m >>= f) := fun c => hf (m c).1 (m c).2

/-! ## commands -/

def commandAt (layout : AXCommandLayout) (list : Nat → UInt16) (place : Nat) : Option Scanned :=
  scanCommand layout (DecodeCommand (list place) layout)

/-- where the next command starts: the list goes on unless it has ended, or the word is unknown -/
def nextCommand (layout : AXCommandLayout) (list : Nat → UInt16) (place : Nat) : Option Nat :=
  (commandAt layout list place).bind fun command =>
    if command.ends then none else some (place + 1 + command.skip)

def operands (layout : AXCommandLayout) (list : Nat → UInt16) (place : Nat) : Nat :=
  ((commandAt layout list place).map Scanned.skip).getD 0

def outputAt (layout : AXCommandLayout) (list : Nat → UInt16) (place : Nat) : Bool :=
  (commandAt layout list place).any Scanned.output

def endsAt (layout : AXCommandLayout) (list : Nat → UInt16) (place : Nat) : Bool :=
  (commandAt layout list place).any Scanned.ends

def addressWords (layout : AXCommandLayout) (list : Nat → UInt16) (place : Nat) : List Nat :=
  ((commandAt layout list place).map fun command => command.addresses.flatMap fun address =>
    [place + 1 + address.1, place + 1 + address.1 + 1]).getD []

theorem skip_of_ends {layout : AXCommandLayout} {list : Nat → UInt16} {place : Nat} {command : Scanned}
    (h : commandAt layout list place = some command) (hend : command.ends = true) :
    command.skip = 0 := by
  unfold commandAt scanCommand at h
  split at h
  · cases h
    cases hend
  · split at h <;> cases h
    all_goals first | rfl | cases hend

theorem ascends_nextCommand (layout : AXCommandLayout) (list : Nat → UInt16) :
    Ascends (nextCommand layout list) := by
  intro place place' h
  obtain ⟨command, -, hcommand⟩ := Option.bind_eq_some_iff.mp h
  split at hcommand
  · cases hcommand
  · cases hcommand
    omega

theorem takes_executeCommand (layout : AXCommandLayout) (list : Nat → UInt16) (newFilter : Bool)
    (oldPbAddr : UInt32) (decoded : DecodedCommand) :
    Takes (((scanCommand layout decoded).map Scanned.skip).getD 0)
      (executeCommand layout list newFilter oldPbAddr decoded) := by
  have haddress {e : UInt32 → Executed} :
      Takes 2 (ReadAddress list >>= fun addr => (pure (e addr) : StateM Cursor Executed)) :=
    takes_bind (takes_ReadAddress list) fun _ => takes_pure _
  have haddresses {e : UInt32 → UInt32 → Executed} : Takes 4 (ReadAddress list >>= fun addr =>
      ReadAddress list >>= fun addr2 => (pure (e addr addr2) : StateM Cursor Executed)) :=
    takes_bind (takes_ReadAddress list) fun _ => takes_bind (takes_ReadAddress list) fun _ =>
      takes_pure _
  have haux {auxId : Nat} : Takes 5 (executeCommand.mixAux list oldPbAddr auxId) :=
    takes_bind (takes_readWord list) fun _ => haddresses
  have hupload {auxId : Nat} : Takes 13 (executeCommand.uploadAux list oldPbAddr auxId) :=
    takes_bind (takes_readWord list) fun _ => takes_bind (takes_readAddresses list 6) fun _ =>
      takes_pure _
  have houtput {uploadAuxC : Bool} : Takes (if OutputCarriesVolume layout then 5 else 4)
      (executeCommand.output layout list oldPbAddr uploadAuxC) := by
    unfold executeCommand.output
    by_cases h : OutputCarriesVolume layout = true
    · rw [if_pos h, if_pos h]
      exact takes_bind (takes_readWord list) fun _ => haddresses
    · rw [if_neg h, if_neg h]
      exact takes_bind (takes_pure _) fun _ => haddresses
  obtain ⟨cmd, setsPbAddress⟩ := decoded
  cases setsPbAddress with
  | true => exact haddress
  | false =>
    cases cmd with
    | SETUP | ADD_TO_LR | SUB_TO_LR | ADD_SUB_TO_LR => exact haddress
    | PROCESS =>
      show Takes (if UsesStashedPbAddress layout then 0 else 2)
        (if UsesStashedPbAddress layout then _ else _)
      by_cases h : UsesStashedPbAddress layout = true
      · rw [if_pos h, if_pos h]
        exact takes_pure _
      · rw [if_neg h, if_neg h]
        exact haddress
    | MIX_AUXA | MIX_AUXB | MIX_AUXC => exact haux
    | UPL_AUXA_MIX_LRSC | UPL_AUXB_MIX_LRSC => exact hupload
    | COMPRESSOR =>
      exact takes_bind (takes_readWord list) fun _ => takes_bind (takes_readWord list) fun _ =>
        haddress
    | OUTPUT | OUTPUT_DPL2 => exact houtput
    | WM_OUTPUT => exact takes_bind (takes_readAddresses list 4) fun _ => takes_pure _
    | END | unknown => exact takes_pure _

/-- whether a command ends the list, and how many outputs it performs -/
def Performs (expected : Option Scanned) (e : Executed) : Prop :=
  e.ends = expected.all Scanned.ends ∧
    e.action.toList.countP Action.isOutput = (expected.any Scanned.output).toNat

theorem yields_executeCommand (layout : AXCommandLayout) (list : Nat → UInt16) (newFilter : Bool)
    (oldPbAddr : UInt32) (decoded : DecodedCommand) :
    Yields (Performs (scanCommand layout decoded))
      (executeCommand layout list newFilter oldPbAddr decoded) := by
  have houtput {uploadAuxC : Bool} {n : Nat} : Yields (Performs (some ⟨n, [], true, false⟩))
      (executeCommand.output layout list oldPbAddr uploadAuxC) := by
    unfold executeCommand.output
    by_cases h : OutputCarriesVolume layout = true
    · rw [if_pos h]
      exact yields_bind fun _ => yields_bind fun _ => yields_bind fun _ => yields_pure ⟨rfl, rfl⟩
    · rw [if_neg h]
      exact yields_bind fun _ => yields_bind fun _ => yields_bind fun _ => yields_pure ⟨rfl, rfl⟩
  obtain ⟨cmd, setsPbAddress⟩ := decoded
  cases setsPbAddress with
  | true => exact yields_bind fun _ => yields_pure ⟨rfl, rfl⟩
  | false =>
    cases cmd with
    | SETUP | ADD_TO_LR | SUB_TO_LR | ADD_SUB_TO_LR | WM_OUTPUT =>
      exact yields_bind fun _ => yields_pure ⟨rfl, rfl⟩
    | PROCESS =>
      show Yields _ (if UsesStashedPbAddress layout then _ else _)
      split
      · exact yields_pure ⟨rfl, rfl⟩
      · exact yields_bind fun _ => yields_pure ⟨rfl, rfl⟩
    | MIX_AUXA | MIX_AUXB | MIX_AUXC | COMPRESSOR =>
      exact yields_bind fun _ => yields_bind fun _ => yields_bind fun _ => yields_pure ⟨rfl, rfl⟩
    | UPL_AUXA_MIX_LRSC | UPL_AUXB_MIX_LRSC =>
      exact yields_bind fun _ => yields_bind fun _ => yields_pure ⟨rfl, rfl⟩
    | OUTPUT | OUTPUT_DPL2 => exact houtput
    | END | unknown => exact yields_pure ⟨rfl, rfl⟩

/-! ## the two walks -/

def commands (layout : AXCommandLayout) (list : Nat → UInt16) (size fuel place : Nat) : List Nat :=
  visits (nextCommand layout list) size fuel place

variable {layout : AXCommandLayout} {list : Nat → UInt16} {size fuel place : Nat}

/-- the announced size does not cut the command -/
def fits (layout : AXCommandLayout) (list : Nat → UInt16) (size place : Nat) : Bool :=
  place + 1 + operands layout list place ≤ size

def scanned (layout : AXCommandLayout) (list : Nat → UInt16) (size place : Nat) : List Nat :=
  place :: if fits layout list size place then addressWords layout list place else []

theorem canReadWords_eq (h : place ≤ size) (count : Nat) :
    CanReadWords size place count = decide (place + count ≤ size) := by
  unfold CanReadWords
  rw [decide_eq_true h, Bool.true_and]
  exact decide_eq_decide.mpr (Nat.le_sub_iff_add_le' h)

theorem outputCommands_addAuxBlocks (addr : UInt32) (blocks block : Nat) (scan : CommandListScan) :
    (addAuxBlocks addr blocks block scan).outputCommands = scan.outputCommands := by
  induction blocks generalizing block scan with
  | zero => rfl
  | succ blocks ih =>
    unfold addAuxBlocks
    split
    · rfl
    · exact ih _ _

theorem outputCommands_foldl {ι : Type} (addr : ι → UInt32) (blocks : ι → Nat) (places : List ι)
    (scan : CommandListScan) :
    (places.foldl (fun scan place => addAuxInput (addr place) (blocks place) scan)
      scan).outputCommands = scan.outputCommands := by
  induction places generalizing scan with
  | nil => rfl
  | cons place places ih => exact (ih _).trans (outputCommands_addAuxBlocks _ _ _ _)

theorem scanLoop_eq (layout : AXCommandLayout) (list : Nat → UInt16) (size fuel place : Nat)
    (scan : CommandListScan) :
    (scanLoop layout size list fuel place scan).reads =
        (commands layout list size fuel place).flatMap (scanned layout list size) ∧
      (scanLoop layout size list fuel place scan).valid =
        (commands layout list size fuel place).any (endsAt layout list) ∧
      (scanLoop layout size list fuel place scan).scan.outputCommands =
        scan.outputCommands + (commands layout list size fuel place).countP fun place =>
          outputAt layout list place && fits layout list size place := by
  unfold commands
  induction fuel generalizing place scan with
  | zero => exact ⟨rfl, rfl, rfl⟩
  | succ fuel ih =>
    unfold scanLoop
    by_cases hplace : place < size
    · rw [if_pos ((canReadWords_eq (Nat.le_of_lt hplace) 1).trans (decide_eq_true hplace))]
      cases hcommand : commandAt layout list place with
      | none =>
        have hnext : nextCommand layout list place = none := congrArg (Option.bind · _) hcommand
        rw [visits_last hplace hnext, show scanCommand _ _ = none from hcommand]
        refine ⟨?_, ?_, ?_⟩
        · show [place] = place :: (if _ then (Option.map _ (commandAt layout list place)).getD [] else [])
            ++ []
          rw [hcommand]
          split <;> rfl
        · show false = (Option.any _ (commandAt layout list place) || false)
          rw [hcommand]
          rfl
        · have hnot : outputAt layout list place = false := congrArg (Option.any _) hcommand
          rw [List.countP_singleton, hnot]
          rfl
      | some command =>
        have hoperands : operands layout list place = command.skip :=
          congrArg (fun c => (Option.map Scanned.skip c).getD 0) hcommand
        have hwords : addressWords layout list place = command.addresses.flatMap fun address =>
            [place + 1 + address.1, place + 1 + address.1 + 1] := by
          unfold addressWords
          rw [hcommand]
          rfl
        have houtput : outputAt layout list place = command.output := congrArg (Option.any _) hcommand
        have hends : endsAt layout list place = command.ends := congrArg (Option.any _) hcommand
        have hnext : nextCommand layout list place =
            if command.ends then none else some (place + 1 + command.skip) :=
          congrArg (Option.bind · _) hcommand
        have hfit : fits layout list size place = decide (place + 1 + command.skip ≤ size) := by
          unfold fits
          rw [hoperands]
        have hscanned : scanned layout list size place = place ::
            if place + 1 + command.skip ≤ size then addressWords layout list place else [] := by
          unfold scanned
          simp only [hfit, decide_eq_true_eq]
        rw [show scanCommand _ _ = some command from hcommand]
        simp only [canReadWords_eq hplace, decide_eq_true_eq]
        by_cases hread : place + 1 + command.skip ≤ size
        · rw [if_pos hread] at hscanned ⊢
          by_cases hend : command.ends = true
          · rw [if_pos hend] at hnext ⊢
            rw [visits_last hplace hnext, List.flatMap_singleton, List.any_cons, List.countP_singleton,
              hscanned, hwords, hends, houtput, hfit, hend]
            refine ⟨rfl, ?_, ?_⟩
            · exact decide_eq_true hplace
            · show (command.addresses.foldl _ scan).outputCommands + command.output.toNat = _
              rw [outputCommands_foldl, decide_eq_true hread, Bool.and_true]
              cases command.output <;> rfl
          · rw [if_neg hend] at hnext ⊢
            obtain ⟨hreads, hvalid, hcount⟩ := ih (place + 1 + command.skip) _
            rw [visits_next hplace hnext, List.flatMap_cons, List.any_cons, List.countP_cons]
            refine ⟨?_, ?_, ?_⟩
            · rw [hscanned, hwords]
              exact congrArg (_ ++ ·) hreads
            · rw [hends, Bool.eq_false_iff.mpr hend, Bool.false_or]
              exact hvalid
            · refine hcount.trans ?_
              show (command.addresses.foldl _ scan).outputCommands + command.output.toNat + _ = _
              rw [outputCommands_foldl, houtput, hfit, decide_eq_true hread, Bool.and_true]
              cases command.output with
              | false => simp
              | true =>
                simp
                omega
        · have hend : ¬command.ends = true := by
            intro hend
            rw [skip_of_ends hcommand hend] at hread
            omega
          rw [if_neg hend] at hnext
          rw [if_neg hread] at hscanned ⊢
          rw [visits_next hplace hnext, visits_of_le (by omega), List.flatMap_singleton, hscanned,
            List.any_cons, List.countP_singleton, hends, hfit, decide_eq_false hread, Bool.and_false,
            Bool.eq_false_iff.mpr hend]
          exact ⟨rfl, rfl, rfl⟩
    · rw [visits_of_le (Nat.not_lt.mp hplace)]
      have hread : CanReadWords size place 1 = false := by
        unfold CanReadWords
        simp
        omega
      rw [if_neg (Bool.eq_false_iff.mp hread)]
      exact ⟨rfl, rfl, rfl⟩

def executed (layout : AXCommandLayout) (list : Nat → UInt16) (place : Nat) : List Nat :=
  place :: List.range' (place + 1) (operands layout list place)

theorem executeLoop_eq (newFilter : Bool) (oldPbAddr : UInt32) (layout : AXCommandLayout)
    (list : Nat → UInt16) (size fuel place : Nat) :
    (executeLoop layout size list newFilter fuel place oldPbAddr).reads =
        (commands layout list size fuel place).flatMap (executed layout list) ∧
      (executeLoop layout size list newFilter fuel place oldPbAddr).actions.countP Action.isOutput =
        (commands layout list size fuel place).countP (outputAt layout list) := by
  unfold commands
  induction fuel generalizing place oldPbAddr with
  | zero => exact ⟨rfl, rfl⟩
  | succ fuel ih =>
    unfold executeLoop
    by_cases hplace : place < size
    · obtain ⟨step, c, hrun⟩ : ∃ step c, executeCommand layout list newFilter oldPbAddr
          (DecodeCommand (list place) layout) ⟨place + 1, [place]⟩ = (step, c) := ⟨_, _, rfl⟩
      have htakes := takes_executeCommand layout list newFilter oldPbAddr
        (DecodeCommand (list place) layout) ⟨place + 1, [place]⟩
      have hyields := yields_executeCommand layout list newFilter oldPbAddr
        (DecodeCommand (list place) layout) ⟨place + 1, [place]⟩
      rw [hrun] at htakes hyields
      obtain ⟨hends, hcount⟩ := hyields
      have hc : c = ⟨place + 1 + operands layout list place, executed layout list place⟩ := htakes
      simp only [if_pos hplace, hrun, hc]
      by_cases hend : step.ends = true
      · have hnext : nextCommand layout list place = none := by
          unfold nextCommand commandAt
          rw [hend] at hends
          cases hcommand : scanCommand layout (DecodeCommand (list place) layout) with
          | none => rfl
          | some command =>
            rw [hcommand] at hends
            exact if_pos hends.symm
        rw [if_pos hend, visits_last hplace hnext, List.flatMap_singleton, List.countP_singleton]
        refine ⟨rfl, hcount.trans ?_⟩
        show (outputAt layout list place).toNat = _
        cases outputAt layout list place <;> rfl
      · have hnext : nextCommand layout list place =
            some (place + 1 + operands layout list place) := by
          unfold nextCommand operands commandAt
          rw [Bool.eq_false_iff.mpr hend] at hends
          cases hcommand : scanCommand layout (DecodeCommand (list place) layout) with
          | none =>
            rw [hcommand] at hends
            cases hends
          | some command =>
            rw [hcommand] at hends
            exact if_neg (Bool.eq_false_iff.mp hends.symm)
        obtain ⟨hreads, hactions⟩ := ih step.oldPbAddr (place + 1 + operands layout list place)
        rw [if_neg hend, visits_next hplace hnext, List.flatMap_cons, List.countP_cons]
        refine ⟨congrArg (_ ++ ·) hreads, ?_⟩
        show (step.action.toList ++ _).countP Action.isOutput = _
        rw [List.countP_append, hactions, hcount, Nat.add_comm]
        show _ + (outputAt layout list place).toNat = _
        cases outputAt layout list place <;> rfl
    · rw [visits_of_le (Nat.not_lt.mp hplace), if_neg hplace]
      exact ⟨rfl, rfl⟩

/-! ## what the commands of a list have to be -/

/-- a command of the list starts here -/
def Starts (layout : AXCommandLayout) (list : Nat → UInt16) (place : Nat) : Prop :=
  Relation.ReflTransGen (Follows (nextCommand layout list)) 0 place

/-- every command that starts below the size is there whole, in the list and in the buffer -/
def Whole (layout : AXCommandLayout) (size : Nat) (list : Nat → UInt16) : Prop :=
  ∀ place < size, Starts layout list place →
    place + 1 + operands layout list place ≤ min size kCmdListWords

/-- every command that starts below the size starts in the buffer, and so do its addresses that are
read back -/
def Probed (layout : AXCommandLayout) (size : Nat) (list : Nat → UInt16) : Prop :=
  ∀ place < size, Starts layout list place → place < kCmdListWords ∧
    (addressWords layout list place ≠ [] → place + 1 + operands layout list place ≤ size →
      place + 1 + operands layout list place ≤ kCmdListWords)

/-- the commands of the list lead to an END -/
def Accepted (layout : AXCommandLayout) (size : Nat) (list : Nat → UInt16) : Prop :=
  ∃ place < size, Starts layout list place ∧ endsAt layout list place = true

open Classical in
/-- the layout that the list is taken to be of: the one of the microcode, or the first one in which
it ends -/
noncomputable def layoutOf (layout : AXCommandLayout) (size : Nat) (list : Nat → UInt16) :
    AXCommandLayout :=
  if layout ≠ .Auto then layout
  else if Accepted .New size list then .New
  else if Accepted .NewNoOutputVolume size list then .NewNoOutputVolume
  else if Accepted .Old size list then .Old
  else .New

/-- the list of a mail can be walked: the commands that are executed are whole, and those of the
layouts that are only tried do not leave the buffer -/
def Walkable (layout : AXCommandLayout) (size : Nat) (list : Nat → UInt16) : Prop :=
  Whole (layoutOf layout size list) size list ∧
    (layout = .Auto → Probed .New size list ∧ Probed .NewNoOutputVolume size list ∧
      Probed .Old size list)

/-! ## the reads of a mail -/

theorem mem_commands {place : Nat} :
    place ∈ commands layout list size (size + 1) 0 ↔ place < size ∧ Starts layout list place :=
  mem_visits (ascends_nextCommand layout list) (by omega)

theorem execute_within {crc : UInt32} :
    (∀ i ∈ (ExecuteCommandList crc layout size list).reads, i < min size kCmdListWords) ↔
      Whole layout size list := by
  have hreads := (executeLoop_eq (if crc ≠ 0 then UCodeUsesNewFilter crc else layout ≠ .Old) 0 layout
    list size (size + 1) 0).1
  have hmem {i : Nat} : i ∈ (ExecuteCommandList crc layout size list).reads ↔
      ∃ place, (place < size ∧ Starts layout list place) ∧
        (i = place ∨ place + 1 ≤ i ∧ i < place + 1 + operands layout list place) := by
    show i ∈ (executeLoop ..).reads ↔ _
    rw [hreads, List.mem_flatMap]
    apply exists_congr
    intro place
    rw [mem_commands]
    apply and_congr_right
    intro _
    unfold executed
    rw [List.mem_cons, List.mem_range'_1]
  constructor
  · intro h place hplace hstarts
    rcases Nat.eq_zero_or_pos (operands layout list place) with hnone | hsome
    · rw [hnone]
      exact h place (hmem.mpr ⟨place, ⟨hplace, hstarts⟩, .inl rfl⟩)
    · have hlast := h (place + operands layout list place)
        (hmem.mpr ⟨place, ⟨hplace, hstarts⟩, .inr (by omega)⟩)
      omega
  · intro h i hi
    obtain ⟨place, ⟨hplace, hstarts⟩, hi⟩ := hmem.mp hi
    have hwhole := h place hplace hstarts
    omega

theorem addressWords_spec (layout : AXCommandLayout) (list : Nat → UInt16) (place : Nat) :
    (∀ i ∈ addressWords layout list place, place < i ∧ i < place + 1 + operands layout list place) ∧
      (addressWords layout list place ≠ [] →
        place + operands layout list place ∈ addressWords layout list place) := by
  unfold addressWords operands
  cases hcommand : commandAt layout list place with
  | none => exact ⟨fun i hi => (List.not_mem_nil hi).elim, fun h => absurd rfl h⟩
  | some command =>
    unfold commandAt scanCommand at hcommand
    split at hcommand
    · cases hcommand
      exact ⟨fun i hi => (List.not_mem_nil hi).elim, fun h => absurd rfl h⟩
    · split at hcommand <;> cases hcommand
      all_goals simp
      all_goals omega

theorem scan_within :
    (∀ i ∈ (ScanCommandList layout size list).reads, i < min size kCmdListWords) ↔
      Probed layout size list := by
  have hreads := (scanLoop_eq layout list size (size + 1) 0 .empty).1
  have hmem {i : Nat} : i ∈ (ScanCommandList layout size list).reads ↔
      ∃ place, (place < size ∧ Starts layout list place) ∧ (i = place ∨
        place + 1 + operands layout list place ≤ size ∧ i ∈ addressWords layout list place) := by
    show i ∈ (scanLoop ..).reads ↔ _
    rw [hreads, List.mem_flatMap]
    apply exists_congr
    intro place
    rw [mem_commands]
    apply and_congr_right
    intro _
    unfold scanned fits
    rw [List.mem_cons]
    apply or_congr_right
    by_cases hfits : place + 1 + operands layout list place ≤ size
    · rw [if_pos (decide_eq_true hfits)]
      exact ⟨fun h => ⟨hfits, h⟩, fun h => h.2⟩
    · rw [if_neg (fun h => hfits (of_decide_eq_true h))]
      exact ⟨fun h => (List.not_mem_nil h).elim, fun h => absurd h.1 hfits⟩
  constructor
  · intro h place hplace hstarts
    have hfirst := h place (hmem.mpr ⟨place, ⟨hplace, hstarts⟩, .inl rfl⟩)
    refine ⟨by omega, fun hsome hfits => ?_⟩
    have hlast := h _ (hmem.mpr ⟨place, ⟨hplace, hstarts⟩,
      .inr ⟨hfits, (addressWords_spec layout list place).2 hsome⟩⟩)
    omega
  · intro h i hi
    obtain ⟨place, ⟨hplace, hstarts⟩, hi⟩ := hmem.mp hi
    obtain ⟨hfirst, hlast⟩ := h place hplace hstarts
    rcases hi with rfl | ⟨hfits, hi⟩
    · omega
    · have hbelow := (addressWords_spec layout list place).1 i hi
      have hbuffer := hlast (List.ne_nil_of_mem hi) hfits
      omega

theorem Whole.probed (h : Whole layout size list) : Probed layout size list := by
  intro place hplace hstarts
  have hwhole := h place hplace hstarts
  exact ⟨by omega, fun _ _ => by omega⟩

theorem Whole.outputs (crc : UInt32) (h : Whole layout size list) :
    (ScanCommandList layout size list).scan.outputCommands =
      (ExecuteCommandList crc layout size list).actions.countP Action.isOutput := by
  refine ((scanLoop_eq layout list size (size + 1) 0 .empty).2.2.trans ?_).trans
    (executeLoop_eq _ 0 layout list size (size + 1) 0).2.symm
  show 0 + _ = _
  rw [Nat.zero_add]
  apply List.countP_congr
  intro place hplace
  obtain ⟨hlt, hstarts⟩ := mem_commands.mp hplace
  have hwhole := h place hlt hstarts
  have hfits : fits layout list size place = true := decide_eq_true (by omega)
  rw [hfits, Bool.and_true]

theorem valid_iff : (ScanCommandList layout size list).valid = true ↔ Accepted layout size list := by
  have hvalid := (scanLoop_eq layout list size (size + 1) 0 .empty).2.1
  show (scanLoop ..).valid = true ↔ _
  rw [hvalid, List.any_eq_true]
  apply exists_congr
  intro place
  rw [mem_commands, and_assoc]

open Classical in
theorem probeLayout_eq (ax : AXWii) :
    (probeLayout ax).1 = layoutOf ax.m_commandLayout ax.m_cmdListSize ax.m_cmdList := by
  unfold probeLayout layoutOf
  by_cases hauto : ax.m_commandLayout = .Auto
  · rw [if_pos hauto, if_neg (not_not_intro hauto)]
    exact if_congr valid_iff rfl (if_congr valid_iff rfl (if_congr valid_iff rfl rfl))
  · rw [if_neg hauto, if_pos hauto]

theorem probed_within (ax : AXWii) :
    (∀ i ∈ (probeLayout ax).2, i < min ax.m_cmdListSize kCmdListWords) ↔
      (ax.m_commandLayout = .Auto → Probed .New ax.m_cmdListSize ax.m_cmdList ∧
        Probed .NewNoOutputVolume ax.m_cmdListSize ax.m_cmdList ∧
        Probed .Old ax.m_cmdListSize ax.m_cmdList) := by
  unfold probeLayout
  by_cases hauto : ax.m_commandLayout = .Auto
  · rw [if_pos hauto]
    simp only [List.forall_mem_append, scan_within, hauto, true_implies, and_assoc]
  · rw [if_neg hauto]
    exact ⟨fun _ h => absurd h hauto, fun _ i hi => (List.not_mem_nil hi).elim⟩

/-! ## mails -/

def synced (before after : AXWii) : Nat :=
  (after.m_cpuMails.drop before.m_cpuMails.length).count kDspSync

/-- the words that a mail had read are in the list and in the buffer, and it has raised a mail for
every output that is performed -/
def Foretold (Read16 : UInt32 → UInt16) (mail : UInt32) (ax : AXWii) : Prop :=
  (∀ i ∈ (HandleMail Read16 mail ax).2.scanReads ++ (HandleMail Read16 mail ax).2.execution.reads,
    i < min ax.m_cmdListSize kCmdListWords) ∧
  synced ax (HandleMail Read16 mail ax).1 =
    (HandleMail Read16 mail ax).2.execution.actions.countP Action.isOutput

theorem synced_list {Read16 : UInt32 → UInt16} {mail : UInt32} {ax : AXWii}
    (h : ax.m_mailState = .WaitingForCmdListAddress) :
    synced ax (HandleMail Read16 mail ax).1 =
      (ScanCommandList (probeLayout (CopyCmdList Read16 mail ax.m_cmdListSize ax)).1 ax.m_cmdListSize
        (CopyCmdList Read16 mail ax.m_cmdListSize ax).m_cmdList).scan.outputCommands := by
  unfold synced HandleMail
  rw [h]
  show (((ax.m_cpuMails ++ List.replicate _ kDspSync) ++ [kDspYield]).drop _).count kDspSync = _
  rw [List.append_assoc, List.drop_left, List.count_append, List.count_replicate_self]
  rfl

/-- **the walks of a command list stay in the list and in the buffer, and the scan foretells the
outputs, just for the lists whose commands are whole** -/
theorem foretold_iff (Read16 : UInt32 → UInt16) (mail : UInt32) (ax : AXWii)
    (hstate : ax.m_mailState = .WaitingForCmdListAddress) :
    Foretold Read16 mail ax ↔ Walkable ax.m_commandLayout ax.m_cmdListSize
      (CopyCmdList Read16 mail ax.m_cmdListSize ax).m_cmdList := by
  have hlayout := probeLayout_eq (CopyCmdList Read16 mail ax.m_cmdListSize ax)
  have hprobed := probed_within (CopyCmdList Read16 mail ax.m_cmdListSize ax)
  have htrace : (HandleMail Read16 mail ax).2 =
      (DispatchCommandList (CopyCmdList Read16 mail ax.m_cmdListSize ax)).2 := by
    unfold HandleMail
    rw [hstate]
  unfold Foretold Walkable
  rw [synced_list hstate, htrace]
  generalize hcopied : CopyCmdList Read16 mail ax.m_cmdListSize ax = copied at *
  have hsize : copied.m_cmdListSize = ax.m_cmdListSize := by rw [← hcopied]; rfl
  have hset : copied.m_commandLayout = ax.m_commandLayout := by rw [← hcopied]; rfl
  rw [hsize, hset] at hlayout hprobed
  obtain ⟨layout, probed, hprobe⟩ : ∃ layout probed, probeLayout copied = (layout, probed) :=
    ⟨_, _, rfl⟩
  rw [hprobe] at hlayout hprobed
  rw [hprobe, ← hlayout, ← hprobed]
  unfold DispatchCommandList
  rw [hprobe]
  simp only [List.forall_mem_append, hsize, scan_within, execute_within]
  constructor
  · rintro ⟨⟨⟨hp, -⟩, hwhole⟩, -⟩
    exact ⟨hwhole, hp⟩
  · rintro ⟨hwhole, hp⟩
    exact ⟨⟨⟨hp, hwhole.probed⟩, hwhole⟩, hwhole.outputs _⟩

/-- a list of this size and layout was announced -/
def AXWii.expecting (size : Nat) (layout : AXCommandLayout) : AXWii where
  m_mailState := .WaitingForCmdListAddress
  m_cmdListSize := size
  m_cmdList := fun _ => 0
  m_cpuMails := []
  m_deferredResumeCallbacks := 0
  m_ucodeCrc := 0
  m_commandLayout := layout

/-- a list of one word, an END -/
theorem foretold_iff_end : (AXWii.expecting 1 .New).m_mailState = .WaitingForCmdListAddress ∧
    (Foretold (fun _ => 0x0e) 0x80001000 (.expecting 1 .New) ↔ Walkable .New 1
      (CopyCmdList (fun _ => 0x0e) 0x80001000 1 (.expecting 1 .New)).m_cmdList) :=
  ⟨rfl, foretold_iff _ _ (.expecting 1 .New) rfl⟩

/-- a list of one word, an OUTPUT: its operands are read behind the list, and no mail is raised for
it. And a list of 514 words, SETUP commands: the scan reads behind the buffer -/
theorem cutOutput_unforetold : ¬Foretold (fun _ => 0x0b) 0x80001000 (.expecting 1 .New) ∧
    synced (.expecting 1 .New)
      (HandleMail (fun _ => 0x0b) 0x80001000 (.expecting 1 .New)).1 = 0 ∧
    (HandleMail (fun _ => 0x0b) 0x80001000 (.expecting 1 .New)).2.execution.actions.countP
      Action.isOutput = 1 ∧
    513 ∈ (HandleMail (fun _ => 0) 0x80001000 (.expecting 514 .New)).2.scanReads := by
  refine ⟨fun h => absurd h.2 (by decide +kernel), by decide +kernel, by decide +kernel,
    by decide +kernel⟩

end DolTranslator.Ax
