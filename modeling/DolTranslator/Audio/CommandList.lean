import DolTranslator.Streams.Visits

/-!
# Command lists of the AX microcode

A mail announces the size of a command list, the next one brings its address. The list is copied,
scanned for what has to be known at mail time, and executed, here or on the worker.

* `DecodeCommand`   a word, in one of the layouts;
* `ScanCommandList`   whether the list is one of the layout; the OUTPUT commands in it, and the
  blocks that it reads back; `DispatchCommandList` raises one mail for each OUTPUT;
* `ExecuteCommandList`   the commands one after another, as the calls that they make;
* `HandleMail`   the mails.

The words that are read are recorded. What a call does to the mix is not part of this.
-/

namespace DolTranslator.Ax

open Streams

def kMailCmdList : UInt32 := 0xBABE0000
def kMailCmdListMask : UInt32 := 0xFFFF0000
def kTaskMailToDsp : UInt32 := 0xCDD10000
def kDspResume : UInt32 := 0xDCD10001
def kDspYield : UInt32 := 0xDCD10002
def kDspDone : UInt32 := 0xDCD10003
def kDspSync : UInt32 := 0xDCD10004
def kMailResume : UInt32 := 0xCDD10000
def kMailReset : UInt32 := 0xCDD10002
def kAxSamplesPerFrame : Nat := 96

/-- the words of `m_cmdList` -/
def kCmdListWords : Nat := 512

/-- the places of `auxInputAddrs` -/
def kAuxInputs : Nat := 24

inductive MailState where
  | WaitingForCmdListSize | WaitingForCmdListAddress | WaitingForNextTask
  deriving DecidableEq

inductive AXCommandLayout where
  | Auto | New | NewNoOutputVolume | Old
  deriving DecidableEq

inductive Cmd where
  | SETUP | ADD_TO_LR | SUB_TO_LR | ADD_SUB_TO_LR | PROCESS | MIX_AUXA | MIX_AUXB | MIX_AUXC
  | UPL_AUXA_MIX_LRSC | UPL_AUXB_MIX_LRSC | COMPRESSOR | OUTPUT | OUTPUT_DPL2 | WM_OUTPUT | END
  /-- any other word -/
  | unknown
  deriving DecidableEq

def Cmd.ofWord (raw : UInt16) : Cmd :=
  match raw.toNat with
  | 0x00 => .SETUP
  | 0x01 => .ADD_TO_LR
  | 0x02 => .SUB_TO_LR
  | 0x03 => .ADD_SUB_TO_LR
  | 0x04 => .PROCESS
  | 0x05 => .MIX_AUXA
  | 0x06 => .MIX_AUXB
  | 0x07 => .MIX_AUXC
  | 0x08 => .UPL_AUXA_MIX_LRSC
  | 0x09 => .UPL_AUXB_MIX_LRSC
  | 0x0a => .COMPRESSOR
  | 0x0b => .OUTPUT
  | 0x0c => .OUTPUT_DPL2
  | 0x0d => .WM_OUTPUT
  | 0x0e => .END
  | _ => .unknown

def kCmdSetPbAddressOld : UInt16 := 0x04

structure DecodedCommand where
  cmd : Cmd
  setsPbAddress : Bool

def DecodeCommand (raw : UInt16) (layout : AXCommandLayout) : DecodedCommand :=
  if layout ≠ .Old then ⟨.ofWord raw, false⟩
  else if raw = kCmdSetPbAddressOld then ⟨.SETUP, true⟩
  else ⟨.ofWord (if raw > kCmdSetPbAddressOld then raw - 1 else raw), false⟩

def UsesStashedPbAddress (layout : AXCommandLayout) : Bool := layout = .Old

def OutputCarriesVolume (layout : AXCommandLayout) : Bool :=
  layout ≠ .Old && layout ≠ .NewNoOutputVolume

def UCodeUsesNewFilter (crc : UInt32) : Bool := crc = 0x347112ba || crc = 0x4cc52064

def Hilo (hi lo : UInt16) : UInt32 := (hi.toUInt32 <<< 16) ||| lo.toUInt32

/-! ## the scan -/

structure CommandListScan where
  outputCommands : Nat
  /-- `auxInputCount` is the length -/
  auxInputAddrs : List UInt32

def CommandListScan.empty : CommandListScan := ⟨0, []⟩

def CanReadWords (size idx count : Nat) : Bool := idx ≤ size && count ≤ size - idx

/-- `addAuxInput`, for the blocks from `block` on -/
def addAuxBlocks (addr : UInt32) : Nat → Nat → CommandListScan → CommandListScan
  | 0, _, scan => scan
  | blocks + 1, block, scan =>
    if scan.auxInputAddrs.length ≥ kAuxInputs then scan
    else addAuxBlocks addr blocks (block + 1) { scan with
      auxInputAddrs := scan.auxInputAddrs ++ [addr + .ofNat (block * kAxSamplesPerFrame * 4)] }

def addAuxInput (addr : UInt32) (blocks : Nat) (scan : CommandListScan) : CommandListScan :=
  addAuxBlocks addr blocks 0 scan

/-- what the scan does at a command: it skips words, and reads addresses if they are there -/
structure Scanned where
  skip : Nat
  /-- the places of the addresses, from the first operand on, and of how many blocks each is -/
  addresses : List (Nat × Nat)
  output : Bool
  ends : Bool

def scanCommand (layout : AXCommandLayout) (decoded : DecodedCommand) : Option Scanned :=
  if decoded.setsPbAddress then some ⟨2, [], false, false⟩
  else match decoded.cmd with
    | .SETUP | .ADD_TO_LR | .SUB_TO_LR | .ADD_SUB_TO_LR => some ⟨2, [], false, false⟩
    | .PROCESS => some ⟨if UsesStashedPbAddress layout then 0 else 2, [], false, false⟩
    | .MIX_AUXA | .MIX_AUXB | .MIX_AUXC => some ⟨5, [(3, 3)], false, false⟩
    | .UPL_AUXA_MIX_LRSC | .UPL_AUXB_MIX_LRSC =>
      some ⟨13, [2, 3, 4, 5].map fun slot => (1 + slot * 2, 1), false, false⟩
    | .COMPRESSOR => some ⟨4, [], false, false⟩
    | .OUTPUT | .OUTPUT_DPL2 =>
      some ⟨if OutputCarriesVolume layout then 5 else 4, [], true, false⟩
    | .WM_OUTPUT => some ⟨8, [], false, false⟩
    | .END => some ⟨0, [], false, true⟩
    | .unknown => none

/-- what a scan answers, what it has found, and the words that it has read -/
structure ScanResult where
  valid : Bool
  scan : CommandListScan
  reads : List Nat

/-- `wordAddress` -/
def wordAddress (m_cmdList : Nat → UInt16) (base : Nat) : UInt32 :=
  Hilo (m_cmdList base) (m_cmdList (base + 1))

/-- what a scan without a record finds is nothing; it reads the same words -/
def scanLoop (layout : AXCommandLayout) (size : Nat) (m_cmdList : Nat → UInt16) :
    Nat → Nat → CommandListScan → ScanResult
  | 0, _, scan => ⟨false, scan, []⟩
  | fuel + 1, idx, scan =>
    if CanReadWords size idx 1 then
      match scanCommand layout (DecodeCommand (m_cmdList idx) layout) with
      | none => ⟨false, scan, [idx]⟩
      | some command =>
        let operandBase := idx + 1
        if CanReadWords size operandBase command.skip then
          let scan := command.addresses.foldl (fun scan place =>
            addAuxInput (wordAddress m_cmdList (operandBase + place.1)) place.2 scan) scan
          let scan := { scan with outputCommands := scan.outputCommands + command.output.toNat }
          let reads := idx :: command.addresses.flatMap fun place =>
            [operandBase + place.1, operandBase + place.1 + 1]
          if command.ends then ⟨operandBase ≤ size, scan, reads⟩
          else
            let rest := scanLoop layout size m_cmdList fuel (operandBase + command.skip) scan
            { rest with reads := reads ++ rest.reads }
        else ⟨false, scan, [idx]⟩
    else ⟨false, scan, []⟩

def ScanCommandList (layout : AXCommandLayout) (size : Nat) (m_cmdList : Nat → UInt16) : ScanResult :=
  scanLoop layout size m_cmdList (size + 1) 0 .empty

/-! ## the execution -/

/-- the calls that commands make -/
inductive Action where
  | SetupProcessing (initAddr : UInt32)
  | AddToLR (addr : UInt32) (neg : Bool)
  | AddSubToLR (addr : UInt32)
  | ProcessPBList (pbAddr : UInt32) (newFilter oldAxLayout : Bool)
  | MixAUXSamples (auxId : Nat) (writeAddr readAddr : UInt32) (volume : UInt16)
  | UploadAUXMixLRSC (auxId : Nat) (addresses : List UInt32) (volume : UInt16)
  | RunCompressor (threshold releaseFrames : UInt16) (tableAddr : UInt32)
  | OutputSamples (lrAddr surroundAddr : UInt32) (volume : UInt16) (uploadAuxC : Bool)
  | OutputWMSamples (addresses : List UInt32)
  deriving DecidableEq

/-- a call of an OUTPUT or OUTPUT_DPL2 command -/
def Action.isOutput : Action → Bool
  | .OutputSamples .. => true
  | _ => false

/-- where the executor is in the list, and the words that it has read -/
structure Cursor where
  idx : Nat
  reads : List Nat

/-- `m_cmdList[idx++]` -/
def readWord (m_cmdList : Nat → UInt16) : StateM Cursor UInt16 := fun c =>
  (m_cmdList c.idx, ⟨c.idx + 1, c.reads ++ [c.idx]⟩)

def ReadAddress (m_cmdList : Nat → UInt16) : StateM Cursor UInt32 := do
  let hi ← readWord m_cmdList
  let lo ← readWord m_cmdList
  pure (Hilo hi lo)

def readAddresses (m_cmdList : Nat → UInt16) : Nat → StateM Cursor (List UInt32)
  | 0 => pure []
  | n + 1 => do
    let addr ← ReadAddress m_cmdList
    let addrs ← readAddresses m_cmdList n
    pure (addr :: addrs)

/-- what a command leaves: the address that is stashed, its call, and whether it ends the list -/
structure Executed where
  oldPbAddr : UInt32
  action : Option Action
  ends : Bool

def executeCommand (layout : AXCommandLayout) (m_cmdList : Nat → UInt16) (newFilter : Bool)
    (oldPbAddr : UInt32) (decoded : DecodedCommand) : StateM Cursor Executed :=
  let calls (action : Action) : StateM Cursor Executed := pure ⟨oldPbAddr, some action, false⟩
  if decoded.setsPbAddress then do
    let addr ← ReadAddress m_cmdList
    pure ⟨addr, none, false⟩
  else match decoded.cmd with
    | .SETUP => do
      let addr ← ReadAddress m_cmdList
      calls (.SetupProcessing addr)
    | .ADD_TO_LR => do
      let addr ← ReadAddress m_cmdList
      calls (.AddToLR addr false)
    | .SUB_TO_LR => do
      let addr ← ReadAddress m_cmdList
      calls (.AddToLR addr true)
    | .ADD_SUB_TO_LR => do
      let addr ← ReadAddress m_cmdList
      calls (.AddSubToLR addr)
    | .PROCESS =>
      if UsesStashedPbAddress layout then calls (.ProcessPBList oldPbAddr newFilter true)
      else do
        let addr ← ReadAddress m_cmdList
        calls (.ProcessPBList addr newFilter false)
    | .MIX_AUXA => mixAux 0
    | .MIX_AUXB => mixAux 1
    | .MIX_AUXC => mixAux 2
    | .UPL_AUXA_MIX_LRSC => uploadAux 0
    | .UPL_AUXB_MIX_LRSC => uploadAux 1
    | .COMPRESSOR => do
      let volume ← readWord m_cmdList
      let frames ← readWord m_cmdList
      let addr ← ReadAddress m_cmdList
      calls (.RunCompressor volume frames addr)
    | .OUTPUT => output false
    | .OUTPUT_DPL2 => output true
    | .WM_OUTPUT => do
      let addresses ← readAddresses m_cmdList 4
      calls (.OutputWMSamples addresses)
    | .END | .unknown => pure ⟨oldPbAddr, none, true⟩
where
  mixAux (auxId : Nat) : StateM Cursor Executed := do
    let volume ← readWord m_cmdList
    let addr ← ReadAddress m_cmdList
    let addr2 ← ReadAddress m_cmdList
    pure ⟨oldPbAddr, some (.MixAUXSamples auxId addr addr2 volume), false⟩
  uploadAux (auxId : Nat) : StateM Cursor Executed := do
    let volume ← readWord m_cmdList
    let addresses ← readAddresses m_cmdList 6
    pure ⟨oldPbAddr, some (.UploadAUXMixLRSC auxId addresses volume), false⟩
  output (uploadAuxC : Bool) : StateM Cursor Executed := do
    let volume ← if OutputCarriesVolume layout then readWord m_cmdList else pure 0x8000
    let addr ← ReadAddress m_cmdList
    let addr2 ← ReadAddress m_cmdList
    pure ⟨oldPbAddr, some (.OutputSamples addr2 addr volume uploadAuxC), false⟩

/-- the calls of a list, and the words that were read -/
structure Execution where
  actions : List Action
  reads : List Nat

def executeLoop (layout : AXCommandLayout) (size : Nat) (m_cmdList : Nat → UInt16) (newFilter : Bool) :
    Nat → Nat → UInt32 → Execution
  | 0, _, _ => ⟨[], []⟩
  | fuel + 1, idx, oldPbAddr =>
    if idx < size then
      let decoded := DecodeCommand (m_cmdList idx) layout
      let (step, c) := executeCommand layout m_cmdList newFilter oldPbAddr decoded ⟨idx + 1, [idx]⟩
      if step.ends then ⟨step.action.toList, c.reads⟩
      else
        let rest := executeLoop layout size m_cmdList newFilter fuel c.idx step.oldPbAddr
        ⟨step.action.toList ++ rest.actions, c.reads ++ rest.reads⟩
    else ⟨[], []⟩

def ExecuteCommandList (m_ucodeCrc : UInt32) (layout : AXCommandLayout) (size : Nat)
    (m_cmdList : Nat → UInt16) : Execution :=
  let newFilter := if m_ucodeCrc ≠ 0 then UCodeUsesNewFilter m_ucodeCrc else layout ≠ .Old
  executeLoop layout size m_cmdList newFilter (size + 1) 0 0

/-! ## the mails -/

structure AXWii where
  m_mailState : MailState
  m_cmdListSize : Nat
  /-- the words of the list, and whatever lies behind them -/
  m_cmdList : Nat → UInt16
  m_cpuMails : List UInt32
  m_deferredResumeCallbacks : Nat
  m_ucodeCrc : UInt32
  m_commandLayout : AXCommandLayout

/-- what a mail had scanned and executed -/
structure Trace where
  scanReads : List Nat
  execution : Execution

def Trace.none : Trace := ⟨[], ⟨[], []⟩⟩

def AXWii.PushMail (ax : AXWii) (mail : UInt32) : AXWii :=
  { ax with m_cpuMails := ax.m_cpuMails ++ [mail] }

def CopyCmdList (Read16 : UInt32 → UInt16) (addr : UInt32) (sizeWords : Nat) (ax : AXWii) : AXWii :=
  let sizeWords := if sizeWords > kCmdListWords then kCmdListWords else sizeWords
  { ax with m_cmdList := fun i =>
      if i < sizeWords then Read16 (addr + .ofNat (i * 2)) else ax.m_cmdList i }

/-- the layout that is executed, and the words that were read to find it -/
def probeLayout (ax : AXWii) : AXCommandLayout × List Nat :=
  if ax.m_commandLayout = .Auto then
    let New := ScanCommandList .New ax.m_cmdListSize ax.m_cmdList
    let NewNoOutputVolume := ScanCommandList .NewNoOutputVolume ax.m_cmdListSize ax.m_cmdList
    let Old := ScanCommandList .Old ax.m_cmdListSize ax.m_cmdList
    (if New.valid then .New else if NewNoOutputVolume.valid then .NewNoOutputVolume
      else if Old.valid then .Old else .New, New.reads ++ NewNoOutputVolume.reads ++ Old.reads)
  else (ax.m_commandLayout, [])

/-- on the worker the list is executed later, but before another one is copied -/
def DispatchCommandList (ax : AXWii) : AXWii × Trace :=
  let (layout, probed) := probeLayout ax
  let result := ScanCommandList layout ax.m_cmdListSize ax.m_cmdList
  ({ ax with m_cpuMails := ax.m_cpuMails ++ List.replicate result.scan.outputCommands kDspSync },
    ⟨probed ++ result.reads,
      ExecuteCommandList ax.m_ucodeCrc layout ax.m_cmdListSize ax.m_cmdList⟩)

def HandleTaskMail (mail : UInt32) (ax : AXWii) : AXWii :=
  if mail = kMailResume then
    { ax.PushMail kDspResume with m_mailState := .WaitingForCmdListSize }
  else if mail = kMailReset then
    { ax.PushMail kDspDone with m_mailState := .WaitingForCmdListSize }
  else { ax with m_mailState := .WaitingForCmdListSize }

def announced (mail : UInt32) (ax : AXWii) : AXWii :=
  { ax with m_cmdListSize := (mail &&& 0xffff).toNat, m_mailState := .WaitingForCmdListAddress }

def HandleMail (Read16 : UInt32 → UInt16) (mail : UInt32) (ax : AXWii) : AXWii × Trace :=
  match ax.m_mailState with
  | .WaitingForCmdListSize =>
    if mail &&& kMailCmdListMask = kMailCmdList then (announced mail ax, .none)
    else if mail &&& 0xffff0000 = kTaskMailToDsp then (HandleTaskMail mail ax, .none)
    else (ax, .none)
  | .WaitingForCmdListAddress =>
    let (ax, trace) := DispatchCommandList (CopyCmdList Read16 mail ax.m_cmdListSize ax)
    let ax := { ax with m_cmdListSize := 0 }.PushMail kDspYield
    ({ ax with
      m_deferredResumeCallbacks := ax.m_deferredResumeCallbacks + 1
      m_mailState := .WaitingForNextTask }, trace)
  | .WaitingForNextTask =>
    if mail &&& kMailCmdListMask = kMailCmdList then (announced mail ax, .none)
    else (HandleTaskMail mail ax, .none)

end DolTranslator.Ax
