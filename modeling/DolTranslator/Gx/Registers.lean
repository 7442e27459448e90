import DolTranslator.Gx.State

/-!
# The hardware's registers, as a command stream loads them

* `applyBP`   one BP register, through the write mask;
* `applyXF`   words into XF's memory and registers;
* `bpDirty`, `xfRegisterDirty`   what a register feeds;
* `bpUnchanged`, `xfUnchanged`   whether a load repeats what the registers hold.
-/

namespace DolTranslator.Gx

open Function

def bpDirty (reg : Nat) : BitVec 32 :=
  if reg = 0x00 then kDirtyShader ||| kDirtyPixel
  else if 0x06 ≤ reg ∧ reg ≤ 0x0E then kDirtyTevUniforms
  else if 0x0F ≤ reg ∧ reg ≤ 0x1F then kDirtyShader
  else if reg = 0x20 ∨ reg = 0x21 ∨ reg = 0x59 then 0
  else if 0x22 ≤ reg ∧ reg ≤ 0x2F then kDirtyShader
  else if 0x40 ≤ reg ∧ reg ≤ 0x41 then kDirtyPixel
  else if reg = 0x42 then kDirtyPixel ||| kDirtyShader ||| kDirtyTevUniforms
  else if reg = 0x43 then kDirtyPixel
  else if 0x44 ≤ reg ∧ reg ≤ 0x58 then 0
  else if reg = 0x64 ∨ reg = 0x65 then kDirtyTextures
  else if 0x80 ≤ reg ∧ reg ≤ 0xBB then kDirtyTextures
  else if 0xC0 ≤ reg ∧ reg ≤ 0xDF then kDirtyShader
  else if 0xE0 ≤ reg ∧ reg ≤ 0xE7 then kDirtyTevUniforms
  else if 0xE8 ≤ reg ∧ reg ≤ 0xF2 then kDirtyShader ||| kDirtyTevUniforms
  else if 0xF3 ≤ reg ∧ reg ≤ 0xFD then kDirtyShader
  else if reg = 0xFE then 0
  else kDirtyAll

/-- a register of XF, by its offset from 0x1000 -/
def xfRegisterDirty (reg : Nat) : BitVec 32 :=
  if reg = 0x08 ∨ reg = 0x09 ∨ reg = 0x12 then kDirtyShader
  else if 0x0A ≤ reg ∧ reg ≤ 0x0D then kDirtyXfUniforms
  else if 0x0E ≤ reg ∧ reg ≤ 0x11 then kDirtyShader
  else if reg = 0x18 ∨ reg = 0x19 then kDirtyXfUniforms
  else if 0x1A ≤ reg ∧ reg ≤ 0x1F then 0
  else if 0x20 ≤ reg ∧ reg ≤ 0x26 then kDirtyXfUniforms
  else if reg = 0x3F ∨ 0x40 ≤ reg ∧ reg < 0x48 ∨ 0x50 ≤ reg ∧ reg < 0x58 then kDirtyShader
  else kDirtyAll

/-! ## fields -/

def channelFromHardware (hw : Nat) : Nat := [4, 5, 4, 5, 4, 7, 8, 6].getD hw 0xFF

def colorFromXF (v : BitVec 32) : Color8 :=
  ⟨bits v 8 24, bits v 8 16, bits v 8 8, bits v 8 0⟩

def texGenSourceFromRow (row : Nat) : Nat := [0, 1, 19, 2, 3, 4, 5, 6, 7, 8, 9, 10, 11].getD row 4

def texMtxSlotFromRow (row : Nat) : Nat := if 30 ≤ row ∧ row < 60 then (row - 30) / 3 else kIdentity

def tevCombiner (k : TevCombiner) (v : BitVec 32) : TevCombiner :=
  let k := { k with clamp := decide (bits v 1 19 ≠ 0), out := bits v 2 22 }
  -- a bias of 3 is a compare: the op from bit 18 and the scale bits
  if bits v 2 16 = 3 then { k with op := 8 + (bits v 1 18 ||| bits v 2 20 <<< 1), bias := 0, scale := 0 }
  else { k with op := bits v 1 18, bias := bits v 2 16, scale := bits v 2 20 }

def kXfShadow : Nat := 0x1100

namespace State

/-! ## BP -/

def bpUnchanged (s : State) (value : BitVec 32) : Bool :=
  let reg := bits value 8 24
  if s.bpMask ≠ 0x00FFFFFF ∨ reg = 0xFE ∨ 0x44 ≤ reg ∧ reg ≤ 0x58 ∨ 0x60 ≤ reg ∧ reg ≤ 0x6F ∨
      ¬s.bpWritten reg then false
  else decide (s.bpRegs reg &&& 0x00FFFFFF = value &&& 0x00FFFFFF)

/-- TEV combiners: colour at the even registers 0xC0 to 0xDE, alpha at the odd -/
def loadTevEnv (s : State) (reg : Nat) (v : BitVec 32) : State :=
  s.modifyStage ((reg - 0xC0) / 2) fun k =>
    if reg % 2 = 1 then
      { k with
        rasSwap := bits v 2 0
        texSwap := bits v 2 2
        alpha := tevCombiner
          { k.alpha with d := bits v 3 4, c := bits v 3 7, b := bits v 3 10, a := bits v 3 13 } v }
    else
      { k with
        color := tevCombiner
          { k.color with d := bits v 4 0, c := bits v 4 4, b := bits v 4 8, a := bits v 4 12 } v }

def loadTevOrders (s : State) (reg : Nat) (v : BitVec 32) : State :=
  let half (s : State) (h : Nat) : State :=
    s.setTevOrder ((reg - 0x28) * 2 + h) (bits v 3 (h * 12 + 3))
      (if bits v 1 (h * 12 + 6) ≠ 0 then bits v 3 (h * 12) else 0xFF)
      (channelFromHardware (bits v 3 (h * 12 + 7)))
  half (half s 0) 1

/-- konst selections, two stages a register, and half a swap table -/
def loadKonstSelections (s : State) (reg : Nat) (v : BitVec 32) : State :=
  let index := reg - 0xF6
  let s := { s with tev := { s.tev with
    swapTable := modifyAt s.tev.swapTable (index / 2) fun w =>
      if index % 2 = 1 then { w with b := bits v 2 0, a := bits v 2 2 }
      else { w with r := bits v 2 0, g := bits v 2 2 } } }
  let s := s.modifyStage (index * 2) fun k =>
    { k with kcolorSel := bits v 5 4, kalphaSel := bits v 5 9 }
  s.modifyStage (index * 2 + 1) fun k =>
    { k with kcolorSel := bits v 5 14, kalphaSel := bits v 5 19 }

/-- TEV and konst colour registers: even RA, odd BG; bit 23 picks konst -/
def loadTevRegister (s : State) (reg : Nat) (v : BitVec 32) : State :=
  let index := (reg - 0xE0) / 2
  let ra := reg % 2 = 0
  if bits v 1 23 ≠ 0 then
    { s with
      kColors := modifyAt s.kColors index fun k =>
        update (update k (if ra then 0 else 2) (single (bits v 8 0) 255))
          (if ra then 3 else 1) (single (bits v 8 12) 255) }
  else
    { s with
      tevRegs := modifyAt s.tevRegs index fun r =>
        update (update r (if ra then 0 else 2) (single (signed11 (bits v 11 0)) 255))
          (if ra then 3 else 1) (single (signed11 (bits v 11 12)) 255) }

/-- what the register's new value `v` means -/
def decodeBP (s : State) (reg : Nat) (v : BitVec 32) : State :=
  if 0xC0 ≤ reg ∧ reg ≤ 0xDF then s.loadTevEnv reg v
  else if 0x28 ≤ reg ∧ reg ≤ 0x2F then s.loadTevOrders reg v
  else if 0xF6 ≤ reg ∧ reg ≤ 0xFD then s.loadKonstSelections reg v
  else if 0xE0 ≤ reg ∧ reg ≤ 0xE7 then s.loadTevRegister reg v
  else if reg = 0x65 then -- a palette loaded from memory (0x64) into TMEM
    { s with
      tluts := update s.tluts (bits v 10 0)
        ⟨(s.bpRegs 0x64 &&& 0x00FFFFFF) <<< 5, bits v 11 10 * 16⟩ }
  else if reg = 0x00 then -- the hardware's front and back are the SDK's back and front
    let cull := bits v 2 14
    (((s.setNumTexGens (bits v 4 0)).setNumChans (bits v 3 4)).setNumTevStages
      (bits v 4 10 + 1)).setCullMode (if cull = 1 then 2 else if cull = 2 then 1 else cull)
  else if reg = 0x40 then
    s.setZMode (decide (bits v 1 0 ≠ 0)) (bits v 3 1) (decide (bits v 1 4 ≠ 0))
  else if reg = 0x66 then { s with texInvalidations := s.texInvalidations + 1 }
  else if reg = 0x43 then
    { s with
      pixel := { s.pixel with efbAlpha := decide (bits v 3 0 = 1) }
      peControlWrites := s.peControlWrites + 1 }
  else if reg = 0x41 then
    let type := if bits v 1 11 ≠ 0 then 3 else if bits v 1 0 ≠ 0 then 1
      else if bits v 1 1 ≠ 0 then 2 else 0
    ((s.setBlendMode type (bits v 3 8) (bits v 3 5) (bits v 4 12)).setColorUpdate
      (decide (bits v 1 3 ≠ 0))).setAlphaUpdate (decide (bits v 1 4 ≠ 0))
  else if reg = 0xEE then { s with fogA := partialFloat v }
  else if reg = 0xEF then { s with fogBMagnitude := bits v 24 0 }
  else if reg = 0xF0 then { s with fogBShift := bits v 5 0 }
  else if reg = 0xF1 then
    { s with
      fogC := partialFloat v
      tev := { s.tev with fogType := bits v 3 21 ||| bits v 1 20 <<< 3 } }
  else if reg = 0xF2 then
    { s with
      fogColor := update (update (update s.fogColor 0 (single (bits v 8 16) 255))
        1 (single (bits v 8 8) 255)) 2 (single (bits v 8 0) 255) }
  else if reg = 0x42 then -- destination alpha: the value, and whether it replaces the TEV's
    { s with
      fogColor := update s.fogColor 3 (single (bits v 8 0) 255)
      tev := { s.tev with dstAlpha := decide (bits v 1 8 ≠ 0) } }
  else if reg = 0xF3 then
    s.setAlphaCompare (bits v 3 16) (bits v 8 0) (bits v 2 22) (bits v 3 19) (bits v 8 8)
  else s

def merged (s : State) (reg : Nat) (value : BitVec 32) : BitVec 32 :=
  (s.bpRegs reg &&& ~~~s.bpMask) ||| (value &&& s.bpMask &&& 0x00FFFFFF)

def applyBP (s : State) (value : BitVec 32) : State :=
  let reg := bits value 8 24
  let saved := s.dirty
  let s := { s with generation := s.generation + 1, bpWritten := update s.bpWritten reg true }
  let s :=
    if reg = 0xFE then { s with bpMask := value &&& 0x00FFFFFF }
    else
      let v := s.merged reg value
      decodeBP { s with bpMask := 0x00FFFFFF, bpRegs := update s.bpRegs reg v } reg v
  -- the setters have marked everything
  { s with dirty := saved ||| bpDirty reg }

def storeBP (s : State) (reg : Nat) (v : BitVec 32) : State :=
  { s with
    generation := s.generation + 1
    bpWritten := update s.bpWritten reg true
    bpMask := 0x00FFFFFF
    bpRegs := update s.bpRegs reg v }

theorem applyBP_mask {s : State} {value : BitVec 32} (h : bits value 8 24 = 0xFE) :
    s.applyBP value = { s with
      generation := s.generation + 1
      bpWritten := update s.bpWritten 0xFE true
      bpMask := value &&& 0x00FFFFFF
      dirty := s.dirty ||| bpDirty 0xFE } := by
  unfold applyBP
  simp only [h, if_true]

theorem applyBP_register {s : State} {value : BitVec 32} {reg : Nat} (hreg : bits value 8 24 = reg)
    (h : reg ≠ 0xFE) : s.applyBP value =
      { decodeBP (s.storeBP reg (s.merged reg value)) reg (s.merged reg value) with
        dirty := s.dirty ||| bpDirty reg } := by
  unfold applyBP
  simp only [hreg, h, if_false]
  rfl

/-! ## XF -/

def xfUnchanged (s : State) (address : BitVec 32) (words : List (BitVec 32)) : Bool :=
  if (address + BitVec.ofNat 32 words.length).toNat > kXfShadow then false
  else words.zipIdx.all fun (w, i) =>
    s.xfWritten (address + BitVec.ofNat 32 i).toNat && s.xfRaw (address + BitVec.ofNat 32 i).toNat == w

/-- the six parameters as the matrix that GXSetProjection would have loaded -/
def rebuildProjection (s : State) : State :=
  let p := s.projParams
  { s with
    proj := fun r c => match r, c with
    | 0, 0 => p 0
    | 1, 1 => p 2
    | 2, 2 => p 4
    | 2, 3 => p 5
    | 0, 3 => if s.projOrtho then p 1 else 0
    | 1, 3 => if s.projOrtho then p 3 else 0
    | 3, 3 => if s.projOrtho then 0x3F800000 else 0
    | 0, 2 => if s.projOrtho then 0 else p 1
    | 1, 2 => if s.projOrtho then 0 else p 3
    | 3, 2 => if s.projOrtho then 0 else 0xBF800000
    | _, _ => 0 }

def loadTexMtxSlots (first : Nat) (slot : Nat → Nat) (s : State) (dirty : BitVec 32) :
    State × BitVec 32 :=
  (List.range 4).foldl (fun (s, dirty) t =>
    if (s.vertex.texGens (first + t)).matrix ≠ slot t then
      (s.modifyTexGen (first + t) fun tg => { tg with matrix := slot t }, dirty ||| kDirtyShader)
    else (s, dirty)) (s, dirty)

/-- a register without a setter of its own -/
def decodeXF (s : State) (reg : Nat) (v : BitVec 32) : State :=
  if 0x1A ≤ reg ∧ reg ≤ 0x1F then { s with viewport := update s.viewport (reg - 0x1A) v }
  else if 0x20 ≤ reg ∧ reg ≤ 0x25 then
    rebuildProjection { s with projParams := update s.projParams (reg - 0x20) v }
  else if reg = 0x26 then rebuildProjection { s with projOrtho := decide (v ≠ 0) }
  else if 0x40 ≤ reg ∧ reg < 0x48 then
    let type := bits v 3 4
    s.modifyTexGen (reg - 0x40) fun tg => { tg with
      type := if type = 0 then (if bits v 1 1 ≠ 0 then 0 else 1)
        else if type = 1 then 2 + bits v 3 15 else 10
      source := texGenSourceFromRow (bits v 5 7) }
  else if 0x50 ≤ reg ∧ reg < 0x58 then
    let row := bits v 6 0
    s.modifyTexGen (reg - 0x50) fun tg => { tg with
      postMatrix := if row = 61 then kIdentity else row / 3
      normalize := decide (bits v 1 8 ≠ 0) }
  else s

/-- the state, and the flags that the register adds -/
def loadXFRegister (s : State) (reg : Nat) (v : BitVec 32) : State × BitVec 32 :=
  let dirty := xfRegisterDirty reg
  if reg = 0x09 then (s.setNumChans (bits v 8 0), dirty)
  else if reg = 0x0A ∨ reg = 0x0B then (s.setChanAmbColor (4 + reg - 0x0A) (colorFromXF v), dirty)
  else if reg = 0x0C ∨ reg = 0x0D then (s.setChanMatColor (4 + reg - 0x0C) (colorFromXF v), dirty)
  else if 0x0E ≤ reg ∧ reg ≤ 0x11 then
    let attn := bits v 2 9
    (s.setChanCtrl (reg - 0x0E) (decide (bits v 1 1 ≠ 0)) (bits v 1 6) (bits v 1 0)
      (bits v 4 2 ||| bits v 4 11 <<< 4) (bits v 2 7)
      (if attn = 1 then 0 else if attn = 3 then 1 else 2), dirty)
  else if reg = 0x12 then (s.setDualTexture (decide (v ≠ 0)), dirty)
  else if reg = 0x18 then
    loadTexMtxSlots 0 (fun t => texMtxSlotFromRow (bits v 6 (6 + t * 6)))
      (s.setCurrentMtx (bits v 6 0)) dirty
  else if reg = 0x19 then loadTexMtxSlots 4 (fun t => texMtxSlotFromRow (bits v 6 (t * 6))) s dirty
  else if reg = 0x3F then (s.setNumTexGens (bits v 8 0), dirty)
  else (s.decodeXF reg v, dirty)

def applyXFRegister (s : State) (reg : Nat) (v : BitVec 32) : State :=
  let saved := s.dirty
  let r := loadXFRegister { s with generation := s.generation + 1 } reg v
  { r.1 with dirty := saved ||| r.2 }

def loadLightWord (l : Light) (i : Nat) (w : BitVec 32) : Light :=
  if i = 3 then { l with color := colorFromXF w }
  else if 4 ≤ i ∧ i ≤ 6 then { l with cosAtt := update l.cosAtt (i - 4) w }
  else if 7 ≤ i ∧ i ≤ 9 then { l with distAtt := update l.distAtt (i - 7) w }
  else if 10 ≤ i ∧ i ≤ 12 then { l with pos := update l.pos (i - 10) w }
  else if 13 ≤ i then { l with dir := update l.dir (i - 13) w }
  else l

/-- one word into XF's memory or a register -/
def applyXFWord (s : State) (a : Nat) (w : BitVec 32) : State :=
  if a < 0x100 then
    -- rows of four, position matrices then texture ones
    if a / 4 < 30 then { s with posRows := modifyAt s.posRows (a / 4) fun r => update r (a % 4) w }
    else if a / 4 < 60 then
      { s with texRows := modifyAt s.texRows (a / 4 - 30) fun r => update r (a % 4) w }
    else s
  else if 0x400 ≤ a ∧ a < 0x460 then
    -- normal matrices: rows of three
    if (a - 0x400) / 3 < 30 then
      { s with nrmRows := modifyAt s.nrmRows ((a - 0x400) / 3) fun r => update r ((a - 0x400) % 3) w }
    else s
  else if 0x500 ≤ a ∧ a < 0x600 then
    if (a - 0x500) / 4 < 60 then
      { s with postRows := modifyAt s.postRows ((a - 0x500) / 4) fun r => update r ((a - 0x500) % 4) w }
    else s
  else if 0x600 ≤ a ∧ a < 0x680 then
    { s with
      lights := modifyAt s.lights ((a - 0x600) / 16) fun l => loadLightWord l ((a - 0x600) % 16) w }
  else if 0x1000 ≤ a then s.applyXFRegister (a - 0x1000) w
  else s

/-- the copy of what was loaded, as far as it reaches -/
def storeXF (s : State) (address : BitVec 32) : List (BitVec 32) → State
  | [] => s
  | w :: words =>
    if address.toNat < kXfShadow then
      storeXF { s with
        xfRaw := update s.xfRaw address.toNat w
        xfWritten := update s.xfWritten address.toNat true } (address + 1) words
    else s

def applyXFWords (s : State) (address : BitVec 32) : List (BitVec 32) → State
  | [] => s
  | w :: words => applyXFWords (s.applyXFWord address.toNat w) (address + 1) words

def applyXF (s : State) (address : BitVec 32) (words : List (BitVec 32)) : State :=
  let s := storeXF { s with generation := s.generation + 1 } address words
  -- registers mark themselves
  let s := if address.toNat < 0x1000 then { s with dirty := s.dirty ||| kDirtyXfUniforms } else s
  s.applyXFWords address words

end State

end DolTranslator.Gx
