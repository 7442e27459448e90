import DolTranslator.Guest.Memory

/-!
# The forms of `psq_l` and `psq_st`

The conversions of lanes are parameters, and so are the tests that give a host pointer.  An access
has four functions: a pair or one lane, floats or quantized numbers; and each comes in three tiers.

* `loader`, `storer`   the four functions of a tier, by the pointers of its tests;
* `switchType`, `switchHalf`   the switches on the half of a GQR;
* `PPC_PsqL` .. `PPC_PsqStKnownResolvedInline`   the forms;
* `Form`   one of them.

The context is not null.
-/

namespace DolTranslator.Psq

open Guest

/-- both lanes for W = 0, and the first alone for W = 1 -/
inductive W where
  | pair | single
  deriving DecidableEq

inductive Quantized where
  | u8 | u16 | s8 | s16
  deriving DecidableEq

def Quantized.size : Quantized → Nat
  | .u8 => 1
  | .u16 => 2
  | .s8 => 1
  | .s16 => 2

structure Conversions (F : Type) where
  PpcDequantizePsq (q : Quantized) (scale : Nat) (raw : BitVec (8 * q.size)) : F
  PpcScaleAndClampPsq (q : Quantized) (scale : Nat) (lane : F) : BitVec (8 * q.size)
  PpcQuantizePsqU8Scale61 (lane : F) : BitVec 8
  PpcLoadPsqFloatBits (raw : BitVec 32) : F
  PpcStorePsqFloatBits (lane : F) : BitVec 32
  PpcBitCastToFloat (raw : BitVec 32) : F
  PpcConvertToSingleFTZ (lane : F) : BitVec 32
  one : F

/-- where the bytes of memory are, and the tests that give a pointer to some -/
structure Host (κ : Type) where
  guest (addr : UInt32) : κ
  storage (pointer : UInt64) : κ
  PpcTryGetPsqReadableHost (addr : UInt32) : Option UInt64
  PpcTryGetPsqWritableHost (addr : UInt32) : Option UInt64
  TryGetPointerFast (addr : UInt32) (length : Nat) : Option UInt64
  TryGetWritablePointerFast (addr : UInt32) (length : Nat) : Option UInt64

/-- the bytes from a pointer on; without one, those of the guest address by checked access -/
def Host.cell {κ : Type} (h : Host κ) (pointer : Option UInt64) (addr : UInt32) (k : Nat) : κ :=
  match pointer with
  | some p => h.storage (p + UInt64.ofNat k)
  | none => h.guest (addr + UInt32.ofNat k)

/-- the functions of an access, or what each gives -/
structure Accessor (ρ : Type) where
  pairFloat : ρ
  singleFloat : ρ
  pairQuantized (q : Quantized) (scale : Nat) : ρ
  singleQuantized (q : Quantized) (scale : Nat) : ρ

def Accessor.float {ρ : Type} (a : Accessor ρ) : W → ρ
  | .pair => a.pairFloat
  | .single => a.singleFloat

def Accessor.quantized {ρ : Type} (a : Accessor ρ) : W → Quantized → Nat → ρ
  | .pair => a.pairQuantized
  | .single => a.singleQuantized

/-! ## the switches -/

section switches

variable {ρ : Type} (a : Accessor ρ) (w : W) (half : BitVec 16) (rest : Option ρ)

def loadHalf (gqr : UInt32) : BitVec 16 := BitVec.ofNat 16 (gqr.toNat >>> 16)

def storeHalf (gqr : UInt32) : BitVec 16 := BitVec.ofNat 16 gqr.toNat

def Quantized.ofType (type : BitVec 16) : Option Quantized :=
  if type = 4 then some .u8
  else if type = 5 then some .u16
  else if type = 6 then some .s8
  else if type = 7 then some .s16
  else none

def switchType : Option ρ :=
  if half &&& 7 = 0 then some (a.float w)
  else
    match Quantized.ofType (half &&& 7) with
    | some q => some (a.quantized w q ((half >>> 8) &&& 0x3F).toNat)
    | none => rest

/-- on the whole half: the types without a scale -/
def switchHalf : Option ρ :=
  if half = 0 then some (a.float w)
  else
    match Quantized.ofType half with
    | some q => some (a.quantized w q 0)
    | none => rest

def genericLoad : Option ρ :=
  match w with
  | .pair => switchHalf a .pair half rest
  | .single => switchType a .single half rest

def genericStore : Option ρ :=
  match w with
  | .pair =>
    switchHalf a .pair half (if half = 0x3D04 then some (a.pairQuantized .u8 61) else rest)
  | .single => switchType a .single half rest

def floatFirst : Option ρ :=
  match w with
  | .pair => if half = 0 then some a.pairFloat else rest
  | .single => if half &&& 7 = 0 then some a.singleFloat else rest

end switches

variable {F κ : Type} (c : Conversions F) (h : Host κ) (cpu : Fin 8 → UInt32) (i : Fin 8)
  (gqr : UInt32) (w : W) (addr : UInt32) (resolvedHost : Option UInt64) (offset : UInt32)

def resolved : Option UInt64 := resolvedHost.map (· + UInt64.ofNat offset.toNat)

/-! ## loads -/

section loads

variable (memory : κ → UInt8)

def readAt (pointer : Option UInt64) (n : Nat) : Nat :=
  fromBytes ((List.range n).map fun k => memory (h.cell pointer addr k))

/-- by the pointer of a pair of floats, and that of a number of bytes -/
def loader (float : Option UInt64) (pointer : Nat → Option UInt64) : Accessor (F × F) where
  pairFloat :=
    let packed := readAt h addr memory float 8
    (c.PpcLoadPsqFloatBits (.ofNat _ (packed >>> 32)), c.PpcLoadPsqFloatBits (.ofNat _ packed))
  singleFloat := (c.PpcBitCastToFloat (.ofNat _ (readAt h addr memory (pointer 4) 4)), c.one)
  pairQuantized q scale :=
    let packed := readAt h addr memory (pointer (2 * q.size)) (2 * q.size)
    (c.PpcDequantizePsq q scale (.ofNat _ (packed >>> (8 * q.size))),
      c.PpcDequantizePsq q scale (.ofNat _ packed))
  singleQuantized q scale :=
    (c.PpcDequantizePsq q scale (.ofNat _ (readAt h addr memory (pointer q.size) q.size)), c.one)

def fastLoader : Accessor (F × F) :=
  loader c h addr memory (h.PpcTryGetPsqReadableHost addr) fun _ => none

def stackLoader : Accessor (F × F) :=
  loader c h addr memory (h.TryGetPointerFast addr 8) (h.TryGetPointerFast addr)

def resolvedLoader : Accessor (F × F) :=
  loader c h addr memory (resolved resolvedHost offset) fun _ => resolved resolvedHost offset

def PPC_PsqL : Option (F × F) := switchType (fastLoader c h addr memory) w (loadHalf (cpu i)) none

def PPC_PsqLGeneric : Option (F × F) :=
  genericLoad (fastLoader c h addr memory) w (loadHalf gqr) (PPC_PsqL c h cpu i w addr memory)

def PPC_PsqLGqrInline : Option (F × F) :=
  floatFirst (fastLoader c h addr memory) w (loadHalf gqr)
    (PPC_PsqLGeneric c h cpu i gqr w addr memory)

def PPC_PsqLInline : Option (F × F) := PPC_PsqLGqrInline c h cpu i (cpu i) w addr memory

def PPC_PsqLKnownInline : Option (F × F) :=
  switchType (fastLoader c h addr memory) w (loadHalf gqr) (PPC_PsqL c h cpu i w addr memory)

def PPC_PsqLStackGeneric : Option (F × F) :=
  genericLoad (stackLoader c h addr memory) w (loadHalf gqr) (PPC_PsqL c h cpu i w addr memory)

def PPC_PsqLStackInline : Option (F × F) :=
  floatFirst (stackLoader c h addr memory) w (loadHalf (cpu i))
    (PPC_PsqLStackGeneric c h cpu i (cpu i) w addr memory)

def PPC_PsqLKnownStackInline : Option (F × F) :=
  switchType (stackLoader c h addr memory) w (loadHalf gqr) (PPC_PsqL c h cpu i w addr memory)

def PPC_PsqLStateFallback (stack : Bool) : Option (F × F) :=
  switchType (if stack then stackLoader c h addr memory else fastLoader c h addr memory) w
    (loadHalf gqr) none

def PPC_PsqLStateInline (stack : Bool) : Option (F × F) :=
  switchHalf (if stack then stackLoader c h addr memory else fastLoader c h addr memory) w
    (loadHalf gqr) (PPC_PsqLStateFallback c h gqr w addr memory stack)

def PPC_PsqLResolvedStateInline : Option (F × F) :=
  if resolvedHost = none then PPC_PsqLStateInline c h gqr w addr memory false
  else switchType (resolvedLoader c h addr resolvedHost offset memory) w (loadHalf gqr) none

def PPC_PsqLResolvedGeneric : Option (F × F) :=
  genericLoad (resolvedLoader c h addr resolvedHost offset memory) w (loadHalf gqr)
    (PPC_PsqL c h cpu i w addr memory)

def PPC_PsqLResolvedInline : Option (F × F) :=
  if resolvedHost = none then PPC_PsqL c h cpu i w addr memory
  else
    floatFirst (resolvedLoader c h addr resolvedHost offset memory) w (loadHalf (cpu i))
      (PPC_PsqLResolvedGeneric c h cpu i (cpu i) w addr resolvedHost offset memory)

def PPC_PsqLKnownResolvedInline : Option (F × F) :=
  if resolvedHost = none then PPC_PsqLKnownInline c h cpu i gqr w addr memory
  else
    switchType (resolvedLoader c h addr resolvedHost offset memory) w (loadHalf gqr)
      (PPC_PsqL c h cpu i w addr memory)

end loads

/-! ## stores -/

section stores

variable (value : F × F)

def writeAt (pointer : Option UInt64) (n number : Nat) : List (κ × UInt8) :=
  (toBytes n number).zipIdx.map fun b => (h.cell pointer addr b.2, b.1)

def packed {n : Nat} (first second : BitVec (8 * n)) : Nat :=
  first.toNat <<< (8 * n) + second.toNat

/-- by the pointers of a pair of floats, of a pair of bytes with scale 61, and of a number -/
def storer (float scale61 : Option UInt64) (pointer : Nat → Option UInt64) :
    Accessor (List (κ × UInt8)) where
  pairFloat :=
    writeAt h addr float 8
      (packed (n := 4) (c.PpcStorePsqFloatBits value.1) (c.PpcStorePsqFloatBits value.2))
  singleFloat := writeAt h addr (pointer 4) 4 (c.PpcConvertToSingleFTZ value.1).toNat
  pairQuantized q scale :=
    if q = .u8 ∧ scale = 61 then
      writeAt h addr scale61 2
        (packed (n := 1) (c.PpcQuantizePsqU8Scale61 value.1) (c.PpcQuantizePsqU8Scale61 value.2))
    else
      writeAt h addr (pointer (2 * q.size)) (2 * q.size)
        (packed (c.PpcScaleAndClampPsq q scale value.1) (c.PpcScaleAndClampPsq q scale value.2))
  singleQuantized q scale :=
    writeAt h addr (pointer q.size) q.size (c.PpcScaleAndClampPsq q scale value.1).toNat

def fastStorer : Accessor (List (κ × UInt8)) :=
  storer c h addr value (h.PpcTryGetPsqWritableHost addr) (h.TryGetWritablePointerFast addr 2)
    fun _ => none

def stackStorer : Accessor (List (κ × UInt8)) :=
  storer c h addr value (h.TryGetPointerFast addr 8) (h.TryGetPointerFast addr 2)
    (h.TryGetPointerFast addr)

def resolvedStorer : Accessor (List (κ × UInt8)) :=
  storer c h addr value (resolved resolvedHost offset) (resolved resolvedHost offset)
    fun _ => resolved resolvedHost offset

def PPC_PsqSt : Option (List (κ × UInt8)) :=
  switchType (fastStorer c h addr value) w (storeHalf (cpu i)) none

def PPC_PsqStGeneric : Option (List (κ × UInt8)) :=
  genericStore (fastStorer c h addr value) w (storeHalf gqr) (PPC_PsqSt c h cpu i w addr value)

def PPC_PsqStGqrInline : Option (List (κ × UInt8)) :=
  floatFirst (fastStorer c h addr value) w (storeHalf gqr)
    (PPC_PsqStGeneric c h cpu i gqr w addr value)

def PPC_PsqStInline : Option (List (κ × UInt8)) :=
  PPC_PsqStGqrInline c h cpu i (cpu i) w addr value

def PPC_PsqStKnownInline : Option (List (κ × UInt8)) :=
  switchType (fastStorer c h addr value) w (storeHalf gqr) (PPC_PsqSt c h cpu i w addr value)

def PPC_PsqStStackGeneric : Option (List (κ × UInt8)) :=
  genericStore (stackStorer c h addr value) w (storeHalf gqr) (PPC_PsqSt c h cpu i w addr value)

def PPC_PsqStStackInline : Option (List (κ × UInt8)) :=
  floatFirst (stackStorer c h addr value) w (storeHalf (cpu i))
    (PPC_PsqStStackGeneric c h cpu i (cpu i) w addr value)

def PPC_PsqStKnownStackInline : Option (List (κ × UInt8)) :=
  switchType (stackStorer c h addr value) w (storeHalf gqr) (PPC_PsqSt c h cpu i w addr value)

def PPC_PsqStStateFallback (stack : Bool) : Option (List (κ × UInt8)) :=
  switchType (if stack then stackStorer c h addr value else fastStorer c h addr value) w
    (storeHalf gqr) none

def PPC_PsqStStateInline (stack : Bool) : Option (List (κ × UInt8)) :=
  switchHalf (if stack then stackStorer c h addr value else fastStorer c h addr value) w
    (storeHalf gqr) (PPC_PsqStStateFallback c h gqr w addr value stack)

def PPC_PsqStResolvedStateInline : Option (List (κ × UInt8)) :=
  if resolvedHost = none then PPC_PsqStStateInline c h gqr w addr value false
  else switchType (resolvedStorer c h addr resolvedHost offset value) w (storeHalf gqr) none

def PPC_PsqStResolvedGeneric : Option (List (κ × UInt8)) :=
  genericStore (resolvedStorer c h addr resolvedHost offset value) w (storeHalf gqr)
    (PPC_PsqSt c h cpu i w addr value)

def PPC_PsqStResolvedInline : Option (List (κ × UInt8)) :=
  if resolvedHost = none then PPC_PsqSt c h cpu i w addr value
  else
    floatFirst (resolvedStorer c h addr resolvedHost offset value) w (storeHalf (cpu i))
      (PPC_PsqStResolvedGeneric c h cpu i (cpu i) w addr resolvedHost offset value)

def PPC_PsqStKnownResolvedInline : Option (List (κ × UInt8)) :=
  if resolvedHost = none then PPC_PsqStKnownInline c h cpu i gqr w addr value
  else
    switchType (resolvedStorer c h addr resolvedHost offset value) w (storeHalf gqr)
      (PPC_PsqSt c h cpu i w addr value)

end stores

end DolTranslator.Psq
