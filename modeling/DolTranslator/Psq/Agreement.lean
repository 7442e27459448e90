import DolTranslator.Psq.Forms

/-!
# The forms of `psq_l` and `psq_st` agree

* `psqLoad`, `psqStore`   what an access is for: the guest bytes of its lanes, in order, with one
  conversion for each type and scale;
* `Form`   a form, as a load and as a store;
* `psq_forms_agree`   each form is that, when every pointer that a test gives is right.
-/

namespace DolTranslator.Psq

open Guest

variable {F κ ρ : Type} {c : Conversions F} {h : Host κ} {addr : UInt32} {memory : κ → UInt8}
  {value : F × F} {w : W} {half : BitVec 16}

/-! ## what an access is for -/

def guestLoader (c : Conversions F) (h : Host κ) (addr : UInt32) (memory : κ → UInt8) :
    Accessor (F × F) :=
  loader c h addr memory none fun _ => none

/-- the conversion is the general one, for each type and scale -/
def guestStorer (c : Conversions F) (h : Host κ) (addr : UInt32) (value : F × F) :
    Accessor (List (κ × UInt8)) where
  pairFloat :=
    writeAt h addr none 8
      (packed (n := 4) (c.PpcStorePsqFloatBits value.1) (c.PpcStorePsqFloatBits value.2))
  singleFloat := writeAt h addr none 4 (c.PpcConvertToSingleFTZ value.1).toNat
  pairQuantized q scale :=
    writeAt h addr none (2 * q.size)
      (packed (c.PpcScaleAndClampPsq q scale value.1) (c.PpcScaleAndClampPsq q scale value.2))
  singleQuantized q scale :=
    writeAt h addr none q.size (c.PpcScaleAndClampPsq q scale value.1).toNat

def psqLoad (c : Conversions F) (h : Host κ) (gqr : UInt32) (w : W) (addr : UInt32)
    (memory : κ → UInt8) : Option (F × F) :=
  switchType (guestLoader c h addr memory) w (loadHalf gqr) none

def psqStore (c : Conversions F) (h : Host κ) (gqr : UInt32) (w : W) (addr : UInt32)
    (value : F × F) : Option (List (κ × UInt8)) :=
  switchType (guestStorer c h addr value) w (storeHalf gqr) none

/-- the bytes of an access -/
def accessLength (w : W) (half : BitVec 16) : Nat :=
  let size :=
    if half &&& 7 = 0 then 4
    else
      match Quantized.ofType (half &&& 7) with
      | some q => q.size
      | none => 0
  match w with
  | .pair => 2 * size
  | .single => size

/-- a pointer is that of so many bytes of the guest -/
def Right (h : Host κ) (addr : UInt32) (n : Nat) (pointer : Option UInt64) : Prop :=
  ∀ k < n, h.cell pointer addr k = h.guest (addr + UInt32.ofNat k)

/-- every pointer that a test gives for the address is right -/
structure Proofs (h : Host κ) (addr : UInt32) (resolvedHost : Option UInt64) (offset : UInt32)
    (n : Nat) : Prop where
  readable : Right h addr n (h.PpcTryGetPsqReadableHost addr)
  writable : Right h addr n (h.PpcTryGetPsqWritableHost addr)
  fast : Right h addr n (h.TryGetPointerFast addr n)
  writableFast : Right h addr n (h.TryGetWritablePointerFast addr n)
  resolved : Right h addr n (resolved resolvedHost offset)

/-! ## a tier reads and writes the bytes of the guest -/

theorem right_none (n : Nat) : Right h addr n none := fun _ _ => rfl

theorem readAt_eq {pointer : Option UInt64} {n : Nat} (hp : Right h addr n pointer) :
    readAt h addr memory pointer n = readAt h addr memory none n := by
  unfold readAt
  congr 1
  refine List.map_congr_left fun k hk => ?_
  exact congrArg memory (hp k (List.mem_range.mp hk))

theorem writeAt_eq {pointer : Option UInt64} {n number : Nat} (hp : Right h addr n pointer) :
    writeAt h addr pointer n number = writeAt h addr none n number := by
  unfold writeAt
  refine List.map_congr_left fun b hb => ?_
  obtain ⟨_, hlt, _⟩ := List.mem_zipIdx hb
  have hlength : (toBytes n number).length = n := by
    unfold toBytes
    rw [List.length_map, List.length_range]
  rw [hlength] at hlt
  rw [hp b.2 (by omega)]
  rfl

theorem switchType_float {a : Accessor ρ} {rest : Option ρ} (hfloat : half &&& 7 = 0) :
    switchType a w half rest = some (a.float w) := if_pos hfloat

theorem switchType_quantized {a : Accessor ρ} {rest : Option ρ} {q : Quantized}
    (hfloat : half &&& 7 ≠ 0) (hq : Quantized.ofType (half &&& 7) = some q) :
    switchType a w half rest = some (a.quantized w q ((half >>> 8) &&& 0x3F).toNat) := by
  unfold switchType
  rw [if_neg hfloat, hq]

theorem switchType_congr {a a' : Accessor ρ}
    (hfloat : half &&& 7 = 0 → a.float w = a'.float w)
    (hquantized : ∀ q, half &&& 7 ≠ 0 → Quantized.ofType (half &&& 7) = some q →
      a.quantized w q ((half >>> 8) &&& 0x3F).toNat =
        a'.quantized w q ((half >>> 8) &&& 0x3F).toNat) :
    switchType a w half none = switchType a' w half none := by
  by_cases hzero : half &&& 7 = 0
  · rw [switchType_float hzero, switchType_float hzero, hfloat hzero]
  · cases hq : Quantized.ofType (half &&& 7) with
    | some q =>
      rw [switchType_quantized hzero hq, switchType_quantized hzero hq, hquantized q hzero hq]
    | none =>
      unfold switchType
      rw [if_neg hzero, if_neg hzero, hq]

theorem accessLength_float (hzero : half &&& 7 = 0) :
    accessLength w half = match w with
      | .pair => 8
      | .single => 4 := by
  unfold accessLength
  rw [if_pos hzero]

theorem accessLength_quantized {q : Quantized} (hzero : half &&& 7 ≠ 0)
    (hq : Quantized.ofType (half &&& 7) = some q) :
    accessLength w half = match w with
      | .pair => 2 * q.size
      | .single => q.size := by
  unfold accessLength
  rw [if_neg hzero, hq]

theorem loader_eq {float : Option UInt64} {pointer : Nat → Option UInt64}
    (hfloat : accessLength w half = 8 → Right h addr 8 float)
    (hpointer : Right h addr (accessLength w half) (pointer (accessLength w half))) :
    switchType (loader c h addr memory float pointer) w half none =
      switchType (guestLoader c h addr memory) w half none := by
  apply switchType_congr
  · intro hzero
    rw [accessLength_float hzero] at hfloat hpointer
    cases w with
    | pair =>
      show (loader c h addr memory float pointer).pairFloat = _
      unfold loader
      rw [readAt_eq (hfloat rfl)]
      rfl
    | single =>
      show (loader c h addr memory float pointer).singleFloat = _
      unfold loader
      rw [readAt_eq hpointer]
      rfl
  · intro q hzero hq
    rw [accessLength_quantized hzero hq] at hpointer
    cases w with
    | pair =>
      show (loader c h addr memory float pointer).pairQuantized q _ = _
      unfold loader
      dsimp only
      rw [readAt_eq hpointer]
      rfl
    | single =>
      show (loader c h addr memory float pointer).singleQuantized q _ = _
      unfold loader
      dsimp only
      rw [readAt_eq hpointer]
      rfl

theorem storer_eq
    (hc : ∀ lane, c.PpcQuantizePsqU8Scale61 lane = c.PpcScaleAndClampPsq .u8 61 lane)
    {float scale61 : Option UInt64} {pointer : Nat → Option UInt64}
    (hfloat : accessLength w half = 8 → Right h addr 8 float)
    (hscale : accessLength w half = 2 → Right h addr 2 scale61)
    (hpointer : Right h addr (accessLength w half) (pointer (accessLength w half))) :
    switchType (storer c h addr value float scale61 pointer) w half none =
      switchType (guestStorer c h addr value) w half none := by
  apply switchType_congr
  · intro hzero
    rw [accessLength_float hzero] at hfloat hpointer
    cases w with
    | pair => exact writeAt_eq (hfloat rfl)
    | single => exact writeAt_eq hpointer
  · intro q hzero hq
    rw [accessLength_quantized hzero hq] at hscale hpointer
    cases w with
    | single => exact writeAt_eq hpointer
    | pair =>
      show (storer c h addr value float scale61 pointer).pairQuantized q _ = _
      unfold storer
      dsimp only
      split
      next h61 =>
        -- the fast conversion is the general one
        obtain ⟨rfl, hscale61⟩ := h61
        rw [hc, hc, writeAt_eq (hscale rfl), hscale61]
        rfl
      next => exact writeAt_eq hpointer

/-! ## the switches agree -/

theorem ofType_cases {type : BitVec 16} {q : Quantized} (hq : Quantized.ofType type = some q) :
    type = 4 ∨ type = 5 ∨ type = 6 ∨ type = 7 := by
  unfold Quantized.ofType at hq
  split_ifs at hq with h4 h5 h6 h7
  · exact .inl h4
  · exact .inr (.inl h5)
  · exact .inr (.inr (.inl h6))
  · exact .inr (.inr (.inr h7))

section

variable {a : Accessor ρ} {rest expected : Option ρ}

theorem switchType_eq (ha : switchType a w half none = expected) (hrest : rest = expected) :
    switchType a w half rest = expected := by
  by_cases hzero : half &&& 7 = 0
  · rw [← ha, switchType_float hzero, switchType_float hzero]
  · cases hq : Quantized.ofType (half &&& 7) with
    | some q => rw [← ha, switchType_quantized hzero hq, switchType_quantized hzero hq]
    | none =>
      unfold switchType
      rw [if_neg hzero, hq]
      exact hrest

theorem switchHalf_eq (ha : switchType a w half none = expected) (hrest : rest = expected) :
    switchHalf a w half rest = expected := by
  unfold switchHalf
  by_cases hzero : half = 0
  · have htype : half &&& 7 = 0 := by
      rw [hzero]
      rfl
    rw [if_pos hzero, ← ha, switchType_float htype]
  · rw [if_neg hzero]
    cases hq : Quantized.ofType half with
    | none => exact hrest
    | some q =>
      -- a type without a scale is its own half
      have hhalf : half &&& 7 = half ∧ ((half >>> 8) &&& 0x3F).toNat = 0 := by
        rcases ofType_cases hq with rfl | rfl | rfl | rfl <;> decide
      have htype : half &&& 7 ≠ 0 := by
        rw [hhalf.1]
        exact hzero
      rw [← ha, switchType_quantized htype ((congrArg _ hhalf.1).trans hq), hhalf.2]

theorem floatFirst_eq (ha : switchType a w half none = expected) (hrest : rest = expected) :
    floatFirst a w half rest = expected := by
  unfold floatFirst
  cases w with
  | pair =>
    by_cases hzero : half = 0
    · have htype : half &&& 7 = 0 := by
        rw [hzero]
        rfl
      rw [← ha, switchType_float htype]
      exact if_pos hzero
    · exact (if_neg hzero).trans hrest
  | single =>
    by_cases hzero : half &&& 7 = 0
    · rw [← ha, switchType_float hzero]
      exact if_pos hzero
    · exact (if_neg hzero).trans hrest

theorem genericLoad_eq (ha : switchType a w half none = expected) (hrest : rest = expected) :
    genericLoad a w half rest = expected := by
  cases w with
  | pair => exact switchHalf_eq ha hrest
  | single => exact switchType_eq ha hrest

theorem genericStore_eq (ha : switchType a w half none = expected) (hrest : rest = expected) :
    genericStore a w half rest = expected := by
  cases w with
  | single => exact switchType_eq ha hrest
  | pair =>
    refine switchHalf_eq ha ?_
    split
    next h61 =>
      subst h61
      exact ha
    next => exact hrest

end

/-! ## the forms -/

inductive Form where
  | outOfLine | generic | inline | hoisted | known
  | stackGeneric | stack | knownStack
  | stateFallback (onStack : Bool) | state (onStack : Bool)
  | resolvedState | resolvedGeneric | resolved | knownResolved

/-- the value of the register is in the context, and is the one that is known or handed over -/
def Form.load (c : Conversions F) (h : Host κ) (cpu : Fin 8 → UInt32) (i : Fin 8) (w : W)
    (addr : UInt32) (host : Option UInt64) (offset : UInt32) (memory : κ → UInt8) :
    Form → Option (F × F)
  | .outOfLine => PPC_PsqL c h cpu i w addr memory
  | .generic => PPC_PsqLGeneric c h cpu i (cpu i) w addr memory
  | .inline => PPC_PsqLInline c h cpu i w addr memory
  | .hoisted => PPC_PsqLGqrInline c h cpu i (cpu i) w addr memory
  | .known => PPC_PsqLKnownInline c h cpu i (cpu i) w addr memory
  | .stackGeneric => PPC_PsqLStackGeneric c h cpu i (cpu i) w addr memory
  | .stack => PPC_PsqLStackInline c h cpu i w addr memory
  | .knownStack => PPC_PsqLKnownStackInline c h cpu i (cpu i) w addr memory
  | .stateFallback onStack => PPC_PsqLStateFallback c h (cpu i) w addr memory onStack
  | .state onStack => PPC_PsqLStateInline c h (cpu i) w addr memory onStack
  | .resolvedState => PPC_PsqLResolvedStateInline c h (cpu i) w addr host offset memory
  | .resolvedGeneric => PPC_PsqLResolvedGeneric c h cpu i (cpu i) w addr host offset memory
  | .resolved => PPC_PsqLResolvedInline c h cpu i w addr host offset memory
  | .knownResolved => PPC_PsqLKnownResolvedInline c h cpu i (cpu i) w addr host offset memory

def Form.store (c : Conversions F) (h : Host κ) (cpu : Fin 8 → UInt32) (i : Fin 8) (w : W)
    (addr : UInt32) (host : Option UInt64) (offset : UInt32) (value : F × F) :
    Form → Option (List (κ × UInt8))
  | .outOfLine => PPC_PsqSt c h cpu i w addr value
  | .generic => PPC_PsqStGeneric c h cpu i (cpu i) w addr value
  | .inline => PPC_PsqStInline c h cpu i w addr value
  | .hoisted => PPC_PsqStGqrInline c h cpu i (cpu i) w addr value
  | .known => PPC_PsqStKnownInline c h cpu i (cpu i) w addr value
  | .stackGeneric => PPC_PsqStStackGeneric c h cpu i (cpu i) w addr value
  | .stack => PPC_PsqStStackInline c h cpu i w addr value
  | .knownStack => PPC_PsqStKnownStackInline c h cpu i (cpu i) w addr value
  | .stateFallback onStack => PPC_PsqStStateFallback c h (cpu i) w addr value onStack
  | .state onStack => PPC_PsqStStateInline c h (cpu i) w addr value onStack
  | .resolvedState => PPC_PsqStResolvedStateInline c h (cpu i) w addr host offset value
  | .resolvedGeneric => PPC_PsqStResolvedGeneric c h cpu i (cpu i) w addr host offset value
  | .resolved => PPC_PsqStResolvedInline c h cpu i w addr host offset value
  | .knownResolved => PPC_PsqStKnownResolvedInline c h cpu i (cpu i) w addr host offset value

/-- a form by the functions of the three tiers -/
def Form.run (generic : Accessor ρ → W → BitVec 16 → Option ρ → Option ρ)
    (fast stack resolved : Accessor ρ) (w : W) (half : BitVec 16) (null : Prop) [Decidable null] :
    Form → Option ρ :=
  let outOfLine := switchType fast w half none
  let chosen := fun onStack : Bool => if onStack then stack else fast
  let stateFallback := fun onStack => switchType (chosen onStack) w half none
  fun
  | .outOfLine => outOfLine
  | .generic => generic fast w half outOfLine
  | .inline => floatFirst fast w half (generic fast w half outOfLine)
  | .hoisted => floatFirst fast w half (generic fast w half outOfLine)
  | .known => switchType fast w half outOfLine
  | .stackGeneric => generic stack w half outOfLine
  | .stack => floatFirst stack w half (generic stack w half outOfLine)
  | .knownStack => switchType stack w half outOfLine
  | .stateFallback onStack => stateFallback onStack
  | .state onStack => switchHalf (chosen onStack) w half (stateFallback onStack)
  | .resolvedState =>
    if null then switchHalf fast w half (switchType fast w half none)
    else switchType resolved w half none
  | .resolvedGeneric => generic resolved w half outOfLine
  | .resolved =>
    if null then outOfLine else floatFirst resolved w half (generic resolved w half outOfLine)
  | .knownResolved =>
    if null then switchType fast w half outOfLine else switchType resolved w half outOfLine

theorem run_eq {generic : Accessor ρ → W → BitVec 16 → Option ρ → Option ρ}
    {fast stack resolved : Accessor ρ} {null : Prop} [Decidable null] {expected : Option ρ}
    (hgeneric : ∀ a rest, switchType a w half none = expected → rest = expected →
      generic a w half rest = expected)
    (hfast : switchType fast w half none = expected)
    (hstack : switchType stack w half none = expected)
    (hresolved : switchType resolved w half none = expected) (form : Form) :
    form.run generic fast stack resolved w half null = expected := by
  have hchosen (onStack : Bool) :
      switchType (if onStack then stack else fast) w half none = expected := by
    cases onStack with
    | true => exact hstack
    | false => exact hfast
  have hnull {x y : Option ρ} (hx : x = expected) (hy : y = expected) :
      (if null then x else y) = expected := by
    split
    · exact hx
    · exact hy
  have hcold (a : Accessor ρ) (ha : switchType a w half none = expected) := hgeneric a _ ha hfast
  cases form with
  | outOfLine => exact hfast
  | generic => exact hcold fast hfast
  | inline => exact floatFirst_eq hfast (hcold fast hfast)
  | hoisted => exact floatFirst_eq hfast (hcold fast hfast)
  | known => exact switchType_eq hfast hfast
  | stackGeneric => exact hcold stack hstack
  | stack => exact floatFirst_eq hstack (hcold stack hstack)
  | knownStack => exact switchType_eq hstack hfast
  | stateFallback onStack => exact hchosen onStack
  | state onStack => exact switchHalf_eq (hchosen onStack) (hchosen onStack)
  | resolvedState => exact hnull (switchHalf_eq hfast hfast) hresolved
  | resolvedGeneric => exact hcold resolved hresolved
  | resolved => exact hnull hfast (floatFirst_eq hresolved (hcold resolved hresolved))
  | knownResolved => exact hnull (switchType_eq hfast hfast) (switchType_eq hresolved hfast)

variable {cpu : Fin 8 → UInt32} {i : Fin 8} {host : Option UInt64} {offset : UInt32}

theorem load_eq (hp : Proofs h addr host offset (accessLength w (loadHalf (cpu i))))
    (memory : κ → UInt8) (form : Form) :
    form.load c h cpu i w addr host offset memory = psqLoad c h (cpu i) w addr memory := by
  have hrun : form.load c h cpu i w addr host offset memory =
      form.run genericLoad (fastLoader c h addr memory) (stackLoader c h addr memory)
        (resolvedLoader c h addr host offset memory) w (loadHalf (cpu i)) (host = none) := by
    cases form <;> rfl
  rw [hrun]
  exact run_eq (fun _ _ => genericLoad_eq)
    (loader_eq (fun hlength => hlength ▸ hp.readable) (right_none _))
    (loader_eq (fun hlength => hlength ▸ hp.fast) hp.fast)
    (loader_eq (fun hlength => hlength ▸ hp.resolved) hp.resolved) form

theorem store_eq
    (hc : ∀ lane, c.PpcQuantizePsqU8Scale61 lane = c.PpcScaleAndClampPsq .u8 61 lane)
    (hp : Proofs h addr host offset (accessLength w (storeHalf (cpu i)))) (value : F × F)
    (form : Form) :
    form.store c h cpu i w addr host offset value = psqStore c h (cpu i) w addr value := by
  have hrun : form.store c h cpu i w addr host offset value =
      form.run genericStore (fastStorer c h addr value) (stackStorer c h addr value)
        (resolvedStorer c h addr host offset value) w (storeHalf (cpu i)) (host = none) := by
    cases form <;> rfl
  rw [hrun]
  exact run_eq (fun _ _ => genericStore_eq)
    (storer_eq hc (fun hlength => hlength ▸ hp.writable) (fun hlength => hlength ▸ hp.writableFast)
      (right_none _))
    (storer_eq hc (fun hlength => hlength ▸ hp.fast) (fun hlength => hlength ▸ hp.fast) hp.fast)
    (storer_eq hc (fun hlength => hlength ▸ hp.resolved) (fun hlength => hlength ▸ hp.resolved)
      hp.resolved) form

/-- only a reserved type stops -/
theorem switchType_eq_none {a : Accessor ρ} :
    switchType a w half none = none ↔ half &&& 7 ∈ [(1 : BitVec 16), 2, 3] := by
  have htypes : ∀ type : BitVec 16, type.toNat < 8 →
      ((type ≠ 0 ∧ Quantized.ofType type = none) ↔ type ∈ [(1 : BitVec 16), 2, 3]) := by
    intro type hlt
    obtain ⟨n, hn⟩ : ∃ n : Fin 8, type = BitVec.ofNat 16 n :=
      ⟨⟨type.toNat, hlt⟩, ((BitVec.ofNat_toNat 16 type).trans (BitVec.setWidth_eq type)).symm⟩
    subst hn
    revert n
    decide
  have hlt : (half &&& 7).toNat < 8 := by
    rw [BitVec.toNat_and]
    exact Nat.lt_succ_of_le Nat.and_le_right
  rw [← htypes _ hlt]
  by_cases hzero : half &&& 7 = 0
  · rw [switchType_float hzero]
    exact ⟨fun h => (by cases h), fun h => absurd hzero h.1⟩
  · cases hq : Quantized.ofType (half &&& 7) with
    | some q =>
      rw [switchType_quantized hzero hq]
      exact ⟨fun h => (by cases h), fun h => (by cases h.2)⟩
    | none =>
      unfold switchType
      rw [if_neg hzero, hq]
      exact ⟨fun _ => ⟨hzero, rfl⟩, fun _ => rfl⟩

/-- **All forms of an access agree**: each reads or writes the guest bytes of its lanes, and each
stops for a reserved type. -/
theorem psq_forms_agree (c : Conversions F)
    (hc : ∀ lane, c.PpcQuantizePsqU8Scale61 lane = c.PpcScaleAndClampPsq .u8 61 lane)
    (h : Host κ) (cpu : Fin 8 → UInt32) (i : Fin 8) (w : W) (addr : UInt32)
    (host : Option UInt64) (offset : UInt32) (form : Form) :
    (Proofs h addr host offset (accessLength w (loadHalf (cpu i))) → ∀ memory,
      form.load c h cpu i w addr host offset memory = psqLoad c h (cpu i) w addr memory ∧
        (form.load c h cpu i w addr host offset memory = none ↔
          loadHalf (cpu i) &&& 7 ∈ [(1 : BitVec 16), 2, 3])) ∧
    (Proofs h addr host offset (accessLength w (storeHalf (cpu i))) → ∀ value,
      form.store c h cpu i w addr host offset value = psqStore c h (cpu i) w addr value ∧
        (form.store c h cpu i w addr host offset value = none ↔
          storeHalf (cpu i) &&& 7 ∈ [(1 : BitVec 16), 2, 3])) := by
  constructor
  · intro hp memory
    have hload := load_eq (c := c) hp memory form
    exact ⟨hload, hload ▸ switchType_eq_none⟩
  · intro hp value
    have hstore := store_eq hc hp value form
    exact ⟨hstore, hstore ▸ switchType_eq_none⟩

/-- lanes that are their own numbers, cut to what they go to -/
def plainConversions : Conversions Nat where
  PpcDequantizePsq _ _ raw := raw.toNat
  PpcScaleAndClampPsq _ _ lane := .ofNat _ lane
  PpcQuantizePsqU8Scale61 lane := .ofNat _ lane
  PpcLoadPsqFloatBits raw := raw.toNat
  PpcStorePsqFloatBits lane := .ofNat _ lane
  PpcBitCastToFloat raw := raw.toNat
  PpcConvertToSingleFTZ lane := .ofNat _ lane
  one := 1

/-- guest memory from a host address on -/
def flatHost : Host UInt64 where
  guest addr := 0x10000000000 + addr.toUInt64
  storage pointer := pointer
  PpcTryGetPsqReadableHost _ := none
  PpcTryGetPsqWritableHost _ := none
  TryGetPointerFast _ _ := none
  TryGetWritablePointerFast _ _ := none

/-- a resolved load of two bytes, and a resolved store of two with scale 61 -/
theorem psq_forms_agree_resolved :
    Form.load plainConversions flatHost (fun _ => 0x00043D04) 0 .pair 0x80000000
        (some 0x10080000000) 0 (fun _ => 7) .resolved = some (7, 7) ∧
      Form.store plainConversions flatHost (fun _ => 0x00043D04) 0 .pair 0x80000000
        (some 0x10080000000) 0 (1, 2) .resolved =
          some [(0x10080000000, 1), (0x10080000001, 2)] := by
  have hproofs : Proofs flatHost 0x80000000 (some 0x10080000000) 0 2 := by
    refine ⟨right_none 2, right_none 2, right_none 2, right_none 2, ?_⟩
    unfold Right
    decide
  have hagree := psq_forms_agree plainConversions (fun _ => rfl) flatHost (fun _ => 0x00043D04) 0
    .pair 0x80000000 (some 0x10080000000) 0 .resolved
  exact ⟨(hagree.1 hproofs fun _ => 7).1.trans (by decide),
    (hagree.2 hproofs (1, 2)).1.trans (by decide)⟩

end DolTranslator.Psq
