import DolTranslator.Gx.Effects

/-!
# Loading a register performs its effects

* `State.forget`   a state without its counters and flags, which no draw reads;
* `Books`   the fields that no effect writes: the raw registers and the counters;
* `forget_decodeBP`  a BP register's value performs `bpEffects`;
* `forget_applyXFWord`   a word of XF performs `xfEffects`.
-/

namespace DolTranslator.Gx

open Function Streams

/-! ## the books -/

structure Books where
  bpRegs : Nat → BitVec 32
  bpMask : BitVec 32
  bpWritten : Nat → Bool
  xfRaw : Nat → BitVec 32
  xfWritten : Nat → Bool
  vtxDesc : Nat → Nat
  peControlWrites : BitVec 32
  texInvalidations : BitVec 32
  generation : BitVec 64
  dirty : BitVec 32

namespace State

def withBooks (s : State) (b : Books) : State :=
  { s with
    bpRegs := b.bpRegs
    bpMask := b.bpMask
    bpWritten := b.bpWritten
    xfRaw := b.xfRaw
    xfWritten := b.xfWritten
    vtxDesc := b.vtxDesc
    peControlWrites := b.peControlWrites
    texInvalidations := b.texInvalidations
    generation := b.generation
    dirty := b.dirty }

def forget (s : State) : State := { s with peControlWrites := 0, generation := 0, dirty := 0 }

def books (s : State) : Books :=
  ⟨s.bpRegs, s.bpMask, s.bpWritten, s.xfRaw, s.xfWritten, s.vtxDesc, 0, s.texInvalidations, 0, 0⟩

@[simp] theorem forget_forget (s : State) : s.forget.forget = s.forget := rfl

end State

theorem perform_withBooks (e : Effect) (s : State) (b : Books) :
    perform e (s.withBooks b) = (perform e s).withBooks b := by
  cases e with
  | cell table => cases table <;> rfl
  | number table => cases table <;> rfl
  | _ => rfl

theorem perform_books (e : Effect) (s : State) : (perform e s).books = s.books := by
  cases e with
  | cell table => cases table <;> rfl
  | number table => cases table <;> rfl
  | _ => rfl

theorem performAll_books (es : List Effect) (s : State) :
    (performAll perform es s).books = s.books := by
  induction es generalizing s with
  | nil => rfl
  | cons e es ih => rw [performAll_cons, ih, perform_books]

theorem stable_withBooks {e : Effect} {s : State} (h : Stable perform e s) (b : Books) :
    Stable perform e (s.withBooks b) := by
  unfold Stable at h ⊢
  rw [perform_withBooks, h]

/-! ## BP -/

namespace State

/-- the inputs of a combiner come from the word, and so does everything else -/
theorem tevCombiner_inputs (k : TevCombiner) (a b c d : Nat) (v : BitVec 32) :
    tevCombiner { k with d := d, c := c, b := b, a := a } v =
      tevCombiner ⟨a, b, c, d, 0, 0, 0, true, 0⟩ v := by
  unfold tevCombiner
  by_cases hcompare : bits v 2 16 = 3
  · simp only [if_pos hcompare]
  · simp only [if_neg hcompare]

theorem forget_loadTevEnv (s : State) (reg : Nat) (v : BitVec 32) :
    (s.loadTevEnv reg v).forget = performAll perform
      (if reg % 2 = 1 then
        [.tev (.stage ((reg - 0xC0) / 2) (.alpha (bits v 2 0) (bits v 2 2) (wordCombiner true v)))]
      else [.tev (.stage ((reg - 0xC0) / 2) (.color (wordCombiner false v)))]) s.forget := by
  unfold loadTevEnv
  by_cases hodd : reg % 2 = 1
  · simp only [if_pos hodd, tevCombiner_inputs]
    rfl
  · simp only [if_neg hodd, tevCombiner_inputs]
    rfl

theorem forget_setTevOrder (s : State) {stage : Nat} (h : stage < 16) (coord map channel : Nat) :
    (s.setTevOrder stage coord map channel).forget =
      perform (orderEffect stage coord map channel) s.forget := by
  unfold setTevOrder
  have h' : ¬stage ≥ 16 := by omega
  simp only [if_neg h']
  rfl

theorem forget_loadTevOrders (s : State) {reg : Nat} (h : reg ≤ 0x2F) (v : BitVec 32) :
    (s.loadTevOrders reg v).forget = performAll perform
      [orderEffect ((reg - 0x28) * 2) (bits v 3 3) (if bits v 1 6 ≠ 0 then bits v 3 0 else 0xFF)
        (channelFromHardware (bits v 3 7)),
      orderEffect ((reg - 0x28) * 2 + 1) (bits v 3 15)
        (if bits v 1 18 ≠ 0 then bits v 3 12 else 0xFF) (channelFromHardware (bits v 3 19))]
      s.forget := by
  have hfirst : (reg - 0x28) * 2 + 0 < 16 := by omega
  have hsecond : (reg - 0x28) * 2 + 1 < 16 := by omega
  unfold loadTevOrders
  rw [forget_setTevOrder _ hsecond, forget_setTevOrder _ hfirst]
  rfl

theorem forget_loadKonstSelections (s : State) (reg : Nat) (v : BitVec 32) :
    (s.loadKonstSelections reg v).forget = performAll perform
      [.tev (if (reg - 0xF6) % 2 = 1 then .swapBA ((reg - 0xF6) / 2) (bits v 2 0) (bits v 2 2)
        else .swapRG ((reg - 0xF6) / 2) (bits v 2 0) (bits v 2 2)),
      .tev (.stage ((reg - 0xF6) * 2) (.konst (bits v 5 4) (bits v 5 9))),
      .tev (.stage ((reg - 0xF6) * 2 + 1) (.konst (bits v 5 14) (bits v 5 19)))] s.forget := by
  unfold loadKonstSelections
  by_cases hodd : (reg - 0xF6) % 2 = 1
  · simp only [if_pos hodd]
    rfl
  · simp only [if_neg hodd]
    rfl

theorem setCell_pair (rows : Nat → Nat → Single) (row c c' : Nat) (x y : Single) :
    modifyAt rows row (fun r => update (update r c x) c' y) =
      setCell row c' y (setCell row c x rows) := by
  unfold setCell
  rw [modifyAt_same]

theorem forget_loadTevRegister (s : State) (reg : Nat) (v : BitVec 32) :
    (s.loadTevRegister reg v).forget = performAll perform
      (if bits v 1 23 ≠ 0 then
        [.cell .kColors ((reg - 0xE0) / 2) (if reg % 2 = 0 then 0 else 2) (single (bits v 8 0) 255),
          .cell .kColors ((reg - 0xE0) / 2) (if reg % 2 = 0 then 3 else 1)
            (single (bits v 8 12) 255)]
      else
        [.cell .tevRegs ((reg - 0xE0) / 2) (if reg % 2 = 0 then 0 else 2)
            (single (signed11 (bits v 11 0)) 255),
          .cell .tevRegs ((reg - 0xE0) / 2) (if reg % 2 = 0 then 3 else 1)
            (single (signed11 (bits v 11 12)) 255)]) s.forget := by
  unfold loadTevRegister
  by_cases hkonst : bits v 1 23 ≠ 0
  · simp only [if_pos hkonst, setCell_pair]
    rfl
  · simp only [if_neg hkonst, setCell_pair]
    rfl

theorem forget_genMode (s : State) (gens chans stages cull : Nat) :
    ((((s.setNumTexGens gens).setNumChans chans).setNumTevStages stages).setCullMode cull).forget =
      performAll perform
        [.vertex (.texGenCount (texGenCountOf gens)), .vertex (.channelCount (channelCountOf chans)),
          .tev (.stageCount (if stages < 1 then 1 else if stages > 16 then 16 else stages)),
          .pixel (.cull (cull % 4))] s.forget := rfl

theorem forget_blendMode (s : State) (type src dst op : Nat) (color alpha : Bool) :
    (((s.setBlendMode type src dst op).setColorUpdate color).setAlphaUpdate alpha).forget =
      performAll perform [.pixel (.blend (type % 4) (src % 8) (dst % 8) (op % 16) color alpha)]
        s.forget := rfl

theorem forget_fogColor (s : State) (r g b : Single) :
    State.forget { s with fogColor := update (update (update s.fogColor 0 r) 1 g) 2 b } =
      performAll perform [.number .fogColor 0 r, .number .fogColor 1 g, .number .fogColor 2 b]
        s.forget := rfl

theorem forget_zMode (s : State) (test : Bool) (compare : Nat) (write : Bool) :
    (s.setZMode test compare write).forget =
      performAll perform [.pixel (.z test (compare % 8) write)] s.forget := rfl

theorem forget_peControl (s : State) (alpha : Bool) (writes : BitVec 32) :
    State.forget { s with pixel := { s.pixel with efbAlpha := alpha }, peControlWrites := writes } =
      performAll perform [.pixel (.efbAlpha alpha)] s.forget := rfl

theorem forget_fogA (s : State) (x : Single) :
    State.forget { s with fogA := x } = performAll perform [.fogA x] s.forget := rfl

theorem forget_fogBMagnitude (s : State) (n : Nat) :
    State.forget { s with fogBMagnitude := n } = performAll perform [.fogBMagnitude n] s.forget := rfl

theorem forget_fogBShift (s : State) (n : Nat) :
    State.forget { s with fogBShift := n } = performAll perform [.fogBShift n] s.forget := rfl

theorem forget_fogC (s : State) (x : Single) (type : Nat) :
    State.forget { s with fogC := x, tev := { s.tev with fogType := type } } =
      performAll perform [.fogC x, .tev (.fogType type)] s.forget := rfl

theorem forget_dstAlpha (s : State) (x : Single) (enable : Bool) :
    State.forget { s with
      fogColor := update s.fogColor 3 x, tev := { s.tev with dstAlpha := enable } } =
      performAll perform [.number .fogColor 3 x, .tev (.dstAlpha enable)] s.forget := rfl

theorem forget_alphaCompare (s : State) (comp0 ref0 op comp1 ref1 : Nat) :
    (s.setAlphaCompare comp0 ref0 op comp1 ref1).forget =
      performAll perform [.tev (.compare (comp0 % 8) ref0 (op % 4) (comp1 % 8) ref1)] s.forget := rfl

theorem forget_decodeBP (s : State) {reg : Nat} (v : BitVec 32) (hlut : reg ≠ 0x65)
    (hinvalidate : reg ≠ 0x66) :
    (s.decodeBP reg v).forget = performAll perform (bpEffects reg v) s.forget := by
  unfold decodeBP bpEffects
  by_cases h : 0xC0 ≤ reg ∧ reg ≤ 0xDF
  · rw [if_pos h, if_pos h]
    exact forget_loadTevEnv s reg v
  rw [if_neg h, if_neg h]
  by_cases h : 0x28 ≤ reg ∧ reg ≤ 0x2F
  · rw [if_pos h, if_pos h]
    exact forget_loadTevOrders s h.2 v
  rw [if_neg h, if_neg h]
  by_cases h : 0xF6 ≤ reg ∧ reg ≤ 0xFD
  · rw [if_pos h, if_pos h]
    exact forget_loadKonstSelections s reg v
  rw [if_neg h, if_neg h]
  by_cases h : 0xE0 ≤ reg ∧ reg ≤ 0xE7
  · rw [if_pos h, if_pos h]
    exact forget_loadTevRegister s reg v
  rw [if_neg h, if_neg h, if_neg hlut]
  by_cases h : reg = 0x00
  · rw [if_pos h, if_pos h]
    exact forget_genMode ..
  rw [if_neg h, if_neg h]
  by_cases h : reg = 0x40
  · rw [if_pos h, if_pos h]
    exact forget_zMode ..
  rw [if_neg h, if_neg h, if_neg hinvalidate]
  by_cases h : reg = 0x43
  · rw [if_pos h, if_pos h]
    exact forget_peControl ..
  rw [if_neg h, if_neg h]
  by_cases h : reg = 0x41
  · rw [if_pos h, if_pos h]
    exact forget_blendMode ..
  rw [if_neg h, if_neg h]
  by_cases h : reg = 0xEE
  · rw [if_pos h, if_pos h]
    exact forget_fogA ..
  rw [if_neg h, if_neg h]
  by_cases h : reg = 0xEF
  · rw [if_pos h, if_pos h]
    exact forget_fogBMagnitude ..
  rw [if_neg h, if_neg h]
  by_cases h : reg = 0xF0
  · rw [if_pos h, if_pos h]
    exact forget_fogBShift ..
  rw [if_neg h, if_neg h]
  by_cases h : reg = 0xF1
  · rw [if_pos h, if_pos h]
    exact forget_fogC ..
  rw [if_neg h, if_neg h]
  by_cases h : reg = 0xF2
  · rw [if_pos h, if_pos h]
    exact forget_fogColor ..
  rw [if_neg h, if_neg h]
  by_cases h : reg = 0x42
  · rw [if_pos h, if_pos h]
    exact forget_dstAlpha ..
  rw [if_neg h, if_neg h]
  by_cases h : reg = 0xF3
  · rw [if_pos h, if_pos h]
    exact forget_alphaCompare ..
  rw [if_neg h, if_neg h]
  rfl

/-! ## XF -/

theorem forget_setChanAmbColor (s : State) {channel : Nat} (h : 4 ≤ channel) (c : Color8) :
    (s.setChanAmbColor channel c).forget = performAll perform [.chanAmb (channel % 2) c] s.forget := by
  have hpair : channel = 0 ∨ channel = 1 ∨ channel ≥ 4 := Or.inr (Or.inr h)
  have halpha : channel ≥ 2 := by omega
  have hall (c' : Color8) : chanColor channel c c' = c := by
    simp only [chanColor, if_pos hpair, if_pos halpha]
  unfold setChanAmbColor modifyAt
  simp only [hall]
  rfl

theorem forget_setChanMatColor (s : State) {channel : Nat} (h : 4 ≤ channel) (c : Color8) :
    (s.setChanMatColor channel c).forget = performAll perform [.chanMat (channel % 2) c] s.forget := by
  have hpair : channel = 0 ∨ channel = 1 ∨ channel ≥ 4 := Or.inr (Or.inr h)
  have halpha : channel ≥ 2 := by omega
  have hall (c' : Color8) : chanColor channel c c' = c := by
    simp only [chanColor, if_pos hpair, if_pos halpha]
  unfold setChanMatColor modifyAt
  simp only [hall]
  rfl

theorem forget_setChanCtrl (s : State) {channel : Nat} (h : channel < 4) (enable : Bool)
    (ambSrc matSrc lightMask diffFn attnFn : Nat) :
    (s.setChanCtrl channel enable ambSrc matSrc lightMask diffFn attnFn).forget =
      performAll perform [.vertex (.channel channel
        { lighting := enable
          ambient := ambSrc % 2
          material := matSrc % 2
          lightMask := lightMask % 256
          diffuse := if diffFn > 2 then 0 else diffFn
          attenuation := if attnFn > 2 then 2 else attnFn })] s.forget := by
  have hpair : ¬(channel = 4 ∨ channel = 5) := by omega
  unfold setChanCtrl
  simp only [if_neg hpair, if_pos h]
  rfl

theorem perform_matrix_same (s : State) (i : Nat) :
    perform (.vertex (.texGen i (.matrix (s.vertex.texGens i).matrix))) s = s := by
  show { s with vertex := { s.vertex with
    texGens := update s.vertex.texGens i (s.vertex.texGens i) } } = s
  rw [update_eq_self]

theorem forget_texMtxSlots (first : Nat) (slot : Nat → Nat) (ts : List Nat) (s : State)
    (dirty : BitVec 32) :
    (ts.foldl (fun (s, dirty) t =>
      if (s.vertex.texGens (first + t)).matrix ≠ slot t then
        (s.modifyTexGen (first + t) fun tg => { tg with matrix := slot t }, dirty ||| kDirtyShader)
      else (s, dirty)) (s, dirty)).1.forget =
      performAll perform (ts.map fun t => .vertex (.texGen (first + t) (.matrix (slot t))))
        s.forget := by
  induction ts generalizing s dirty with
  | nil => rfl
  | cons t ts ih =>
    rw [List.foldl_cons, List.map_cons, performAll_cons]
    by_cases hmoved : (s.vertex.texGens (first + t)).matrix ≠ slot t
    · simp only [if_pos hmoved]
      exact ih ..
    · have hsame : perform (.vertex (.texGen (first + t) (.matrix (slot t)))) s.forget = s.forget := by
        rw [← not_not.mp hmoved]
        exact perform_matrix_same s.forget (first + t)
      simp only [if_neg hmoved]
      rw [ih, hsame]

theorem forget_setCurrentMtx (s : State) (id : Nat) :
    (s.setCurrentMtx id).forget =
      performAll perform (if id + 3 ≤ 30 then [.posRow id] else []) s.forget := by
  unfold setCurrentMtx
  by_cases h : id + 3 ≤ 30
  · simp only [if_pos h]
    rfl
  · simp only [if_neg h]
    rfl

theorem forget_viewport (s : State) (i : Nat) (x : Single) :
    State.forget { s with viewport := update s.viewport i x } =
      performAll perform [.number .viewport i x] s.forget := rfl

theorem forget_projParam (s : State) (i : Nat) (x : Single) :
    (rebuildProjection { s with projParams := update s.projParams i x }).forget =
      performAll perform [.projParam i x] s.forget := rfl

theorem forget_projOrtho (s : State) (enable : Bool) :
    (rebuildProjection { s with projOrtho := enable }).forget =
      performAll perform [.projOrtho enable] s.forget := rfl

theorem forget_texGenSource (s : State) (i type src : Nat) :
    (s.modifyTexGen i fun tg => { tg with type := type, source := src }).forget =
      performAll perform [.vertex (.texGen i (.source type src))] s.forget := rfl

theorem forget_texGenPost (s : State) (i matrix : Nat) (normalize : Bool) :
    (s.modifyTexGen i fun tg => { tg with postMatrix := matrix, normalize := normalize }).forget =
      performAll perform [.vertex (.texGen i (.post matrix normalize))] s.forget := rfl

theorem forget_loadXFRegister (s : State) (reg : Nat) (v : BitVec 32) :
    (s.loadXFRegister reg v).1.forget = performAll perform (xfRegisterEffects reg v) s.forget := by
  unfold loadXFRegister xfRegisterEffects
  by_cases h : reg = 0x09
  · simp only [if_pos h]
    rfl
  simp only [if_neg h]
  by_cases h : reg = 0x0A ∨ reg = 0x0B
  · simp only [if_pos h]
    exact forget_setChanAmbColor s (by omega) _
  simp only [if_neg h]
  by_cases h : reg = 0x0C ∨ reg = 0x0D
  · simp only [if_pos h]
    exact forget_setChanMatColor s (by omega) _
  simp only [if_neg h]
  by_cases h : 0x0E ≤ reg ∧ reg ≤ 0x11
  · simp only [if_pos h]
    exact forget_setChanCtrl s (by omega) ..
  simp only [if_neg h]
  by_cases h : reg = 0x12
  · simp only [if_pos h]
    rfl
  simp only [if_neg h]
  by_cases h : reg = 0x18
  · simp only [if_pos h]
    rw [performAll_append, ← forget_setCurrentMtx]
    exact forget_texMtxSlots ..
  simp only [if_neg h]
  by_cases h : reg = 0x19
  · simp only [if_pos h]
    exact forget_texMtxSlots ..
  simp only [if_neg h]
  by_cases h : reg = 0x3F
  · simp only [if_pos h]
    rfl
  simp only [if_neg h]
  unfold decodeXF
  by_cases h : 0x1A ≤ reg ∧ reg ≤ 0x1F
  · simp only [if_pos h]
    exact forget_viewport ..
  simp only [if_neg h]
  by_cases h : 0x20 ≤ reg ∧ reg ≤ 0x25
  · simp only [if_pos h]
    exact forget_projParam ..
  simp only [if_neg h]
  by_cases h : reg = 0x26
  · simp only [if_pos h]
    exact forget_projOrtho ..
  simp only [if_neg h]
  by_cases h : 0x40 ≤ reg ∧ reg < 0x48
  · simp only [if_pos h]
    exact forget_texGenSource ..
  simp only [if_neg h]
  by_cases h : 0x50 ≤ reg ∧ reg < 0x58
  · simp only [if_pos h]
    exact forget_texGenPost ..
  simp only [if_neg h]
  rfl

theorem forget_applyXFRegister (s : State) (reg : Nat) (v : BitVec 32) :
    (s.applyXFRegister reg v).forget = performAll perform (xfRegisterEffects reg v) s.forget :=
  (forget_loadXFRegister { s with generation := s.generation + 1 } reg v)

theorem forget_lightWord (s : State) (n i : Nat) (w : BitVec 32) :
    State.forget { s with lights := modifyAt s.lights n fun l => loadLightWord l i w } =
      performAll perform ((lightEffects i w).map (.light n)) s.forget := by
  unfold loadLightWord lightEffects
  by_cases h : i = 3
  · simp only [if_pos h]
    rfl
  simp only [if_neg h]
  by_cases h : 4 ≤ i ∧ i ≤ 6
  · simp only [if_pos h]
    rfl
  simp only [if_neg h]
  by_cases h : 7 ≤ i ∧ i ≤ 9
  · simp only [if_pos h]
    rfl
  simp only [if_neg h]
  by_cases h : 10 ≤ i ∧ i ≤ 12
  · simp only [if_pos h]
    rfl
  simp only [if_neg h]
  by_cases h : 13 ≤ i
  · simp only [if_pos h]
    rfl
  simp only [if_neg h]
  have hsame : modifyAt s.lights n (fun l => l) = s.lights := update_eq_self n s.lights
  rw [hsame]
  rfl

theorem forget_applyXFWord (s : State) (a : Nat) (w : BitVec 32) :
    (s.applyXFWord a w).forget = performAll perform (xfEffects a w) s.forget := by
  unfold applyXFWord xfEffects
  by_cases h : a < 0x100
  · simp only [if_pos h]
    by_cases hpos : a / 4 < 30
    · simp only [if_pos hpos]
      rfl
    simp only [if_neg hpos]
    by_cases htex : a / 4 < 60
    · simp only [if_pos htex]
      rfl
    simp only [if_neg htex]
    rfl
  simp only [if_neg h]
  by_cases h : 0x400 ≤ a ∧ a < 0x460
  · simp only [if_pos h]
    by_cases hrow : (a - 0x400) / 3 < 30
    · simp only [if_pos hrow]
      rfl
    simp only [if_neg hrow]
    rfl
  simp only [if_neg h]
  by_cases h : 0x500 ≤ a ∧ a < 0x600
  · simp only [if_pos h]
    by_cases hrow : (a - 0x500) / 4 < 60
    · simp only [if_pos hrow]
      rfl
    simp only [if_neg hrow]
    rfl
  simp only [if_neg h]
  by_cases h : 0x600 ≤ a ∧ a < 0x680
  · simp only [if_pos h]
    exact forget_lightWord ..
  simp only [if_neg h]
  by_cases h : 0x1000 ≤ a
  · simp only [if_pos h]
    exact forget_applyXFRegister s (a - 0x1000) w
  simp only [if_neg h]
  rfl

end State

end DolTranslator.Gx
