import DolTranslator.Gx.Registers
import DolTranslator.Streams.Effects

/-!
# What a register does, as effects

The decoding of a register is a list of effects, each on a slot of its own; the counters and the
flags aside, loading a register is storing its word and performing its effects.

* `Effect`, `perform`, `slot`   one write to the decoded state;
* `effects`   effects on different slots commute;
* `bpEffects`, `xfEffects`   the effects of a register's word;
* `forget_decodeBP`, `forget_applyXFWord`   the decoding performs them.
-/

namespace DolTranslator.Gx

open Function Streams

/-! ## effects -/

/-- on one TEV stage -/
inductive StageEffect where
  | color (k : TevCombiner)
  | alpha (rasSwap texSwap : Nat) (k : TevCombiner)
  | order (texCoord texMap channel : Nat)
  | konst (kcolorSel kalphaSel : Nat)

def StageEffect.apply (k : TevStage) : StageEffect → TevStage
  | .color c => { k with color := c }
  | .alpha ras tex c => { k with rasSwap := ras, texSwap := tex, alpha := c }
  | .order coord map channel => { k with texCoord := coord, texMap := map, channel := channel }
  | .konst kc ka => { k with kcolorSel := kc, kalphaSel := ka }

def StageEffect.slot : StageEffect → Nat
  | .color _ => 0
  | .alpha _ _ _ => 1
  | .order _ _ _ => 2
  | .konst _ _ => 3

inductive TevEffect where
  | stage (n : Nat) (e : StageEffect)
  | swapRG (table r g : Nat)
  | swapBA (table b a : Nat)
  | stageCount (n : Nat)
  | compare (comp0 ref0 op comp1 ref1 : Nat)
  | fogType (type : Nat)
  | dstAlpha (enable : Bool)

def TevEffect.apply (c : TevConfig) : TevEffect → TevConfig
  | .stage n e => { c with stages := modifyAt c.stages n fun k => e.apply k }
  | .swapRG t r g => { c with swapTable := modifyAt c.swapTable t fun w => { w with r := r, g := g } }
  | .swapBA t b a => { c with swapTable := modifyAt c.swapTable t fun w => { w with b := b, a := a } }
  | .stageCount n => { c with stageCount := n }
  | .compare c0 r0 op c1 r1 =>
    { c with alphaComp0 := c0, alphaRef0 := r0, alphaOp := op, alphaComp1 := c1, alphaRef1 := r1 }
  | .fogType type => { c with fogType := type }
  | .dstAlpha enable => { c with dstAlpha := enable }

def TevEffect.slot : TevEffect → Nat × Nat × Nat
  | .stage n e => (0, n, e.slot)
  | .swapRG t _ _ => (1, t, 0)
  | .swapBA t _ _ => (1, t, 1)
  | .stageCount _ => (2, 0, 0)
  | .compare _ _ _ _ _ => (3, 0, 0)
  | .fogType _ => (4, 0, 0)
  | .dstAlpha _ => (5, 0, 0)

/-- on one texture coordinate generator -/
inductive TexGenEffect where
  | matrix (m : Nat)
  | source (type src : Nat)
  | post (matrix : Nat) (normalize : Bool)

def TexGenEffect.apply (g : TexGen) : TexGenEffect → TexGen
  | .matrix m => { g with matrix := m }
  | .source type src => { g with type := type, source := src }
  | .post m n => { g with postMatrix := m, normalize := n }

def TexGenEffect.slot : TexGenEffect → Nat
  | .matrix _ => 0
  | .source _ _ => 1
  | .post _ _ => 2

inductive VertexEffect where
  | texGen (n : Nat) (e : TexGenEffect)
  | channel (n : Nat) (cc : ColorChannel)
  | dualTexture (enable : Bool)
  | texGenCount (n : Nat)
  | channelCount (n : Nat)

def VertexEffect.apply (c : VertexConfig) : VertexEffect → VertexConfig
  | .texGen n e => { c with texGens := modifyAt c.texGens n fun g => e.apply g }
  | .channel n cc => { c with channels := update c.channels n cc }
  | .dualTexture enable => { c with dualTexture := enable }
  | .texGenCount n => { c with texGenCount := n }
  | .channelCount n => { c with channelCount := n }

def VertexEffect.slot : VertexEffect → Nat × Nat × Nat
  | .texGen n e => (0, n, e.slot)
  | .channel n _ => (1, n, 0)
  | .dualTexture _ => (2, 0, 0)
  | .texGenCount _ => (3, 0, 0)
  | .channelCount _ => (4, 0, 0)

inductive PixelEffect where
  | cull (mode : Nat)
  | z (test : Bool) (compare : Nat) (write : Bool)
  | blend (mode src dst logicOp : Nat) (colorWrite alphaWrite : Bool)
  | efbAlpha (enable : Bool)

def PixelEffect.apply (p : PixelState) : PixelEffect → PixelState
  | .cull mode => { p with cull := mode }
  | .z test compare write => { p with depthTest := test, depthCompare := compare, depthWrite := write }
  | .blend mode src dst op c a =>
    { p with
      blendMode := mode, srcFactor := src, dstFactor := dst, logicOp := op, colorWrite := c
      alphaWrite := a }
  | .efbAlpha enable => { p with efbAlpha := enable }

def PixelEffect.slot : PixelEffect → Nat
  | .cull _ => 0
  | .z _ _ _ => 1
  | .blend _ _ _ _ _ _ => 2
  | .efbAlpha _ => 3

/-- on one light -/
inductive LightEffect where
  | color (c : Color8)
  | cosAtt (i : Nat) (x : Single)
  | distAtt (i : Nat) (x : Single)
  | pos (i : Nat) (x : Single)
  | dir (i : Nat) (x : Single)

def LightEffect.apply (l : Light) : LightEffect → Light
  | .color c => { l with color := c }
  | .cosAtt i x => { l with cosAtt := update l.cosAtt i x }
  | .distAtt i x => { l with distAtt := update l.distAtt i x }
  | .pos i x => { l with pos := update l.pos i x }
  | .dir i x => { l with dir := update l.dir i x }

def LightEffect.slot : LightEffect → Nat × Nat
  | .color _ => (0, 0)
  | .cosAtt i _ => (1, i)
  | .distAtt i _ => (2, i)
  | .pos i _ => (3, i)
  | .dir i _ => (4, i)

/-- the tables of rows -/
inductive Rows where
  | kColors
  | tevRegs
  | pos
  | nrm
  | tex
  | post
  deriving DecidableEq

/-- the single numbers and the rows of them -/
inductive Numbers where
  | fogColor
  | viewport
  deriving DecidableEq

inductive Effect where
  | tev (e : TevEffect)
  | vertex (e : VertexEffect)
  | pixel (e : PixelEffect)
  | cell (table : Rows) (row col : Nat) (x : Single)
  | number (table : Numbers) (i : Nat) (x : Single)
  | fogA (x : Single)
  | fogC (x : Single)
  | fogBMagnitude (n : Nat)
  | fogBShift (n : Nat)
  | chanAmb (n : Nat) (c : Color8)
  | chanMat (n : Nat) (c : Color8)
  | light (n : Nat) (e : LightEffect)
  | posRow (row : Nat)
  | projParam (i : Nat) (x : Single)
  | projOrtho (enable : Bool)
  | tlut (line : Nat) (load : TlutLoad)

def State.modifyRows (s : State) (table : Rows) (f : (Nat → Nat → Single) → Nat → Nat → Single) :
    State :=
  match table with
  | .kColors => { s with kColors := f s.kColors }
  | .tevRegs => { s with tevRegs := f s.tevRegs }
  | .pos => { s with posRows := f s.posRows }
  | .nrm => { s with nrmRows := f s.nrmRows }
  | .tex => { s with texRows := f s.texRows }
  | .post => { s with postRows := f s.postRows }

def State.modifyNumbers (s : State) (table : Numbers) (f : (Nat → Single) → Nat → Single) : State :=
  match table with
  | .fogColor => { s with fogColor := f s.fogColor }
  | .viewport => { s with viewport := f s.viewport }

def setCell (row col : Nat) (x : Single) (rows : Nat → Nat → Single) : Nat → Nat → Single :=
  modifyAt rows row fun r => update r col x

def perform (e : Effect) (s : State) : State :=
  match e with
  | .tev e => { s with tev := e.apply s.tev }
  | .vertex e => { s with vertex := e.apply s.vertex }
  | .pixel e => { s with pixel := e.apply s.pixel }
  | .cell table row col x => s.modifyRows table (setCell row col x)
  | .number table i x => s.modifyNumbers table fun r => update r i x
  | .fogA x => { s with fogA := x }
  | .fogC x => { s with fogC := x }
  | .fogBMagnitude n => { s with fogBMagnitude := n }
  | .fogBShift n => { s with fogBShift := n }
  | .chanAmb n c => { s with chanAmb := update s.chanAmb n c }
  | .chanMat n c => { s with chanMat := update s.chanMat n c }
  | .light n e => { s with lights := modifyAt s.lights n fun l => e.apply l }
  | .posRow row => { s with currentPosRow := row }
  | .projParam i x => State.rebuildProjection { s with projParams := update s.projParams i x }
  | .projOrtho enable => State.rebuildProjection { s with projOrtho := enable }
  | .tlut line load => { s with tluts := update s.tluts line load }

inductive Slot where
  | tev (slot : Nat × Nat × Nat)
  | vertex (slot : Nat × Nat × Nat)
  | pixel (slot : Nat)
  | cell (table : Rows) (row col : Nat)
  | number (table : Numbers) (i : Nat)
  | single (n : Nat)
  | chanAmb (n : Nat)
  | chanMat (n : Nat)
  | light (n : Nat) (slot : Nat × Nat)
  | projParam (i : Nat)
  | projOrtho
  | tlut (line : Nat)
  deriving DecidableEq

def slot : Effect → Slot
  | .tev e => .tev e.slot
  | .vertex e => .vertex e.slot
  | .pixel e => .pixel e.slot
  | .cell table row col _ => .cell table row col
  | .number table i _ => .number table i
  | .fogA _ => .single 0
  | .fogC _ => .single 1
  | .fogBMagnitude _ => .single 2
  | .fogBShift _ => .single 3
  | .chanAmb n _ => .chanAmb n
  | .chanMat n _ => .chanMat n
  | .light n e => .light n e.slot
  | .posRow _ => .single 4
  | .projParam i _ => .projParam i
  | .projOrtho _ => .projOrtho
  | .tlut line _ => .tlut line

/-! ## the laws of effects -/

section
variable {α : Type} (f : Nat → α) (g h : α → α)

theorem modifyAt_same (i : Nat) : modifyAt (modifyAt f i g) i h = modifyAt f i fun x => h (g x) := by
  unfold modifyAt
  rw [update_self, update_idem]

theorem modifyAt_comm {i j : Nat} (hij : i ≠ j) :
    modifyAt (modifyAt f i g) j h = modifyAt (modifyAt f j h) i g := by
  unfold modifyAt
  rw [update_of_ne hij.symm, update_of_ne hij, update_comm hij]

end

theorem StageEffect.twice (e : StageEffect) (k : TevStage) : e.apply (e.apply k) = e.apply k := by
  cases e <;> rfl

theorem StageEffect.comm {e e' : StageEffect} (h : e.slot ≠ e'.slot) (k : TevStage) :
    e.apply (e'.apply k) = e'.apply (e.apply k) := by
  cases e <;> cases e' <;> first | rfl | exact absurd rfl h

theorem TexGenEffect.twice (e : TexGenEffect) (g : TexGen) : e.apply (e.apply g) = e.apply g := by
  cases e <;> rfl

theorem TexGenEffect.comm {e e' : TexGenEffect} (h : e.slot ≠ e'.slot) (g : TexGen) :
    e.apply (e'.apply g) = e'.apply (e.apply g) := by
  cases e <;> cases e' <;> first | rfl | exact absurd rfl h

theorem LightEffect.twice (e : LightEffect) (l : Light) : e.apply (e.apply l) = e.apply l := by
  cases e <;> simp [LightEffect.apply, update_idem]

theorem LightEffect.comm {e e' : LightEffect} (h : e.slot ≠ e'.slot) (l : Light) :
    e.apply (e'.apply l) = e'.apply (e.apply l) := by
  cases e with
  | color c => cases e' <;> first | rfl | exact absurd rfl h
  | cosAtt i x | distAtt i x | pos i x | dir i x =>
    cases e' with
    | color => rfl
    | cosAtt i' y | distAtt i' y | pos i' y | dir i' y =>
      first
      | rfl
      | have hi : i ≠ i' := fun hi => h (by rw [LightEffect.slot, LightEffect.slot, hi])
        simp only [LightEffect.apply, update_comm hi]

theorem PixelEffect.twice (e : PixelEffect) (p : PixelState) : e.apply (e.apply p) = e.apply p := by
  cases e <;> rfl

theorem PixelEffect.comm {e e' : PixelEffect} (h : e.slot ≠ e'.slot) (p : PixelState) :
    e.apply (e'.apply p) = e'.apply (e.apply p) := by
  cases e <;> cases e' <;> first | rfl | exact absurd rfl h

theorem TevEffect.twice (e : TevEffect) (c : TevConfig) : e.apply (e.apply c) = e.apply c := by
  cases e with
  | stage n e => simp only [TevEffect.apply, modifyAt_same, StageEffect.twice]
  | swapRG | swapBA => simp only [TevEffect.apply, modifyAt_same]
  | stageCount | compare | fogType | dstAlpha => rfl

theorem modifyAt_comm_of {α : Type} (f : Nat → α) {g h : α → α} {i j : Nat}
    (hsame : i = j → ∀ x, h (g x) = g (h x)) :
    modifyAt (modifyAt f i g) j h = modifyAt (modifyAt f j h) i g := by
  by_cases hij : i = j
  · subst hij
    rw [modifyAt_same, modifyAt_same]
    simp only [hsame rfl]
  · exact modifyAt_comm f g h hij

theorem TevEffect.comm {e e' : TevEffect} (h : e.slot ≠ e'.slot) (c : TevConfig) :
    e.apply (e'.apply c) = e'.apply (e.apply c) := by
  cases e with
  | stage n e =>
    cases e' with
    | stage n' e' =>
      have hstages := modifyAt_comm_of c.stages (i := n') (j := n) (g := e'.apply) (h := e.apply)
        fun hn => StageEffect.comm fun he => h (by rw [TevEffect.slot, TevEffect.slot, hn, he])
      simp only [TevEffect.apply, hstages]
    | swapRG | swapBA | stageCount | compare | fogType | dstAlpha => rfl
  | swapRG t r g =>
    cases e' with
    | swapRG t' r' g' =>
      have ht : t' ≠ t := fun ht => h (by rw [TevEffect.slot, TevEffect.slot, ht])
      simp only [TevEffect.apply, modifyAt_comm _ _ _ ht]
    | swapBA t' b a =>
      have hswap := modifyAt_comm_of c.swapTable (i := t') (j := t)
        (g := fun w => { w with b := b, a := a }) (h := fun w => { w with r := r, g := g })
        fun _ _ => rfl
      simp only [TevEffect.apply, hswap]
    | stage | stageCount | compare | fogType | dstAlpha => rfl
  | swapBA t b a =>
    cases e' with
    | swapBA t' b' a' =>
      have ht : t' ≠ t := fun ht => h (by rw [TevEffect.slot, TevEffect.slot, ht])
      simp only [TevEffect.apply, modifyAt_comm _ _ _ ht]
    | swapRG t' r g =>
      have hswap := modifyAt_comm_of c.swapTable (i := t') (j := t)
        (g := fun w => { w with r := r, g := g }) (h := fun w => { w with b := b, a := a })
        fun _ _ => rfl
      simp only [TevEffect.apply, hswap]
    | stage | stageCount | compare | fogType | dstAlpha => rfl
  | stageCount | compare | fogType | dstAlpha =>
    cases e' <;> first | rfl | exact absurd rfl h

theorem VertexEffect.twice (e : VertexEffect) (c : VertexConfig) :
    e.apply (e.apply c) = e.apply c := by
  cases e with
  | texGen n e => simp only [VertexEffect.apply, modifyAt_same, TexGenEffect.twice]
  | channel => simp only [VertexEffect.apply, update_idem]
  | dualTexture | texGenCount | channelCount => rfl

theorem VertexEffect.comm {e e' : VertexEffect} (h : e.slot ≠ e'.slot) (c : VertexConfig) :
    e.apply (e'.apply c) = e'.apply (e.apply c) := by
  cases e with
  | texGen n e =>
    cases e' with
    | texGen n' e' =>
      have hgens := modifyAt_comm_of c.texGens (i := n') (j := n) (g := e'.apply) (h := e.apply)
        fun hn => TexGenEffect.comm fun he => h (by rw [VertexEffect.slot, VertexEffect.slot, hn, he])
      simp only [VertexEffect.apply, hgens]
    | channel | dualTexture | texGenCount | channelCount => rfl
  | channel n cc =>
    cases e' with
    | channel n' cc' =>
      have hn : n' ≠ n := fun hn => h (by rw [VertexEffect.slot, VertexEffect.slot, hn])
      simp only [VertexEffect.apply, update_comm hn]
    | texGen | dualTexture | texGenCount | channelCount => rfl
  | dualTexture | texGenCount | channelCount =>
    cases e' <;> first | rfl | exact absurd rfl h

theorem modifyRows_same (s : State) (table : Rows)
    (f g : (Nat → Nat → Single) → Nat → Nat → Single) :
    (s.modifyRows table f).modifyRows table g = s.modifyRows table fun r => g (f r) := by
  cases table <;> rfl

theorem modifyRows_comm (s : State) {t t' : Rows} (f g : (Nat → Nat → Single) → Nat → Nat → Single)
    (h : t = t' → ∀ r, g (f r) = f (g r)) :
    (s.modifyRows t f).modifyRows t' g = (s.modifyRows t' g).modifyRows t f := by
  by_cases ht : t = t'
  · subst ht
    rw [modifyRows_same, modifyRows_same]
    simp only [h rfl]
  · cases t <;> cases t' <;> first | rfl | exact absurd rfl ht

theorem modifyNumbers_same (s : State) (table : Numbers) (f g : (Nat → Single) → Nat → Single) :
    (s.modifyNumbers table f).modifyNumbers table g = s.modifyNumbers table fun r => g (f r) := by
  cases table <;> rfl

theorem modifyNumbers_comm (s : State) {t t' : Numbers} (f g : (Nat → Single) → Nat → Single)
    (h : t = t' → ∀ r, g (f r) = f (g r)) :
    (s.modifyNumbers t f).modifyNumbers t' g = (s.modifyNumbers t' g).modifyNumbers t f := by
  by_cases ht : t = t'
  · subst ht
    rw [modifyNumbers_same, modifyNumbers_same]
    simp only [h rfl]
  · cases t <;> cases t' <;> first | rfl | exact absurd rfl ht

theorem setCell_twice (row col : Nat) (x : Single) (rows : Nat → Nat → Single) :
    setCell row col x (setCell row col x rows) = setCell row col x rows := by
  unfold setCell
  rw [modifyAt_same]
  simp only [update_idem]

theorem setCell_comm {row col row' col' : Nat} (x y : Single) (rows : Nat → Nat → Single)
    (h : row = row' → col ≠ col') :
    setCell row' col' y (setCell row col x rows) = setCell row col x (setCell row' col' y rows) :=
  modifyAt_comm_of rows fun hrow r => update_comm (h hrow) x y r

theorem perform_twice (e : Effect) (s : State) : perform e (perform e s) = perform e s := by
  cases e with
  | tev e => simp only [perform, TevEffect.twice]
  | vertex e => simp only [perform, VertexEffect.twice]
  | pixel e => simp only [perform, PixelEffect.twice]
  | cell table row col x =>
    simp only [perform, modifyRows_same, setCell_twice]
  | number table i x => simp only [perform, modifyNumbers_same, update_idem]
  | light n e => simp only [perform, modifyAt_same, LightEffect.twice]
  | chanAmb | chanMat | tlut => simp only [perform, update_idem]
  | projParam => simp only [perform, State.rebuildProjection, update_idem]
  | fogA | fogC | fogBMagnitude | fogBShift | posRow | projOrtho => rfl

theorem perform_cell_comm {e : Effect} (table : Rows) (row col : Nat) (x : Single)
    (h : slot e ≠ .cell table row col) (s : State) :
    perform e (perform (.cell table row col x) s) = perform (.cell table row col x) (perform e s) := by
  cases e with
  | cell table' row' col' y =>
    refine modifyRows_comm s _ _ fun ht rows => setCell_comm x y rows fun hrow hcol => h ?_
    rw [slot, ht, hrow, hcol]
  | number table' => cases table <;> cases table' <;> rfl
  | _ => cases table <;> rfl

theorem perform_number_comm {e : Effect} (table : Numbers) (i : Nat) (x : Single)
    (h : slot e ≠ .number table i) (s : State) :
    perform e (perform (.number table i x) s) = perform (.number table i x) (perform e s) := by
  cases e with
  | number table' i' y =>
    refine modifyNumbers_comm s (fun r => update r i x) (fun r => update r i' y) fun ht r => ?_
    have hi : i ≠ i' := fun hi => h (by rw [slot, ht, hi])
    exact update_comm hi x y r
  | cell table' => cases table <;> cases table' <;> rfl
  | _ => cases table <;> rfl

theorem perform_comm {e e' : Effect} (h : slot e ≠ slot e') (s : State) :
    perform e (perform e' s) = perform e' (perform e s) := by
  cases e' with
  | cell table row col x => exact perform_cell_comm table row col x h s
  | number table i x => exact perform_number_comm table i x h s
  | tev e' =>
    cases e with
    | cell table row col x => exact (perform_cell_comm table row col x h.symm s).symm
    | number table i x => exact (perform_number_comm table i x h.symm s).symm
    | tev e =>
      have hne : e.slot ≠ e'.slot := fun he => h (by rw [slot, slot, he])
      simp only [perform, TevEffect.comm hne]
    | _ => rfl
  | vertex e' =>
    cases e with
    | cell table row col x => exact (perform_cell_comm table row col x h.symm s).symm
    | number table i x => exact (perform_number_comm table i x h.symm s).symm
    | vertex e =>
      have hne : e.slot ≠ e'.slot := fun he => h (by rw [slot, slot, he])
      simp only [perform, VertexEffect.comm hne]
    | _ => rfl
  | pixel e' =>
    cases e with
    | cell table row col x => exact (perform_cell_comm table row col x h.symm s).symm
    | number table i x => exact (perform_number_comm table i x h.symm s).symm
    | pixel e =>
      have hne : e.slot ≠ e'.slot := fun he => h (by rw [slot, slot, he])
      simp only [perform, PixelEffect.comm hne]
    | _ => rfl
  | light n' e' =>
    cases e with
    | cell table row col x => exact (perform_cell_comm table row col x h.symm s).symm
    | number table i x => exact (perform_number_comm table i x h.symm s).symm
    | light n e =>
      have hlights := modifyAt_comm_of s.lights (i := n') (j := n) (g := e'.apply) (h := e.apply)
        fun hn => LightEffect.comm fun he => h (by rw [slot, slot, hn, he])
      simp only [perform, hlights]
    | _ => rfl
  | chanAmb n' c' =>
    cases e with
    | cell table row col x => exact (perform_cell_comm table row col x h.symm s).symm
    | number table i x => exact (perform_number_comm table i x h.symm s).symm
    | chanAmb n c =>
      have hn : n' ≠ n := fun hn => h (by rw [slot, slot, hn])
      simp only [perform, update_comm hn]
    | _ => rfl
  | chanMat n' c' =>
    cases e with
    | cell table row col x => exact (perform_cell_comm table row col x h.symm s).symm
    | number table i x => exact (perform_number_comm table i x h.symm s).symm
    | chanMat n c =>
      have hn : n' ≠ n := fun hn => h (by rw [slot, slot, hn])
      simp only [perform, update_comm hn]
    | _ => rfl
  | tlut line' load' =>
    cases e with
    | cell table row col x => exact (perform_cell_comm table row col x h.symm s).symm
    | number table i x => exact (perform_number_comm table i x h.symm s).symm
    | tlut line load =>
      have hn : line' ≠ line := fun hn => h (by rw [slot, slot, hn])
      simp only [perform, update_comm hn]
    | _ => rfl
  | projParam i' x' =>
    cases e with
    | cell table row col x => exact (perform_cell_comm table row col x h.symm s).symm
    | number table i x => exact (perform_number_comm table i x h.symm s).symm
    | projParam i x =>
      have hn : i' ≠ i := fun hn => h (by rw [slot, slot, hn])
      simp only [perform, State.rebuildProjection, update_comm hn]
    | _ => rfl
  | fogA | fogC | fogBMagnitude | fogBShift | posRow | projOrtho =>
    cases e with
    | cell table row col x => exact (perform_cell_comm table row col x h.symm s).symm
    | number table i x => exact (perform_number_comm table i x h.symm s).symm
    | _ => first | rfl | exact absurd rfl h

theorem effects : Effects perform slot := ⟨perform_twice, fun _ _ s h => perform_comm h s⟩

/-! ## the effects of a register's word -/

def orderEffect (stage coord map channel : Nat) : Effect :=
  .tev (.stage stage (.order coord
    (if map.testBit 8 ∨ map % 256 ≥ 8 then kTexNull else map % 256) (State.channelOf channel)))

def wordCombiner (alpha : Bool) (v : BitVec 32) : TevCombiner :=
  if alpha then tevCombiner ⟨bits v 3 13, bits v 3 10, bits v 3 7, bits v 3 4, 0, 0, 0, true, 0⟩ v
  else tevCombiner ⟨bits v 4 12, bits v 4 8, bits v 4 4, bits v 4 0, 0, 0, 0, true, 0⟩ v

def texGenCountOf (count : Nat) : Nat := if count > 8 then 8 else count

def channelCountOf (count : Nat) : Nat := if count > 2 then 2 else count

/-- the effects of a BP register, but for the palette load, which reads another register -/
def bpEffects (reg : Nat) (v : BitVec 32) : List Effect :=
  if 0xC0 ≤ reg ∧ reg ≤ 0xDF then
    if reg % 2 = 1 then
      [.tev (.stage ((reg - 0xC0) / 2) (.alpha (bits v 2 0) (bits v 2 2) (wordCombiner true v)))]
    else [.tev (.stage ((reg - 0xC0) / 2) (.color (wordCombiner false v)))]
  else if 0x28 ≤ reg ∧ reg ≤ 0x2F then
    [orderEffect ((reg - 0x28) * 2) (bits v 3 3) (if bits v 1 6 ≠ 0 then bits v 3 0 else 0xFF)
        (channelFromHardware (bits v 3 7)),
      orderEffect ((reg - 0x28) * 2 + 1) (bits v 3 15)
        (if bits v 1 18 ≠ 0 then bits v 3 12 else 0xFF) (channelFromHardware (bits v 3 19))]
  else if 0xF6 ≤ reg ∧ reg ≤ 0xFD then
    [.tev (if (reg - 0xF6) % 2 = 1 then .swapBA ((reg - 0xF6) / 2) (bits v 2 0) (bits v 2 2)
        else .swapRG ((reg - 0xF6) / 2) (bits v 2 0) (bits v 2 2)),
      .tev (.stage ((reg - 0xF6) * 2) (.konst (bits v 5 4) (bits v 5 9))),
      .tev (.stage ((reg - 0xF6) * 2 + 1) (.konst (bits v 5 14) (bits v 5 19)))]
  else if 0xE0 ≤ reg ∧ reg ≤ 0xE7 then
    if bits v 1 23 ≠ 0 then
      [.cell .kColors ((reg - 0xE0) / 2) (if reg % 2 = 0 then 0 else 2) (single (bits v 8 0) 255),
        .cell .kColors ((reg - 0xE0) / 2) (if reg % 2 = 0 then 3 else 1) (single (bits v 8 12) 255)]
    else
      [.cell .tevRegs ((reg - 0xE0) / 2) (if reg % 2 = 0 then 0 else 2)
          (single (signed11 (bits v 11 0)) 255),
        .cell .tevRegs ((reg - 0xE0) / 2) (if reg % 2 = 0 then 3 else 1)
          (single (signed11 (bits v 11 12)) 255)]
  else if reg = 0x00 then
    [.vertex (.texGenCount (texGenCountOf (bits v 4 0))),
      .vertex (.channelCount (channelCountOf (bits v 3 4))),
      .tev (.stageCount (if bits v 4 10 + 1 < 1 then 1 else if bits v 4 10 + 1 > 16 then 16
        else bits v 4 10 + 1)),
      .pixel (.cull ((if bits v 2 14 = 1 then 2 else if bits v 2 14 = 2 then 1 else bits v 2 14) % 4))]
  else if reg = 0x40 then
    [.pixel (.z (decide (bits v 1 0 ≠ 0)) (bits v 3 1 % 8) (decide (bits v 1 4 ≠ 0)))]
  else if reg = 0x43 then [.pixel (.efbAlpha (decide (bits v 3 0 = 1)))]
  else if reg = 0x41 then
    [.pixel (.blend ((if bits v 1 11 ≠ 0 then 3 else if bits v 1 0 ≠ 0 then 1
        else if bits v 1 1 ≠ 0 then 2 else 0) % 4) (bits v 3 8 % 8) (bits v 3 5 % 8)
        (bits v 4 12 % 16) (decide (bits v 1 3 ≠ 0)) (decide (bits v 1 4 ≠ 0)))]
  else if reg = 0xEE then [.fogA (partialFloat v)]
  else if reg = 0xEF then [.fogBMagnitude (bits v 24 0)]
  else if reg = 0xF0 then [.fogBShift (bits v 5 0)]
  else if reg = 0xF1 then
    [.fogC (partialFloat v), .tev (.fogType (bits v 3 21 ||| bits v 1 20 <<< 3))]
  else if reg = 0xF2 then
    [.number .fogColor 0 (single (bits v 8 16) 255), .number .fogColor 1 (single (bits v 8 8) 255),
      .number .fogColor 2 (single (bits v 8 0) 255)]
  else if reg = 0x42 then
    [.number .fogColor 3 (single (bits v 8 0) 255), .tev (.dstAlpha (decide (bits v 1 8 ≠ 0)))]
  else if reg = 0xF3 then
    [.tev (.compare (bits v 3 16 % 8) (bits v 8 0) (bits v 2 22 % 4) (bits v 3 19 % 8) (bits v 8 8))]
  else []

/-- the effects of one of XF's registers -/
def xfRegisterEffects (reg : Nat) (v : BitVec 32) : List Effect :=
  if reg = 0x09 then [.vertex (.channelCount (channelCountOf (bits v 8 0)))]
  else if reg = 0x0A ∨ reg = 0x0B then [.chanAmb ((4 + reg - 0x0A) % 2) (colorFromXF v)]
  else if reg = 0x0C ∨ reg = 0x0D then [.chanMat ((4 + reg - 0x0C) % 2) (colorFromXF v)]
  else if 0x0E ≤ reg ∧ reg ≤ 0x11 then
    [.vertex (.channel (reg - 0x0E)
      { lighting := decide (bits v 1 1 ≠ 0)
        ambient := bits v 1 6 % 2
        material := bits v 1 0 % 2
        lightMask := (bits v 4 2 ||| bits v 4 11 <<< 4) % 256
        diffuse := if bits v 2 7 > 2 then 0 else bits v 2 7
        attenuation := if (if bits v 2 9 = 1 then 0 else if bits v 2 9 = 3 then 1 else 2) > 2 then 2
          else if bits v 2 9 = 1 then 0 else if bits v 2 9 = 3 then 1 else 2 })]
  else if reg = 0x12 then [.vertex (.dualTexture (decide (v ≠ 0)))]
  else if reg = 0x18 then
    (if bits v 6 0 + 3 ≤ 30 then [.posRow (bits v 6 0)] else []) ++
      (List.range 4).map fun t =>
        .vertex (.texGen (0 + t) (.matrix (texMtxSlotFromRow (bits v 6 (6 + t * 6)))))
  else if reg = 0x19 then
    (List.range 4).map fun t =>
      .vertex (.texGen (4 + t) (.matrix (texMtxSlotFromRow (bits v 6 (t * 6)))))
  else if reg = 0x3F then [.vertex (.texGenCount (texGenCountOf (bits v 8 0)))]
  else if 0x1A ≤ reg ∧ reg ≤ 0x1F then [.number .viewport (reg - 0x1A) v]
  else if 0x20 ≤ reg ∧ reg ≤ 0x25 then [.projParam (reg - 0x20) v]
  else if reg = 0x26 then [.projOrtho (decide (v ≠ 0))]
  else if 0x40 ≤ reg ∧ reg < 0x48 then
    [.vertex (.texGen (reg - 0x40) (.source (if bits v 3 4 = 0 then (if bits v 1 1 ≠ 0 then 0 else 1)
      else if bits v 3 4 = 1 then 2 + bits v 3 15 else 10) (texGenSourceFromRow (bits v 5 7))))]
  else if 0x50 ≤ reg ∧ reg < 0x58 then
    [.vertex (.texGen (reg - 0x50) (.post (if bits v 6 0 = 61 then kIdentity else bits v 6 0 / 3)
      (decide (bits v 1 8 ≠ 0))))]
  else []

def lightEffects (i : Nat) (w : BitVec 32) : List LightEffect :=
  if i = 3 then [.color (colorFromXF w)]
  else if 4 ≤ i ∧ i ≤ 6 then [.cosAtt (i - 4) w]
  else if 7 ≤ i ∧ i ≤ 9 then [.distAtt (i - 7) w]
  else if 10 ≤ i ∧ i ≤ 12 then [.pos (i - 10) w]
  else if 13 ≤ i then [.dir (i - 13) w]
  else []

/-- the effects of a word in XF's memory or one of its registers -/
def xfEffects (a : Nat) (w : BitVec 32) : List Effect :=
  if a < 0x100 then
    if a / 4 < 30 then [.cell .pos (a / 4) (a % 4) w]
    else if a / 4 < 60 then [.cell .tex (a / 4 - 30) (a % 4) w]
    else []
  else if 0x400 ≤ a ∧ a < 0x460 then
    if (a - 0x400) / 3 < 30 then [.cell .nrm ((a - 0x400) / 3) ((a - 0x400) % 3) w] else []
  else if 0x500 ≤ a ∧ a < 0x600 then
    if (a - 0x500) / 4 < 60 then [.cell .post ((a - 0x500) / 4) ((a - 0x500) % 4) w] else []
  else if 0x600 ≤ a ∧ a < 0x680 then
    (lightEffects ((a - 0x600) % 16) w).map (.light ((a - 0x600) / 16))
  else if 0x1000 ≤ a then xfRegisterEffects (a - 0x1000) w
  else []

end DolTranslator.Gx
