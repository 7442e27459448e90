import DolTranslator.Gx.Unchanged
import DolTranslator.Gx.Pieces

/-!
# Streams of loads

* `Load.bytes`, `Processor.Run_loads`   loads as the stream has them, and what running them does;
* `State.Reachable`   what loads and vertex descriptors make of GXInit's state;
* `skipping_sound_iff`  dropping loads is not seen exactly when every dropped load agrees.
-/

namespace DolTranslator.Gx

open Function Streams

/-! ## the bytes of loads -/

def wordBytes (w : BitVec 32) : List Byte :=
  [w.extractLsb' 24 8, w.extractLsb' 16 8, w.extractLsb' 8 8, w.extractLsb' 0 8]

def XFLoad.header (l : XFLoad) : BitVec 32 :=
  BitVec.ofNat 32 ((l.words.length - 1) * 0x10000 + l.address.toNat)

def Load.bytes : Load → List Byte
  | .bp value => 0x61 :: wordBytes value
  | .xf l => 0x10 :: (wordBytes l.header ++ l.words.flatMap wordBytes)

theorem be32_wordBytes (w : BitVec 32) (rest : List Byte) : be32 (wordBytes w ++ rest) = w := by
  have hw := w.isLt
  apply BitVec.eq_of_toNat_eq
  simp only [be32, wordBytes, List.cons_append, List.nil_append, List.getD_cons_zero,
    List.getD_cons_succ, BitVec.extractLsb'_toNat, BitVec.toNat_ofNat, Nat.shiftRight_eq_div_pow]
  omega

theorem be32s_words (words : List (BitVec 32)) (rest : List Byte) :
    be32s (words.flatMap wordBytes ++ rest) words.length = words := by
  induction words with
  | nil => rfl
  | cons w words ih =>
    have hdrop (i : Nat) : ((w :: words).flatMap wordBytes ++ rest).drop (4 * (i + 1)) =
        (words.flatMap wordBytes ++ rest).drop (4 * i) := by
      rw [List.flatMap_cons, List.append_assoc, Nat.mul_succ]
      rfl
    have hrest : (List.range words.length).map (fun i =>
        be32 (((w :: words).flatMap wordBytes ++ rest).drop (4 * (i + 1)))) = words := by
      simp only [hdrop]
      exact ih
    rw [be32s, List.length_cons, List.range_succ_eq_map, List.map_cons, List.map_map]
    refine congrArg₂ List.cons ?_ hrest
    rw [Nat.mul_zero, List.drop_zero, List.flatMap_cons, List.append_assoc, be32_wordBytes]

theorem length_words (words : List (BitVec 32)) :
    (words.flatMap wordBytes).length = words.length * 4 := by
  induction words with
  | nil => rfl
  | cons w words ih =>
    rw [List.flatMap_cons, List.length_append, ih, List.length_cons, Nat.add_mul, Nat.add_comm]
    rfl

namespace XFLoad

variable (l : XFLoad)

theorem header_toNat : l.header.toNat = (l.words.length - 1) * 0x10000 + l.address.toNat := by
  have := l.words_le
  have := l.address.isLt
  rw [header, BitVec.toNat_ofNat]
  omega

theorem header_count : bits l.header 16 16 + 1 = l.words.length := by
  have := l.words_pos
  have := l.words_le
  have := l.address.isLt
  rw [bits, header_toNat, Nat.shiftRight_eq_div_pow]
  omega

theorem header_address : l.header &&& 0xFFFF = l.address.setWidth 32 := by
  have := l.address.isLt
  apply BitVec.eq_of_toNat_eq
  have hmask : (0xFFFF : BitVec 32).toNat = 2 ^ 16 - 1 := rfl
  rw [BitVec.toNat_and, hmask, Nat.and_two_pow_sub_one_eq_mod, header_toNat, BitVec.toNat_setWidth]
  omega

end XFLoad

namespace Processor

variable (memory : Memory) (call : Processor → List Byte → Processor)

def load (p : Processor) : Load → Processor
  | .bp value => p.loadBP value
  | .xf l => p.loadXF (2 <<< 16 ||| bits l.header 16 0) (l.address.setWidth 32) l.words

theorem loadBP_state (p : Processor) (value : BitVec 32) : (p.loadBP value).state =
    if p.state.bpUnchanged value = true then p.state else p.state.applyBP value := by
  unfold loadBP
  by_cases h : p.state.bpUnchanged value = true
  · rw [if_pos h, if_pos h]
  · rw [if_neg h, if_neg h]
    rfl

theorem loadXF_state (p : Processor) (cause : Nat) (address : BitVec 32)
    (words : List (BitVec 32)) : (p.loadXF cause address words).state =
    if p.state.xfUnchanged address words = true then p.state
    else p.state.applyXF address words := by
  unfold loadXF
  by_cases h : p.state.xfUnchanged address words = true
  · rw [if_pos h, if_pos h]
  · rw [if_neg h, if_neg h]
    rfl

theorem load_state (p : Processor) (l : Load) : (p.load l).state = l.skip p.state := by
  cases l with
  | bp value => exact loadBP_state p value
  | xf l => exact loadXF_state p _ _ l.words

theorem command_load (p : Processor) (l : Load) (rest : List Byte) :
    command memory call p (l.bytes ++ rest) = (p.load l, some rest) := by
  cases l with
  | bp value =>
    have hbody : commandBody memory call 0x61 p (wordBytes value ++ rest) =
        (p.loadBP (be32 (wordBytes value ++ rest)), some rest) := by
      unfold commandBody
      repeat rw [if_neg (by decide)]
      rw [if_pos rfl, if_neg (by rw [List.length_append]; exact Nat.not_lt.mpr (Nat.le_add_right 4 _))]
      rfl
    rw [be32_wordBytes] at hbody
    exact hbody
  | xf l =>
    have hdata : l.words.flatMap wordBytes ++ rest =
        (wordBytes l.header ++ (l.words.flatMap wordBytes ++ rest)).drop 4 := rfl
    have hbody : commandBody memory call 0x10 p
        (wordBytes l.header ++ (l.words.flatMap wordBytes ++ rest)) =
        p.loadXFWords (be32 (wordBytes l.header ++ (l.words.flatMap wordBytes ++ rest)))
          (l.words.flatMap wordBytes ++ rest) := by
      unfold commandBody
      repeat rw [if_neg (by decide)]
      rw [if_pos rfl, if_neg (by rw [List.length_append]; exact Nat.not_lt.mpr (Nat.le_add_right 4 _))]
      rfl
    have hlen : ¬(l.words.flatMap wordBytes ++ rest).length < l.words.length * 4 := by
      rw [List.length_append, length_words]
      omega
    have hleft : (l.words.flatMap wordBytes ++ rest).drop (l.words.length * 4) = rest := by
      rw [← length_words, List.drop_left]
    rw [be32_wordBytes] at hbody
    show commandBody memory call 0x10 p
      (wordBytes l.header ++ l.words.flatMap wordBytes ++ rest) = _
    rw [List.append_assoc, hbody]
    unfold loadXFWords
    dsimp only
    rw [l.header_count, if_neg hlen, hleft, be32s_words, l.header_address]
    rfl

theorem runLevels_loads (levels : Nat) (p : Processor) (loads : List Load) :
    (runLevels memory levels p (loads.flatMap Load.bytes)).1 = loads.foldl load p := by
  induction loads generalizing p with
  | nil =>
    rw [runLevels_eq]
    rfl
  | cons l loads ih =>
    have hone := command_load memory (callAt memory levels) p l (loads.flatMap Load.bytes)
    have hne : l.bytes ++ loads.flatMap Load.bytes ≠ [] := by cases l <;> exact List.cons_ne_nil _ _
    have hshorter := (command_resumable memory (callAt memory levels)).shrinks _ _ _ _ hone
    obtain ⟨fuel, hfuel⟩ : ∃ n, (l.bytes ++ loads.flatMap Load.bytes).length = n + 1 :=
      ⟨_, (Nat.succ_pred_eq_of_pos (List.length_pos_iff.mpr hne)).symm⟩
    rw [List.flatMap_cons, List.foldl_cons, ← ih, runLevels_eq, runLevels_eq, hfuel,
      loop_some hne hone, (command_resumable memory (callAt memory levels)).loop_fuel
        (k := (loads.flatMap Load.bytes).length) (by omega) le_rfl]

theorem Run_loads (depth : Nat) (p : Processor) (loads : List Load) :
    (Run memory depth p (loads.flatMap Load.bytes)).1.state = loads.foldl Load.skip p.state := by
  show (runLevels memory (kMaxDepth - depth) p (loads.flatMap Load.bytes)).1.state = _
  rw [runLevels_loads]
  induction loads generalizing p with
  | nil => rfl
  | cons l loads ih => rw [List.foldl_cons, List.foldl_cons, ih, load_state]

end Processor

/-! ## reachable states -/

/-- what loads and vertex descriptors make of GXInit's state -/
inductive State.Reachable : State → Prop where
  | defaults : Reachable State.defaults
  | load {s : State} (h : Reachable s) (l : Load) : Reachable (l.apply s)
  | clearVtxDesc {s : State} (h : Reachable s) : Reachable s.clearVtxDesc
  | setVtxDesc {s : State} (h : Reachable s) (attr type : Nat) : Reachable (s.setVtxDesc attr type)

theorem coherent_setVtxDesc {s : State} (h : Coherent s.forget) (attr type : Nat) :
    Coherent (s.setVtxDesc attr type).forget := by
  unfold State.setVtxDesc
  dsimp only
  generalize (if attr = 25 then 10 else attr) = attr
  split
  · exact h.withBooks { s.books with vtxDesc := update s.vtxDesc attr type } fun r => by
      cases r <;> rfl
  · exact h

theorem State.Reachable.coherent {s : State} (h : s.Reachable) : Coherent s.forget := by
  induction h with
  | defaults =>
    intro r v hword
    have hnone : State.defaults.forget.word r = none := by cases r <;> rfl
    rw [hnone] at hword
    cases hword
  | load _ l ih => exact coherent_apply ih l
  | @clearVtxDesc s _ ih =>
    exact ih.withBooks { s.books with vtxDesc := fun _ => 0 } fun r => by cases r <;> rfl
  | setVtxDesc _ attr type ih => exact coherent_setVtxDesc ih attr type

namespace Processor

end Processor

/-! ## what a draw sees -/

def State.visible (s : State) : (TevConfig × VertexConfig × PixelState × List (BitVec 32) ×
    List (BitVec 32) × (Fin 8 → TexMap) × (BitVec 32 → TlutLoad)) × (Nat → Single) :=
  (s.DrawVisible, s.viewport)

theorem visible_congr {s t : State} (h : s.forget = t.forget) : s.visible = t.visible := by
  have hsame (s : State) : s.forget.visible = s.visible := rfl
  rw [← hsame s, h, hsame t]

theorem count_of_visible {s t : State} (h : s.visible = t.visible) (c : Count) :
    s.count c = t.count c := by
  have hvertex : s.Vertex = t.Vertex := congrArg (fun v => v.1.2.1) h
  cases c with
  | texGens =>
    have hcount : s.Vertex.texGenCount = t.Vertex.texGenCount := by rw [hvertex]
    exact hcount
  | channels =>
    have hcount : s.Vertex.channelCount = t.Vertex.channelCount := by rw [hvertex]
    exact hcount

/-- one load: dropped or not, nothing that a draw sees differs -/
theorem skip_forget {s t : State} (h : s.forget = t.forget) (hs : Coherent s.forget) {l : Load}
    (hagrees : l.Agrees s) : (l.skip s).forget = (l.apply t).forget := by
  rw [← apply_congr h l]
  by_cases hdropped : l.unchanged s = true
  · rw [Load.skip, if_pos hdropped, apply_of_agrees hs hagrees hdropped]
  · rw [Load.skip, if_neg hdropped]

theorem coherent_skip {s : State} (hs : Coherent s.forget) (l : Load) :
    Coherent (l.skip s).forget := by
  unfold Load.skip
  split
  · exact hs
  · exact coherent_apply hs l

theorem agrees_of_visible {s t : State} (h : s.forget = t.forget) {l : Load}
    (hvisible : (l.skip s).visible = (l.apply t).visible) : l.Agrees s := by
  refine agrees_of_apply fun hdropped c => ?_
  rw [Load.skip, if_pos hdropped, ← visible_congr (apply_congr h l)] at hvisible
  exact (count_of_visible hvisible c).symm

/-- a run of loads, by induction: the two states differ in the counters and the flags alone -/
theorem foldl_visible_iff {s t : State} (h : s.forget = t.forget) (hs : Coherent s.forget)
    (loads : List Load) :
    (∀ k, ((loads.take k).foldl Load.skip s).visible = ((loads.take k).foldl Load.apply t).visible) ↔
      ∀ (k : Nat) l, loads[k]? = some l → l.Agrees ((loads.take k).foldl Load.skip s) := by
  induction loads generalizing s t with
  | nil =>
    refine ⟨fun _ k l hl => (by cases hl), fun _ k => ?_⟩
    rw [List.take_nil]
    exact visible_congr h
  | cons l loads ih =>
    constructor
    · intro hvisible
      have hfirst : l.Agrees s := agrees_of_visible h (hvisible 1)
      have hrest := (ih (skip_forget h hs hfirst) (coherent_skip hs l)).mp fun k => hvisible (k + 1)
      intro k
      cases k with
      | zero =>
        intro l' hl'
        obtain rfl := Option.some.inj hl'
        exact hfirst
      | succ k => exact hrest k
    · intro hagrees
      have hfirst : l.Agrees s := hagrees 0 l rfl
      have hrest := (ih (skip_forget h hs hfirst) (coherent_skip hs l)).mpr fun k => hagrees (k + 1)
      intro k
      cases k with
      | zero => exact visible_congr h
      | succ k => exact hrest k

/-- **Dropping loads is not seen exactly when every dropped load agrees.**  After every load of a
stream, a draw sees what it would see had no load been dropped, if and only if each load that was
dropped found the texture coordinate and channel counts of its words to be the current ones. -/
theorem skipping_sound_iff (memory : Memory) (depth : Nat) {p : Processor} (hp : p.state.Reachable)
    (loads : List Load) :
    (∀ k, (Processor.Run memory depth p ((loads.take k).flatMap Load.bytes)).1.state.visible =
        ((loads.take k).foldl Load.apply p.state).visible) ↔
      ∀ (k : Nat) l, loads[k]? = some l →
        l.Agrees (Processor.Run memory depth p ((loads.take k).flatMap Load.bytes)).1.state := by
  simp only [Processor.Run_loads]
  exact foldl_visible_iff rfl hp.coherent loads

/-- GENMODE twice with one coordinate: the second load is dropped, unseen -/
theorem skipping_sound_genMode :
    Load.unchanged (Load.apply State.defaults (.bp 0x00000001)) (.bp 0x00000001) = true ∧
      ∀ k, (Processor.Run (fun _ _ => none) 0 (.start State.defaults)
          (([.bp 0x00000001, .bp 0x00000001] : List Load).take k |>.flatMap Load.bytes)).1.state.visible =
        ((([.bp 0x00000001, .bp 0x00000001] : List Load).take k).foldl Load.apply
          State.defaults).visible := by
  refine ⟨by decide, (skipping_sound_iff (fun _ _ => none) 0 (p := .start State.defaults) .defaults
    [.bp 0x00000001, .bp 0x00000001]).mpr fun k l hl => ?_⟩
  rw [Processor.Run_loads]
  match k with
  | 0 =>
    obtain rfl := Option.some.inj hl
    intro hdropped
    exact absurd hdropped (by decide)
  | 1 =>
    obtain rfl := Option.some.inj hl
    intro _ r hr v hv c n hn
    obtain rfl := List.mem_singleton.mp hr
    have hword : ((([.bp 0x00000001, .bp 0x00000001] : List Load).take 1).foldl Load.skip
        State.defaults).word (.bp 0x00) = some 1 := by decide
    obtain rfl : 1 = v := Option.some.inj (hword.symm.trans hv)
    cases c <;> (obtain rfl := Option.some.inj hn; decide)
  | k + 2 => cases hl

def genModeTwice : List Load :=
  [.bp 0x00000001, .xf ⟨0x103F, [2], by decide, by decide⟩, .bp 0x00000001]

theorem repeated_genMode_dropped :
    ¬∀ (memory : Memory) (depth : Nat) (p : Processor), p.state.Reachable → ∀ loads : List Load,
      (Processor.Run memory depth p (loads.flatMap Load.bytes)).1.state.visible =
        (loads.foldl Load.apply p.state).visible := by
  intro h
  have hvisible := h (fun _ _ => none) 0 (.start State.defaults) .defaults genModeTwice
  rw [Processor.Run_loads] at hvisible
  have hcount := count_of_visible hvisible .texGens
  have hskipped : (genModeTwice.foldl Load.skip State.defaults).count .texGens = 2 := by decide
  have happlied : (genModeTwice.foldl Load.apply State.defaults).count .texGens = 1 := by decide
  have hne : 2 = 1 := hskipped.symm.trans (hcount.trans happlied)
  exact absurd hne (by decide)

end DolTranslator.Gx
