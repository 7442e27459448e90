import DolTranslator.Gx.RawFifoLaw
import DolTranslator.Streams.Feed

/-!
# The raw FIFO parser, step by step

For streams of any bytes: unknown ones, draws of no vertices, draws that are not all there.

* `RawFifo.step`   one command, the begin of a draw, or one value of a vertex;
* `fed`   a step does the same when more bytes are in the ring.
-/

namespace DolTranslator.Gx.Hle

open Function Streams

namespace RawFifo

/-! ## steps -/

def push (s : RawFifo) (w : List Byte) : RawFifo := { s with bytes := s.bytes ++ w }

def commandStep (pf : Platform) (s : RawFifo) : Option RawFifo :=
  match s.bytes with
  | [] => none
  | cmd :: data =>
    if isLoad cmd then
      match load pf cmd s.gx data with
      | (_, none) => none
      | (gx, some rest) => some { s with gx := gx, bytes := rest }
    else if IsDrawOpcode cmd then s.drawCommand pf cmd data
    else some { s with bytes := data }

/-- a vertex without attributes takes no bytes: they are dropped -/
def vertexStep (s : RawFifo) : Option RawFifo :=
  match s.currentAttr with
  | none =>
    match s.bytes with
    | [] => none
    | _ :: rest => some { s with bytes := rest }
  | some attr =>
    let unit := (s.gx.vtx.units s.currentVtxFmt attr).1
    let count := (s.gx.vtx.units s.currentVtxFmt attr).2
    if s.gx.vtx.Componentwise attr then
      if s.bytes.length < unit then none
      else
        let comps := s.rawCompBuffer ++ [beWord (s.bytes.take unit)]
        if comps.length ≥ count then some (s.takeAttr attr unit comps unit)
        else some { s with bytes := s.bytes.drop unit, rawCompBuffer := comps }
    else if s.bytes.length < s.gx.vtx.attrBytes s.currentVtxFmt attr then none
    else some (s.takeAttr attr unit (beWords unit count s.bytes)
      (s.gx.vtx.attrBytes s.currentVtxFmt attr))

def step (pf : Platform) (s : RawFifo) : Option RawFifo :=
  if s.inBegin then if s.auroraBeginCalled then s.vertexStep else some s.callBegin
  else s.commandStep pf

def size (s : RawFifo) : Nat :=
  2 * s.bytes.length + if s.inBegin ∧ ¬s.auroraBeginCalled then 1 else 0

/-- an attribute that is due is in the layout -/
def Sound (s : RawFifo) : Prop :=
  s.inBegin = true → ∀ attr, s.currentAttr = some attr → s.gx.vtx.vtxDesc attr ≠ .none

variable {pf : Platform} {s s' : RawFifo} {w : List Byte}

@[simp] theorem push_bytes (s : RawFifo) (w : List Byte) : (s.push w).bytes = s.bytes ++ w := rfl

theorem push_nil (s : RawFifo) : s.push [] = s := by
  show { s with bytes := s.bytes ++ [] } = s
  rw [List.append_nil]

theorem push_push (s : RawFifo) (v w : List Byte) : (s.push v).push w = s.push (v ++ w) := by
  show ({ s with bytes := s.bytes ++ v ++ w } : RawFifo) = { s with bytes := s.bytes ++ (v ++ w) }
  rw [List.append_assoc]

theorem Sound.of_idle (h : s.inBegin = false) : s.Sound := by
  intro hin
  rw [h] at hin
  cases hin

theorem NextEnabledAttr_desc {vtx : VtxState} {first attr : Nat}
    (h : vtx.NextEnabledAttr first = some attr) : vtx.vtxDesc attr ≠ .none := by
  have hmem := List.mem_of_find?_eq_some h
  simpa using (List.mem_filter.mp hmem).2

theorem takeAttr_sound (s : RawFifo) (attr unit : Nat) (raws : List (BitVec 32)) (size : Nat) :
    (s.takeAttr attr unit raws size).Sound := by
  unfold takeAttr finishVertexIfNeeded
  dsimp only
  split
  · next attr' hattr =>
    intro _ a ha
    exact NextEnabledAttr_desc ha
  · have hreset (s : RawFifo) (a : Nat) (ha : s.ResetVertex.currentAttr = some a) :
        s.gx.vtx.vtxDesc a ≠ .none := NextEnabledAttr_desc ha
    split
    · split
      · exact Sound.of_idle rfl
      · intro _ a ha
        exact hreset _ a ha
    · intro _ a ha
      exact hreset _ a ha

theorem enterBegin_sound (s : RawFifo) (prim fmt count : Nat) : (s.enterBegin prim fmt count).Sound := by
  intro _ a ha
  exact NextEnabledAttr_desc ha

/-! ## a step with more in the ring -/

theorem finishVertexIfNeeded_push (s : RawFifo) (attr : Nat) (w : List Byte) :
    (s.push w).finishVertexIfNeeded attr = (s.finishVertexIfNeeded attr).push w := by
  unfold finishVertexIfNeeded
  dsimp only [push]
  cases s.gx.vtx.NextEnabledAttr (attr + 1) with
  | some a => rfl
  | none =>
    dsimp only [ResetVertex]
    by_cases hremaining : s.vertsRemaining > 0
    · by_cases hlast : s.vertsRemaining - 1 = 0
      · simp only [hremaining, hlast, if_true]
      · simp only [hremaining, hlast, if_true, if_false]
    · simp only [hremaining, if_false]

theorem takeAttr_push (s : RawFifo) (attr unit : Nat) (raws : List (BitVec 32)) {size : Nat}
    (h : size ≤ s.bytes.length) (w : List Byte) :
    (s.push w).takeAttr attr unit raws size = (s.takeAttr attr unit raws size).push w := by
  unfold takeAttr
  rw [← finishVertexIfNeeded_push]
  show RawFifo.finishVertexIfNeeded { s with
    gx := s.gx.apply (.attr attr unit raws), bytes := (s.bytes ++ w).drop size } attr = _
  rw [List.drop_append_of_le_length h]
  rfl

theorem takeAttr_bytes (s : RawFifo) (attr unit : Nat) (raws : List (BitVec 32)) (size : Nat) :
    (s.takeAttr attr unit raws size).bytes = s.bytes.drop size ∧
      ((s.takeAttr attr unit raws size).inBegin = true →
        (s.takeAttr attr unit raws size).auroraBeginCalled = s.auroraBeginCalled) := by
  unfold takeAttr finishVertexIfNeeded
  dsimp only [ResetVertex]
  split
  · exact ⟨rfl, fun _ => rfl⟩
  · split
    · split
      · refine ⟨rfl, fun h => ?_⟩
        cases h
      · exact ⟨rfl, fun _ => rfl⟩
    · exact ⟨rfl, fun _ => rfl⟩

theorem vertexStep_component {attr : Nat} (hattr : s.currentAttr = some attr)
    (hcomp : s.gx.vtx.Componentwise attr = true) :
    s.vertexStep =
      if s.bytes.length < (s.gx.vtx.units s.currentVtxFmt attr).1 then none
      else if s.rawCompBuffer.length + 1 ≥ (s.gx.vtx.units s.currentVtxFmt attr).2 then
        some (s.takeAttr attr (s.gx.vtx.units s.currentVtxFmt attr).1
          (s.rawCompBuffer ++ [beWord (s.bytes.take (s.gx.vtx.units s.currentVtxFmt attr).1)])
          (s.gx.vtx.units s.currentVtxFmt attr).1)
      else some { s with
        bytes := s.bytes.drop (s.gx.vtx.units s.currentVtxFmt attr).1
        rawCompBuffer := s.rawCompBuffer ++
          [beWord (s.bytes.take (s.gx.vtx.units s.currentVtxFmt attr).1)] } := by
  unfold vertexStep
  rw [hattr]
  simp only [hcomp, if_true, List.length_append, List.length_singleton]

theorem vertexStep_whole {attr : Nat} (hattr : s.currentAttr = some attr)
    (hwhole : s.gx.vtx.Componentwise attr = false) :
    s.vertexStep =
      if s.bytes.length < s.gx.vtx.attrBytes s.currentVtxFmt attr then none
      else some (s.takeAttr attr (s.gx.vtx.units s.currentVtxFmt attr).1
        (beWords (s.gx.vtx.units s.currentVtxFmt attr).1 (s.gx.vtx.units s.currentVtxFmt attr).2
          s.bytes) (s.gx.vtx.attrBytes s.currentVtxFmt attr)) := by
  unfold vertexStep
  rw [hattr]
  simp only [hwhole, Bool.false_eq_true, if_false]

theorem vertexStep_none (hattr : s.currentAttr = none) :
    s.vertexStep = s.bytes.head?.map fun _ => { s with bytes := s.bytes.tail } := by
  unfold vertexStep
  rw [hattr]
  cases s.bytes <;> rfl

theorem vertexStep_push (h : s.vertexStep = some s') (w : List Byte) :
    (s.push w).vertexStep = some (s'.push w) := by
  have hlength : s.bytes.length ≤ (s.bytes ++ w).length := by
    rw [List.length_append]
    omega
  cases hattr : s.currentAttr with
  | none =>
    rw [vertexStep_none hattr] at h
    rw [vertexStep_none (s := s.push w) hattr, push_bytes]
    cases hbytes : s.bytes with
    | nil =>
      rw [hbytes] at h
      cases h
    | cons byte rest =>
      rw [hbytes] at h
      cases h
      rfl
  | some attr =>
    by_cases hcomp : s.gx.vtx.Componentwise attr = true
    · rw [vertexStep_component hattr hcomp] at h
      rw [vertexStep_component (s := s.push w) hattr hcomp]
      generalize hunit : (s.gx.vtx.units s.currentVtxFmt attr).1 = unit at h
      generalize hcount : (s.gx.vtx.units s.currentVtxFmt attr).2 = count at h
      show (if (s.bytes ++ w).length < (s.gx.vtx.units s.currentVtxFmt attr).1 then none
        else if s.rawCompBuffer.length + 1 ≥ (s.gx.vtx.units s.currentVtxFmt attr).2 then
          some ((s.push w).takeAttr attr (s.gx.vtx.units s.currentVtxFmt attr).1
            (s.rawCompBuffer ++
              [beWord ((s.bytes ++ w).take (s.gx.vtx.units s.currentVtxFmt attr).1)])
            (s.gx.vtx.units s.currentVtxFmt attr).1)
        else some { s with
          bytes := (s.bytes ++ w).drop (s.gx.vtx.units s.currentVtxFmt attr).1
          rawCompBuffer := s.rawCompBuffer ++
            [beWord ((s.bytes ++ w).take (s.gx.vtx.units s.currentVtxFmt attr).1)] }) = _
      rw [hunit, hcount]
      split at h
      · cases h
      · next hlen =>
        have hle := Nat.le_of_not_lt hlen
        rw [if_neg (by omega), List.take_append_of_le_length hle,
          List.drop_append_of_le_length hle]
        split at h
        · next hlast =>
          cases h
          rw [if_pos hlast, takeAttr_push s _ _ _ hle]
        · next hmore =>
          cases h
          rw [if_neg hmore]
          rfl
    · have hwhole : s.gx.vtx.Componentwise attr = false := by simpa using hcomp
      rw [vertexStep_whole hattr hwhole] at h
      rw [vertexStep_whole (s := s.push w) hattr hwhole]
      show (if (s.bytes ++ w).length < s.gx.vtx.attrBytes s.currentVtxFmt attr then none else _) = _
      split at h
      · cases h
      · next hlen =>
        cases h
        rw [if_neg (by omega), push_bytes, ← takeAttr_push s _ _ _ (Nat.le_of_not_lt hlen)]
        show some (RawFifo.takeAttr _ _ _ (beWords (s.gx.vtx.units s.currentVtxFmt attr).1
          (s.gx.vtx.units s.currentVtxFmt attr).2 (s.bytes ++ w)) _) = _
        rw [beWords_append _ _ _ (Nat.le_of_not_lt hlen)]
        rfl

theorem TrySubmitRawDirectFifoDraw_push (s : RawFifo) (prim fmt count : Nat)
    (body w : List Byte) : (s.push w).TrySubmitRawDirectFifoDraw pf prim fmt count body =
      (s.TrySubmitRawDirectFifoDraw pf prim fmt count body).map fun s => s.push w := by
  unfold TrySubmitRawDirectFifoDraw
  show (if count ≠ 0 ∧ pf.submitRaw s.gx.applied prim fmt count body then _ else _) = _
  by_cases hif : count ≠ 0 ∧ pf.submitRaw s.gx.applied prim fmt count body = true
  · rw [if_pos hif, if_pos hif]
    rfl
  · rw [if_neg hif, if_neg hif]
    rfl

theorem drawCommand_push {cmd : Byte} {data : List Byte} (h : s.drawCommand pf cmd data = some s')
    (w : List Byte) : (s.push w).drawCommand pf cmd (data ++ w) = some (s'.push w) := by
  unfold drawCommand at h ⊢
  split at h
  · cases h
  · next h2 =>
    have hlength : data.length ≤ (data ++ w).length := by
      rw [List.length_append]
      omega
    rw [if_neg (by omega)]
    dsimp only at h ⊢
    rw [be16_append (by omega), List.drop_append_of_le_length (by omega)]
    have hgx : (s.push w).gx = s.gx := rfl
    rw [hgx]
    cases hsize : s.gx.vtx.TryGetRawDirectFifoVertexSize (cmd.toNat % 8) with
    | none =>
      rw [hsize] at h
      cases h
      rfl
    | some size =>
      rw [hsize] at h
      dsimp only at h ⊢
      split at h
      · cases h
      · next hlen =>
        rw [if_neg (by rw [List.length_append]; omega), List.take_append_of_le_length (by omega),
          List.drop_append_of_le_length (by omega)]
        rw [TrySubmitRawDirectFifoDraw_push]
        cases hsubmit : s.TrySubmitRawDirectFifoDraw pf (OpcodeToGXPrimitive cmd) (cmd.toNat % 8)
            (be16 data) ((data.drop 2).take (be16 data * size)) with
        | none =>
          rw [hsubmit] at h
          cases h
          rfl
        | some s₁ =>
          rw [hsubmit] at h
          cases h
          rfl

theorem commandStep_push (h : s.commandStep pf = some s') (w : List Byte) :
    (s.push w).commandStep pf = some (s'.push w) := by
  unfold commandStep at h ⊢
  rw [push_bytes]
  cases hbytes : s.bytes with
  | nil =>
    rw [hbytes] at h
    cases h
  | cons cmd data =>
    rw [hbytes] at h
    dsimp only [List.cons_append] at h ⊢
    split at h
    · next hload =>
      rw [if_pos hload]
      split at h
      · cases h
      · next gx rest hl =>
        cases h
        show (match load pf cmd s.gx (data ++ w) with
          | (_, none) => none
          | (gx, some rest) => some _) = _
        rw [(load_body pf cmd).grows _ _ _ _ w hl]
        rfl
    · next hload =>
      rw [if_neg hload]
      split at h
      · next hdraw =>
        rw [if_pos hdraw]
        exact drawCommand_push h w
      · next hdraw =>
        cases h
        rw [if_neg hdraw]
        rfl

/-! ## a step takes bytes -/

theorem enterBegin_bytes (s : RawFifo) (prim fmt count : Nat) :
    (s.enterBegin prim fmt count).bytes = s.bytes := rfl

theorem drawCommand_cases {cmd : Byte} {data : List Byte} (h : s.drawCommand pf cmd data = some s') :
    2 ≤ data.length ∧ (s'.inBegin = false ∧ s'.bytes.length ≤ data.length - 2 ∨
      s' = { s with bytes := data.drop 2 }.enterBegin (OpcodeToGXPrimitive cmd) (cmd.toNat % 8)
        (be16 data)) := by
  unfold drawCommand at h
  split at h
  · cases h
  · next h2 =>
    refine ⟨by omega, ?_⟩
    dsimp only at h
    split at h
    · next size hsize =>
      split at h
      · cases h
      · split at h
        · next s₁ hsubmit =>
          cases h
          unfold TrySubmitRawDirectFifoDraw at hsubmit
          split at hsubmit
          · cases hsubmit
            refine .inl ⟨rfl, ?_⟩
            show ((data.drop 2).drop (be16 data * size)).length ≤ _
            rw [List.length_drop, List.length_drop]
            omega
          · cases hsubmit
        · exact .inr (Option.some.inj h).symm
    · exact .inr (Option.some.inj h).symm

theorem drawCommand_bytes {cmd : Byte} {data : List Byte} (h : s.drawCommand pf cmd data = some s') :
    s'.bytes.length + 2 ≤ data.length := by
  obtain ⟨h2, ⟨-, hle⟩ | rfl⟩ := drawCommand_cases h
  · omega
  · rw [enterBegin_bytes, List.length_drop]
    omega

theorem commandStep_bytes (h : s.commandStep pf = some s') : s'.bytes.length < s.bytes.length := by
  unfold commandStep at h
  split at h
  · cases h
  · next cmd data hbytes =>
    rw [hbytes, List.length_cons]
    split at h
    · split at h
      · cases h
      · next gx rest hl =>
        cases h
        exact Nat.lt_succ_of_le ((load_body pf cmd).suffix _ _ _ _ hl).length_le
    · split at h
      · have := drawCommand_bytes h
        omega
      · cases h
        exact Nat.lt_succ_self _

theorem commandStep_sound (hidle : s.inBegin = false) (h : s.commandStep pf = some s') : s'.Sound := by
  unfold commandStep at h
  split at h
  · cases h
  · split at h
    · split at h
      · cases h
      · cases h
        exact .of_idle hidle
    · split at h
      · obtain ⟨-, ⟨hdone, -⟩ | rfl⟩ := drawCommand_cases h
        · exact .of_idle hdone
        · exact enterBegin_sound _ _ _ _
      · cases h
        exact .of_idle hidle

theorem vertexStep_bytes (h : s.vertexStep = some s') : s'.bytes.length < s.bytes.length ∧
    (s'.inBegin = true → s'.auroraBeginCalled = s.auroraBeginCalled) := by
  have htake {attr unit size : Nat} {raws : List (BitVec 32)} (hpos : 0 < size)
      (hlen : ¬s.bytes.length < size) :
      (s.takeAttr attr unit raws size).bytes.length < s.bytes.length ∧
        ((s.takeAttr attr unit raws size).inBegin = true →
          (s.takeAttr attr unit raws size).auroraBeginCalled = s.auroraBeginCalled) := by
    obtain ⟨hbytes, hbegun⟩ := takeAttr_bytes s attr unit raws size
    rw [hbytes, List.length_drop]
    exact ⟨by omega, hbegun⟩
  cases hattr : s.currentAttr with
  | none =>
    rw [vertexStep_none hattr] at h
    cases hbytes : s.bytes with
    | nil =>
      rw [hbytes] at h
      cases h
    | cons byte rest =>
      rw [hbytes] at h
      cases h
      exact ⟨Nat.lt_succ_self _, fun _ => rfl⟩
  | some attr =>
    have hpos := (VtxState.attrBytes_pos s.gx.vtx s.currentVtxFmt attr).1
    have hunit : 0 < (s.gx.vtx.units s.currentVtxFmt attr).1 := Nat.pos_of_mul_pos_right hpos
    by_cases hcomp : s.gx.vtx.Componentwise attr = true
    · rw [vertexStep_component hattr hcomp] at h
      split at h
      · cases h
      · next hlen =>
        split at h
        · cases h
          exact htake hunit hlen
        · cases h
          refine ⟨?_, fun _ => rfl⟩
          rw [List.length_drop]
          omega
    · have hwhole : s.gx.vtx.Componentwise attr = false := by simpa using hcomp
      rw [vertexStep_whole hattr hwhole] at h
      split at h
      · cases h
      · next hlen =>
        cases h
        exact htake hpos hlen

theorem vertexStep_sound (hsound : s.Sound) (h : s.vertexStep = some s') : s'.Sound := by
  cases hattr : s.currentAttr with
  | none =>
    rw [vertexStep_none hattr] at h
    cases hbytes : s.bytes with
    | nil =>
      rw [hbytes] at h
      cases h
    | cons byte rest =>
      rw [hbytes] at h
      cases h
      exact hsound
  | some attr =>
    by_cases hcomp : s.gx.vtx.Componentwise attr = true
    · rw [vertexStep_component hattr hcomp] at h
      split at h
      · cases h
      · split at h
        · cases h
          exact takeAttr_sound _ _ _ _ _
        · cases h
          exact hsound
    · have hwhole : s.gx.vtx.Componentwise attr = false := by simpa using hcomp
      rw [vertexStep_whole hattr hwhole] at h
      split at h
      · cases h
      · cases h
        exact takeAttr_sound _ _ _ _ _

/-! ## one step after another -/

theorem step_idle (h : s.inBegin = false) : s.step pf = s.commandStep pf :=
  if_neg (by rw [h]; exact Bool.false_ne_true)

theorem step_due (h : s.inBegin = true) (hdue : s.auroraBeginCalled = false) :
    s.step pf = some s.callBegin := by
  unfold step
  rw [if_pos h, if_neg (by rw [hdue]; exact Bool.false_ne_true)]

theorem step_drawing (h : s.inBegin = true) (hbegun : s.auroraBeginCalled = true) :
    s.step pf = s.vertexStep := by
  unfold step
  rw [if_pos h, if_pos hbegun]

theorem callBegin_due (hdue : s.auroraBeginCalled = false) :
    s.callBegin = { s with
      gx := s.gx.apply (.begin_ s.currentPrim s.currentVtxFmt s.vertsRemaining)
      auroraBeginCalled := true } := if_neg (by rw [hdue]; exact Bool.false_ne_true)

/-- **The parser is a machine that is fed.** -/
theorem fed (pf : Platform) : Fed (step pf) push size Sound where
  shrinks {s s'} hsound h := by
    have hle (t : RawFifo) : t.size ≤ 2 * t.bytes.length + 1 := by
      unfold size
      split <;> omega
    have hge (t : RawFifo) : 2 * t.bytes.length ≤ t.size := Nat.le_add_right _ _
    cases hin : s.inBegin with
    | false =>
      rw [step_idle hin] at h
      have := commandStep_bytes h
      have := hle s'
      have := hge s
      omega
    | true =>
      cases hbegun : s.auroraBeginCalled with
      | false =>
        rw [step_due hin hbegun] at h
        cases h
        rw [callBegin_due hbegun]
        unfold size
        rw [hin, hbegun]
        exact Nat.lt_succ_self _
      | true =>
        rw [step_drawing hin hbegun] at h
        have := (vertexStep_bytes h).1
        have := hle s'
        have := hge s
        omega
  keeps {s s'} hsound h := by
    cases hin : s.inBegin with
    | false =>
      rw [step_idle hin] at h
      exact commandStep_sound hin h
    | true =>
      cases hbegun : s.auroraBeginCalled with
      | false =>
        rw [step_due hin hbegun] at h
        cases h
        rw [callBegin_due hbegun]
        exact hsound
      | true =>
        rw [step_drawing hin hbegun] at h
        exact vertexStep_sound hsound h
  pushed w hsound := hsound
  grows {s s'} w hsound h := by
    cases hin : s.inBegin with
    | false =>
      rw [step_idle hin] at h
      rw [step_idle (s := s.push w) hin]
      exact commandStep_push h w
    | true =>
      cases hbegun : s.auroraBeginCalled with
      | false =>
        rw [step_due hin hbegun] at h
        cases h
        rw [step_due (s := s.push w) hin hbegun, callBegin_due hbegun,
          callBegin_due (s := s.push w) hbegun]
        rfl
      | true =>
        rw [step_drawing hin hbegun] at h
        rw [step_drawing (s := s.push w) hin hbegun]
        exact vertexStep_push h w

end RawFifo

end DolTranslator.Gx.Hle
