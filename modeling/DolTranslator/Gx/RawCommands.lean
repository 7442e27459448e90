import DolTranslator.Gx.RawVertices

/-!
# The commands in the ring

* `buffered`, `Waits`   the commands that the parser waits for;
* `Fresh`   bytes of which only the last write's can end a command;
* `Begun`, `drawCommand_spec`   a draw is waited for, done whole, or begun;
* `Parse`, `commandLoop_spec`   the loop over commands runs the stream's commands.
-/

namespace DolTranslator.Gx.Hle

open Function Streams

variable {pf : Platform}

namespace VtxState

theorem bytesOf_vertices (s : VtxState) (fmt count : Nat) :
    s.bytesOf fmt (s.vertices count) = count * s.bytesOf fmt s.enabled := by
  induction count with
  | zero => rw [Nat.zero_mul]; rfl
  | succ count ih => rw [vertices_succ, bytesOf_append, ih, Nat.succ_mul, Nat.add_comm]

theorem attrBytes_direct {s : VtxState} {attr : Nat} (fmt : Nat) (h : s.vtxDesc attr = .direct) :
    s.attrBytes fmt attr = DirectAttrByteSize attr (s.vtxAttrFmt fmt attr) := by
  unfold attrBytes units DirectAttrByteSize
  rw [h]
  dsimp only
  split_ifs
  · rfl
  · exact Nat.one_mul _
  · exact Nat.mul_comm _ _

theorem TryGetRawDirectFifoVertexSize_eq {s : VtxState} {fmt size : Nat}
    (h : s.TryGetRawDirectFifoVertexSize fmt = some size) : s.bytesOf fmt s.enabled = size := by
  unfold TryGetRawDirectFifoVertexSize at h
  dsimp only at h
  split at h
  · cases h
  · next hdirect =>
    cases h
    unfold bytesOf
    rw [List.map_congr_left fun attr hattr => attrBytes_direct fmt
      (by_contra fun hne => hdirect (.inl ⟨attr, hattr, hne⟩))]

end VtxState

/-! ## commands in the ring -/

/-- whether the parser keeps a command in the ring until it is all there -/
def buffered (s : VtxState) : List Byte → Bool
  | [] => true
  | cmd :: body =>
    isLoad cmd || body.length < 2 || (s.TryGetRawDirectFifoVertexSize (cmd.toNat % 8)).isSome

/-- a command that the parser waits for -/
def Waits (pf : Platform) (gx : GxState) (data : List Byte) : Prop :=
  (command pf gx data).2 = none ∧ buffered gx.vtx data = true

/-- bytes of which the last write's are the only ones that can end a command -/
def Fresh (pf : Platform) (gx : GxState) (data : List Byte) : Prop :=
  ∃ old new, data = old ++ new ∧ new.length ≤ 4 ∧
    (old.length ≤ 3 ∨ (command pf gx old).2 = none)

variable {gx gx' : GxState} {data rest : List Byte}

theorem WellFormed.some (h : WellFormed pf gx data) (hne : data ≠ []) :
    ∃ gx' rest, command pf gx data = (gx', some rest) := by
  rcases hc : command pf gx data with ⟨gx', _ | rest⟩
  · unfold WellFormed at h
    rw [Run_none (by rw [hc])] at h
    exact absurd h hne
  · exact ⟨gx', rest, rfl⟩

theorem command_bytes {cmd : Byte} (h : command pf gx (cmd :: data) = (gx', some rest)) :
    rest.length ≤ data.length :=
  ((commandBody_body pf cmd).suffix _ _ _ _ h).length_le

theorem Fresh.next (hfresh : Fresh pf gx data) (h : command pf gx data = (gx', some rest)) :
    Fresh pf gx' rest := by
  obtain ⟨old, new, rfl, hnew, hold⟩ := hfresh
  have hlt := (command_resumable pf).shrinks _ _ _ _ h
  have hlen : rest.length ≤ 6 := by
    rcases hold with hold | hold
    · rw [List.length_append] at hlt
      omega
    · have := command_fresh hold h
      omega
  refine ⟨rest.take 3, rest.drop 3, (List.take_append_drop 3 rest).symm, ?_, .inl ?_⟩
  · rw [List.length_drop]
    omega
  · rw [List.length_take]
    omega

theorem Fresh.draw {cmd : Byte} (hfresh : Fresh pf gx (cmd :: data))
    (h : command pf gx (cmd :: data) = (gx', some rest)) (hlen : rest.length + 3 ≤ data.length) :
    rest.length ≤ 3 := by
  obtain ⟨old, new, hdata, hnew, hold⟩ := hfresh
  rcases hold with hold | hold
  · have hlens := congrArg List.length hdata
    rw [List.length_append, List.length_cons] at hlens
    omega
  · rw [hdata] at h
    have := command_fresh hold h
    omega

namespace RawFifo

variable {s s' : RawFifo} {cmd : Byte}

/-- the parser at the first vertex of a draw -/
def begun (gx : GxState) (cmd : Byte) (data : List Byte) : RawFifo where
  gx := gx
  bytes := data.drop 2
  inBegin := true
  auroraBeginCalled := false
  currentVtxFmt := cmd.toNat % 8
  currentPrim := OpcodeToGXPrimitive cmd
  vertsRemaining := be16 data
  currentAttr := gx.vtx.enabled.head?
  rawCompBuffer := []

/-- a draw whose vertices come one by one -/
structure Begun (pf : Platform) (gx : GxState) (cmd : Byte) (data : List Byte) : Prop where
  header : 2 ≤ data.length
  layout : gx.vtx.enabled = [] → be16 data = 0
  ahead : ∀ more, command pf gx (cmd :: data ++ more) =
    finish gx (gx.apply (.begin_ (OpcodeToGXPrimitive cmd) (cmd.toNat % 8) (be16 data)))
      (cmd.toNat % 8) (gx.vtx.vertices (be16 data)) (data.drop 2 ++ more)
  /-- a direct draw is there whole -/
  whole : buffered gx.vtx (cmd :: data) = true → (command pf gx (cmd :: data)).2 ≠ none

theorem Begun.intro (hload : isLoad cmd = false) (hdraw : IsDrawOpcode cmd = true)
    (h2 : 2 ≤ data.length) (hlayout : gx.vtx.enabled = [] → be16 data = 0)
    (hwhole : (gx.vtx.TryGetRawDirectFifoVertexSize (cmd.toNat % 8)).isSome = true →
      2 + gx.vtx.bytesOf (cmd.toNat % 8) (gx.vtx.vertices (be16 data)) ≤ data.length ∧
        ¬(be16 data ≠ 0 ∧ pf.submitRaw gx.applied (OpcodeToGXPrimitive cmd) (cmd.toNat % 8)
          (be16 data) ((data.drop 2).take
            (gx.vtx.bytesOf (cmd.toNat % 8) (gx.vtx.vertices (be16 data)))))) :
    Begun pf gx cmd data where
  header := h2
  layout := hlayout
  ahead more := by
    have hbe : be16 (data ++ more) = be16 data := be16_append h2
    have hnot : ¬((gx.vtx.TryGetRawDirectFifoVertexSize (cmd.toNat % 8)).isSome ∧
        be16 data ≠ 0 ∧ pf.submitRaw gx.applied (OpcodeToGXPrimitive cmd) (cmd.toNat % 8)
          (be16 data) (((data ++ more).drop 2).take
            (gx.vtx.bytesOf (cmd.toNat % 8) (gx.vtx.vertices (be16 data))))) := by
      rintro ⟨hdirect, hsubmit⟩
      obtain ⟨hlen, hrefused⟩ := hwhole hdirect
      rw [List.drop_append_of_le_length h2,
        List.take_append_of_le_length (by rw [List.length_drop]; omega)] at hsubmit
      exact hrefused hsubmit
    rw [List.cons_append, command_draw pf hload hdraw (by rw [List.length_append]; omega)
      (by rw [hbe]; exact hlayout), hbe, ← List.drop_append_of_le_length h2]
    unfold finish draw
    dsimp only
    rw [hbe, if_neg hnot, List.length_drop, List.drop_drop]
    show _ = if _ < gx.vtx.bytesOf _ _ then _ else _
    have h2' : 2 ≤ (data ++ more).length := by
      rw [List.length_append]
      omega
    by_cases hlen : (data ++ more).length <
        2 + gx.vtx.bytesOf (cmd.toNat % 8) (gx.vtx.vertices (be16 data))
    · rw [if_pos hlen, if_pos (by omega)]
    · rw [if_neg hlen, if_neg (by omega),
        VtxState.attrsOf_take (by rw [List.length_drop]; omega), GxState.apply_applied,
        List.append_cons gx.applied]
      rfl
  whole hbuffered := by
    unfold buffered at hbuffered
    dsimp only at hbuffered
    rw [hload, Bool.false_or, decide_eq_false (by omega), Bool.false_or] at hbuffered
    rw [command_draw pf hload hdraw h2 hlayout, if_neg (by have := (hwhole hbuffered).1; omega)]
    exact Option.some_ne_none _

/-- **A draw in the ring.**  It is waited for, done whole, or begun. -/
theorem drawCommand_spec (pf : Platform) (s : RawFifo) (hload : isLoad cmd = false)
    (hdraw : IsDrawOpcode cmd = true)
    (hlayout : 2 ≤ data.length → s.gx.vtx.enabled = [] → be16 data = 0) :
    match s.drawCommand pf cmd data with
    | none => Waits pf s.gx (cmd :: data)
    | some s' =>
      (s'.inBegin = false ∧ command pf s.gx (cmd :: data) = (s'.gx, some s'.bytes) ∧
        (HasEmptyDraw s'.gx.applied → HasEmptyDraw s.gx.applied)) ∨
      (Begun pf s.gx cmd data ∧ s' = begun s.gx cmd data) := by
  have hbegun (s : RawFifo) : { s with bytes := data.drop 2 }.enterBegin (OpcodeToGXPrimitive cmd)
      (cmd.toNat % 8) (be16 data) = begun s.gx cmd data := by
    unfold enterBegin ResetVertex begun
    dsimp only
    rw [VtxState.NextEnabledAttr_zero]
  unfold drawCommand
  by_cases h2 : data.length < 2
  · rw [if_pos h2]
    refine ⟨?_, by simp [buffered, h2]⟩
    show (commandBody pf cmd s.gx data).2 = none
    unfold commandBody
    rw [hload, hdraw, if_neg Bool.false_ne_true, if_pos rfl, if_pos h2]
  · have hlayout := hlayout (by omega)
    rw [if_neg h2]
    dsimp only
    rw [hbegun]
    cases hsize : s.gx.vtx.TryGetRawDirectFifoVertexSize (cmd.toNat % 8) with
    | none =>
      exact .inr ⟨.intro hload hdraw (by omega) hlayout fun h => (by rw [hsize] at h; cases h), rfl⟩
    | some size =>
      have hbytes : s.gx.vtx.bytesOf (cmd.toNat % 8) (s.gx.vtx.vertices (be16 data)) =
          be16 data * size := by
        rw [VtxState.bytesOf_vertices, VtxState.TryGetRawDirectFifoVertexSize_eq hsize]
      have hdirect : (s.gx.vtx.TryGetRawDirectFifoVertexSize (cmd.toNat % 8)).isSome = true := by
        rw [hsize]
        rfl
      have hcommand := command_draw pf hload hdraw (by omega) hlayout
      rw [hbytes] at hcommand
      dsimp only
      rw [List.length_drop]
      by_cases hlen : data.length - 2 < be16 data * size
      · rw [if_pos hlen]
        refine ⟨by rw [hcommand, if_pos (by omega)], ?_⟩
        unfold buffered
        dsimp only
        rw [hdirect, Bool.or_true]
      · rw [if_neg hlen]
        unfold TrySubmitRawDirectFifoDraw
        by_cases hsubmit : be16 data ≠ 0 ∧ pf.submitRaw s.gx.applied (OpcodeToGXPrimitive cmd)
            (cmd.toNat % 8) (be16 data) ((data.drop 2).take (be16 data * size))
        · rw [if_pos hsubmit]
          refine .inl ⟨rfl, ?_, ?_⟩
          · rw [hcommand, if_neg (by omega), List.drop_drop]
            unfold draw
            dsimp only
            rw [hbytes, if_pos ⟨hdirect, hsubmit⟩]
            rfl
          · exact fun h => h.of_append fun _ _ => by simp
        · rw [if_neg hsubmit]
          refine .inr ⟨.intro hload hdraw (by omega) hlayout fun _ => ?_, rfl⟩
          rw [hbytes]
          exact ⟨by omega, hsubmit⟩

/-- the ring after the loop over commands -/
inductive Parse (pf : Platform) (s s' : RawFifo) : Prop
  | idle (inBegin : s'.inBegin = false)
      (run : ∀ more, Run pf s.gx (s.bytes ++ more) = Run pf s'.gx (s'.bytes ++ more))
      (waits : Waits pf s'.gx s'.bytes)
      (draws : HasEmptyDraw s'.gx.applied → HasEmptyDraw s.gx.applied)
  | draw (gxd : GxState) (cmd : Byte) (data : List Byte) (state : s' = begun gxd cmd data)
      (run : ∀ more, Run pf s.gx (s.bytes ++ more) = Run pf gxd (cmd :: data ++ more))
      (begun : Begun pf gxd cmd data) (fresh : Fresh pf gxd (cmd :: data))
      (draws : HasEmptyDraw gxd.applied → HasEmptyDraw s.gx.applied)

theorem Parse.after {s s' s'' : RawFifo}
    (hrun : ∀ more, Run pf s.gx (s.bytes ++ more) = Run pf s'.gx (s'.bytes ++ more))
    (hdraws : HasEmptyDraw s'.gx.applied → HasEmptyDraw s.gx.applied) (h : Parse pf s' s'') :
    Parse pf s s'' := by
  cases h with
  | idle inBegin run waits draws =>
    exact .idle inBegin (fun more => (hrun more).trans (run more)) waits (hdraws ∘ draws)
  | draw gxd cmd data state run begun fresh draws =>
    exact .draw gxd cmd data state (fun more => (hrun more).trans (run more)) begun fresh
      (hdraws ∘ draws)

theorem commandLoop_inBegin (fuel : Nat) (h : s.inBegin = true) : commandLoop pf fuel s = s := by
  cases fuel with
  | zero => rfl
  | succ fuel => rw [commandLoop, if_pos h]

/-- **Command by command.** -/
theorem commandLoop_spec (pf : Platform) {fuel : Nat} (hidle : s.inBegin = false) (hfuel : s.bytes.length < fuel)
    (hfresh : Fresh pf s.gx s.bytes) {more : List Byte}
    (hwf : WellFormed pf s.gx (s.bytes ++ more)) : Parse pf s (commandLoop pf fuel s) := by
  induction fuel generalizing s with
  | zero => omega
  | succ fuel ih =>
    rw [commandLoop, if_neg (by rw [hidle]; exact Bool.false_ne_true)]
    cases hbytes : s.bytes with
    | nil =>
      refine .idle hidle (fun _ => rfl) ?_ id
      rw [hbytes]
      exact ⟨rfl, rfl⟩
    | cons cmd data =>
      rw [hbytes] at hfuel hfresh hwf
      -- a command that is whole, and then those after it
      have hsome {s' : RawFifo} (hidle' : s'.inBegin = false)
          (hc : command pf s.gx (cmd :: data) = (s'.gx, some s'.bytes))
          (hdraws : HasEmptyDraw s'.gx.applied → HasEmptyDraw s.gx.applied) :
          Parse pf s (commandLoop pf fuel s') := by
        have hrun (more : List Byte) :
            Run pf s.gx (s.bytes ++ more) = Run pf s'.gx (s'.bytes ++ more) := by
          rw [hbytes]
          exact Run_some (command_some_append more hc)
        have hlen := command_bytes hc
        rw [List.length_cons] at hfuel
        refine .after hrun hdraws (ih hidle' (by omega) (hfresh.next hc) ?_)
        unfold WellFormed
        rw [← hrun, hbytes]
        exact hwf
      have hstay (h : Waits pf s.gx (cmd :: data)) : Parse pf s s :=
        .idle hidle (fun _ => rfl) (by rw [hbytes]; exact h) id
      have hbody : command pf s.gx (cmd :: data) = commandBody pf cmd s.gx data := rfl
      unfold commandBody at hbody
      dsimp only
      by_cases hload : isLoad cmd = true
      · rw [if_pos hload] at hbody ⊢
        rcases hl : load pf cmd s.gx data with ⟨gx', _ | rest⟩
        · refine hstay ⟨by rw [hbody, hl], ?_⟩
          unfold buffered
          dsimp only
          rw [hload, Bool.true_or, Bool.true_or]
        · exact hsome hidle (by rw [hbody, hl]) (load_draws hl)
      · rw [if_neg hload] at hbody ⊢
        obtain ⟨gx', rest, hcommand⟩ := hwf.some (List.cons_ne_nil cmd (data ++ more))
        have hdrawn : Drawn pf cmd s.gx (data ++ more) gx' rest := by
          rcases command_some hcommand with ⟨h, -⟩ | h
          · exact absurd h hload
          · exact h
        obtain ⟨hload', hdraw⟩ := hdrawn.opcode
        have hspec := drawCommand_spec pf s hload' hdraw fun (h2 : 2 ≤ data.length) hlayout => by
          rw [← be16_append h2]
          exact hdrawn.layout hlayout
        rw [if_pos hdraw]
        cases hd : s.drawCommand pf cmd data with
        | none =>
          rw [hd] at hspec
          exact hstay hspec
        | some s' =>
          rw [hd] at hspec
          rcases hspec with ⟨hidle', hc, hdraws⟩ | ⟨hbegun, rfl⟩
          · exact hsome hidle' hc hdraws
          · dsimp only
            rw [commandLoop_inBegin (s := begun s.gx cmd data) fuel rfl]
            exact .draw s.gx cmd data rfl (fun more => by rw [hbytes]) hbegun hfresh id

theorem drawCommand_takes {s s' : RawFifo} (hbytes : s.bytes = cmd :: data)
    (h : s.drawCommand pf cmd data = some s') : Takes s s' := by
  unfold drawCommand at h
  split at h
  · cases h
  · next h2 =>
    dsimp only at h
    have hbegun : Takes s ({ s with bytes := data.drop 2 }.enterBegin (OpcodeToGXPrimitive cmd)
        (cmd.toNat % 8) (be16 data)) := by
      refine ⟨List.prefix_refl _, ?_⟩
      rw [pending_nil rfl, hbytes]
      show weight s.gx.applied + (data.drop 2).length + 0 ≤ _
      rw [List.length_drop, List.length_cons]
      omega
    split at h
    · next size hsize =>
      split at h
      · cases h
      · next hlen =>
        unfold TrySubmitRawDirectFifoDraw at h
        split at h
        · next hsubmit =>
          split at hsubmit
          · cases hsubmit
            cases h
            refine ⟨List.prefix_append _ _, ?_⟩
            rw [pending_idle rfl, hbytes]
            show weight (_ ++ [_]) + ((data.drop 2).drop _).length + 0 ≤ _
            rw [weight_append_one]
            show _ + (List.take _ _).length + _ + 0 ≤ _
            simp only [List.length_take, List.length_drop, List.length_cons]
            omega
          · cases hsubmit
        · cases h
          exact hbegun
    · cases h
      exact hbegun

theorem commandLoop_takes (pf : Platform) (fuel : Nat) (s : RawFifo) :
    Takes s (commandLoop pf fuel s) := by
  induction fuel generalizing s with
  | zero => exact .refl s
  | succ fuel ih =>
    rw [commandLoop]
    split
    · exact .refl s
    · next hidle =>
      have hidle : s.inBegin = false := by simpa using hidle
      split
      · exact .refl s
      · next cmd data hbytes =>
        split
        · split
          · exact .refl s
          · next gx' rest hload =>
            refine .trans ?_ (ih _)
            have hweighs := load_weighs hload
            refine .of_idle hidle hidle (load_applies hload).grows ?_
            rw [hbytes, List.length_cons]
            exact hweighs
        · split
          · split
            · exact .refl s
            · next s' hdraw => exact (drawCommand_takes hbytes hdraw).trans (ih s')
          · refine .trans ?_ (ih _)
            refine .of_idle hidle hidle (List.prefix_refl _) ?_
            rw [hbytes, List.length_cons]
            exact Nat.le_succ _

end RawFifo

end DolTranslator.Gx.Hle
