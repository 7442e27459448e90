import DolTranslator.Gx.RawCommands

/-!
# The raw FIFO keeps step with the stream

* `Idle`, `Drawing`   the parser between commands, and in the middle of a draw;
* `Idle.write`, `Drawing.write`   a write that the ring has room for keeps step, but for a draw of
  no vertices, which never ends;
* `overflow_late`   a command that the ring has no room for is not there when it is due;
* `in_step_iff`   the parser keeps step exactly when no draw is empty and the ring has room.
-/

namespace DolTranslator.Gx.Hle

open Function Streams

variable {pf : Platform}

namespace RawFifo

/-! ## in step -/

/-- between commands, having run all of the stream but what the ring holds -/
structure Idle (pf : Platform) (gx : GxState) (stream : List Byte) (s : RawFifo) : Prop where
  inBegin : s.inBegin = false
  run : ∀ more, Run pf gx (stream ++ more) = Run pf s.gx (s.bytes ++ more)
  rest : s.bytes.length ≤ 3 ∨ Waits pf s.gx s.bytes
  draws : ¬HasEmptyDraw s.gx.applied

/-- the draw that the parser is in the middle of: the bytes of its command, and what it comes to -/
structure InDraw (pf : Platform) (s : RawFifo) (gxd : GxState) (dat : List Byte) (attrs : List Nat)
    (comp : List Byte) : Prop where
  begun : s.auroraBeginCalled = true
  starts : gxd.applied <+: s.gx.applied
  draws : ¬HasEmptyDraw s.gx.applied
  header : 3 ≤ dat.length
  ahead : ∀ more, command pf gxd (dat ++ more) = s.ahead gxd attrs (comp ++ s.bytes ++ more)

/-- in the middle of a draw, at an attribute that is not all there -/
structure Drawing (pf : Platform) (gx : GxState) (stream : List Byte) (s : RawFifo) (gxd : GxState)
    (dat : List Byte) (attr : Nat) (attrs : List Nat) (comp : List Byte) : Prop
    extends InDraw pf s gxd dat (attr :: attrs) comp where
  vertex : s.Vertex attr attrs comp
  run : ∀ more, Run pf gx (stream ++ more) = Run pf gxd (dat ++ more)
  short : (comp ++ s.bytes).length < s.gx.vtx.attrBytes s.currentVtxFmt attr
  mode : buffered gxd.vtx dat = false

/-- in a draw of no vertices -/
def Stuck (s : RawFifo) : Prop := s.inBegin = true ∧ s.vertsRemaining = 0

/-- in step with the stream so far -/
inductive InStepWith (pf : Platform) (gx : GxState) (stream : List Byte) (s : RawFifo) : Prop
  | idle (h : Idle pf gx stream s)
  | drawing (gxd : GxState) (dat : List Byte) (attr : Nat) (attrs : List Nat) (comp : List Byte)
      (h : Drawing pf gx stream s gxd dat attr attrs comp)

variable {gx gxd : GxState} {stream dat w : List Byte} {s : RawFifo} {attr : Nat} {attrs : List Nat}
  {comp : List Byte}

theorem InDraw.cut (h : InDraw pf s gxd dat (attr :: attrs) comp)
    (hshort : (comp ++ s.bytes).length < s.gx.vtx.attrBytes s.currentVtxFmt attr) :
    (command pf gxd dat).2 = none := by
  have hahead := h.ahead []
  rw [List.append_nil, List.append_nil] at hahead
  rw [hahead]
  unfold RawFifo.ahead finish
  rw [List.cons_append, VtxState.bytesOf_cons, if_pos (by omega)]

theorem InDraw.vertices {fuel : Nat} (h : InDraw pf s gxd dat (attr :: attrs) comp)
    (hvertex : s.Vertex attr attrs comp) (hfuel : s.bytes.length < fuel)
    (hrun : ∀ more, Run pf gx (stream ++ more) = Run pf gxd (dat ++ more))
    (hlast : ∀ gx' rest, command pf gxd dat = (gx', some rest) → rest.length ≤ 3)
    (hmode : buffered gxd.vtx dat = true → (command pf gxd dat).2 ≠ none) :
    InStepWith pf gx stream (vertexLoop fuel s) := by
  have hgrows := vertexLoop_grows fuel s
  have hdraws : ¬HasEmptyDraw (vertexLoop fuel s).gx.applied := fun he => h.draws (hgrows.draws he)
  cases vertexLoop_spec hvertex hfuel with
  | ended inBegin ahead =>
    have hcommand (more : List Byte) := (h.ahead more).trans (ahead gxd more)
    have hwhole := hcommand []
    rw [List.append_nil, List.append_nil] at hwhole
    refine .idle ⟨inBegin, fun more => ?_, .inl (hlast _ _ hwhole), hdraws⟩
    rw [hrun, Run_some (hcommand more)]
  | vertex attr' attrs' comp' at' short begun ahead =>
    have hin : InDraw pf (vertexLoop fuel s) gxd dat (attr' :: attrs') comp' :=
      ⟨begun.trans h.begun, h.starts.trans hgrows.grows, hdraws, h.header,
        fun more => (h.ahead more).trans (ahead gxd more)⟩
    have hnot : buffered gxd.vtx dat = false := by
      by_contra hbuffered
      exact hmode (by simpa using hbuffered) (hin.cut short)
    exact .drawing gxd dat attr' attrs' comp' ⟨hin, at', hrun, short, hnot⟩

/-! ## one write -/

theorem pushBytes_room (h : s.bytes.length + w.length ≤ kFifoBytes) :
    s.pushBytes w = { s with bytes := s.bytes ++ w } := if_neg (by omega)

theorem buffered_append (vtx : VtxState) {data : List Byte} (more : List Byte)
    (h : 3 ≤ data.length) : buffered vtx (data ++ more) = buffered vtx data := by
  cases data with
  | nil => cases h
  | cons cmd body =>
    rw [List.length_cons] at h
    unfold buffered
    dsimp only [List.cons_append]
    rw [decide_eq_false (by rw [List.length_append]; omega), decide_eq_false (by omega)]

theorem HleFifoWrite_eq (pf : Platform) {s s₁ s₂ : RawFifo} (h₁ : s.pushBytes w = s₁)
    (h₂ : commandLoop pf (s₁.bytes.length + 1) s₁ = s₂) :
    s.HleFifoWrite pf w =
      if s₂.inBegin then vertexLoop (s₂.callBegin.bytes.length + 1) s₂.callBegin else s₂ := by
  rw [← h₂, ← h₁]
  rfl

theorem callBegin_begun (h : s.auroraBeginCalled = true) : s.callBegin = s := if_pos h

theorem Drawing.write (h : Drawing pf gx stream s gxd dat attr attrs comp) (hw : w.length ≤ 4) :
    InStepWith pf gx (stream ++ w) (s.HleFifoWrite pf w) := by
  have hroom : s.bytes.length + w.length ≤ kFifoBytes := by
    have hshort := h.short
    have hle := (VtxState.attrBytes_pos s.gx.vtx s.currentVtxFmt attr).2
    rw [List.length_append] at hshort
    unfold kFifoBytes
    omega
  have hin : InDraw pf { s with bytes := s.bytes ++ w } gxd (dat ++ w) (attr :: attrs) comp := by
    refine ⟨h.begun, h.starts, h.draws, ?_, fun more => ?_⟩
    · rw [List.length_append]
      exact Nat.le_add_right_of_le h.header
    · rw [List.append_assoc, h.ahead, ← List.append_assoc, ← List.append_assoc, List.append_assoc comp]
      rfl
  have hcut := h.cut h.short
  have hvertex : Vertex { s with bytes := s.bytes ++ w } attr attrs comp :=
    ⟨h.vertex.inBegin, h.vertex.attrs, h.vertex.remaining, h.vertex.currentAttr, h.vertex.comps,
      h.vertex.taken, h.vertex.fewer, h.vertex.whole⟩
  rw [HleFifoWrite_eq pf (pushBytes_room hroom) (commandLoop_inBegin _ hvertex.inBegin),
    if_pos hvertex.inBegin, callBegin_begun hin.begun]
  refine hin.vertices hvertex (Nat.lt_succ_self _) ?_ ?_ ?_
  · intro more
    rw [List.append_assoc, h.run, List.append_assoc]
  · intro gx' rest hcommand
    have := command_fresh hcut hcommand
    omega
  · intro hbuffered
    rw [buffered_append gxd.vtx w h.header, h.mode] at hbuffered
    cases hbuffered

/-! ## draws of no vertices -/

theorem takeAttr_stuck {attr unit size : Nat} {raws : List (BitVec 32)} (h : s.Stuck) :
    (s.takeAttr attr unit raws size).Stuck := by
  unfold takeAttr finishVertexIfNeeded
  dsimp only
  split
  · exact h
  · split
    · next hpos => exact absurd h.2 (Nat.pos_iff_ne_zero.mp hpos)
    · exact h

theorem vertexLoop_stuck (fuel : Nat) {s : RawFifo} (h : s.Stuck) : (vertexLoop fuel s).Stuck := by
  induction fuel generalizing s with
  | zero => exact h
  | succ fuel ih =>
    rw [vertexLoop, if_pos h.1]
    split
    · exact h
    · dsimp only
      split
      · split
        · exact h
        · exact ih (takeAttr_stuck h)
      · split
        · split
          · split
            · exact h
            · exact ih (takeAttr_stuck h)
          · split
            · exact h
            · split
              · exact ih (takeAttr_stuck h)
              · exact ih h
        · split_ifs <;> first
            | exact h
            | exact ih (takeAttr_stuck h)

theorem Stuck.write (pf : Platform) (h : s.Stuck) (w : List Byte) : (s.HleFifoWrite pf w).Stuck := by
  have hpush : (s.pushBytes w).Stuck := by
    unfold pushBytes
    split <;> exact h
  have hbegin : (s.pushBytes w).callBegin.Stuck := by
    unfold callBegin
    split
    · exact hpush
    · exact hpush
  rw [HleFifoWrite_eq pf rfl (commandLoop_inBegin _ hpush.1), if_pos hpush.1]
  exact vertexLoop_stuck _ hbegin

theorem Begun.write {cmd : Byte} {data : List Byte} (h : Begun pf gxd cmd data)
    (hfresh : Fresh pf gxd (cmd :: data)) (hdraws : ¬HasEmptyDraw gxd.applied)
    (hrun : ∀ more, Run pf gx (stream ++ more) = Run pf gxd (cmd :: data ++ more)) {s' : RawFifo}
    (hs' : s' = vertexLoop ((begun gxd cmd data).callBegin.bytes.length + 1)
      (begun gxd cmd data).callBegin) :
    InStepWith pf gx stream s' ∨
      (s'.Stuck ∧ HasEmptyDraw (Run pf gx stream).1.applied) := by
  have hahead := h.ahead
  by_cases hcount : be16 data = 0
  · refine .inr ⟨?_, ?_⟩
    · rw [hs']
      exact vertexLoop_stuck _ ⟨rfl, hcount⟩
    · have hrun := hrun []
      have hcommand := hahead []
      rw [List.append_nil, List.append_nil] at hrun
      rw [List.append_nil, List.append_nil, hcount] at hcommand
      rw [hrun, Run_some (hcommand.trans (finish_nil ..))]
      refine HasEmptyDraw.mono ?_ (Run_keeps pf _ _)
      exact ⟨OpcodeToGXPrimitive cmd, cmd.toNat % 8, by simp [GxState.apply]⟩
  · refine .inl ?_
    rw [hs']
    cases henabled : gxd.vtx.enabled with
    | nil => exact absurd (h.layout henabled) hcount
    | cons a as =>
      have hvertices : gxd.vtx.vertices (be16 data) =
          a :: as ++ gxd.vtx.vertices (be16 data - 1) := by
        rw [← henabled, ← VtxState.vertices_succ, Nat.sub_add_cancel (Nat.pos_of_ne_zero hcount)]
      have hvertex : (begun gxd cmd data).callBegin.Vertex a as [] :=
        .fresh rfl (henabled ▸ List.suffix_refl _) (Nat.pos_of_ne_zero hcount)
          (congrArg List.head? henabled) rfl
      have hin : InDraw pf (begun gxd cmd data).callBegin gxd (cmd :: data) (a :: as) [] := by
        refine ⟨rfl, List.prefix_append _ _, ?_, Nat.succ_le_succ h.header, fun more => ?_⟩
        · refine fun hempty => hdraws (HasEmptyDraw.of_append (fun prim fmt he => ?_) hempty)
          exact hcount (Applied.begin_.inj he).2.2.symm
        · rw [hahead, hvertices]
          rfl
      refine hin.vertices hvertex (Nat.lt_succ_self _) hrun ?_ h.whole
      intro gx' rest hcommand
      have hfinish := hahead []
      rw [List.append_nil, hcommand] at hfinish
      unfold finish at hfinish
      split at hfinish
      · cases hfinish
      · next hlen =>
        have hne : gxd.vtx.vertices (be16 data) ≠ [] := by
          rw [hvertices]
          exact List.cons_ne_nil a _
        have hpos := VtxState.bytesOf_pos gxd.vtx (cmd.toNat % 8) hne
        have hrest := Option.some.inj (Prod.mk.inj hfinish).2
        refine hfresh.draw hcommand ?_
        rw [hrest]
        simp only [List.length_drop, List.append_nil] at hlen ⊢
        show data.length - 2 - gxd.vtx.bytesOf _ _ + 3 ≤ _
        change ¬data.length - 2 < gxd.vtx.bytesOf _ _ at hlen
        omega

/-! ## in step, write by write -/

variable {more : List Byte}

theorem Idle.write (h : Idle pf gx stream s) (hw : w.length ≤ 4)
    (hroom : s.bytes.length + w.length ≤ kFifoBytes)
    (hwf : WellFormed pf gx (stream ++ w ++ more)) :
    InStepWith pf gx (stream ++ w) (s.HleFifoWrite pf w) ∨
      ((s.HleFifoWrite pf w).Stuck ∧ HasEmptyDraw (Run pf gx (stream ++ w)).1.applied) := by
  have hrun (more : List Byte) :
      Run pf gx (stream ++ w ++ more) = Run pf s.gx (s.bytes ++ w ++ more) := by
    rw [List.append_assoc, h.run, List.append_assoc]
  have hfresh : Fresh pf s.gx (s.bytes ++ w) := ⟨s.bytes, w, rfl, hw, h.rest.imp id And.left⟩
  have hwf' : WellFormed pf s.gx (s.bytes ++ w ++ more) := by
    unfold WellFormed
    rw [← hrun]
    exact hwf
  rw [HleFifoWrite_eq pf (pushBytes_room hroom) rfl]
  have hparse := commandLoop_spec pf (s := { s with bytes := s.bytes ++ w }) h.inBegin
    (Nat.lt_succ_self _) hfresh hwf'
  cases hparse with
  | idle inBegin run waits draws =>
    rw [if_neg (by rw [inBegin]; exact Bool.false_ne_true)]
    exact .inl (.idle ⟨inBegin, fun more => (hrun more).trans (run more), .inr waits,
      fun he => h.draws (draws he)⟩)
  | draw gxd cmd data state run begun fresh draws =>
    rw [state, if_pos (show (RawFifo.begun gxd cmd data).inBegin = true from rfl)]
    exact begun.write fresh (fun he => h.draws (draws he))
      (fun more => (hrun more).trans (run more)) rfl

/-- the ring has room for a write after the stream so far -/
def Room (pf : Platform) (gx : GxState) (stream w : List Byte) : Prop :=
  buffered (Run pf gx stream).1.vtx (Run pf gx stream).2 = true →
    (Run pf gx stream).2.length + w.length ≤ kFifoBytes

theorem Idle.waiting (h : Idle pf gx stream s) (hwaits : Waits pf s.gx s.bytes) :
    Run pf gx stream = (s.gx, s.bytes) := by
  have hrun := h.run []
  rw [List.append_nil, List.append_nil] at hrun
  rw [hrun, Run_none hwaits.1]

/-- **One write.**  The parser keeps step, but for a draw of no vertices. -/
theorem InStepWith.write (h : InStepWith pf gx stream s) (hw : w.length ≤ 4)
    (hroom : Room pf gx stream w)
    (hwf : WellFormed pf gx (stream ++ w ++ more)) :
    InStepWith pf gx (stream ++ w) (s.HleFifoWrite pf w) ∨
      ((s.HleFifoWrite pf w).Stuck ∧ HasEmptyDraw (Run pf gx (stream ++ w)).1.applied) := by
  cases h with
  | drawing gxd dat attr attrs comp h => exact .inl (h.write hw)
  | idle h =>
    refine h.write hw ?_ hwf
    rcases h.rest with hrest | hwaits
    · exact (Nat.add_le_add hrest hw).trans (by decide)
    · unfold Room at hroom
      rw [h.waiting hwaits] at hroom
      exact hroom hwaits.2

theorem InStepWith.draws (h : InStepWith pf gx stream s) : ¬HasEmptyDraw s.gx.applied := by
  cases h with
  | drawing gxd dat attr attrs comp h => exact h.draws
  | idle h => exact h.draws

/-- what the stream so far has applied, the parser has -/
theorem InStepWith.caught (h : InStepWith pf gx stream s)
    (hdraws : ¬HasEmptyDraw (Run pf gx stream).1.applied) :
    (Run pf gx stream).1.applied <+: s.gx.applied := by
  cases h with
  | drawing gxd dat attr attrs comp h =>
    have hrun := h.run []
    rw [List.append_nil, List.append_nil] at hrun
    rw [hrun, Run_none (h.cut h.short)]
    exact h.starts
  | idle h =>
    rcases h.rest with hrest | hwaits
    · have hrun := h.run []
      rw [List.append_nil, List.append_nil] at hrun
      rw [hrun] at hdraws ⊢
      rw [(Run_tiny s.gx hrest).resolve_right hdraws]
    · rw [h.waiting hwaits]

theorem InStepWith.ends (h : InStepWith pf gx stream s) (hwf : WellFormed pf gx stream) :
    Idle pf gx stream s := by
  cases h with
  | idle h => exact h
  | drawing gxd dat attr attrs comp h =>
    have hrun := h.run []
    have hheader := h.header
    rw [List.append_nil, List.append_nil] at hrun
    unfold WellFormed at hwf
    rw [hrun, Run_none (h.cut h.short)] at hwf
    change dat = [] at hwf
    rw [hwf] at hheader
    cases hheader

theorem Idle.ends (h : Idle pf gx stream s)
    (hdraws : ¬HasEmptyDraw (Run pf gx stream).1.applied) : s.gx = (Run pf gx stream).1 := by
  rcases h.rest with hrest | hwaits
  · have hrun := h.run []
    rw [List.append_nil, List.append_nil] at hrun
    rw [hrun] at hdraws ⊢
    exact ((Run_tiny s.gx hrest).resolve_right hdraws).symm
  · rw [h.waiting hwaits]

theorem callBegin_takes (s : RawFifo) : Takes s s.callBegin := by
  unfold callBegin
  split
  · exact .refl s
  · refine ⟨List.prefix_append _ _, ?_⟩
    dsimp only
    rw [GxState.apply_applied, weight_append_one]
    exact le_rfl

theorem write_takes (pf : Platform) (s : RawFifo) (w : List Byte) :
    Takes (s.pushBytes w) (s.HleFifoWrite pf w) := by
  rw [HleFifoWrite_eq pf rfl rfl]
  have hloop := commandLoop_takes pf ((s.pushBytes w).bytes.length + 1) (s.pushBytes w)
  split
  · exact hloop.trans ((callBegin_takes _).trans (vertexLoop_grows _ _).takes)
  · exact hloop

theorem write_grows (pf : Platform) (s : RawFifo) (w : List Byte) :
    s.gx.applied <+: (s.HleFifoWrite pf w).gx.applied := by
  have hpush : (s.pushBytes w).gx = s.gx := by
    unfold pushBytes
    split <;> rfl
  rw [← hpush]
  exact (write_takes pf s w).grows

/-! ## all the writes -/

def writes (pf : Platform) (s : RawFifo) (ws : List (List Byte)) : RawFifo :=
  ws.foldl (HleFifoWrite pf) s

theorem writes_append (s : RawFifo) (ws ws' : List (List Byte)) :
    s.writes pf (ws ++ ws') = (s.writes pf ws).writes pf ws' := List.foldl_append

theorem Stuck.writes (pf : Platform) (h : s.Stuck) (ws : List (List Byte)) : (s.writes pf ws).Stuck := by
  induction ws generalizing s with
  | nil => exact h
  | cons w ws ih => exact ih (h.write pf w)

theorem Run_grows (pf : Platform) (gx : GxState) (data more : List Byte) :
    (Run pf gx data).1.applied <+: (Run pf gx (data ++ more)).1.applied := by
  rw [Run_append]
  exact Run_keeps pf _ _

variable {ws : List (List Byte)}

/-- **Write by write.**  The parser keeps step as long as the ring has room, but for a draw of no
vertices. -/
theorem InStepWith.writes (h : InStepWith pf gx stream s)
    (hw : ∀ w ∈ ws, w.length ≤ 4)
    (hroom : ∀ done w rest, ws = done ++ w :: rest → Room pf gx (stream ++ done.flatten) w)
    (hwf : WellFormed pf gx (stream ++ ws.flatten ++ more)) :
    InStepWith pf gx (stream ++ ws.flatten) (s.writes pf ws) ∨
      ((s.writes pf ws).Stuck ∧ HasEmptyDraw (Run pf gx (stream ++ ws.flatten)).1.applied) := by
  induction ws generalizing s stream with
  | nil =>
    rw [List.flatten_nil, List.append_nil]
    exact .inl h
  | cons w ws ih =>
    have hstream : stream ++ (w :: ws).flatten = stream ++ w ++ ws.flatten := by
      rw [List.flatten_cons, List.append_assoc]
    rw [hstream] at hwf ⊢
    have hroom₀ : Room pf gx stream w := by
      have := hroom [] w ws rfl
      rwa [List.flatten_nil, List.append_nil] at this
    rw [List.append_assoc] at hwf
    rcases h.write (hw w List.mem_cons_self) hroom₀ hwf with h | ⟨hstuck, hempty⟩
    · refine ih h (fun w hmem => hw w (List.mem_cons_of_mem _ hmem)) ?_ (by
        rw [List.append_assoc]
        exact hwf)
      intro done w' rest hws
      have := hroom (w :: done) w' rest (by rw [hws]; rfl)
      rwa [List.flatten_cons, ← List.append_assoc] at this
    · exact .inr ⟨hstuck.writes pf ws, hempty.mono (Run_grows pf gx _ _)⟩

/-! ## a command that the ring has no room for -/

theorem weight_mono {xs ys : List Applied} (h : xs <+: ys) : weight xs ≤ weight ys := by
  obtain ⟨zs, rfl⟩ := h
  rw [weight_append]
  exact Nat.le_add_right _ _

theorem writes_weigh (pf : Platform) (s : RawFifo) (ws : List (List Byte)) :
    weight (s.writes pf ws).gx.applied + (s.writes pf ws).bytes.length + (s.writes pf ws).pending ≤
      weight s.gx.applied + s.bytes.length + s.pending + ws.flatten.length := by
  induction ws generalizing s with
  | nil => exact Nat.le_add_right _ _
  | cons w ws ih =>
    have hpush : weight (s.pushBytes w).gx.applied + (s.pushBytes w).bytes.length +
        (s.pushBytes w).pending ≤ weight s.gx.applied + s.bytes.length + s.pending + w.length := by
      have hpending (bytes : List Byte) : pending { s with bytes := bytes } = s.pending := rfl
      unfold pushBytes
      split
      · rw [hpending]
        dsimp only
        omega
      · rw [hpending]
        dsimp only
        rw [List.length_append]
        omega
    have hwrite := (write_takes pf s w).weighs
    have hrest := ih (s.HleFifoWrite pf w)
    rw [List.flatten_cons, List.length_append]
    change weight ((s.HleFifoWrite pf w).writes pf ws).gx.applied + _ + _ ≤ _
    change _ + ((s.HleFifoWrite pf w).writes pf ws).bytes.length +
      ((s.HleFifoWrite pf w).writes pf ws).pending ≤ _
    omega

theorem first_whole {data : List Byte} (hnone : (command pf gx data).2 = none)
    (hsome : (command pf gx (data ++ ws.flatten)).2 ≠ none) :
    ∃ mid w rest, ws = mid ++ w :: rest ∧ (command pf gx (data ++ mid.flatten)).2 = none ∧
      (command pf gx (data ++ mid.flatten ++ w)).2 ≠ none := by
  induction ws generalizing data with
  | nil =>
    rw [List.flatten_nil, List.append_nil] at hsome
    exact absurd hnone hsome
  | cons w ws ih =>
    by_cases hw : (command pf gx (data ++ w)).2 = none
    · rw [List.flatten_cons, ← List.append_assoc] at hsome
      obtain ⟨mid, w', rest, hws, hmid, hw'⟩ := ih hw hsome
      refine ⟨w :: mid, w', rest, by rw [hws]; rfl, ?_, ?_⟩
      · rw [List.flatten_cons, ← List.append_assoc]
        exact hmid
      · rw [List.flatten_cons, ← List.append_assoc]
        exact hw'
    · refine ⟨[], w, ws, rfl, ?_, ?_⟩
      · rw [List.flatten_nil, List.append_nil]
        exact hnone
      · rw [List.flatten_nil, List.append_nil]
        exact hw

theorem InStepWith.overflows (h : InStepWith pf gx stream s) (hw : w.length ≤ 4)
    (hroom : ¬Room pf gx stream w) :
    Idle pf gx stream s ∧ Waits pf s.gx s.bytes ∧ 4096 < s.bytes.length + w.length := by
  obtain ⟨hbuffered, hlen⟩ := Classical.not_imp.mp hroom
  unfold kFifoBytes at hlen
  cases h with
  | drawing gxd dat attr attrs comp h =>
    have hrun := h.run []
    rw [List.append_nil, List.append_nil] at hrun
    rw [hrun, Run_none (h.cut h.short)] at hbuffered
    exact absurd (h.mode.symm.trans hbuffered) Bool.false_ne_true
  | idle h =>
    rcases h.rest with hrest | hwaits
    · have hrun := h.run []
      rw [List.append_nil, List.append_nil] at hrun
      have := (Run_suffix pf s.gx s.bytes).length_le
      rw [hrun] at hlen
      omega
    · rw [h.waiting hwaits] at hlen
      dsimp only at hlen
      exact ⟨h, hwaits, by omega⟩

/-- **A command that the ring has no room for.**  What is left of it weighs less than what it
applies, so that it is not there when it is due. -/
theorem overflow_late (h : InStepWith pf gx stream s)
    (hw : ∀ w' ∈ w :: ws, w'.length ≤ 4) (hroom : ¬Room pf gx stream w)
    (hwf : WellFormed pf gx (stream ++ (w :: ws).flatten))
    (hprompt : ∀ mid w' rest, w :: ws = mid ++ w' :: rest →
      (Run pf gx (stream ++ mid.flatten)).1.applied <+: (s.writes pf (mid ++ [w'])).gx.applied)
    (hall : (Run pf gx (stream ++ (w :: ws).flatten)).1.applied <+:
      (s.writes pf (w :: ws)).gx.applied) : False := by
  obtain ⟨hidle, hwaits, hlen⟩ := h.overflows (hw w List.mem_cons_self) hroom
  have hw4 := hw w List.mem_cons_self
  -- the ring starts over, so that what comes from here on is out of the bytes from here on
  have hweigh (ws' : List (List Byte)) : weight (s.writes pf (w :: ws')).gx.applied ≤
      weight s.gx.applied + (w :: ws').flatten.length := by
    have hpush : s.pushBytes w = { s with bytes := w } := if_pos (by unfold kFifoBytes; omega)
    have htakes := (write_takes pf s w).weighs
    have hrest := writes_weigh pf (s.HleFifoWrite pf w) ws'
    rw [hpush, pending_idle (s := { s with bytes := w }) hidle.inBegin] at htakes
    rw [List.flatten_cons, List.length_append]
    change weight ((s.HleFifoWrite pf w).writes pf ws').gx.applied ≤ _
    dsimp only at htakes
    omega
  have hne : s.bytes ≠ [] := by
    intro h0
    rw [h0, List.length_nil] at hlen
    omega
  have hwhole : (command pf s.gx (s.bytes ++ (w :: ws).flatten)).2 ≠ none := by
    unfold WellFormed at hwf
    rw [hidle.run] at hwf
    intro hnone
    rw [Run_none hnone] at hwf
    exact hne (List.append_eq_nil_iff.mp hwf).1
  obtain ⟨mid, w₁, rest, hws, hcut, hdone⟩ := first_whole hwaits.1 hwhole
  rcases hc : command pf s.gx (s.bytes ++ mid.flatten ++ w₁) with ⟨gx', _ | r⟩
  · rw [hc] at hdone
    exact hdone rfl
  · have hw₁ : w₁.length ≤ 4 := hw w₁ (by rw [hws]; simp)
    have hr := command_fresh hcut hc
    -- what is due when the command is whole
    have hdue : weight s.gx.applied + s.bytes.length + mid.flatten.length + w₁.length ≤
        weight (Run pf gx (stream ++ (mid ++ [w₁]).flatten)).1.applied + 9 + r.length := by
      have hrun : Run pf gx (stream ++ (mid ++ [w₁]).flatten) = Run pf gx' r := by
        rw [hidle.run, List.flatten_append, List.flatten_singleton, ← List.append_assoc]
        exact Run_some hc
      have happlies : weight s.gx.applied + ((s.bytes ++ mid.flatten ++ w₁).length - r.length) ≤
          weight gx'.applied + 9 := by
        cases hbytes : s.bytes with
        | nil => exact absurd hbytes hne
        | cons cmd body =>
          rw [hbytes] at hc
          exact (command_applies hc).weighs
      have hmono := weight_mono (Run_keeps pf gx' r)
      rw [hrun]
      rw [List.length_append, List.length_append] at happlies
      omega
    -- and when it is due at the latest
    have hlate (ws' : List (List Byte)) (hws' : ws'.flatten.length ≤ 4)
        (hhas : (Run pf gx (stream ++ (mid ++ [w₁]).flatten)).1.applied <+:
          (s.writes pf (mid ++ [w₁] ++ ws')).gx.applied) : False := by
      have hmono := weight_mono hhas
      obtain ⟨ws'', hws''⟩ : ∃ ws'', mid ++ [w₁] ++ ws' = w :: ws'' := by
        cases mid with
        | nil =>
          obtain ⟨rfl, -⟩ := List.cons.inj hws
          exact ⟨_, rfl⟩
        | cons w' mid =>
          obtain ⟨rfl, -⟩ := List.cons.inj hws
          exact ⟨_, rfl⟩
      have hbound := hweigh ws''
      rw [← hws'', List.flatten_append, List.flatten_append, List.flatten_singleton,
        List.length_append, List.length_append] at hbound
      omega
    cases rest with
    | nil =>
      refine hlate [] (Nat.zero_le _) ?_
      rw [List.append_nil, ← hws]
      exact hall
    | cons w₂ rest =>
      have hsplit : w :: ws = mid ++ [w₁] ++ w₂ :: rest := by
        rw [hws, List.append_assoc]
        rfl
      refine hlate [w₂] ?_ (hprompt (mid ++ [w₁]) w₂ rest hsplit)
      rw [List.flatten_singleton]
      exact hw w₂ (by rw [hsplit]; simp)

/-! ## keeping step -/

/-- nothing under way, and nothing applied yet -/
structure Quiet (s : RawFifo) : Prop where
  bytes : s.bytes = []
  inBegin : s.inBegin = false
  applied : s.gx.applied = []

/-- the parser does what the stream asks for, every command by the first write after its last byte
at the latest, and is not left in a draw -/
structure InStep (pf : Platform) (s : RawFifo) (ws : List (List Byte)) : Prop where
  prompt : ∀ done w rest, ws = done ++ w :: rest →
    (Run pf s.gx done.flatten).1.applied <+: (s.writes pf (done ++ [w])).gx.applied
  all : (s.writes pf ws).gx = (Run pf s.gx ws.flatten).1
  ended : (s.writes pf ws).inBegin = false

/-- the ring has room for every write -/
def Fits (pf : Platform) (gx : GxState) (ws : List (List Byte)) : Prop :=
  ∀ done w rest, ws = done ++ w :: rest → Room pf gx done.flatten w

theorem Quiet.inStepWith (h : s.Quiet) : InStepWith pf s.gx [] s := by
  refine .idle ⟨h.inBegin, fun more => ?_, .inl ?_, ?_⟩
  · rw [h.bytes]
  · rw [h.bytes]
    exact Nat.zero_le 3
  · rw [h.applied]
    rintro ⟨prim, fmt, hmem⟩
    cases hmem

theorem Quiet.writes (h : s.Quiet) (hw : ∀ w ∈ ws, w.length ≤ 4)
    (hroom : Fits pf s.gx ws) (hwf : WellFormed pf s.gx (ws.flatten ++ more)) :
    InStepWith pf s.gx ws.flatten (s.writes pf ws) ∨
      ((s.writes pf ws).Stuck ∧ HasEmptyDraw (Run pf s.gx ws.flatten).1.applied) :=
  h.inStepWith.writes hw hroom hwf

theorem length_write {w : List Byte} (h : w.length = 1 ∨ w.length = 2 ∨ w.length = 4) :
    w.length ≤ 4 := by
  omega

/-- **The raw FIFO keeps step** with a stream exactly when no draw in it is one of no vertices, and
the ring has room for every command that is kept in it. -/
theorem in_step_iff (pf : Platform) {s : RawFifo} (hs : s.Quiet) {ws : List (List Byte)}
    (hw : ∀ w ∈ ws, w.length = 1 ∨ w.length = 2 ∨ w.length = 4)
    (hwf : WellFormed pf s.gx ws.flatten) :
    InStep pf s ws ↔ ¬HasEmptyDraw (Run pf s.gx ws.flatten).1.applied ∧ Fits pf s.gx ws := by
  have hw4 (w : List Byte) (hmem : w ∈ ws) : w.length ≤ 4 := length_write (hw w hmem)
  -- in step after some of the writes, if the ring had room for them
  have hkeeps {done rest : List (List Byte)} (hws : ws = done ++ rest)
      (hroom : Fits pf s.gx done) :
      InStepWith pf s.gx done.flatten (s.writes pf done) ∨
        ((s.writes pf done).Stuck ∧ HasEmptyDraw (Run pf s.gx done.flatten).1.applied) := by
    have hwf' : WellFormed pf s.gx (done.flatten ++ rest.flatten) := by
      rw [← List.flatten_append, ← hws]
      exact hwf
    refine hs.writes (fun w hmem => hw4 w ?_) hroom hwf'
    rw [hws]
    exact List.mem_append_left _ hmem
  constructor
  · intro h
    have hnotStuck {done rest : List (List Byte)} (hws : ws = done ++ rest) :
        ¬(s.writes pf done).Stuck := by
      intro hstuck
      have hend := hstuck.writes pf rest
      rw [← writes_append, ← hws] at hend
      exact Bool.false_ne_true (h.ended.symm.trans hend.1)
    have hroom (n : Nat) : ∀ done w rest, done.length < n → ws = done ++ w :: rest →
        Room pf s.gx done.flatten w := by
      induction n with
      | zero => exact fun done w rest hn => absurd hn (Nat.not_lt_zero _)
      | succ n ih =>
        intro done w rest hn hws
        by_contra hnot
        have hdone : Fits pf s.gx done := by
          intro done' w' rest' hdone'
          refine ih done' w' (rest' ++ w :: rest) ?_ ?_
          · rw [hdone', List.length_append, List.length_cons] at hn
            omega
          · rw [hws, hdone', List.append_assoc]
            rfl
        rcases hkeeps hws hdone with hin | ⟨hstuck, -⟩
        · have hflat : ws.flatten = done.flatten ++ (w :: rest).flatten := by
            rw [hws, List.flatten_append]
          have hrest : ∀ w' ∈ w :: rest, w'.length ≤ 4 := fun w' hmem => hw4 w' (by
            rw [hws]
            exact List.mem_append_right _ hmem)
          refine overflow_late hin hrest hnot ?_ ?_ ?_
          · rw [← hflat]
            exact hwf
          · intro mid w' rest' hrest
            have := h.prompt (done ++ mid) w' rest' (by rw [hws, hrest, List.append_assoc])
            rwa [List.flatten_append, List.append_assoc, writes_append] at this
          · rw [← hflat, ← writes_append, ← hws, h.all]
        · exact hnotStuck hws hstuck
    have hfits : Fits pf s.gx ws := fun done w rest hws =>
      hroom (done.length + 1) done w rest (Nat.lt_succ_self _) hws
    refine ⟨?_, hfits⟩
    rcases hkeeps (List.append_nil ws).symm hfits with hin | ⟨hstuck, -⟩
    · rw [← h.all]
      exact hin.draws
    · exact absurd hstuck (hnotStuck (List.append_nil ws).symm)
  · rintro ⟨hdraws, hfits⟩
    have hin {done rest : List (List Byte)} (hws : ws = done ++ rest) :
        InStepWith pf s.gx done.flatten (s.writes pf done) ∧
          ¬HasEmptyDraw (Run pf s.gx done.flatten).1.applied := by
      have hnot : ¬HasEmptyDraw (Run pf s.gx done.flatten).1.applied := by
        intro hempty
        refine hdraws (hempty.mono ?_)
        rw [hws, List.flatten_append]
        exact Run_grows pf s.gx _ _
      refine ⟨(hkeeps hws fun done' w' rest' hdone' => ?_).resolve_right fun h => hnot h.2, hnot⟩
      exact hfits done' w' (rest' ++ rest) (by rw [hws, hdone', List.append_assoc]; rfl)
    refine ⟨fun done w rest hws => ?_, ?_, ?_⟩
    · obtain ⟨hstep, hnot⟩ := hin hws
      rw [writes_append]
      exact (hstep.caught hnot).trans (write_grows pf _ w)
    · exact ((hin (List.append_nil ws).symm).1.ends hwf).ends hdraws
    · exact ((hin (List.append_nil ws).symm).1.ends hwf).inBegin

theorem Fits.of_short {gx : GxState}
    (h : ws.flatten.length ≤ kFifoBytes) : Fits pf gx ws := by
  intro done w rest hws _
  have hle := (Run_suffix pf gx done.flatten).length_le
  rw [hws, List.flatten_append, List.flatten_cons, List.length_append, List.length_append] at h
  omega

theorem start_quiet (vtx : VtxState) : (start vtx).Quiet := ⟨rfl, rfl, rfl⟩

/-- a position of three 16-bit values, in the stream or by an index of 8 bits -/
def positions (type : GXAttrType) : VtxState where
  vtxDesc attr := if attr = 9 then type else .none
  vtxAttrFmt _ _ := ⟨1, 3, 0⟩

def simple : Platform where
  callList _ vtx _ _ := vtx
  submitRaw _ _ _ _ _ := true

/-- a register load and an indexed triangle -/
theorem in_step_triangle : InStep simple (start (positions .index8))
    [[0x61], [0x12, 0x34, 0x56, 0x78], [0x90], [0, 3], [0, 1], [2]] :=
  (in_step_iff simple (start_quiet _) (by decide) (by unfold WellFormed; decide +kernel)).mpr
    ⟨by decide +kernel, .of_short (by decide)⟩

/-- After a direct draw of no vertices a register load is never done: its bytes are taken for a
vertex. -/
theorem empty_draw_swallows :
    let ws : List (List Byte) := [[0x90], [0, 0], [0x61], [0x12, 0x34, 0x56, 0x78], [0]]
    let s := start (positions .direct)
    s.Quiet ∧ WellFormed simple s.gx ws.flatten ∧
      .bp 0x12345678 ∈ (Run simple s.gx ws.flatten).1.applied ∧
      .attr 9 2 [0x6112, 0x3456, 0x7800] ∈ (s.writes simple ws).gx.applied ∧
      ¬InStep simple s ws := by
  refine ⟨start_quiet _, by unfold WellFormed; decide +kernel, by decide +kernel,
    by decide +kernel, fun h => ?_⟩
  have hended := h.ended
  revert hended
  decide +kernel

end RawFifo

end DolTranslator.Gx.Hle
