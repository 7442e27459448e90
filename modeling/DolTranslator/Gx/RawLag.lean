import DolTranslator.Gx.RawWrites

/-!
# What a write leaves

* `parse_leaves`   what a write leaves is shorter than the write;
* `Stable`   the parser between two writes: it can do nothing, or a draw has just ended with
  at most three bytes behind it;
* `Stable.write`, `Stable.writes`   writes of any sizes come to the same, up to those few bytes;
* `Stable.due`   those bytes are nothing, or the head of one more draw;
* `write_due_iff`  when the begin of a draw is left to the next write.
-/

namespace DolTranslator.Gx.Hle

open Function Streams

theorem finish_length {gxd gx gx' : GxState} {fmt : Nat} {attrs : List Nat}
    {data rest : List Byte} (h : finish gxd gx fmt attrs data = (gx', some rest)) :
    rest.length + gx.vtx.bytesOf fmt attrs = data.length := by
  unfold finish at h
  split at h
  · cases h
  · obtain ⟨-, hrest⟩ := Prod.mk.inj h
    rw [← Option.some.inj hrest, List.length_drop]
    omega

namespace RawFifo

variable {pf : Platform} {s s' : RawFifo} {w : List Byte}

/-! ## the first step after a write -/

theorem vertexStep_fresh (hnone : s.vertexStep = none) (h : (s.push w).vertexStep = some s') :
    s'.bytes.length < w.length := by
  have htake {attr unit size : Nat} {raws : List (BitVec 32)} (hlen : s.bytes.length < size)
      (hmore : ¬(s.bytes ++ w).length < size) :
      ((s.push w).takeAttr attr unit raws size).bytes.length < w.length := by
    rw [(takeAttr_bytes (s.push w) attr unit raws size).1, push_bytes, List.length_drop]
    rw [List.length_append] at hmore ⊢
    omega
  cases hattr : s.currentAttr with
  | none =>
    rw [vertexStep_none hattr] at hnone
    cases hbytes : s.bytes with
    | nil =>
      have := (vertexStep_bytes h).1
      rwa [push_bytes, hbytes] at this
    | cons byte rest =>
      rw [hbytes] at hnone
      cases hnone
  | some attr =>
    by_cases hcomp : s.gx.vtx.Componentwise attr = true
    · rw [vertexStep_component hattr hcomp] at hnone
      rw [vertexStep_component (s := s.push w) hattr hcomp] at h
      have hlen : s.bytes.length < (s.gx.vtx.units s.currentVtxFmt attr).1 := by
        by_contra hlen
        rw [if_neg hlen] at hnone
        split at hnone <;> cases hnone
      split at h
      · cases h
      · next hmore =>
        split at h
        · cases h
          exact htake hlen hmore
        · cases h
          show ((s.bytes ++ w).drop (s.gx.vtx.units s.currentVtxFmt attr).1).length < _
          have hmore : ¬(s.bytes ++ w).length < (s.gx.vtx.units s.currentVtxFmt attr).1 := hmore
          rw [List.length_drop]
          rw [List.length_append] at hmore ⊢
          omega
    · have hwhole : s.gx.vtx.Componentwise attr = false := by simpa using hcomp
      rw [vertexStep_whole hattr hwhole] at hnone
      rw [vertexStep_whole (s := s.push w) hattr hwhole] at h
      have hlen : s.bytes.length < s.gx.vtx.attrBytes s.currentVtxFmt attr := by
        by_contra hlen
        rw [if_neg hlen] at hnone
        cases hnone
      split at h
      · cases h
      · next hmore =>
        cases h
        exact htake hlen hmore

theorem Vertex.leaves {attr : Nat} {attrs : List Nat} (h : s.Vertex attr attrs [])
    (hended : s.vertices.inBegin = false) :
    s.vertices.bytes.length + s.gx.vtx.bytesOf s.currentVtxFmt
      (attr :: attrs ++ s.gx.vtx.vertices (s.vertsRemaining - 1)) = s.bytes.length := by
  cases vertexLoop_spec h (Nat.lt_succ_self _) with
  | vertex attr' attrs' comp' at' => exact absurd (hended.symm.trans at'.inBegin) Bool.false_ne_true
  | ended inBegin ahead =>
    have hfinish := finish_length (ahead s.gx [])
    rw [List.append_nil, List.append_nil, List.nil_append] at hfinish
    exact hfinish

theorem begun_leaves {prim fmt count size n : Nat} (hcount : 0 < count)
    (hsize : s.gx.vtx.TryGetRawDirectFifoVertexSize fmt = some size) (hpos : 0 < size)
    (hlen : s.bytes.length < count * size + n)
    (hended : (s.enterBegin prim fmt count).callBegin.vertices.inBegin = false) :
    (s.enterBegin prim fmt count).callBegin.vertices.bytes.length < n := by
  have hbytes := VtxState.TryGetRawDirectFifoVertexSize_eq hsize
  generalize hb : (s.enterBegin prim fmt count).callBegin = b at hended ⊢
  have hvtx : b.gx.vtx = s.gx.vtx := hb ▸ rfl
  have hfmt : b.currentVtxFmt = fmt := hb ▸ rfl
  have hremaining : b.vertsRemaining = count := hb ▸ rfl
  have hb' : b.bytes = s.bytes := hb ▸ rfl
  cases henabled : s.gx.vtx.enabled with
  | nil =>
    rw [henabled] at hbytes
    exact absurd hbytes (Nat.ne_of_lt hpos)
  | cons attr attrs =>
    obtain ⟨m, rfl⟩ : ∃ m, count = m + 1 := ⟨count - 1, by omega⟩
    have hvertex : b.Vertex attr attrs [] := by
      refine .fresh (hb ▸ rfl) ?_ (hremaining ▸ hcount) ?_ (hb ▸ rfl)
      · rw [hvtx, henabled]
      · rw [← hb]
        show s.gx.vtx.NextEnabledAttr 0 = _
        rw [VtxState.NextEnabledAttr_zero, henabled, List.head?_cons]
    have hleaves := hvertex.leaves hended
    rw [hremaining, Nat.add_sub_cancel, hvtx, hfmt, hb', ← henabled, ← VtxState.vertices_succ,
      VtxState.bytesOf_vertices, hbytes] at hleaves
    omega

theorem TryGetRawDirectFifoVertexSize_pos {vtx : VtxState} {fmt size : Nat}
    (h : vtx.TryGetRawDirectFifoVertexSize fmt = some size) : 0 < size := by
  unfold VtxState.TryGetRawDirectFifoVertexSize at h
  dsimp only at h
  split at h
  · cases h
  · next hdirect =>
    cases h
    exact Nat.pos_of_ne_zero fun hzero => hdirect (.inr (.inr hzero))

theorem load_fresh {cmd : Byte} {gx gx' gx'' : GxState} {data rest : List Byte}
    (hnone : load pf cmd gx data = (gx', none)) (h : load pf cmd gx (data ++ w) = (gx'', some rest)) :
    rest.length < w.length := by
  by_contra hlen
  obtain ⟨old, hold⟩ := List.suffix_of_suffix_length_le (List.suffix_append data w)
    ((load_body pf cmd).suffix _ _ _ _ h) (by omega)
  rw [← hold] at h
  rw [(load_body pf cmd).tight _ _ _ _ _ h] at hnone
  cases hnone

/-- a draw that was not all there is done whole, or begun; what it leaves is new -/
theorem drawCommand_fresh {cmd : Byte} {data : List Byte} (hnone : s.drawCommand pf cmd data = none)
    (h : (s.push w).drawCommand pf cmd (data ++ w) = some s') : s'.bytes.length < w.length ∨
      s'.inBegin = true ∧ (s'.callBegin.vertices.inBegin = false →
        s'.callBegin.vertices.bytes.length < w.length) := by
  by_cases h2 : data.length < 2
  · have hlen := drawCommand_bytes h
    rw [List.length_append] at hlen
    exact .inl (by omega)
  · unfold drawCommand at hnone h
    rw [if_neg h2] at hnone
    rw [if_neg (by rw [List.length_append]; omega)] at h
    dsimp only at hnone h
    rw [be16_append (by omega)] at h
    cases hsize : s.gx.vtx.TryGetRawDirectFifoVertexSize (cmd.toNat % 8) with
    | none =>
      rw [hsize] at hnone
      cases hnone
    | some size =>
      rw [hsize] at hnone
      rw [show (s.push w).gx.vtx.TryGetRawDirectFifoVertexSize (cmd.toNat % 8) = some size from hsize]
        at h
      dsimp only at hnone h
      have hpos := TryGetRawDirectFifoVertexSize_pos hsize
      -- its last vertex was not there
      have hshort : (data.drop 2).length < be16 data * size := by
        by_contra hlen
        rw [if_neg hlen] at hnone
        split at hnone <;> cases hnone
      have hcount : 0 < be16 data := Nat.pos_of_mul_pos_right (Nat.zero_lt_of_lt hshort)
      have hlen : ((data ++ w).drop 2).length = (data.drop 2).length + w.length := by
        rw [List.drop_append_of_le_length (by omega), List.length_append]
      split at h
      · cases h
      · next hwhole =>
        split at h
        · cases h
          refine .inl ?_
          show (((data ++ w).drop 2).drop (be16 data * size)).length < _
          rw [List.length_drop]
          omega
        · cases h
          refine .inr ⟨rfl, fun hended => ?_⟩
          refine begun_leaves (s := { s.push w with bytes := (data ++ w).drop 2 }) hcount hsize hpos
            ?_ hended
          show ((data ++ w).drop 2).length < _
          omega

theorem commandStep_fresh (hnone : s.commandStep pf = none)
    (h : (s.push w).commandStep pf = some s') : s'.bytes.length < w.length ∨
      s'.inBegin = true ∧ (s'.callBegin.vertices.inBegin = false →
        s'.callBegin.vertices.bytes.length < w.length) := by
  cases hbytes : s.bytes with
  | nil =>
    have := commandStep_bytes h
    rw [push_bytes, hbytes] at this
    exact .inl this
  | cons cmd data =>
    unfold commandStep at hnone h
    rw [push_bytes, hbytes] at h
    rw [hbytes] at hnone
    dsimp only [List.cons_append] at hnone h
    split at hnone
    · next hload =>
      rw [if_pos hload] at h
      split at hnone
      · next gx hl =>
        split at h
        · cases h
        · next gx' rest hl' =>
          cases h
          exact .inl (load_fresh hl hl')
      · cases hnone
    · next hload =>
      rw [if_neg hload] at h
      split at hnone
      · next hdraw =>
        rw [if_pos hdraw] at h
        exact drawCommand_fresh hnone h
      · cases hnone

/-- **What a write leaves is shorter than the write**, when it can go on at all. -/
theorem parse_leaves (hsound : s.Sound) (hstop : s.step pf = none) (w : List Byte) :
    ((s.push w).parse pf).step pf = none ∨
      ((s.push w).parse pf).inBegin = false ∧ ((s.push w).parse pf).bytes.length < w.length := by
  have hsound' : (s.push w).Sound := hsound
  cases hin : ((s.push w).parse pf).inBegin with
  | true => exact .inl (parse_stops hsound' hin)
  | false =>
    cases hc : ((s.push w).commands pf).inBegin with
    | false => exact .inl (parse_idle_stops hc)
    | true =>
      refine .inr ⟨rfl, ?_⟩
      cases hs : s.inBegin with
      | true =>
        -- in a draw: its next attribute was not all there
        have hbegun : s.auroraBeginCalled = true := by
          cases hbegun : s.auroraBeginCalled with
          | true => rfl
          | false =>
            rw [step_due hs hbegun] at hstop
            cases hstop
        have hunder : s.Underway := ⟨hsound, hs, hbegun⟩
        rw [hunder.step] at hstop
        rw [parse_underway (hunder.push w)] at hin ⊢
        cases hattr : s.currentAttr with
        | none =>
          unfold vertices at hin
          rw [vertexLoop_none (s := s.push w) _ hs hattr] at hin
          exact absurd (hin.symm.trans hs) Bool.false_ne_true
        | some attr =>
          cases hstep : (s.push w).vertexStep with
          | none =>
            rw [vertices_none (hunder.push w) hattr hstep] at hin
            exact absurd (hin.symm.trans hs) Bool.false_ne_true
          | some s' =>
            have hlt := vertexStep_fresh hstop hstep
            rw [vertices_some (hunder.push w) hattr hstep]
            rcases (hunder.push w).next hstep with hended | hnext
            · rwa [vertices_idle hended]
            · exact Nat.lt_of_le_of_lt (vertices_bytes hnext) hlt
      | false =>
        rw [step_idle hs] at hstop
        cases hstep : (s.push w).commandStep pf with
        | none =>
          rw [commands_none (s := s.push w) hs hstep] at hc
          exact absurd (hs.symm.trans hc) Bool.false_ne_true
        | some s' =>
          have hcommands := commands_some (s := s.push w) hs hstep
          rw [parse_begun hc, hcommands] at hin ⊢
          rw [hcommands] at hc
          rcases commandStep_fresh hstop hstep with hlt | ⟨hbegun, hlt⟩
          · refine Nat.lt_of_le_of_lt (Nat.le_trans (vertices_bytes (callBegin_underway
              (commands_sound pf (commandStep_sound (s := s.push w) hs hstep)) hc)) ?_) hlt
            rw [callBegin_bytes]
            exact commands_bytes pf s'
          · rw [commands_inBegin hbegun] at hin ⊢
            exact hlt hin

theorem commandStep_tiny (hidle : s.inBegin = false) (hlen : s.bytes.length ≤ 3)
    (h : s.commandStep pf = some s') : s'.gx.applied = s.gx.applied ∧
      (s'.inBegin = false ∨
        s.bytes.length = 3 ∧ s'.bytes = [] ∧ s'.auroraBeginCalled = false) := by
  unfold commandStep at h
  cases hbytes : s.bytes with
  | nil =>
    rw [hbytes] at h
    cases h
  | cons cmd data =>
    rw [hbytes] at h hlen
    rw [List.length_cons] at hlen ⊢
    dsimp only at h
    split at h
    · split at h
      · cases h
      · next gx rest hl =>
        cases h
        rcases load_bytes hl with ⟨rfl, rfl⟩ | hlong
        · exact ⟨rfl, .inl hidle⟩
        · omega
    · split at h
      · obtain ⟨h2, -⟩ := drawCommand_cases h
        have hnil : data.drop 2 = [] := List.drop_eq_nil_of_le (by omega)
        have hbegun (t : RawFifo) (ht : t = { s with bytes := data.drop 2 }.enterBegin
            (OpcodeToGXPrimitive cmd) (cmd.toNat % 8) (be16 data)) : t.gx.applied = s.gx.applied ∧
              (t.inBegin = false ∨ data.length + 1 = 3 ∧ t.bytes = [] ∧
                t.auroraBeginCalled = false) := by
          rw [ht]
          exact ⟨rfl, .inr ⟨by omega, hnil, rfl⟩⟩
        unfold drawCommand at h
        rw [if_neg (by omega)] at h
        dsimp only at h
        split at h
        · next size hsize =>
          split at h
          · cases h
          · next hwhole =>
            have hcount : be16 data = 0 := by
              rw [hnil] at hwhole
              have hpos := TryGetRawDirectFifoVertexSize_pos hsize
              have hzero : be16 data * size = 0 := Nat.eq_zero_of_not_pos hwhole
              exact (Nat.mul_eq_zero.mp hzero).resolve_right (by omega)
            split at h
            · next hsubmit =>
              unfold TrySubmitRawDirectFifoDraw at hsubmit
              rw [if_neg fun hif => hif.1 hcount] at hsubmit
              cases hsubmit
            · exact hbegun _ (Option.some.inj h).symm
        · exact hbegun _ (Option.some.inj h).symm
      · cases h
        exact ⟨rfl, .inl hidle⟩

theorem commands_tiny (pf : Platform) (hidle : s.inBegin = false) (hlen : s.bytes.length ≤ 3) :
    (s.commands pf).gx.applied = s.gx.applied ∧ ((s.commands pf).inBegin = false ∨
      s.bytes.length = 3 ∧ (s.commands pf).bytes = [] ∧
        (s.commands pf).auroraBeginCalled = false) := by
  have hkeeps := commands_induct pf (s := s)
    (P := fun t => t.bytes.length ≤ s.bytes.length ∧ t.gx.applied = s.gx.applied ∧
      (t.inBegin = false ∨
        s.bytes.length = 3 ∧ t.bytes = [] ∧ t.auroraBeginCalled = false))
    ⟨Nat.le_refl _, rfl, .inl hidle⟩ fun {t t'} ht hidle h => by
      obtain ⟨hle, happlied, -⟩ := ht
      obtain ⟨happlied', hcase⟩ := commandStep_tiny hidle (Nat.le_trans hle hlen) h
      have hlt := commandStep_bytes h
      refine ⟨by omega, happlied'.trans happlied, hcase.imp_right fun ⟨h3, hrest⟩ => ⟨?_, hrest⟩⟩
      omega
  exact hkeeps.2

/-! ## between two writes -/

def settled (pf : Platform) (s : RawFifo) : RawFifo := settle (step pf) size s

/-- the parser can do nothing, or a draw has just ended with at most three bytes behind it -/
structure Stable (pf : Platform) (s : RawFifo) : Prop where
  sound : s.Sound
  stops : s.step pf = none ∨ s.inBegin = false ∧ s.bytes.length ≤ 3

theorem settled_eq (hsound : s.Sound) (h : Steps (step pf) s s') :
    s.settled pf = s'.settled pf := (fed pf).settle_eq hsound h

theorem settled_steps (pf : Platform) (s : RawFifo) : Steps (step pf) s (s.settled pf) :=
  settle_steps s

theorem steps_bytes (h : Steps (step pf) s s') : s'.bytes.length ≤ s.bytes.length := by
  induction h with
  | refl s => exact Nat.le_refl _
  | @head s t s' hstep _ ih =>
    refine Nat.le_trans ih ?_
    unfold step at hstep
    split at hstep
    · split at hstep
      · exact Nat.le_of_lt (vertexStep_bytes hstep).1
      · cases hstep
        exact Nat.le_of_eq (congrArg List.length (callBegin_bytes s))
    · exact Nat.le_of_lt (commandStep_bytes hstep)

theorem settled_of_stop (h : s.step pf = none) : s.settled pf = s := settle_none h

theorem settled_stops (pf : Platform) (hsound : s.Sound) : (s.settled pf).step pf = none :=
  (fed pf).step_settle hsound

theorem settled_sound (pf : Platform) (hsound : s.Sound) : (s.settled pf).Sound :=
  (fed pf).inv_settle hsound

theorem settled_push (pf : Platform) (hsound : s.Sound) (w : List Byte) :
    (s.push w).settled pf = ((s.settled pf).push w).settled pf := (fed pf).settle_push hsound w

/-- **What is left behind a draw**: nothing that shows, or the head of one more draw. -/
theorem Stable.due (h : s.Stable pf) : s.step pf = none ∨
    s.inBegin = false ∧ (
      (s.settled pf = s.commands pf ∧ (s.commands pf).inBegin = false ∧
        (s.settled pf).gx.applied = s.gx.applied) ∨
      (s.bytes.length = 3 ∧ (s.commands pf).inBegin = true ∧
        s.settled pf = (s.commands pf).callBegin ∧
        ∃ a, (s.settled pf).gx.applied = s.gx.applied ++ [a])) := by
  rcases h.stops with hstop | ⟨hidle, hlen⟩
  · exact .inl hstop
  · refine .inr ⟨hidle, ?_⟩
    obtain ⟨happlied, hcase⟩ := commands_tiny pf hidle hlen
    have hsteps : Steps (step pf) s (s.commands pf) := commandLoop_steps pf _ s
    cases hc : (s.commands pf).inBegin with
    | false =>
      have hstop : (s.commands pf).step pf = none := by
        rw [step_idle hc]
        exact commandLoop_stops (Nat.lt_succ_self _) hc
      have hsettled := (settled_eq h.sound hsteps).trans (settled_of_stop hstop)
      exact .inl ⟨hsettled, rfl, hsettled ▸ happlied⟩
    | true =>
      obtain ⟨h3, hnil, hdue⟩ := hcase.resolve_left (by rw [hc]; exact fun h => nomatch h)
      have hunder := callBegin_underway (commands_sound pf h.sound) hc
      have hstop : (s.commands pf).callBegin.step pf = none := by
        rw [hunder.step]
        cases hv : (s.commands pf).callBegin.vertexStep with
        | none => rfl
        | some s' =>
          have hlt := (vertexStep_bytes hv).1
          rw [callBegin_bytes, hnil] at hlt
          exact absurd hlt (Nat.not_lt_zero _)
      have hsettled := (settled_eq h.sound (hsteps.trans (.single (step_due hc hdue)))).trans
        (settled_of_stop hstop)
      refine .inr ⟨h3, rfl, hsettled, .begin_ (s.commands pf).currentPrim
        (s.commands pf).currentVtxFmt (s.commands pf).vertsRemaining, ?_⟩
      rw [hsettled, callBegin_due hdue, ← happlied]
      rfl

theorem Stable.parse_push (h : s.Stable pf) (w : List Byte) :
    (s.push w).parse pf = ((s.settled pf).push w).parse pf := by
  rcases h.due with hstop | ⟨hidle, ⟨hsettled, hc, -⟩ | ⟨-, hc, hsettled, -⟩⟩
  · rw [settled_of_stop hstop]
  · rw [hsettled, RawFifo.parse_push h.sound (.inl hc), parse_idle hc]
  · have hcommands : (s.push w).commands pf = (s.commands pf).push w := by
      rw [commands_push, commands_inBegin (s := (s.commands pf).push w) hc]
    have hunder := callBegin_underway (commands_sound pf h.sound) hc
    rw [hsettled, parse_underway (hunder.push w), parse_begun (by rw [hcommands]; exact hc), hcommands,
      callBegin_push]

/-- **One write.** -/
theorem Stable.write (h : s.Stable pf) (hw : w.length ≤ 4)
    (hroom : (s.settled pf).bytes.length + w.length ≤ kFifoBytes) :
    (s.HleFifoWrite pf w).Stable pf ∧
      s.HleFifoWrite pf w = ((s.settled pf).push w).parse pf ∧
      (s.HleFifoWrite pf w).settled pf = (s.push w).settled pf := by
  have hroom' : s.bytes.length + w.length ≤ kFifoBytes := by
    rcases h.stops with hstop | ⟨-, hlen⟩
    · rwa [settled_of_stop hstop] at hroom
    · unfold kFifoBytes
      omega
  have hsound := settled_sound pf h.sound
  have hpushed : ((s.settled pf).push w).Sound := hsound
  rw [HleFifoWrite_room pf hroom', h.parse_push]
  refine ⟨⟨parse_sound hpushed, ?_⟩, rfl, ?_⟩
  · refine (parse_leaves hsound (settled_stops pf h.sound) w).imp_right fun ⟨hidle, hlt⟩ => ⟨hidle, ?_⟩
    omega
  · rw [settled_push pf h.sound]
    exact (settled_eq hpushed (parse_steps hpushed)).symm

/-- a ring that has room for every write, after all that those before it leave -/
def Roomy (pf : Platform) (s : RawFifo) (ws : List (List Byte)) : Prop :=
  ∀ v w rest, ws = v ++ w :: rest →
    ((s.push v.flatten).settled pf).bytes.length + w.length ≤ kFifoBytes

/-- **Writes of any sizes come to the same**, up to the few bytes. -/
theorem Stable.writes (h : s.Stable pf) {ws : List (List Byte)} (hws : ∀ w ∈ ws, w.length ≤ 4)
    (hroom : s.Roomy pf ws) : (s.writes pf ws).Stable pf ∧
      (s.writes pf ws).settled pf = (s.push ws.flatten).settled pf := by
  induction ws using List.reverseRecOn with
  | nil =>
    refine ⟨h, ?_⟩
    rw [List.flatten_nil, push_nil]
    rfl
  | append_singleton ws w ih =>
    obtain ⟨hstable, hsettled⟩ := ih (fun v hv => hws v (List.mem_append_left _ hv))
      fun v u rest hv => hroom v u (rest ++ [w]) (by rw [hv, List.append_assoc]; rfl)
    have hfits := hroom ws w [] rfl
    obtain ⟨hwrite, -, hsettled'⟩ := hstable.write (hws w (by simp)) (hsettled ▸ hfits)
    rw [writes_append]
    refine ⟨hwrite, hsettled'.trans ?_⟩
    rw [settled_push pf hstable.sound, hsettled, ← settled_push (s := s.push ws.flatten) pf h.sound,
      push_push, List.flatten_append, List.flatten_singleton]

theorem Stable.next_write (h : s.Stable pf) (hw : w.length ≤ 4) :
    s.HleFifoWrite pf w = (s.settled pf).HleFifoWrite pf w := by
  rcases h.stops with hstop | ⟨-, hlen⟩
  · rw [settled_of_stop hstop]
  · have hle : (s.settled pf).bytes.length ≤ s.bytes.length := by
      rcases h.due with hstop | ⟨-, ⟨hsettled, -⟩ | ⟨-, -, hsettled, -⟩⟩
      · rw [settled_of_stop hstop]
      · rw [hsettled]
        exact commands_bytes pf s
      · rw [hsettled, callBegin_bytes]
        exact commands_bytes pf s
    have hroom : s.bytes.length + w.length ≤ kFifoBytes := by
      unfold kFifoBytes
      omega
    rw [HleFifoWrite_room pf hroom, HleFifoWrite_room pf (by omega), h.parse_push]

/-! ## what shows of the few bytes -/

/-- the begin of a draw is left to the next write -/
def Due (pf : Platform) (s : RawFifo) : Prop :=
  s.inBegin = false ∧ (s.settled pf).inBegin = true

theorem Stable.shows (h : s.Stable pf) :
    ¬s.Due pf ∧ s.gx.applied = (s.settled pf).gx.applied ∨
      s.Due pf ∧ s.bytes.length = 3 ∧ ∃ a, (s.settled pf).gx.applied = s.gx.applied ++ [a] := by
  rcases h.due with hstop | ⟨hidle, ⟨hsettled, hc, happlied⟩ | ⟨h3, hc, hsettled, happlied⟩⟩
  · refine .inl ⟨fun hdue => ?_, by rw [settled_of_stop hstop]⟩
    have hin := hdue.2
    rw [settled_of_stop hstop, hdue.1] at hin
    cases hin
  · refine .inl ⟨fun hdue => ?_, happlied.symm⟩
    have hin := hdue.2
    rw [hsettled, hc] at hin
    cases hin
  · refine .inr ⟨⟨hidle, ?_⟩, h3, happlied⟩
    rw [hsettled]
    unfold callBegin
    split <;> exact hc

/-- two parsers that come to the same -/
structure Alike (pf : Platform) (s s' : RawFifo) : Prop where
  left : s.Stable pf
  right : s'.Stable pf
  settled : s.settled pf = s'.settled pf

theorem Alike.next_write (h : Alike pf s s') (hw : w.length ≤ 4) :
    s.HleFifoWrite pf w = s'.HleFifoWrite pf w := by
  rw [h.left.next_write hw, h.settled, ← h.right.next_write hw]

/-- **What two of them have applied**: the same, if the begin of a draw is due in both or none. -/
theorem Alike.applied_iff (h : Alike pf s s') :
    s.gx.applied = s'.gx.applied ↔ (s.Due pf ↔ s'.Due pf) := by
  have hsettled : (s.settled pf).gx.applied = (s'.settled pf).gx.applied := by rw [h.settled]
  rcases h.left.shows with ⟨hs, hl⟩ | ⟨hs, -, a, hl⟩ <;>
    rcases h.right.shows with ⟨hs', hr⟩ | ⟨hs', -, b, hr⟩
  · exact iff_of_true (hl.trans (hsettled.trans hr.symm)) (iff_of_false hs hs')
  · refine iff_of_false (fun heq => ?_) fun hiff => hs (hiff.mpr hs')
    rw [← hl, heq, hr] at hsettled
    exact absurd (congrArg List.length hsettled) (by simp)
  · refine iff_of_false (fun heq => ?_) fun hiff => hs' (hiff.mp hs)
    rw [hl, heq, ← hr] at hsettled
    exact absurd (congrArg List.length hsettled) (by simp)
  · refine iff_of_true ?_ (iff_of_true hs hs')
    rw [hl, hr] at hsettled
    exact (List.append_inj' hsettled rfl).1

/-! ## what a step applies -/

theorem load_applied {cmd : Byte} {gx gx' : GxState} {data rest : List Byte}
    (h : load pf cmd gx data = (gx', some rest)) : gx'.applied = gx.applied ∨
      ∃ a, gx'.applied = gx.applied ++ [a] ∧ a ≠ .end_ ∧
        ∀ packet, a = .xf packet → packet.length ≤ data.length + 1 := by
  unfold load loadXf GxState.callList at h
  dsimp only at h
  split_ifs at h <;> cases h
  · exact .inl rfl
  · exact .inr ⟨_, rfl, Applied.noConfusion, fun _ => Applied.noConfusion⟩
  · exact .inr ⟨_, rfl, Applied.noConfusion, fun _ => Applied.noConfusion⟩
  · refine .inr ⟨_, rfl, Applied.noConfusion, fun packet hpacket => ?_⟩
    cases hpacket
    rw [List.length_cons, List.length_take]
    omega
  · exact .inr ⟨_, rfl, Applied.noConfusion, fun _ => Applied.noConfusion⟩
  · exact .inr ⟨_, rfl, Applied.noConfusion, fun _ => Applied.noConfusion⟩
  · exact .inl rfl

theorem commandStep_applied (h : s.commandStep pf = some s') : s'.gx.applied = s.gx.applied ∨
    ∃ a, s'.gx.applied = s.gx.applied ++ [a] ∧ a ≠ .end_ ∧
      ∀ packet, a = .xf packet → packet.length ≤ s.bytes.length := by
  unfold commandStep at h
  split at h
  · cases h
  · next cmd data hbytes =>
    rw [hbytes]
    split at h
    · split at h
      · cases h
      · next gx rest hl =>
        cases h
        exact load_applied hl
    · split at h
      · unfold drawCommand TrySubmitRawDirectFifoDraw at h
        dsimp only at h
        split at h
        · cases h
        · split at h
          · split at h
            · cases h
            · split at h
              · next s₁ hsubmit =>
                split at hsubmit
                · cases hsubmit
                  cases h
                  exact .inr ⟨_, rfl, Applied.noConfusion, fun _ => Applied.noConfusion⟩
                · cases hsubmit
              · cases h
                exact .inl rfl
          · cases h
            exact .inl rfl
      · cases h
        exact .inl rfl

theorem takeAttr_applied (s : RawFifo) (attr unit : Nat) (raws : List (BitVec 32)) (size : Nat) :
    (s.takeAttr attr unit raws size).inBegin = s.inBegin ∧
        (s.takeAttr attr unit raws size).gx.applied = s.gx.applied ++ [.attr attr unit raws] ∨
      (s.takeAttr attr unit raws size).gx.applied =
        s.gx.applied ++ ([.attr attr unit raws] ++ [.end_]) := by
  unfold takeAttr finishVertexIfNeeded
  dsimp only [ResetVertex]
  split
  · exact .inl ⟨rfl, rfl⟩
  · split
    · split
      · exact .inr (List.append_assoc ..)
      · exact .inl ⟨rfl, rfl⟩
    · exact .inl ⟨rfl, rfl⟩

theorem vertexStep_applied (hin : s.inBegin = true) (h : s.vertexStep = some s') :
    ∃ l, s'.gx.applied = s.gx.applied ++ l ∧ (∀ packet, .xf packet ∉ l) ∧
      (s'.inBegin = false → ∃ l', l = l' ++ [.end_]) := by
  have hnone (t : RawFifo) (hgx : t.gx = s.gx) (hbegin : t.inBegin = s.inBegin) :
      ∃ l, t.gx.applied = s.gx.applied ++ l ∧ (∀ packet, .xf packet ∉ l) ∧
        (t.inBegin = false → ∃ l', l = l' ++ [.end_]) := by
    refine ⟨[], by rw [hgx, List.append_nil], fun _ hmem => (by cases hmem), fun hidle => ?_⟩
    rw [hbegin, hin] at hidle
    cases hidle
  have htake (attr unit size : Nat) (raws : List (BitVec 32)) :
      ∃ l, (s.takeAttr attr unit raws size).gx.applied = s.gx.applied ++ l ∧
        (∀ packet, .xf packet ∉ l) ∧
        ((s.takeAttr attr unit raws size).inBegin = false → ∃ l', l = l' ++ [.end_]) := by
    rcases takeAttr_applied s attr unit raws size with ⟨hbegin, happlied⟩ | happlied
    · refine ⟨_, happlied, fun packet hmem => ?_, fun hidle => ?_⟩
      · simp at hmem
      · rw [hbegin, hin] at hidle
        cases hidle
    · refine ⟨_, happlied, fun packet hmem => ?_, fun _ => ⟨_, rfl⟩⟩
      simp at hmem
  cases hattr : s.currentAttr with
  | none =>
    rw [vertexStep_none hattr] at h
    cases hbytes : s.bytes with
    | nil =>
      rw [hbytes] at h
      cases h
    | cons byte rest =>
      rw [hbytes] at h
      cases h
      exact hnone _ rfl rfl
  | some attr =>
    by_cases hcomp : s.gx.vtx.Componentwise attr = true
    · rw [vertexStep_component hattr hcomp] at h
      split at h
      · cases h
      · split at h
        · cases h
          exact htake ..
        · cases h
          exact hnone _ rfl rfl
    · have hwhole : s.gx.vtx.Componentwise attr = false := by simpa using hcomp
      rw [vertexStep_whole hattr hwhole] at h
      split at h
      · cases h
      · cases h
        exact htake ..

end RawFifo

end DolTranslator.Gx.Hle

/-!
## The begin that is left to the next write

* `Ends`            a byte that ends a draw;
* `Stable.write_due_iff`   the begin of a draw is left when its head is the last three bytes of a
                    write of four, and the first ended another draw;
* `short_packets`   the words of a packet that the parser applies were all in the ring.
-/

namespace DolTranslator.Gx.Hle

open Function Streams

namespace RawFifo

variable {pf : Platform} {s s' : RawFifo} {w : List Byte}

/-! ## what a write applies -/

theorem commands_applied (pf : Platform) (s : RawFifo) :
    ∃ l, (s.commands pf).gx.applied = s.gx.applied ++ l ∧ .end_ ∉ l := by
  refine commands_induct pf (P := fun t => ∃ l, t.gx.applied = s.gx.applied ++ l ∧ .end_ ∉ l)
    ⟨[], (List.append_nil _).symm, List.not_mem_nil⟩ ?_
  rintro t t' ⟨l, happlied, hend⟩ - h
  rcases commandStep_applied h with hsame | ⟨a, happlied', ha, -⟩
  · exact ⟨l, hsame.trans happlied, hend⟩
  · refine ⟨l ++ [a], by rw [happlied', happlied, List.append_assoc], fun hmem => ?_⟩
    rcases List.mem_append.mp hmem with hl | hlast
    · exact hend hl
    · exact ha (List.mem_singleton.mp hlast).symm

theorem vertices_applied (h : s.Underway) :
    ∃ l, s.vertices.gx.applied = s.gx.applied ++ l ∧
      (s.vertices.inBegin = false → ∃ l', l = l' ++ [.end_]) := by
  refine vertices_induct (P := fun t => ∃ l, t.gx.applied = s.gx.applied ++ l ∧
    (t.inBegin = false → ∃ l', l = l' ++ [.end_])) h ⟨[], (List.append_nil _).symm, ?_⟩ ?_ ?_
  · intro hidle
    rw [h.inBegin] at hidle
    cases hidle
  · rintro t ⟨l, happlied, hend⟩ - -
    exact ⟨l, happlied, hend⟩
  · rintro t t' attr ⟨l, happlied, -⟩ ht - hstep
    obtain ⟨l', happlied', -, hend⟩ := vertexStep_applied ht.inBegin hstep
    refine ⟨l ++ l', by rw [happlied', happlied, List.append_assoc], fun hidle => ?_⟩
    obtain ⟨l'', rfl⟩ := hend hidle
    exact ⟨l ++ l'', (List.append_assoc ..).symm⟩

theorem callBegin_applied (s : RawFifo) : ∃ l, s.callBegin.gx.applied = s.gx.applied ++ l := by
  unfold callBegin
  split
  · exact ⟨[], (List.append_nil _).symm⟩
  · exact ⟨_, rfl⟩

theorem parse_ended (hsound : s.Sound) (hc : (s.commands pf).inBegin = true)
    (hended : (s.parse pf).inBegin = false) :
    ∃ l, (s.parse pf).gx.applied = s.gx.applied ++ (l ++ [.end_]) := by
  have hunder := callBegin_underway (commands_sound pf hsound) hc
  rw [parse_begun hc] at hended ⊢
  obtain ⟨l₁, h₁, -⟩ := commands_applied pf s
  obtain ⟨l₂, h₂⟩ := callBegin_applied (s.commands pf)
  obtain ⟨l₃, h₃, hend⟩ := vertices_applied hunder
  obtain ⟨l, rfl⟩ := hend hended
  refine ⟨l₁ ++ l₂ ++ l, ?_⟩
  rw [h₃, h₂, h₁]
  simp only [List.append_assoc]

/-! ## when a begin is due -/

/-- the byte ends a draw -/
def Ends (pf : Platform) (s : RawFifo) (byte : Byte) : Prop :=
  ((s.push [byte]).settled pf).inBegin = false ∧
    ((s.push [byte]).settled pf).gx.applied ≠ s.gx.applied ∧
    ((s.push [byte]).settled pf).gx.applied.getLast? = some .end_

theorem parse_one_stops (hsound : s.Sound) (hstop : s.step pf = none) (byte : Byte) :
    ((s.push [byte]).parse pf).step pf = none := by
  rcases parse_leaves hsound hstop [byte] with hnone | ⟨hidle, hlen⟩
  · exact hnone
  · have hnil : ((s.push [byte]).parse pf).bytes = [] :=
      List.length_eq_zero_iff.mp (Nat.lt_one_iff.mp hlen)
    rw [step_idle hidle]
    unfold commandStep
    rw [hnil]

theorem settled_one (hsound : s.Sound) (hstop : s.step pf = none) (byte : Byte) :
    (s.push [byte]).settled pf = (s.push [byte]).parse pf := by
  have hsound' : (s.push [byte]).Sound := hsound
  rw [settled_eq hsound' (parse_steps hsound'), settled_of_stop (parse_one_stops hsound hstop byte)]

/-- **When the begin of a draw is due.** -/
theorem Stable.write_due_iff (h : s.Stable pf) (hw : w.length ≤ 4)
    (hroom : (s.settled pf).bytes.length + w.length ≤ kFifoBytes) :
    (s.HleFifoWrite pf w).Due pf ↔ ((s.push w).settled pf).inBegin = true ∧
      ∃ byte rest, w = byte :: rest ∧ rest.length = 3 ∧ Ends pf (s.settled pf) byte := by
  obtain ⟨hstable, hwrite, hsettled⟩ := h.write hw hroom
  have hsound := settled_sound pf h.sound
  have hstop := settled_stops pf h.sound
  unfold Due
  rw [hsettled]
  constructor
  · rintro ⟨hidle, hin⟩
    have hdue : (s.HleFifoWrite pf w).Due pf := ⟨hidle, hsettled ▸ hin⟩
    obtain ⟨-, h3, -⟩ := hstable.shows.resolve_left fun h => h.1 hdue
    have hmoves : ¬(s.HleFifoWrite pf w).step pf = none := fun hnone => by
      rw [← hsettled, settled_of_stop hnone, hidle] at hin
      cases hin
    refine ⟨hin, ?_⟩
    rw [hwrite] at h3 hmoves
    have hlong := ((parse_leaves hsound hstop w).resolve_left hmoves).2
    cases w with
    | nil => cases hlong
    | cons byte rest =>
      rw [List.length_cons] at hlong hw
      refine ⟨byte, rest, rfl, by omega, ?_⟩
      have hpush : (s.settled pf).push (byte :: rest) = ((s.settled pf).push [byte]).push rest :=
        (push_push _ [byte] rest).symm
      have hsound' : ((s.settled pf).push [byte]).Sound := hsound
      rw [hpush] at h3 hmoves
      have hended : ¬((((s.settled pf).push [byte]).commands pf).inBegin = false ∨
          (((s.settled pf).push [byte]).parse pf).inBegin = true) := by
        intro hgoes
        rw [RawFifo.parse_push hsound' hgoes] at h3 hmoves
        -- what the other three leave is shorter than they are
        have hshort := ((parse_leaves (parse_sound hsound') (parse_one_stops hsound hstop byte)
          rest).resolve_left hmoves).2
        omega
      obtain ⟨hc, hz⟩ := not_or.mp hended
      obtain ⟨l, happlied⟩ := parse_ended hsound' (by simpa using hc) (by simpa using hz)
      unfold Ends
      rw [settled_one hsound hstop, happlied]
      refine ⟨by simpa using hz, fun heq => ?_, ?_⟩
      · exact absurd (congrArg List.length heq) (by simp [RawFifo.push])
      · rw [← List.append_assoc, List.getLast?_concat]
  · rintro ⟨hin, byte, rest, rfl, -, hends⟩
    refine ⟨?_, hin⟩
    have hpush : (s.settled pf).push (byte :: rest) = ((s.settled pf).push [byte]).push rest :=
      (push_push _ [byte] rest).symm
    have hsound' : ((s.settled pf).push [byte]).Sound := hsound
    unfold Ends at hends
    rw [settled_one hsound hstop] at hends
    obtain ⟨hidle, hnew, hlast⟩ := hends
    have hc : (((s.settled pf).push [byte]).commands pf).inBegin = true := by
      by_contra hc
      have hc : (((s.settled pf).push [byte]).commands pf).inBegin = false := by simpa using hc
      obtain ⟨l, happlied, hend⟩ := commands_applied pf ((s.settled pf).push [byte])
      rw [parse_idle hc, happlied] at hnew hlast
      cases l using List.reverseRecOn with
      | nil => exact hnew (List.append_nil _)
      | append_singleton l a =>
        rw [← List.append_assoc, List.getLast?_concat] at hlast
        exact hend (List.mem_append_right _ (by rw [Option.some.inj hlast]; exact List.mem_singleton_self _))
    rw [hwrite, hpush, parse_push_ended hsound' hc hidle]
    exact hidle

/-- **The words of a packet were all in the ring.** -/
theorem short_packets (hsound : s.Sound) (h : Steps (step pf) s s') :
    ∃ l, s'.gx.applied = s.gx.applied ++ l ∧
      ∀ packet, .xf packet ∈ l → packet.length ≤ s.bytes.length := by
  induction h with
  | refl s => exact ⟨[], (List.append_nil _).symm, fun _ hmem => (by cases hmem)⟩
  | @head s t s' hstep hsteps ih =>
    obtain ⟨l, happlied, hl⟩ := ih ((fed pf).keeps hsound hstep)
    have hstep' : t.bytes.length ≤ s.bytes.length ∧ ∃ l', t.gx.applied = s.gx.applied ++ l' ∧
        ∀ packet, .xf packet ∈ l' → packet.length ≤ s.bytes.length := by
      cases hin : s.inBegin with
      | false =>
        rw [step_idle hin] at hstep
        refine ⟨Nat.le_of_lt (commandStep_bytes hstep), ?_⟩
        rcases commandStep_applied hstep with hsame | ⟨a, happlied', -, ha⟩
        · exact ⟨[], by rw [hsame, List.append_nil], fun _ hmem => (by cases hmem)⟩
        · exact ⟨[a], happlied', fun packet hmem => ha packet (List.mem_singleton.mp hmem).symm⟩
      | true =>
        cases hbegun : s.auroraBeginCalled with
        | false =>
          rw [step_due hin hbegun] at hstep
          cases hstep
          rw [callBegin_due hbegun]
          refine ⟨Nat.le_refl _, _, rfl, fun packet hmem => ?_⟩
          cases List.mem_singleton.mp hmem
        | true =>
          rw [step_drawing hin hbegun] at hstep
          obtain ⟨l', happlied', hxf, -⟩ := vertexStep_applied hin hstep
          exact ⟨Nat.le_of_lt (vertexStep_bytes hstep).1, l', happlied',
            fun packet hmem => absurd hmem (hxf packet)⟩
    obtain ⟨hle, l', happlied', hl'⟩ := hstep'
    refine ⟨l' ++ l, by rw [happlied, happlied', List.append_assoc], fun packet hmem => ?_⟩
    rcases List.mem_append.mp hmem with hmem | hmem
    · exact hl' packet hmem
    · exact Nat.le_trans (hl packet hmem) hle

end RawFifo

end DolTranslator.Gx.Hle
