import DolTranslator.Gx.BurstLaw

/-!
# When a burst is its writes

The loads at the front of a burst go past the ring.  That shows in three ways:

* a packet of loads that is longer than the ring comes through at once, and never out of the ring;
* behind loads that are no words the rest comes in other words, and where the ring starts over it
  starts over elsewhere;
* so does a last word that ends one draw and holds the head of the next, whose begin is then due.

While a list is recorded a burst stops at the first store that faults, and its writes go on.

* `Holds`   none of this;
* `Split`   a burst as its loads and its rest;
* `burst_same`   the burst is its writes when `Holds`, and only then, but for a ring that overflows;
* `long_packet`   one that is not.
-/

namespace DolTranslator.Gx.Hle

open Function Streams

namespace RawFifo

/-- the loads at the front fit the ring, and the rest comes through it as it would behind them -/
def Direct (pf : Platform) (f : RawFifo) (data : List Byte) : Prop :=
  let k := (packets data).flatten.length
  (∀ packet ∈ packets data, packet.length ≤ kFifoBytes) ∧
    (4 ∣ k ∨ k = data.length ∨
      (f.Roomy pf (pieces data) ∧ (f.push (data.take k)).Roomy pf (pieces (data.drop k))) ∧
        ((4 ∣ data.length ↔ 4 ∣ data.length - k) ∨ ¬Late pf f data))

/-- the ring starts over, in one way or the other, behind loads that are no words -/
def Overflows (pf : Platform) (f : RawFifo) (data : List Byte) : Prop :=
  let k := (packets data).flatten.length
  ¬4 ∣ k ∧ ¬(f.Roomy pf (pieces data) ∧ (f.push (data.take k)).Roomy pf (pieces (data.drop k)))

end RawFifo

variable {Mem : Type} {bus : Bus Mem} {s : HleGx Mem}

namespace HleGx

/-- what the rest does behind the loads, and the writes all through -/
structure Split (bus : Bus Mem) (s : HleGx Mem) (data : List Byte) (gx : GxState) (rest : List Byte) :
    Prop where
  whole : data = (packets data).flatten ++ rest
  steps : Steps (RawFifo.step bus.pf) (s.fifo.push (packets data).flatten) (s.setGx gx).fifo
  long : ∃ l, gx.applied = s.fifo.gx.applied ++ l ∧
    ∀ packet ∈ packets data, kFifoBytes < packet.length → .xf packet ∈ l
  same : s.Same bus data ↔
    ∀ ws : List (List Byte), (∀ w ∈ ws, w.length = 1 ∨ w.length = 2 ∨ w.length = 4) →
      (((s.setGx gx).fifo.writes bus.pf (pieces rest)).writes bus.pf ws).gx.applied =
        ((s.fifo.writes bus.pf (pieces data)).writes bus.pf ws).gx.applied

theorem Empty.split (bus : Bus Mem) (h : s.Empty) {data : List Byte} (hne : data ≠ []) :
    ∃ gx rest, Split bus s data gx rest := by
  obtain ⟨gx, rest, hdirect, hdata, hsteps, hlong⟩ :=
    ApplyFifoPacketsDirect_spec bus h (Nat.lt_succ_self data.length)
  refine ⟨gx, rest, hdata, hsteps, hlong, ?_⟩
  have hburst : s.GX_HLE_FIFO_WriteBurst bus data = (s.setGx gx).writes bus (pieces rest) := by
    unfold GX_HLE_FIFO_WriteBurst
    rw [if_neg hne, if_neg (by rw [h.kept]; exact Bool.false_ne_true)]
    dsimp only
    rw [hdirect]
    dsimp only
    split
    · next hrest =>
      rw [hrest]
      rfl
    · rfl
  unfold Same HleFifoWriteBurstChunked
  rw [hburst]
  refine forall_congr' fun ws => forall_congr' fun _ => ?_
  have hwrites (f : RawFifo) (us : List (List Byte)) :
      (HleGx.writes bus { s with fifo := f } us).writes bus ws =
        { s with fifo := (f.writes bus.pf us).writes bus.pf ws } := by
    rw [writes_kept bus h.kept, writes_kept bus h.kept]
  have hleft := hwrites (s.setGx gx).fifo (pieces rest)
  have hright := hwrites s.fifo (pieces data)
  show ((HleGx.writes bus { s with fifo := (s.setGx gx).fifo } _).writes bus ws).shown =
    ((HleGx.writes bus { s with fifo := s.fifo } _).writes bus ws).shown ↔ _
  rw [hleft, hright]
  exact ⟨fun heq => congrArg Prod.fst heq, fun heq => Prod.ext heq rfl⟩

end HleGx

namespace RawFifo

variable {pf : Platform} {f f' : RawFifo} {taken rest data : List Byte}

theorem settled_before (hsound : f.Sound) (hsteps : Steps (step pf) (f.push taken) f')
    (v : List Byte) : ((f.push taken).push v).settled pf = (f'.push v).settled pf := by
  have hpushed : (f.push taken).Sound := hsound
  have hpushed' : ((f.push taken).push v).Sound := hsound
  exact settled_eq hpushed' ((fed pf).push_steps hpushed hsteps v)

theorem Roomy.before (hsound : f.Sound) (hsteps : Steps (step pf) (f.push taken) f')
    (ws : List (List Byte)) : (f.push taken).Roomy pf ws ↔ f'.Roomy pf ws := by
  unfold Roomy
  simp only [settled_before hsound hsteps]

theorem alike_before (hsound : f.Sound) (hstop : f.step pf = none) (hsound' : f'.Sound)
    (hstop' : f'.step pf = none) (hsteps : Steps (step pf) (f.push taken) f')
    (hdata : data = taken ++ rest) (hroom : f.Roomy pf (pieces data))
    (hroom' : f'.Roomy pf (pieces rest)) :
    Alike pf (f'.writes pf (pieces rest)) (f.writes pf (pieces data)) := by
  have hsizes (v w : List Byte) (hw : w ∈ pieces v) : w.length ≤ 4 := (pieces_length hw).2
  have hleft := Stable.writes ⟨hsound', .inl hstop'⟩ (hsizes rest) hroom'
  have hright := Stable.writes ⟨hsound, .inl hstop⟩ (hsizes data) hroom
  refine ⟨hleft.1, hright.1, hleft.2.trans (Eq.trans ?_ hright.2.symm)⟩
  rw [pieces_flatten, pieces_flatten, ← settled_before hsound hsteps, push_push, ← hdata]

theorem roomy_nil (pf : Platform) (f : RawFifo) : f.Roomy pf (pieces []) := by
  intro v w ws hv
  exact absurd (List.append_eq_nil_iff.mp (Eq.symm hv)).2 (List.cons_ne_nil _ _)

theorem Alike.not_due (h : Alike pf f f') (hidle : (f.settled pf).inBegin = false) :
    ¬f.Due pf ∧ ¬f'.Due pf := by
  constructor
  · intro hdue
    exact absurd (hidle.symm.trans hdue.2) Bool.false_ne_true
  · intro hdue
    rw [h.settled] at hidle
    exact absurd (hidle.symm.trans hdue.2) Bool.false_ne_true

end RawFifo

namespace HleGx

variable {gx : GxState} {rest data : List Byte}

theorem Empty.sound (h : s.Empty) : s.fifo.Sound := .of_idle h.idle

theorem Empty.stops (h : s.Empty) : s.fifo.step bus.pf = none := by
  rw [RawFifo.step_idle h.idle]
  unfold RawFifo.commandStep
  rw [h.bytes]

theorem Split.loads (h : s.Empty) (hsplit : Split bus s data gx rest)
    (hshort : ∀ packet ∈ packets data, packet.length ≤ kFifoBytes) :
    RawFifo.Alike bus.pf (s.setGx gx).fifo
      (s.fifo.writes bus.pf (pieces (packets data).flatten)) :=
  RawFifo.alike_before h.sound h.stops (h.setGx gx).sound (h.setGx gx).stops hsplit.steps
    (List.append_nil _).symm (packets_roomy bus h hshort) (RawFifo.roomy_nil _ _)

theorem Split.same_alone (h : s.Empty) (hsplit : Split bus s data gx rest)
    (hshort : ∀ packet ∈ packets data, packet.length ≤ kFifoBytes) (hrest : rest = []) :
    s.Same bus data := by
  have halike := hsplit.loads h hshort
  have hidle : ((s.setGx gx).fifo.settled bus.pf).inBegin = false := by
    rw [RawFifo.settled_of_stop (h.setGx gx).stops]
    exact h.idle
  obtain ⟨hleft, hright⟩ := halike.not_due hidle
  have hdata : (packets data).flatten = data := by
    have hwhole := hsplit.whole
    rw [hrest, List.append_nil] at hwhole
    exact hwhole.symm
  rw [hsplit.same, hrest]
  rw [hdata] at halike hright
  exact halike.shown_iff.mpr (iff_of_false hleft hright)

theorem Split.same_words (h : s.Empty) (hsplit : Split bus s data gx rest)
    (hshort : ∀ packet ∈ packets data, packet.length ≤ kFifoBytes)
    (hwords : 4 ∣ (packets data).flatten.length) : s.Same bus data := by
  by_cases hrest : rest = []
  · exact hsplit.same_alone h hshort hrest
  · have hpieces : pieces data = pieces (packets data).flatten ++ pieces rest := by
      rw [← pieces_append hwords, ← hsplit.whole]
    rw [hsplit.same, hpieces, RawFifo.writes_append]
    intro ws _
    cases hp : pieces rest with
    | nil =>
      have hflat := pieces_flatten rest
      rw [hp] at hflat
      exact absurd hflat.symm hrest
    | cons w us =>
      have hmem : w ∈ pieces rest := hp ▸ List.mem_cons_self
      have hw := (pieces_length hmem).2
      have hnext := (hsplit.loads h hshort).next_write hw
      show (((RawFifo.HleFifoWrite bus.pf _ w).writes bus.pf us).writes bus.pf ws).gx.applied =
        (((RawFifo.HleFifoWrite bus.pf _ w).writes bus.pf us).writes bus.pf ws).gx.applied
      rw [hnext]

theorem Split.same_iff (h : s.Empty) (hsplit : Split bus s data gx rest) (hrest : rest ≠ [])
    (hroom : s.fifo.Roomy bus.pf (pieces data))
    (hroom' : (s.fifo.push (packets data).flatten).Roomy bus.pf (pieces rest)) :
    s.Same bus data ↔
      ((4 ∣ data.length ↔ 4 ∣ rest.length) ∨ ¬s.fifo.Late bus.pf data) := by
  have hroom' := (RawFifo.Roomy.before h.sound hsplit.steps _).mp hroom'
  have halike := RawFifo.alike_before h.sound h.stops (h.setGx gx).sound (h.setGx gx).stops
    hsplit.steps hsplit.whole hroom hroom'
  have hleft := RawFifo.writes_due_iff (h.setGx gx).sound (h.setGx gx).stops hroom'
  have hright := RawFifo.writes_due_iff h.sound h.stops hroom
  have hlate (hfour : 4 ∣ rest.length) :
      s.fifo.Late bus.pf data ↔ (s.setGx gx).fifo.Late bus.pf rest := by
    have hpos := List.length_pos_iff.mpr hrest
    have hlate := RawFifo.late_append h.sound hsplit.steps (Nat.le_of_dvd hpos hfour)
    rwa [← hsplit.whole] at hlate
  rw [hsplit.same, halike.shown_iff, hleft, hright]
  by_cases hfour : 4 ∣ rest.length
  · rw [← hlate hfour]
    tauto
  · tauto

theorem Split.short (h : s.Empty) (hsplit : Split bus s data gx rest) (hsame : s.Same bus data) :
    ∀ packet ∈ packets data, packet.length ≤ kFifoBytes := by
  intro packet hmem
  by_contra hlong
  obtain ⟨l, hl, hin⟩ := hsplit.long
  have hring (t : HleGx Mem) (ht : t.Empty) : t.fifo.bytes.length ≤ kFifoBytes := by
    rw [ht.bytes]
    exact Nat.zero_le _
  have hsizes (v w : List Byte) (hw : w ∈ pieces v) : w.length ≤ 4 := (pieces_length hw).2
  obtain ⟨l₁, h₁, -⟩ := RawFifo.writes_packets bus.pf (h.setGx gx).sound (hring _ (h.setGx gx))
    (hsizes rest)
  obtain ⟨l₂, h₂, hfits⟩ := RawFifo.writes_packets bus.pf h.sound (hring s h) (hsizes data)
  have hshown : ((s.setGx gx).fifo.writes bus.pf (pieces rest)).gx.applied =
      (s.fifo.writes bus.pf (pieces data)).gx.applied :=
    hsplit.same.mp hsame [] fun _ hw => (by cases hw)
  have happlied : (s.setGx gx).fifo.gx.applied = s.fifo.gx.applied ++ l := hl
  rw [h₁, h₂, happlied, List.append_assoc] at hshown
  have hboth := List.append_cancel_left hshown
  exact hlong (hfits packet (hboth ▸ List.mem_append_left _ (hin packet hmem (Nat.lt_of_not_le hlong))))

/-- **Past the ring.** -/
theorem Empty.direct (bus : Bus Mem) (h : s.Empty) (hne : data ≠ []) :
    (s.fifo.Direct bus.pf data → s.Same bus data) ∧
      (s.Same bus data → s.fifo.Direct bus.pf data ∨ s.fifo.Overflows bus.pf data) := by
  obtain ⟨gx, rest, hsplit⟩ := h.split bus hne
  have htake : data.take (packets data).flatten.length = (packets data).flatten :=
    (congrArg (List.take _) hsplit.whole).trans List.take_left
  have hdrop : data.drop (packets data).flatten.length = rest :=
    (congrArg (List.drop _) hsplit.whole).trans List.drop_left
  have hlen : data.length - (packets data).flatten.length = rest.length := by
    rw [← hdrop, List.length_drop]
  unfold RawFifo.Direct RawFifo.Overflows
  dsimp only
  rw [htake, hdrop, hlen]
  constructor
  · rintro ⟨hshort, hwords | halone | ⟨⟨hroom, hroom'⟩, hlate⟩⟩
    · exact hsplit.same_words h hshort hwords
    · refine hsplit.same_alone h hshort ?_
      exact List.length_eq_zero_iff.mp (by omega)
    · by_cases hrest : rest = []
      · exact hsplit.same_alone h hshort hrest
      · exact (hsplit.same_iff h hrest hroom hroom').mpr hlate
  · intro hsame
    have hshort := hsplit.short h hsame
    by_cases hwords : 4 ∣ (packets data).flatten.length
    · exact .inl ⟨hshort, .inl hwords⟩
    · by_cases hrest : rest = []
      · refine .inl ⟨hshort, .inr (.inl ?_)⟩
        have hwhole := congrArg List.length hsplit.whole
        rw [hrest, List.append_nil] at hwhole
        exact hwhole.symm
      · by_cases hroom : s.fifo.Roomy bus.pf (pieces data) ∧
            (s.fifo.push (packets data).flatten).Roomy bus.pf (pieces rest)
        · exact .inl ⟨hshort, .inr (.inr ⟨hroom,
            (hsplit.same_iff h hrest hroom.1 hroom.2).mp hsame⟩)⟩
        · exact .inr ⟨hwords, hroom⟩

/-- a list that is recorded takes every piece, or stops for good; loads past the ring do not show -/
def Holds (bus : Bus Mem) (s : HleGx Mem) (data : List Byte) : Prop :=
  data ≠ [] →
    (s.hasRoom data = true → StopsForGood bus (pieces data) s.mem s.dl.writePtr) ∧
    (s.Empty → s.fifo.Direct bus.pf data)

theorem same_through (hroom : s.hasRoom data = false) (hempty : ¬s.Empty) : s.Same bus data := by
  intro ws _
  by_cases hne : data = []
  · rw [hne]
    rfl
  · have hlist : (if s.dl.active then s.WriteDisplayListBurst bus data else none) = none := by
      split
      · unfold WriteDisplayListBurst
        rw [if_neg (by rw [hroom]; exact Bool.false_ne_true)]
      · rfl
    have hstays : s.dl.active ∨ s.fifo.inBegin ∨ s.fifo.bytes ≠ [] := by
      by_contra hnot
      obtain ⟨hkept, hrest⟩ := not_or.mp hnot
      obtain ⟨hidle, hbytes⟩ := not_or.mp hrest
      exact hempty ⟨by simpa using hkept, by simpa using hidle, by simpa using hbytes⟩
    have hdirect : ApplyFifoPacketsDirect bus (data.length + 1) s data = (s, data) := by
      rw [ApplyFifoPacketsDirect, if_pos hstays]
    unfold GX_HLE_FIFO_WriteBurst
    rw [if_neg hne, hlist]
    dsimp only
    rw [hdirect]
    dsimp only
    rw [if_neg hne]

/-- **When a burst is its writes.** -/
theorem burst_same (bus : Bus Mem) (s : HleGx Mem) (data : List Byte) :
    (Holds bus s data → s.Same bus data) ∧
      (s.Same bus data → Holds bus s data ∨ s.Empty ∧ s.fifo.Overflows bus.pf data) := by
  by_cases hne : data = []
  · refine ⟨fun _ ws _ => ?_, fun _ => .inl fun h => absurd hne h⟩
    rw [hne]
    rfl
  · by_cases hempty : s.Empty
    · have hroom : ¬s.hasRoom data = true := fun hroom => by
        have hactive := ((recording_iff data).mp hroom).active
        rw [hempty.kept] at hactive
        cases hactive
      obtain ⟨hsame, honly⟩ := hempty.direct bus hne
      refine ⟨fun h => hsame ((h hne).2 hempty), fun h => ?_⟩
      exact (honly h).imp (fun hdirect _ => ⟨fun h => absurd h hroom, fun _ => hdirect⟩)
        fun hover => ⟨hempty, hover⟩
    · cases hroom : s.hasRoom data with
      | true =>
        have hiff := recorded_iff bus ((recording_iff data).mp hroom) hne
        refine ⟨fun h => hiff.mpr ((h hne).1 hroom), fun h => .inl fun _ => ?_⟩
        exact ⟨fun _ => hiff.mp h, fun h => absurd h hempty⟩
      | false =>
        refine ⟨fun _ => same_through hroom hempty, fun _ => .inl fun _ => ⟨fun h => ?_, fun h => ?_⟩⟩
        · exact absurd (hroom.symm.trans h) Bool.false_ne_true
        · exact absurd h hempty

/-- one load of 1023 words, which is one byte longer than the ring -/
theorem long_packet :
    ¬Same ⟨RawFifo.simple, fun (_ : Unit) _ _ => some (), 0⟩
      ⟨.start (RawFifo.positions .index8), ⟨0, 0, 0, 0, false⟩, ()⟩
      ([0x10, 0x03, 0xFE, 0x00, 0x00] ++ List.replicate 4092 0) := by
  intro hsame
  have hempty : Empty (⟨.start (RawFifo.positions .index8), ⟨0, 0, 0, 0, false⟩, ()⟩ : HleGx Unit) :=
    ⟨rfl, rfl, rfl⟩
  have hne : [0x10, 0x03, 0xFE, 0x00, 0x00] ++ List.replicate 4092 (0 : Byte) ≠ [] :=
    List.cons_ne_nil _ _
  obtain ⟨gx, rest, hsplit⟩ := hempty.split ⟨RawFifo.simple, fun _ _ _ => some (), 0⟩ hne
  have hsize (body : List Byte) (hbody : body.length = 4096) (hbe : be16 body = 1022) :
      packetSize (0x10 :: body) = some 4097 := by
    have hop : opcode 0x10 = 0x10 := by decide
    unfold packetSize
    dsimp only
    rw [if_neg (by decide), if_neg (by decide), hop, if_neg (by decide), if_pos rfl, hbody, hbe]
    rfl
  have hmem : ([0x10, 0x03, 0xFE, 0x00, 0x00] ++ List.replicate 4092 (0 : Byte)).take 4097 ∈
      packets ([0x10, 0x03, 0xFE, 0x00, 0x00] ++ List.replicate 4092 0) := by
    unfold packets leading
    have hbody : ([0x03, 0xFE, 0x00, 0x00] ++ List.replicate 4092 (0 : Byte)).length = 4096 := by
      rw [List.length_append, List.length_replicate]
      rfl
    rw [List.cons_append, hsize _ hbody rfl]
    exact List.mem_cons_self
  have hshort := hsplit.short hempty hsame _ hmem
  rw [List.length_take, List.length_append, List.length_replicate] at hshort
  exact absurd hshort (by decide)

end HleGx

end DolTranslator.Gx.Hle
