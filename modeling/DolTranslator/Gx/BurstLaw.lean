import DolTranslator.Gx.Burst

/-!
# A burst and its writes

* `packetSize`, `packets`   the register loads at the front of a string;
* `ApplyFifoPacketsDirect_spec`   they are steps of the parser;
* `Alike.same`   two parsers that come to the same show the same, but for a begin that is due;
* `Late`, `writes_due_iff`   a string whose last word ends a draw and holds the head of the next;
* `writes_packets`   no packet comes out of the ring that it cannot hold.
-/

namespace DolTranslator.Gx.Hle

open Function Streams

/-! ## register loads -/

/-- the bytes of the whole register load at the front -/
def packetSize : List Byte → Option Nat
  | [] => none
  | cmd :: body =>
    if cmd = 0x00 then some 1
    else if cmd = 0x61 then if body.length < 4 then none else some 5
    else if opcode cmd = 0x08 then if body.length < 5 then none else some 6
    else if opcode cmd = 0x10 then
      if body.length < 4 then none
      else if body.length < 4 + (be16 body + 1) * 4 then none
      else some (5 + (be16 body + 1) * 4)
    else none

def leading : Nat → List Byte → List (List Byte)
  | 0, _ => []
  | fuel + 1, data =>
    match packetSize data with
    | none => []
    | some n => data.take n :: leading fuel (data.drop n)

def packets (data : List Byte) : List (List Byte) := leading (data.length + 1) data

section
variable {pf : Platform} {gx : GxState} {cmd : Byte} {data : List Byte}

theorem load_nop : load pf 0x00 gx data = (gx, some data) := if_pos (.inl rfl)

theorem load_bp : load pf 0x61 gx data =
    if data.length < 4 then (gx, none) else (gx.apply (.bp (be32 data)), some (data.drop 4)) := rfl

theorem load_cp (h : opcode cmd = 0x08) : load pf cmd gx data =
    if data.length < 5 then (gx, none)
    else (gx.loadCp (data.getD 0 0).toNat (be32 (data.drop 1)), some (data.drop 5)) := by
  have hnop : ¬(cmd = 0x00 ∨ opcode cmd = 0x48) := by
    rintro (rfl | hop)
    · cases h
    · omega
  have hbp : cmd ≠ 0x61 := by
    rintro rfl
    cases h
  unfold load
  rw [if_neg hnop, if_neg hbp, if_pos h]

theorem load_xf (h : opcode cmd = 0x10) : load pf cmd gx data = loadXf cmd gx data := by
  have hnop : ¬(cmd = 0x00 ∨ opcode cmd = 0x48) := by
    rintro (rfl | hop)
    · cases h
    · omega
  have hbp : cmd ≠ 0x61 := by
    rintro rfl
    cases h
  unfold load
  rw [if_neg hnop, if_neg hbp, if_neg (by omega), if_pos h]

theorem loadXf_some (h4 : ¬data.length < 4) (hlen : ¬data.length < 4 + (be16 data + 1) * 4) :
    loadXf cmd gx data = (gx.apply (.xf (cmd :: data.take (4 + (be16 data + 1) * 4))),
      some (data.drop (4 + (be16 data + 1) * 4))) := by
  unfold loadXf
  rw [if_neg h4]
  exact if_neg hlen

end

/-- a register load is a step of the parser -/
structure IsPacket (pf : Platform) (gx : GxState) (cmd : Byte) (body : List Byte) (n : Nat) :
    Prop where
  load : isLoad cmd = true
  pos : 0 < n
  whole : n ≤ body.length + 1
  short : n ≤ kFifoBytes → n + 3 ≤ kFifoBytes
  step : (Hle.load pf cmd gx body).2 = some (body.drop (n - 1))
  applied : ∃ l, (Hle.load pf cmd gx body).1.applied = gx.applied ++ l ∧
    (kFifoBytes < n → .xf ((cmd :: body).take n) ∈ l)

theorem isPacket (pf : Platform) (gx : GxState) {cmd : Byte} {body : List Byte} {n : Nat}
    (h : packetSize (cmd :: body) = some n) : IsPacket pf gx cmd body n := by
  have hfew {n : Nat} (hn : n ≤ 6) : n ≤ kFifoBytes → n + 3 ≤ kFifoBytes := by
    intro _
    unfold kFifoBytes
    omega
  have hnot {n : Nat} {P : Prop} (hn : n ≤ 6) : kFifoBytes < n → P := fun hlt => by
    unfold kFifoBytes at hlt
    omega
  unfold packetSize at h
  dsimp only at h
  by_cases h0 : cmd = 0x00
  · subst h0
    cases h
    refine ⟨rfl, Nat.one_pos, Nat.le_add_left _ _, hfew (by omega), by rw [load_nop]; rfl, [], ?_,
      hnot (by omega)⟩
    rw [load_nop, List.append_nil]
  · rw [if_neg h0] at h
    by_cases h61 : cmd = 0x61
    · subst h61
      rw [if_pos rfl] at h
      split at h
      · cases h
      · next hlen =>
        cases h
        rw [Nat.not_lt] at hlen
        refine ⟨rfl, by omega, by omega, hfew (by omega), ?_, [.bp (be32 body)], ?_, hnot (by omega)⟩
        · rw [load_bp, if_neg (Nat.not_lt.mpr hlen)]
        · rw [load_bp, if_neg (Nat.not_lt.mpr hlen)]
          rfl
    · rw [if_neg h61] at h
      by_cases h8 : opcode cmd = 0x08
      · rw [if_pos h8] at h
        split at h
        · cases h
        · next hlen =>
          cases h
          refine ⟨?_, by omega, by omega, hfew (by omega), ?_,
            [.cp (body.getD 0 0).toNat (be32 (body.drop 1))], ?_, hnot (by omega)⟩
          · unfold isLoad
            rw [h8]
            simp
          · rw [load_cp h8, if_neg hlen]
          · rw [load_cp h8, if_neg hlen]
            rfl
      · rw [if_neg h8] at h
        split at h
        · next h10 =>
          split at h
          · cases h
          · next h4 =>
            split at h
            · cases h
            · next hlen =>
              cases h
              have hload : Hle.load pf cmd gx body = _ := (load_xf h10).trans (loadXf_some h4 hlen)
              have hn : 5 + (be16 body + 1) * 4 = 4 + (be16 body + 1) * 4 + 1 := by omega
              refine ⟨?_, by omega, by omega, fun hle => ?_, ?_,
                [.xf (cmd :: body.take (4 + (be16 body + 1) * 4))], ?_, fun _ => ?_⟩
              · unfold isLoad
                rw [h10]
                simp
              · -- the sizes of packets leave no other remainder by four
                unfold kFifoBytes at hle ⊢
                omega
              · rw [hload, hn, Nat.add_sub_cancel]
              · rw [hload]
                rfl
              · rw [hn, List.take_succ_cons]
                exact List.mem_singleton_self _
        · cases h

variable {Mem : Type} {bus : Bus Mem} {s : HleGx Mem}

namespace HleGx

/-- between two packets, with nothing in the ring -/
structure Empty (s : HleGx Mem) : Prop where
  kept : s.dl.active = false
  idle : s.fifo.inBegin = false
  bytes : s.fifo.bytes = []

def setGx (s : HleGx Mem) (gx : GxState) : HleGx Mem := { s with fifo := { s.fifo with gx := gx } }

theorem Empty.setGx (h : s.Empty) (gx : GxState) : (s.setGx gx).Empty := ⟨h.kept, h.idle, h.bytes⟩

theorem direct_none (h : s.Empty) (fuel : Nat) {data : List Byte} (hnone : packetSize data = none) :
    ApplyFifoPacketsDirect bus fuel s data = (s, data) := by
  cases fuel with
  | zero => rfl
  | succ fuel =>
    unfold ApplyFifoPacketsDirect
    rw [if_neg (by rw [h.kept, h.idle, h.bytes]; simp)]
    cases data with
    | nil => rfl
    | cons cmd body =>
      unfold packetSize at hnone
      unfold loadXf
      dsimp only at hnone ⊢
      split_ifs at hnone ⊢ <;> rfl

theorem direct_some (h : s.Empty) (fuel : Nat) {cmd : Byte} {body : List Byte} {n : Nat}
    (hsome : packetSize (cmd :: body) = some n) :
    ApplyFifoPacketsDirect bus (fuel + 1) s (cmd :: body) =
      ApplyFifoPacketsDirect bus fuel (s.setGx (load bus.pf cmd s.fifo.gx body).1)
        (body.drop (n - 1)) := by
  have hstep := (isPacket bus.pf s.fifo.gx hsome).step
  rw [ApplyFifoPacketsDirect, if_neg (by rw [h.kept, h.idle, h.bytes]; simp)]
  dsimp only
  unfold packetSize at hsome
  dsimp only at hsome
  by_cases h0 : cmd = 0x00
  · subst h0
    rw [load_nop] at hstep ⊢
    rw [if_pos rfl, ← Option.some.inj hstep]
    rfl
  · rw [if_neg h0] at hsome ⊢
    by_cases h61 : cmd = 0x61
    · subst h61
      rw [if_pos rfl] at hsome ⊢
      split at hsome
      · cases hsome
      · next hlen =>
        rw [load_bp, if_neg hlen] at hstep ⊢
        rw [if_neg hlen, ← Option.some.inj hstep]
        rfl
    · rw [if_neg h61] at hsome ⊢
      by_cases h8 : opcode cmd = 0x08
      · rw [if_pos h8] at hsome ⊢
        split at hsome
        · cases hsome
        · next hlen =>
          rw [load_cp h8, if_neg hlen] at hstep ⊢
          rw [if_neg hlen, ← Option.some.inj hstep]
          rfl
      · rw [if_neg h8] at hsome ⊢
        split at hsome
        · next h10 =>
          rw [if_pos h10]
          rw [load_xf h10] at hstep ⊢
          rcases hl : loadXf cmd s.fifo.gx body with ⟨gx, _ | rest⟩
          · rw [hl] at hstep
            cases hstep
          · rw [hl] at hstep
            rw [← Option.some.inj hstep]
            rfl
        · cases hsome

theorem packet_steps {cmd : Byte} {body : List Byte} {n : Nat} (h : s.Empty)
    (hp : IsPacket bus.pf s.fifo.gx cmd body n) :
    Steps (RawFifo.step bus.pf) (s.fifo.push ((cmd :: body).take n))
      (s.setGx (Hle.load bus.pf cmd s.fifo.gx body).1).fifo := by
  obtain ⟨m, rfl⟩ : ∃ m, n = m + 1 := ⟨n - 1, by have := hp.pos; omega⟩
  have hload : Hle.load bus.pf cmd s.fifo.gx (body.take m) =
      ((Hle.load bus.pf cmd s.fifo.gx body).1, some []) := by
    refine (load_body bus.pf cmd).tight _ _ _ _ (body.drop m) ?_
    rw [List.take_append_drop, List.nil_append]
    exact Prod.ext rfl hp.step
  refine .single ?_
  rw [RawFifo.step_idle (s := s.fifo.push _) h.idle]
  unfold RawFifo.commandStep
  rw [RawFifo.push_bytes, h.bytes, List.nil_append, List.take_succ_cons]
  dsimp only
  rw [if_pos hp.load]
  have hgx : (s.fifo.push (cmd :: body.take m)).gx = s.fifo.gx := rfl
  rw [hgx, hload]
  exact congrArg (fun bytes => some { s.fifo with
    gx := (Hle.load bus.pf cmd s.fifo.gx body).1, bytes := bytes }) h.bytes.symm

/-- **Whole register loads past the ring** are steps of the parser. -/
theorem ApplyFifoPacketsDirect_spec (bus : Bus Mem) (h : s.Empty) {fuel : Nat} {data : List Byte}
    (hfuel : data.length < fuel) : ∃ gx rest,
      ApplyFifoPacketsDirect bus fuel s data = (s.setGx gx, rest) ∧
      data = (leading fuel data).flatten ++ rest ∧
      Steps (RawFifo.step bus.pf) (s.fifo.push (leading fuel data).flatten) (s.setGx gx).fifo ∧
      ∃ l, gx.applied = s.fifo.gx.applied ++ l ∧
        ∀ packet ∈ leading fuel data, kFifoBytes < packet.length → .xf packet ∈ l := by
  induction fuel generalizing s data with
  | zero => omega
  | succ fuel ih =>
    unfold leading
    cases hsize : packetSize data with
    | none =>
      refine ⟨s.fifo.gx, data, direct_none h _ hsize, rfl, ?_, [], (List.append_nil _).symm,
        fun _ hmem => (by cases hmem)⟩
      show Steps _ (s.fifo.push []) s.fifo
      rw [RawFifo.push_nil]
      exact .refl _
    | some n =>
      cases data with
      | nil => cases hsize
      | cons cmd body =>
        have hp := isPacket bus.pf s.fifo.gx hsize
        have hpos := hp.pos
        have hdrop : (cmd :: body).drop n = body.drop (n - 1) := by
          obtain ⟨m, rfl⟩ : ∃ m, n = m + 1 := ⟨n - 1, by omega⟩
          rfl
        have hshort : (body.drop (n - 1)).length < fuel := by
          rw [List.length_drop]
          rw [List.length_cons] at hfuel
          omega
        obtain ⟨gx, rest, hdirect, hrest, hsteps, l, hl, hlong⟩ :=
          ih (h.setGx (Hle.load bus.pf cmd s.fifo.gx body).1) hshort
        obtain ⟨l', hl', hlong'⟩ := hp.applied
        dsimp only
        rw [hdrop]
        refine ⟨gx, rest, (direct_some h fuel hsize).trans hdirect, ?_, ?_, l' ++ l, ?_, ?_⟩
        · rw [List.flatten_cons, List.append_assoc, ← hrest, ← hdrop, List.take_append_drop]
        · rw [List.flatten_cons, ← RawFifo.push_push]
          have hsound : (s.fifo.push ((cmd :: body).take n)).Sound := .of_idle h.idle
          exact ((RawFifo.fed bus.pf).push_steps hsound (packet_steps h hp) _).trans hsteps
        · rw [← List.append_assoc, ← hl']
          exact hl
        · intro packet hmem hlen
          rcases List.mem_cons.mp hmem with rfl | hmem
          · rw [List.length_take] at hlen
            exact List.mem_append_left _ (hlong' (Nat.lt_of_lt_of_le hlen (Nat.min_le_left _ _)))
          · exact List.mem_append_right _ (hlong packet hmem hlen)

theorem packets_fit (bus : Bus Mem) (h : s.Empty) {fuel : Nat} {data v rest : List Byte}
    (hshort : ∀ packet ∈ leading fuel data, packet.length ≤ kFifoBytes)
    (hv : (leading fuel data).flatten = v ++ rest) (hne : rest ≠ []) :
    ((s.fifo.push v).settled bus.pf).bytes.length + 4 ≤ kFifoBytes := by
  induction fuel generalizing s data v with
  | zero => exact absurd (List.append_eq_nil_iff.mp hv.symm).2 hne
  | succ fuel ih =>
    unfold leading at hshort hv
    cases hsize : packetSize data with
    | none =>
      rw [hsize] at hv
      exact absurd (List.append_eq_nil_iff.mp hv.symm).2 hne
    | some n =>
      rw [hsize] at hshort hv
      dsimp only at hshort hv
      cases data with
      | nil => cases hsize
      | cons cmd body =>
        have hp := isPacket bus.pf s.fifo.gx hsize
        have hlen : ((cmd :: body).take n).length = n := by
          rw [List.length_take, List.length_cons, Nat.min_eq_left hp.whole]
        have hn := hp.short (hlen ▸ hshort _ List.mem_cons_self)
        rw [List.flatten_cons] at hv
        by_cases hle : n ≤ v.length
        · have htake : (cmd :: body).take n = v.take n := by
            have hboth := congrArg (List.take n) hv
            rwa [List.take_left' hlen, List.take_append_of_le_length hle] at hboth
          have hdrop : (leading fuel ((cmd :: body).drop n)).flatten = v.drop n ++ rest := by
            have hboth := congrArg (List.drop n) hv
            rwa [List.drop_left' hlen, List.drop_append_of_le_length hle] at hboth
          have hsound (u : List Byte) : (s.fifo.push u).Sound := .of_idle h.idle
          have hsteps := (RawFifo.fed bus.pf).push_steps (hsound _) (packet_steps h hp) (v.drop n)
          rw [RawFifo.push_push, htake, List.take_append_drop] at hsteps
          rw [RawFifo.settled_eq (hsound v) hsteps]
          exact ih (h.setGx _) (fun packet hmem => hshort packet (List.mem_cons_of_mem _ hmem)) hdrop
        · have hbytes := RawFifo.steps_bytes (RawFifo.settled_steps bus.pf (s.fifo.push v))
          rw [RawFifo.push_bytes, h.bytes, List.nil_append] at hbytes
          omega

theorem packets_roomy (bus : Bus Mem) (h : s.Empty) {fuel : Nat} {data : List Byte}
    (hshort : ∀ packet ∈ leading fuel data, packet.length ≤ kFifoBytes) :
    s.fifo.Roomy bus.pf (pieces (leading fuel data).flatten) := by
  intro v w rest hv
  have hw : w ∈ pieces (leading fuel data).flatten := by
    rw [hv]
    exact List.mem_append_right _ List.mem_cons_self
  obtain ⟨hpos, hle⟩ := pieces_length hw
  have hflat := congrArg List.flatten hv
  rw [pieces_flatten, List.flatten_append, List.flatten_cons] at hflat
  have := packets_fit bus h hshort hflat fun hnil => by
    rw [(List.append_eq_nil_iff.mp hnil).1] at hpos
    cases hpos
  omega

/-! ## the rest through the ring -/

theorem writes_kept (bus : Bus Mem) (hkept : s.dl.active = false) (f : RawFifo)
    (ws : List (List Byte)) : HleGx.writes bus { s with fifo := f } ws =
      { s with fifo := f.writes bus.pf ws } := by
  induction ws generalizing f with
  | nil => rfl
  | cons w ws ih =>
    have hwrite : HleGx.write bus { s with fifo := f } w =
        { s with fifo := f.HleFifoWrite bus.pf w } := if_neg (by
      rw [hkept]
      exact Bool.false_ne_true)
    rw [writes_cons, hwrite]
    exact ih _

end HleGx

namespace RawFifo

variable {pf : Platform} {f f' : RawFifo} {data : List Byte}

/-- **Two parsers that come to the same show the same**, but for a begin that is due. -/
theorem Alike.shown_iff (h : Alike pf f f') :
    (∀ ws : List (List Byte), (∀ w ∈ ws, w.length = 1 ∨ w.length = 2 ∨ w.length = 4) →
      (f.writes pf ws).gx.applied = (f'.writes pf ws).gx.applied) ↔ (f.Due pf ↔ f'.Due pf) := by
  constructor
  · intro hshown
    exact h.applied_iff.mp (hshown [] fun _ hmem => (by cases hmem))
  · intro hdue ws hws
    cases ws with
    | nil => exact h.applied_iff.mpr hdue
    | cons w ws =>
      have hw : w.length ≤ 4 := by
        have := hws w List.mem_cons_self
        omega
      show ((f.HleFifoWrite pf w).writes pf ws).gx.applied = _
      rw [h.next_write hw]
      rfl

/-- a string whose last word ends a draw and holds the head of the next -/
def Late (pf : Platform) (f : RawFifo) (data : List Byte) : Prop :=
  ((f.push data).settled pf).inBegin = true ∧ ∃ old byte rest, data = old ++ byte :: rest ∧
    rest.length = 3 ∧ Ends pf ((f.push old).settled pf) byte

theorem writes_due_iff (hsound : f.Sound) (hstop : f.step pf = none)
    (hroom : f.Roomy pf (pieces data)) :
    (f.writes pf (pieces data)).Due pf ↔ 4 ∣ data.length ∧ Late pf f data := by
  have hstable : f.Stable pf := ⟨hsound, .inl hstop⟩
  by_cases hne : data = []
  · subst hne
    refine iff_of_false (fun hdue => ?_) fun ⟨_, _, old, byte, rest, hdata, _⟩ => ?_
    · have hin : (f.settled pf).inBegin = true := hdue.2
      rw [settled_of_stop hstop] at hin
      exact absurd (hdue.1.symm.trans hin) Bool.false_ne_true
    · exact absurd (List.append_eq_nil_iff.mp hdata.symm).2 (List.cons_ne_nil _ _)
  · obtain ⟨ws, w, hws, hword, htail⟩ := pieces_last hne
    have hdata : data = ws.flatten ++ w := by
      rw [← pieces_flatten data, hws, List.flatten_append, List.flatten_singleton]
    have hsizes (u : List Byte) (hu : u ∈ ws ++ [w]) : u.length ≤ 4 :=
      (pieces_length (hws ▸ hu)).2
    rw [hws] at hroom ⊢
    have hroom' : f.Roomy pf ws := fun v u rest hv =>
      hroom v u (rest ++ [w]) (by rw [hv, List.append_assoc]; rfl)
    obtain ⟨hbefore, hsettled⟩ := hstable.writes
      (fun u hu => hsizes u (List.mem_append_left _ hu)) hroom'
    have hpush : ((f.writes pf ws).push w).settled pf = (f.push data).settled pf := by
      rw [settled_push pf hbefore.sound, hsettled, ← settled_push (s := f.push ws.flatten) pf hsound,
        push_push, ← hdata]
    rw [writes_append]
    show ((f.writes pf ws).HleFifoWrite pf w).Due pf ↔ _
    rw [hbefore.write_due_iff (hsizes w (by simp)) (hsettled ▸ hroom ws w [] rfl), hpush, hsettled]
    constructor
    · rintro ⟨hin, byte, rest, rfl, hrest, hends⟩
      refine ⟨?_, hin, ws.flatten, byte, rest, hdata, hrest, hends⟩
      by_contra hnot
      have := htail hnot
      rw [List.length_cons] at this
      omega
    · rintro ⟨hfour, hin, old, byte, rest, hold, hrest, hends⟩
      have hw := hword hfour
      obtain ⟨rfl, rfl⟩ := List.append_inj' (hold.symm.trans hdata) (by
        rw [List.length_cons, hrest, hw])
      exact ⟨hin, byte, rest, rfl, hrest, hends⟩

theorem late_append {before : List Byte} (hsound : f.Sound)
    (hsteps : Steps (step pf) (f.push before) f') (hlen : 4 ≤ data.length) :
    Late pf f (before ++ data) ↔ Late pf f' data := by
  have hpush (v : List Byte) : (f.push (before ++ v)).settled pf = (f'.push v).settled pf := by
    have hpushed : (f.push (before ++ v)).Sound := hsound
    refine settled_eq hpushed ?_
    rw [← push_push]
    have hbefore : (f.push before).Sound := hsound
    exact (fed pf).push_steps hbefore hsteps v
  unfold Late
  rw [hpush]
  refine and_congr_right fun _ => ⟨?_, ?_⟩
  · rintro ⟨old, byte, rest, hold, hrest, hends⟩
    have hle : before.length ≤ old.length := by
      have hlens := congrArg List.length hold
      rw [List.length_append, List.length_append, List.length_cons] at hlens
      omega
    have hprefix : before <+: old :=
      List.prefix_of_prefix_length_le (List.prefix_append before data)
        (hold ▸ List.prefix_append old _) hle
    obtain ⟨old, rfl⟩ := hprefix
    rw [List.append_assoc] at hold
    exact ⟨old, byte, rest, List.append_cancel_left hold, hrest, hpush old ▸ hends⟩
  · rintro ⟨old, byte, rest, rfl, hrest, hends⟩
    exact ⟨before ++ old, byte, rest, (List.append_assoc ..).symm, hrest, (hpush old).symm ▸ hends⟩

theorem writes_packets (pf : Platform) (hsound : f.Sound) (hring : f.bytes.length ≤ kFifoBytes)
    {ws : List (List Byte)} (hws : ∀ w ∈ ws, w.length ≤ 4) :
    ∃ l, (f.writes pf ws).gx.applied = f.gx.applied ++ l ∧
      ∀ packet, .xf packet ∈ l → packet.length ≤ kFifoBytes := by
  induction ws generalizing f with
  | nil => exact ⟨[], (List.append_nil _).symm, fun _ hmem => (by cases hmem)⟩
  | cons w ws ih =>
    have hpushed : (f.pushBytes w).Sound ∧ (f.pushBytes w).bytes.length ≤ kFifoBytes ∧
        (f.pushBytes w).gx = f.gx := by
      have hw := hws w List.mem_cons_self
      unfold pushBytes
      split
      · refine ⟨hsound, ?_, rfl⟩
        show w.length ≤ kFifoBytes
        unfold kFifoBytes
        omega
      · refine ⟨hsound, ?_, rfl⟩
        show (f.bytes ++ w).length ≤ kFifoBytes
        rw [List.length_append]
        omega
    obtain ⟨hsound', hring', hgx⟩ := hpushed
    have hsteps : Steps (step pf) (f.pushBytes w) (f.HleFifoWrite pf w) := parse_steps hsound'
    obtain ⟨l, hl, hshort⟩ := short_packets hsound' hsteps
    obtain ⟨l', hl', hshort'⟩ := ih ((fed pf).inv_steps hsound' hsteps)
      (Nat.le_trans (steps_bytes hsteps) hring') fun u hu => hws u (List.mem_cons_of_mem _ hu)
    refine ⟨l ++ l', ?_, fun packet hmem => ?_⟩
    · show ((f.HleFifoWrite pf w).writes pf ws).gx.applied = _
      rw [hl', hl, hgx, List.append_assoc]
    · rcases List.mem_append.mp hmem with hmem | hmem
      · exact Nat.le_trans (hshort packet hmem) hring'
      · exact hshort' packet hmem

end RawFifo

end DolTranslator.Gx.Hle
