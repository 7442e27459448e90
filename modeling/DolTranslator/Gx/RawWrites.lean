import DolTranslator.Gx.RawSteps

/-!
# Writes as steps

A write runs the parser as far as it comes, with one exception: a draw that ends in the middle of a
write leaves the few bytes behind it to the next one.

* `commands`, `parse`   the two loops of a write;
* `parse_steps`, `parse_push`   they take steps, and may stop before more comes.
-/

namespace DolTranslator.Gx.Hle

open Function Streams

namespace RawFifo

variable {pf : Platform} {s s' : RawFifo} {w : List Byte} {fuel : Nat}

/-! ## the loop over commands -/

theorem commandLoop_succ (pf : Platform) (fuel : Nat) (hidle : s.inBegin = false) :
    commandLoop pf (fuel + 1) s =
      match s.commandStep pf with
      | none => s
      | some s' => commandLoop pf fuel s' := by
  rw [commandLoop, if_neg (by rw [hidle]; exact Bool.false_ne_true)]
  unfold commandStep
  cases s.bytes with
  | nil => rfl
  | cons cmd data =>
    dsimp only
    split
    · rcases load pf cmd s.gx data with ⟨gx, _ | rest⟩ <;> rfl
    · split
      · cases s.drawCommand pf cmd data <;> rfl
      · rfl

theorem commandLoop_steps (pf : Platform) (fuel : Nat) (s : RawFifo) :
    Steps (step pf) s (commandLoop pf fuel s) := by
  induction fuel generalizing s with
  | zero => exact .refl s
  | succ fuel ih =>
    cases hin : s.inBegin with
    | true =>
      rw [commandLoop_inBegin _ hin]
      exact .refl s
    | false =>
      rw [commandLoop_succ pf fuel hin]
      cases hstep : s.commandStep pf with
      | none => exact .refl s
      | some s' =>
        refine .head ?_ (ih s')
        rw [step_idle hin]
        exact hstep

theorem commandLoop_stops (hfuel : s.bytes.length < fuel)
    (hidle : (commandLoop pf fuel s).inBegin = false) :
    (commandLoop pf fuel s).commandStep pf = none := by
  induction fuel generalizing s with
  | zero => omega
  | succ fuel ih =>
    cases hin : s.inBegin with
    | true =>
      rw [commandLoop_inBegin _ hin, hin] at hidle
      cases hidle
    | false =>
      rw [commandLoop_succ pf fuel hin] at hidle ⊢
      cases hstep : s.commandStep pf with
      | none => exact hstep
      | some s' =>
        rw [hstep] at hidle
        have := commandStep_bytes hstep
        exact ih (by omega) hidle

theorem commandLoop_fuel {n k : Nat} (hn : s.bytes.length < n) (hk : s.bytes.length < k) :
    commandLoop pf n s = commandLoop pf k s := by
  induction n generalizing s k with
  | zero => omega
  | succ n ih =>
    obtain ⟨k, rfl⟩ : ∃ j, k = j + 1 := ⟨k - 1, by omega⟩
    cases hin : s.inBegin with
    | true => rw [commandLoop_inBegin _ hin, commandLoop_inBegin _ hin]
    | false =>
      rw [commandLoop_succ pf n hin, commandLoop_succ pf k hin]
      cases hstep : s.commandStep pf with
      | none => rfl
      | some s' =>
        have := commandStep_bytes hstep
        exact ih (by omega) (by omega)

def commands (pf : Platform) (s : RawFifo) : RawFifo := commandLoop pf (s.bytes.length + 1) s

theorem commands_inBegin (h : s.inBegin = true) : s.commands pf = s := commandLoop_inBegin _ h

theorem commands_none (hidle : s.inBegin = false) (h : s.commandStep pf = none) :
    s.commands pf = s := by
  unfold commands
  rw [commandLoop_succ pf _ hidle, h]

theorem commands_some (hidle : s.inBegin = false) (h : s.commandStep pf = some s') :
    s.commands pf = s'.commands pf := by
  have := commandStep_bytes h
  unfold commands
  rw [commandLoop_succ pf _ hidle, h]
  exact commandLoop_fuel (by omega) (by omega)

theorem commands_induct (pf : Platform) {P : RawFifo → Prop} (hP : P s)
    (hstep : ∀ {s s'}, P s → s.inBegin = false → s.commandStep pf = some s' → P s') :
    P (s.commands pf) := by
  obtain ⟨n, hn⟩ : ∃ n, s.bytes.length = n := ⟨_, rfl⟩
  induction n using Nat.strongRecOn generalizing s with
  | ind n ih =>
    cases hin : s.inBegin with
    | true => rwa [commands_inBegin hin]
    | false =>
      cases hs : s.commandStep pf with
      | none => rwa [commands_none hin hs]
      | some s' =>
        rw [commands_some hin hs]
        exact ih _ (hn ▸ commandStep_bytes hs) (hstep hP hin hs) rfl

theorem commands_bytes (pf : Platform) (s : RawFifo) :
    (s.commands pf).bytes.length ≤ s.bytes.length :=
  commands_induct pf (P := fun t => t.bytes.length ≤ s.bytes.length) (Nat.le_refl _)
    fun hle _ h => Nat.le_trans (Nat.le_of_lt (commandStep_bytes h)) hle

theorem commands_push (pf : Platform) (s : RawFifo) (w : List Byte) :
    (s.push w).commands pf = ((s.commands pf).push w).commands pf :=
  commands_induct pf (P := fun t => (s.push w).commands pf = (t.push w).commands pf) rfl
    fun {s _} heq hidle h => heq.trans (commands_some (s := s.push w) hidle (commandStep_push h w))

/-! ## the loop over attributes -/

theorem vertexLoop_none (fuel : Nat) (hin : s.inBegin = true) (hattr : s.currentAttr = none) :
    vertexLoop (fuel + 1) s = { s with bytes := [] } := by
  rw [vertexLoop, if_pos hin, hattr]

theorem vertexLoop_succ (fuel : Nat) {attr : Nat} (hsound : s.Sound) (hin : s.inBegin = true)
    (hattr : s.currentAttr = some attr) :
    vertexLoop (fuel + 1) s =
      match s.vertexStep with
      | none => s
      | some s' => vertexLoop fuel s' := by
  by_cases hcomp : s.gx.vtx.Componentwise attr = true
  · rw [vertexLoop_component hin hattr hcomp, vertexStep_component hattr hcomp]
    split
    · rfl
    · dsimp only
      rw [List.length_append, List.length_singleton]
      split <;> rfl
  · have hwhole : s.gx.vtx.Componentwise attr = false := by simpa using hcomp
    rw [vertexLoop_whole hin hattr (.inr (hsound hin attr hattr)) hwhole,
      vertexStep_whole hattr hwhole]
    split <;> rfl

/-- in a draw, its begin done -/
structure Underway (s : RawFifo) : Prop where
  sound : s.Sound
  inBegin : s.inBegin = true
  begun : s.auroraBeginCalled = true

theorem Underway.step (h : s.Underway) : s.step pf = s.vertexStep := step_drawing h.inBegin h.begun

theorem Underway.push (h : s.Underway) (w : List Byte) : (s.push w).Underway := ⟨h.sound, h.inBegin, h.begun⟩

theorem Underway.next (h : s.Underway) (hstep : s.vertexStep = some s') : s'.inBegin = false ∨ s'.Underway := by
  cases hin : s'.inBegin with
  | false => exact .inl rfl
  | true =>
    exact .inr ⟨vertexStep_sound h.sound hstep, hin, ((vertexStep_bytes hstep).2 hin).trans h.begun⟩

theorem Underway.drop (h : s.Underway) (hattr : s.currentAttr = none) :
    Steps (RawFifo.step pf) s { s with bytes := [] } := by
  obtain ⟨data, hdata⟩ : ∃ data, s.bytes = data := ⟨_, rfl⟩
  induction data generalizing s with
  | nil =>
    rw [← hdata]
    exact .refl s
  | cons byte data ih =>
    have hrest : Underway { s with bytes := data } := ⟨h.sound, h.inBegin, h.begun⟩
    have hstep : s.step pf = some { s with bytes := data } := by
      rw [h.step, vertexStep_none hattr, hdata]
      rfl
    exact .head hstep (ih hrest hattr rfl)

theorem vertexLoop_steps (fuel : Nat) (h : s.Underway) :
    Steps (RawFifo.step pf) s (vertexLoop fuel s) := by
  induction fuel generalizing s with
  | zero => exact .refl s
  | succ fuel ih =>
    cases hattr : s.currentAttr with
    | none =>
      rw [vertexLoop_none fuel h.inBegin hattr]
      exact h.drop hattr
    | some attr =>
      rw [vertexLoop_succ fuel h.sound h.inBegin hattr]
      cases hstep : s.vertexStep with
      | none => exact .refl s
      | some s' =>
        refine .head (h.step.trans hstep) ?_
        rcases h.next hstep with hended | hnext
        · show Steps _ s' (vertexLoop fuel s')
          rw [vertexLoop_idle fuel hended]
          exact .refl s'
        · exact ih hnext

theorem vertexLoop_stops (h : s.Underway) (hfuel : s.bytes.length < fuel)
    (hin : (vertexLoop fuel s).inBegin = true) : (vertexLoop fuel s).step pf = none := by
  induction fuel generalizing s with
  | zero => omega
  | succ fuel ih =>
    cases hattr : s.currentAttr with
    | none =>
      rw [vertexLoop_none fuel h.inBegin hattr]
      show (if s.inBegin = true then _ else _) = none
      rw [if_pos h.inBegin, if_pos h.begun]
      exact vertexStep_none (s := { s with bytes := [] }) hattr
    | some attr =>
      rw [vertexLoop_succ fuel h.sound h.inBegin hattr] at hin ⊢
      cases hstep : s.vertexStep with
      | none => exact h.step.trans hstep
      | some s' =>
        rw [hstep] at hin
        have := (vertexStep_bytes hstep).1
        rcases h.next hstep with hended | hnext
        · have hidle : (vertexLoop fuel s').inBegin = false := by rwa [vertexLoop_idle fuel hended]
          exact absurd (hidle.symm.trans hin) Bool.false_ne_true
        · exact ih hnext (by omega) hin

theorem vertexLoop_fuel {n k : Nat} (h : s.Underway) (hn : s.bytes.length < n)
    (hk : s.bytes.length < k) : vertexLoop n s = vertexLoop k s := by
  induction n generalizing s k with
  | zero => omega
  | succ n ih =>
    obtain ⟨k, rfl⟩ : ∃ j, k = j + 1 := ⟨k - 1, by omega⟩
    cases hattr : s.currentAttr with
    | none => rw [vertexLoop_none n h.inBegin hattr, vertexLoop_none k h.inBegin hattr]
    | some attr =>
      rw [vertexLoop_succ n h.sound h.inBegin hattr, vertexLoop_succ k h.sound h.inBegin hattr]
      cases hstep : s.vertexStep with
      | none => rfl
      | some s' =>
        have := (vertexStep_bytes hstep).1
        rcases h.next hstep with hended | hnext
        · show vertexLoop n s' = vertexLoop k s'
          rw [vertexLoop_idle n hended, vertexLoop_idle k hended]
        · exact ih hnext (by omega) (by omega)

def vertices (s : RawFifo) : RawFifo := vertexLoop (s.bytes.length + 1) s

theorem vertices_idle (h : s.inBegin = false) : s.vertices = s := vertexLoop_idle _ h

theorem vertices_none (h : s.Underway) {attr : Nat} (hattr : s.currentAttr = some attr)
    (hstep : s.vertexStep = none) : s.vertices = s := by
  unfold vertices
  rw [vertexLoop_succ _ h.sound h.inBegin hattr, hstep]

theorem vertices_some (h : s.Underway) {attr : Nat} (hattr : s.currentAttr = some attr)
    (hstep : s.vertexStep = some s') : s.vertices = s'.vertices := by
  unfold vertices
  rw [vertexLoop_succ _ h.sound h.inBegin hattr, hstep]
  show vertexLoop s.bytes.length s' = _
  rcases h.next hstep with hended | hnext
  · rw [vertexLoop_idle _ hended, vertexLoop_idle _ hended]
  · exact vertexLoop_fuel hnext (vertexStep_bytes hstep).1 (Nat.lt_succ_self _)

theorem vertices_induct {P : RawFifo → Prop} (h : s.Underway) (hP : P s)
    (hdrop : ∀ {s}, P s → s.Underway → s.currentAttr = none → P { s with bytes := [] })
    (hstep : ∀ {s s' attr}, P s → s.Underway → s.currentAttr = some attr →
      s.vertexStep = some s' → P s') : P s.vertices := by
  obtain ⟨n, hn⟩ : ∃ n, s.bytes.length = n := ⟨_, rfl⟩
  induction n using Nat.strongRecOn generalizing s with
  | ind n ih =>
    cases hattr : s.currentAttr with
    | none =>
      unfold vertices
      rw [vertexLoop_none _ h.inBegin hattr]
      exact hdrop hP h hattr
    | some attr =>
      cases hs : s.vertexStep with
      | none => rwa [vertices_none h hattr hs]
      | some s' =>
        rw [vertices_some h hattr hs]
        rcases h.next hs with hended | hnext
        · rw [vertices_idle hended]
          exact hstep hP h hattr hs
        · exact ih _ (hn ▸ (vertexStep_bytes hs).1) hnext (hstep hP h hattr hs) rfl

theorem vertices_bytes (h : s.Underway) : s.vertices.bytes.length ≤ s.bytes.length :=
  vertices_induct (P := fun t => t.bytes.length ≤ s.bytes.length) h (Nat.le_refl _)
    (fun _ _ _ => Nat.zero_le _)
    fun hle _ _ hs => Nat.le_trans (Nat.le_of_lt (vertexStep_bytes hs).1) hle

theorem vertices_push (h : s.Underway) (w : List Byte) :
    (s.push w).vertices = (s.vertices.push w).vertices := by
  refine vertices_induct (P := fun t => (s.push w).vertices = (t.push w).vertices) h rfl ?_ ?_
  · intro t heq ht hattr
    rw [heq]
    unfold vertices
    rw [vertexLoop_none (s := t.push w) _ ht.inBegin hattr]
    exact (vertexLoop_none (s := { t with bytes := [] ++ w }) _ ht.inBegin hattr).symm
  · intro t t' attr heq ht hattr hs
    exact heq.trans (vertices_some (ht.push w) hattr (vertexStep_push hs w))

/-! ## what a write does -/

def parse (pf : Platform) (s : RawFifo) : RawFifo :=
  if (s.commands pf).inBegin then (s.commands pf).callBegin.vertices else s.commands pf

theorem HleFifoWrite_parse (pf : Platform) (s : RawFifo) (w : List Byte) :
    s.HleFifoWrite pf w = (s.pushBytes w).parse pf := rfl

theorem HleFifoWrite_room (pf : Platform) (h : s.bytes.length + w.length ≤ kFifoBytes) :
    s.HleFifoWrite pf w = (s.push w).parse pf := by
  rw [HleFifoWrite_parse, pushBytes_room h]
  rfl

theorem callBegin_push (s : RawFifo) (w : List Byte) : (s.push w).callBegin = s.callBegin.push w := by
  cases hbegun : s.auroraBeginCalled with
  | true => rw [callBegin_begun hbegun, callBegin_begun (s := s.push w) hbegun]
  | false =>
    rw [callBegin_due hbegun, callBegin_due (s := s.push w) hbegun]
    rfl

theorem callBegin_underway (hsound : s.Sound) (hin : s.inBegin = true) : s.callBegin.Underway := by
  cases hbegun : s.auroraBeginCalled with
  | true =>
    rw [callBegin_begun hbegun]
    exact ⟨hsound, hin, hbegun⟩
  | false =>
    rw [callBegin_due hbegun]
    exact ⟨hsound, hin, rfl⟩

theorem callBegin_bytes (s : RawFifo) : s.callBegin.bytes = s.bytes := by
  unfold callBegin
  split <;> rfl

theorem parse_idle (h : (s.commands pf).inBegin = false) : s.parse pf = s.commands pf :=
  if_neg (by rw [h]; exact Bool.false_ne_true)

theorem parse_begun (h : (s.commands pf).inBegin = true) :
    s.parse pf = (s.commands pf).callBegin.vertices := if_pos h

theorem parse_underway (h : s.Underway) : s.parse pf = s.vertices := by
  have hcommands : s.commands pf = s := commands_inBegin h.inBegin
  rw [parse_begun (hcommands.symm ▸ h.inBegin), hcommands, callBegin_begun h.begun]

theorem commands_sound (pf : Platform) (hsound : s.Sound) : (s.commands pf).Sound :=
  (fed pf).inv_steps hsound (commandLoop_steps pf _ s)

theorem parse_steps (hsound : s.Sound) : Steps (step pf) s (s.parse pf) := by
  have hcommands : Steps (step pf) s (s.commands pf) := commandLoop_steps pf _ s
  refine hcommands.trans ?_
  cases hin : (s.commands pf).inBegin with
  | false =>
    rw [parse_idle hin]
    exact .refl _
  | true =>
    rw [parse_begun hin]
    have hunder := callBegin_underway (commands_sound pf hsound) hin
    cases hbegun : (s.commands pf).auroraBeginCalled with
    | true =>
      rw [callBegin_begun hbegun] at hunder ⊢
      exact vertexLoop_steps _ hunder
    | false => exact .head (step_due hin hbegun) (vertexLoop_steps _ hunder)

theorem parse_sound (hsound : s.Sound) : (s.parse pf).Sound :=
  (fed pf).inv_steps hsound (parse_steps hsound)

theorem parse_stops (hsound : s.Sound) (hin : (s.parse pf).inBegin = true) :
    (s.parse pf).step pf = none := by
  cases hc : (s.commands pf).inBegin with
  | false =>
    rw [parse_idle hc, hc] at hin
    cases hin
  | true =>
    rw [parse_begun hc] at hin ⊢
    exact vertexLoop_stops (callBegin_underway (commands_sound pf hsound) hc) (Nat.lt_succ_self _) hin

theorem parse_idle_stops (h : (s.commands pf).inBegin = false) : (s.parse pf).step pf = none := by
  rw [parse_idle h, step_idle h]
  exact commandLoop_stops (Nat.lt_succ_self _) h

/-- **It may stop before more comes**, unless a draw has just ended. -/
theorem parse_push (hsound : s.Sound)
    (h : (s.commands pf).inBegin = false ∨ (s.parse pf).inBegin = true) (w : List Byte) :
    (s.push w).parse pf = ((s.parse pf).push w).parse pf := by
  cases hc : (s.commands pf).inBegin with
  | false =>
    have hcommands := commands_push pf s w
    rw [parse_idle hc]
    unfold parse
    rw [hcommands]
  | true =>
    have hin := h.resolve_left (by rw [hc]; exact fun h => nomatch h)
    have hunder := callBegin_underway (commands_sound pf hsound) hc
    have hcommands : (s.push w).commands pf = (s.commands pf).push w := by
      rw [commands_push, commands_inBegin (s := (s.commands pf).push w) hc]
    have hparsed : (s.parse pf).Underway := by
      rw [parse_begun hc] at hin ⊢
      exact vertices_induct
        (P := fun t => t.inBegin = true → t.Underway) hunder (fun _ => hunder)
        (fun _ h _ _ => ⟨h.sound, h.inBegin, h.begun⟩)
        (fun _ h _ hs hin => (h.next hs).resolve_left (by rw [hin]; exact fun h => nomatch h)) hin
    rw [parse_underway (hparsed.push w), parse_begun hc, ← vertices_push hunder,
      parse_begun (by rw [hcommands]; exact hc), hcommands, callBegin_push]

theorem parse_push_ended (hsound : s.Sound) (hc : (s.commands pf).inBegin = true)
    (h : (s.parse pf).inBegin = false) (w : List Byte) :
    (s.push w).parse pf = (s.parse pf).push w := by
  have hcommands : (s.push w).commands pf = (s.commands pf).push w := by
    rw [commands_push, commands_inBegin (s := (s.commands pf).push w) hc]
  have hunder := callBegin_underway (commands_sound pf hsound) hc
  rw [parse_begun hc] at h ⊢
  rw [parse_begun (by rw [hcommands]; exact hc), hcommands, callBegin_push, vertices_push hunder,
    vertices_idle (s := (s.commands pf).callBegin.vertices.push w) h]

end RawFifo

end DolTranslator.Gx.Hle
