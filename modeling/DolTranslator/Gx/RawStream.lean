import DolTranslator.Gx.RawFifo

/-!
# A stream of commands that is all there

What the raw FIFO's writes come to when their bytes are run as one stream, command by command.

* `units`   an attribute in the stream, as so many values of so many bytes each;
* `attrsOf`   the attributes that a draw's bytes are;
* `command`   one command; `Run` a stream, and what is left of it;
* `command_resumable`   a command looks at its own bytes only, and one that is cut does nothing;
* `weight`   the bytes in what is applied, of which a command's head takes nine at most.
-/

namespace DolTranslator.Gx.Hle

open Function Streams

/-! ## the bytes of a vertex -/

namespace VtxState

/-- the bytes of each value of an attribute, and their number -/
def units (s : VtxState) (fmt attr : Nat) : Nat × Nat :=
  let f := s.vtxAttrFmt fmt attr
  let indices := if attr = 10 then NormalIndexCount f else 1
  if IsMatrixIndexAttr attr then (1, 1)
  else
    match s.vtxDesc attr with
    | .index8 => (1, indices)
    | .index16 => (2, indices)
    | _ =>
      if attr = 11 ∨ attr = 12 then (1, ColorByteSize f.type f.cnt)
      else (GetCompSizeBytes f.type, GetExpectedCompCount attr f)

def attrBytes (s : VtxState) (fmt attr : Nat) : Nat :=
  (s.units fmt attr).1 * (s.units fmt attr).2

def bytesOf (s : VtxState) (fmt : Nat) (attrs : List Nat) : Nat :=
  (attrs.map (s.attrBytes fmt)).sum

def attrsOf (s : VtxState) (fmt : Nat) : List Nat → List Byte → List Applied
  | [], _ => []
  | attr :: attrs, data =>
    .attr attr (s.units fmt attr).1 (beWords (s.units fmt attr).1 (s.units fmt attr).2 data) ::
      s.attrsOf fmt attrs (data.drop (s.attrBytes fmt attr))

/-- the attributes of so many vertices -/
def vertices (s : VtxState) (count : Nat) : List Nat := (List.replicate count s.enabled).flatten

/-- the bytes of a draw after its first one; a vertex of no attributes is no vertex -/
def drawSize (s : VtxState) (cmd : Byte) (data : List Byte) : Option Nat :=
  if s.enabled = [] ∧ be16 data ≠ 0 then none
  else some (2 + s.bytesOf (cmd.toNat % 8) (s.vertices (be16 data)))

end VtxState

/-! ## commands -/

/-- a draw that is whole: in one piece when its layout is direct, unless that is refused -/
def draw (pf : Platform) (cmd : Byte) (gx : GxState) (data : List Byte) : GxState :=
  let count := be16 data
  let fmt := cmd.toNat % 8
  let prim := OpcodeToGXPrimitive cmd
  let body := (data.drop 2).take (gx.vtx.bytesOf fmt (gx.vtx.vertices count))
  if (gx.vtx.TryGetRawDirectFifoVertexSize fmt).isSome ∧ count ≠ 0 ∧
      pf.submitRaw gx.applied prim fmt count body then
    gx.apply (.rawDraw prim fmt count body)
  else
    { gx with
      applied := gx.applied ++ .begin_ prim fmt count ::
        gx.vtx.attrsOf fmt (gx.vtx.vertices count) body ++ [.end_] }

/-- a command after its first byte -/
def commandBody (pf : Platform) (cmd : Byte) (gx : GxState) (data : List Byte) :
    GxState × Option (List Byte) :=
  if isLoad cmd then load pf cmd gx data
  else if IsDrawOpcode cmd then
    if data.length < 2 then (gx, none)
    else
      match gx.vtx.drawSize cmd data with
      | none => (gx, none)
      | some n => if data.length < n then (gx, none) else (draw pf cmd gx data, some (data.drop n))
  else (gx, none)

/-- none for one that is not all there, or not known -/
def command (pf : Platform) (gx : GxState) : List Byte → GxState × Option (List Byte)
  | [] => (gx, none)
  | cmd :: data => commandBody pf cmd gx data

def Run (pf : Platform) (gx : GxState) (data : List Byte) : GxState × List Byte :=
  loop (command pf) data.length gx data

/-- whole commands and nothing else -/
def WellFormed (pf : Platform) (gx : GxState) (data : List Byte) : Prop :=
  (Run pf gx data).2 = []

theorem length_beWords (unit n : Nat) (data : List Byte) : (beWords unit n data).length = n := by
  induction n generalizing data with
  | zero => rfl
  | succ n ih =>
    show (beWords unit n (data.drop unit)).length + 1 = n + 1
    rw [ih]

variable {data : List Byte}

theorem beWords_append (unit n : Nat) (more : List Byte)
    (h : unit * n ≤ data.length) : beWords unit n (data ++ more) = beWords unit n data := by
  induction n generalizing data with
  | zero => rfl
  | succ n ih =>
    rw [Nat.mul_succ] at h
    show beWord ((data ++ more).take unit) :: beWords unit n ((data ++ more).drop unit) = _
    rw [List.take_append_of_le_length (by omega), List.drop_append_of_le_length (by omega),
      ih (by rw [List.length_drop]; omega)]
    rfl

theorem beWords_succ (unit n : Nat) (more : List Byte)
    (h : data.length = unit * n) :
    beWords unit (n + 1) (data ++ more) = beWords unit n data ++ [beWord (more.take unit)] := by
  induction n generalizing data with
  | zero =>
    rw [Nat.mul_zero, List.length_eq_zero_iff] at h
    rw [h]
    rfl
  | succ n ih =>
    rw [Nat.mul_succ] at h
    show beWord ((data ++ more).take unit) :: beWords unit (n + 1) ((data ++ more).drop unit) = _
    rw [List.take_append_of_le_length (by omega), List.drop_append_of_le_length (by omega),
      ih (by rw [List.length_drop]; omega)]
    rfl

namespace VtxState

variable {s : VtxState} {fmt attr : Nat}

/-! ## layouts -/

theorem bytesOf_cons (attrs : List Nat) :
    s.bytesOf fmt (attr :: attrs) = s.attrBytes fmt attr + s.bytesOf fmt attrs := by
  show ((attr :: attrs).map _).sum = _
  rw [List.map_cons, List.sum_cons]
  rfl

theorem attrsOf_append {attrs : List Nat} (more : List Byte)
    (h : s.bytesOf fmt attrs ≤ data.length) :
    s.attrsOf fmt attrs (data ++ more) = s.attrsOf fmt attrs data := by
  induction attrs generalizing data with
  | nil => rfl
  | cons attr attrs ih =>
    rw [bytesOf_cons] at h
    have hbytes : (s.units fmt attr).1 * (s.units fmt attr).2 = s.attrBytes fmt attr := rfl
    show Applied.attr _ _ (beWords _ _ (data ++ more)) ::
      s.attrsOf fmt attrs ((data ++ more).drop _) = _
    rw [beWords_append _ _ more (by omega), List.drop_append_of_le_length (by omega),
      ih (by rw [List.length_drop]; omega)]
    rfl

theorem attrsOf_take {attrs : List Nat} (h : s.bytesOf fmt attrs ≤ data.length) :
    s.attrsOf fmt attrs (data.take (s.bytesOf fmt attrs)) = s.attrsOf fmt attrs data := by
  have hlen : s.bytesOf fmt attrs ≤ (data.take (s.bytesOf fmt attrs)).length := by
    rw [List.length_take]
    omega
  rw [← attrsOf_append (data.drop (s.bytesOf fmt attrs)) hlen, List.take_append_drop]

theorem compSize_pos (type : Nat) : 0 < GetCompSizeBytes type ∧ GetCompSizeBytes type ≤ 4 := by
  unfold GetCompSizeBytes
  rcases type with _ | _ | _ | _ | _ | n <;> simp

theorem colorSize_pos (type cnt : Nat) : 0 < ColorByteSize type cnt ∧ ColorByteSize type cnt ≤ 4 := by
  unfold ColorByteSize
  rcases type with _ | _ | _ | _ | _ | _ | n <;> simp
  split <;> omega

theorem compCount_pos (attr : Nat) (f : VtxAttrFmt) :
    0 < GetExpectedCompCount attr f ∧ GetExpectedCompCount attr f ≤ 9 := by
  unfold GetExpectedCompCount
  split_ifs <;> omega

theorem attrBytes_pos (s : VtxState) (fmt attr : Nat) :
    0 < s.attrBytes fmt attr ∧ s.attrBytes fmt attr ≤ 36 := by
  obtain ⟨hs, hs4⟩ := compSize_pos (s.vtxAttrFmt fmt attr).type
  obtain ⟨hc, hc9⟩ := compCount_pos attr (s.vtxAttrFmt fmt attr)
  obtain ⟨hcol, hcol4⟩ := colorSize_pos (s.vtxAttrFmt fmt attr).type (s.vtxAttrFmt fmt attr).cnt
  have hpos := Nat.mul_pos hs hc
  have hle := Nat.mul_le_mul hs4 hc9
  unfold attrBytes units NormalIndexCount
  dsimp only
  split_ifs <;> cases s.vtxDesc attr <;> simp <;> omega

theorem bytesOf_pos (s : VtxState) (fmt : Nat) {attrs : List Nat} (h : attrs ≠ []) : 0 < s.bytesOf fmt attrs := by
  cases attrs with
  | nil => exact absurd rfl h
  | cons attr attrs =>
    have := attrBytes_pos s fmt attr
    rw [bytesOf_cons]
    omega

end VtxState

variable (pf : Platform)

/-! ## streams -/

theorem loadXf_body (cmd : Byte) : Body (loadXf cmd) :=
  .counted 4 (fun _ data => some (4 + (be16 data + 1) * 4))
    (fun (gx : GxState) data => gx.apply (.xf (cmd :: data.take (4 + (be16 data + 1) * 4))))
    (fun _ data more h => by rw [be16_append (by omega)])
    (fun _ data n h => by
      cases h
      omega)
    (fun gx data more n hn h => by
      cases hn
      rw [be16_append (by omega), List.take_append_of_le_length h])

theorem load_body (cmd : Byte) : Body (load pf cmd) := by
  unfold load
  refine .ite .skip (.ite ?_ (.ite ?_ (.ite (loadXf_body cmd) (.ite ?_ ?_))))
  · refine .fixed 4 (fun (gx : GxState) data => gx.apply (.bp (be32 data))) fun gx data more h => ?_
    rw [be32_append h]
  · refine .fixed 5 (fun (gx : GxState) data =>
      gx.loadCp (data.getD 0 0).toNat (be32 (data.drop 1))) fun gx data more h => ?_
    rw [List.getD_append _ _ _ _ (by omega), be32_drop_append (by omega)]
  · refine .fixed 4 (fun (gx : GxState) data => gx.apply (.indexedXf cmd (be32 data)))
      fun gx data more h => ?_
    rw [be32_append h]
  · refine .fixed 8 (fun (gx : GxState) data =>
      gx.callList pf (be32 data) (be32 (data.drop 4))) fun gx data more h => ?_
    rw [be32_append (by omega), be32_drop_append (by omega)]

theorem commandBody_body (cmd : Byte) : Body (commandBody pf cmd) := by
  unfold commandBody
  refine .ite (load_body pf cmd) (.ite (.counted 2 (fun gx data => gx.vtx.drawSize cmd data)
    (draw pf cmd) ?_ ?_ ?_) .stop)
  · intro gx data more h
    unfold VtxState.drawSize
    rw [be16_append h]
  · intro gx data n h
    unfold VtxState.drawSize at h
    split at h
    · cases h
    · cases h
      omega
  · intro gx data more n hn h
    unfold VtxState.drawSize at hn
    split at hn
    · cases hn
    · cases hn
      unfold draw
      dsimp only
      rw [be16_append (by omega), List.drop_append_of_le_length (by omega),
        List.take_append_of_le_length (by rw [List.length_drop]; omega)]

theorem command_resumable : Resumable (command pf) :=
  .of_bodies (fun _ => rfl) (fun _ _ _ => rfl) (commandBody_body pf)

variable {pf} {gx gx' : GxState} {data rest more : List Byte}

variable {cmd : Byte}

theorem load_cut (h : load pf cmd gx data = (gx', none)) : gx' = gx := by
  unfold load loadXf at h
  dsimp only at h
  split_ifs at h <;> cases h <;> rfl

theorem command_cut (h : command pf gx data = (gx', none)) : gx' = gx := by
  cases data with
  | nil =>
    cases h
    rfl
  | cons cmd data =>
    change commandBody pf cmd gx data = _ at h
    unfold commandBody at h
    split at h
    · exact load_cut h
    · split at h
      · split at h
        · cases h
          rfl
        · split at h
          · cases h
            rfl
          · split at h <;> cases h
            rfl
      · cases h
        rfl

/-- a draw that is whole -/
structure Drawn (pf : Platform) (cmd : Byte) (gx : GxState) (data : List Byte) (gx' : GxState)
    (rest : List Byte) : Prop where
  opcode : isLoad cmd = false ∧ IsDrawOpcode cmd = true
  layout : gx.vtx.enabled = [] → be16 data = 0
  whole : 2 + gx.vtx.bytesOf (cmd.toNat % 8) (gx.vtx.vertices (be16 data)) ≤ data.length
  state : gx' = draw pf cmd gx data
  left : rest = data.drop (2 + gx.vtx.bytesOf (cmd.toNat % 8) (gx.vtx.vertices (be16 data)))

theorem command_some (h : command pf gx (cmd :: data) = (gx', some rest)) :
    isLoad cmd = true ∧ load pf cmd gx data = (gx', some rest) ∨
      Drawn pf cmd gx data gx' rest := by
  change commandBody pf cmd gx data = _ at h
  unfold commandBody VtxState.drawSize at h
  split at h
  · next hload => exact .inl ⟨hload, h⟩
  · next hload =>
    split at h
    · next hdraw =>
      split at h
      · cases h
      · split at h
        · cases h
        · next n hn =>
          split at h
          · cases h
          · next hlen =>
            cases h
            split at hn
            · cases hn
            · next hlayout =>
              cases hn
              exact .inr ⟨⟨by simpa using hload, hdraw⟩,
                fun he => by_contra fun hc => hlayout ⟨he, hc⟩, by omega, rfl, rfl⟩
    · cases h

theorem command_draw (pf : Platform) (hload : isLoad cmd = false) (hdraw : IsDrawOpcode cmd = true)
    (h2 : 2 ≤ data.length) (hlayout : gx.vtx.enabled = [] → be16 data = 0) :
    command pf gx (cmd :: data) =
      if data.length < 2 + gx.vtx.bytesOf (cmd.toNat % 8) (gx.vtx.vertices (be16 data)) then
        (gx, none)
      else
        (draw pf cmd gx data,
          some (data.drop (2 + gx.vtx.bytesOf (cmd.toNat % 8) (gx.vtx.vertices (be16 data))))) := by
  show commandBody pf cmd gx data = _
  unfold commandBody VtxState.drawSize
  rw [hload, hdraw, if_neg Bool.false_ne_true, if_pos rfl, if_neg (by omega),
    if_neg fun h => h.2 (hlayout h.1)]

theorem Run_some (h : command pf gx data = (gx', some rest)) : Run pf gx data = Run pf gx' rest := by
  have hlt := (command_resumable pf).shrinks gx data gx' rest h
  obtain ⟨n, hn⟩ : ∃ n, data.length = n + 1 := ⟨data.length - 1, by omega⟩
  unfold Run
  rw [hn, loop_some (List.ne_nil_of_length_eq_add_one hn) h]
  exact (command_resumable pf).loop_fuel (by omega) le_rfl

theorem Run_none (h : (command pf gx data).2 = none) : Run pf gx data = (gx, data) := by
  rcases hc : command pf gx data with ⟨gx', o⟩
  rw [hc] at h
  subst h
  obtain rfl := command_cut hc
  unfold Run
  cases data with
  | nil => rfl
  | cons b data => exact loop_none (List.cons_ne_nil b data) hc

/-- **In two pieces.**  What is left of the first piece is run before the second. -/
theorem Run_append (gx : GxState) (data more : List Byte) :
    Run pf gx (data ++ more) = Run pf (Run pf gx data).1 ((Run pf gx data).2 ++ more) :=
  (command_resumable pf).loop_append le_rfl le_rfl le_rfl

theorem command_some_append (more : List Byte) (h : command pf gx data = (gx', some rest)) :
    command pf gx (data ++ more) = (gx', some (rest ++ more)) :=
  (command_resumable pf).grows gx data gx' rest more h

theorem command_suffix (h : command pf gx data = (gx', some rest)) : rest <:+ data := by
  cases data with
  | nil => cases h
  | cons cmd data =>
    exact ((commandBody_body pf cmd).suffix _ _ _ _ h).trans (List.suffix_cons cmd data)

theorem Run_suffix (pf : Platform) (gx : GxState) (data : List Byte) :
    (Run pf gx data).2 <:+ data :=
  loop_suffix (fun _ _ _ _ => command_suffix) data.length gx data

theorem command_fresh (hnone : (command pf gx data).2 = none)
    (h : command pf gx (data ++ more) = (gx', some rest)) : rest.length < more.length := by
  by_contra hlen
  have hsuffix := command_suffix h
  obtain ⟨old, rfl⟩ : ∃ old, rest = old ++ more := by
    obtain ⟨old, hold⟩ := List.suffix_of_suffix_length_le (List.suffix_append data more) hsuffix
      (by omega)
    exact ⟨old, hold.symm⟩
  rw [(command_resumable pf).tight _ _ _ _ _ h] at hnone
  cases hnone

/-! ## what a command applies -/

def Applied.weight : Applied → Nat
  | .xf packet => packet.length
  | .rawDraw _ _ _ body => body.length
  | .attr _ unit raws => unit * raws.length
  | _ => 0

def weight (applied : List Applied) : Nat := (applied.map Applied.weight).sum

theorem weight_append (xs ys : List Applied) : weight (xs ++ ys) = weight xs + weight ys := by
  unfold weight
  rw [List.map_append, List.sum_append]

theorem weight_append_one (xs : List Applied) (a : Applied) :
    weight (xs ++ [a]) = weight xs + a.weight := by
  rw [weight_append]
  exact congrArg _ (Nat.add_zero _)

theorem weight_attrsOf (s : VtxState) (fmt : Nat) (attrs : List Nat) (data : List Byte) :
    weight (s.attrsOf fmt attrs data) = s.bytesOf fmt attrs := by
  induction attrs generalizing data with
  | nil => rfl
  | cons attr attrs ih =>
    rw [VtxState.bytesOf_cons, ← ih (data.drop (s.attrBytes fmt attr))]
    show weight (_ :: _) = _
    unfold weight
    rw [List.map_cons, List.sum_cons]
    show _ * (beWords _ _ data).length + _ = _
    rw [length_beWords]
    rfl

/-- what a command does to the log -/
structure Applies (gx gx' : GxState) (bytes : Nat) : Prop where
  grows : gx.applied <+: gx'.applied
  /-- a head has nine bytes at most -/
  weighs : weight gx.applied + bytes ≤ weight gx'.applied + 9

theorem GxState.apply_applied (gx : GxState) (a : Applied) :
    (gx.apply a).applied = gx.applied ++ [a] := rfl

theorem Applies.one {bytes : Nat} {a : Applied}
    (ha : gx'.applied = gx.applied ++ [a]) (h : bytes ≤ a.weight + 9) :
    Applies gx gx' bytes where
  grows := ha ▸ List.prefix_append _ _
  weighs := by
    rw [ha, weight_append_one]
    omega

theorem Applies.nothing {bytes : Nat} (h : bytes ≤ 9) : Applies gx gx bytes :=
  ⟨List.prefix_refl _, by omega⟩

theorem load_applies (h : load pf cmd gx data = (gx', some rest)) :
    Applies gx gx' (data.length + 1 - rest.length) := by
  unfold load loadXf at h
  dsimp only at h
  split_ifs at h <;> cases h
  · exact .nothing (by omega)
  · refine .one (GxState.apply_applied ..) ?_
    rw [List.length_drop]
    omega
  · refine .one (a := .cp _ _) rfl ?_
    rw [List.length_drop]
    omega
  · refine .one (GxState.apply_applied ..) ?_
    show _ ≤ (cmd :: data.take _).length + 9
    rw [List.length_drop, List.length_cons, List.length_take]
    omega
  · refine .one (GxState.apply_applied ..) ?_
    rw [List.length_drop]
    omega
  · unfold GxState.callList
    split
    · refine .one (a := .callList _ _) rfl ?_
      rw [List.length_drop]
      omega
    · refine .nothing ?_
      rw [List.length_drop]
      omega

theorem load_weighs (h : load pf cmd gx data = (gx', some rest)) :
    weight gx'.applied + rest.length ≤ weight gx.applied + data.length + 1 := by
  have hone (a : Applied) {n : Nat} (ha : a.weight ≤ n + 1) (hn : n ≤ data.length) :
      weight (gx.applied ++ [a]) + (data.drop n).length ≤
        weight gx.applied + data.length + 1 := by
    rw [weight_append_one, List.length_drop]
    omega
  unfold load loadXf GxState.callList at h
  dsimp only at h
  split_ifs at h <;> cases h
  · omega
  · exact hone (.bp _) (Nat.zero_le _) (by omega)
  · exact hone (.cp _ _) (Nat.zero_le _) (by omega)
  · refine hone (.xf _) ?_ (by omega)
    show (cmd :: data.take _).length ≤ _
    rw [List.length_cons, List.length_take]
    omega
  · exact hone (.indexedXf _ _) (Nat.zero_le _) (by omega)
  · exact hone (.callList _ _) (Nat.zero_le _) (by omega)
  · rw [List.length_drop]
    omega

theorem Drawn.applies (h : Drawn pf cmd gx data gx' rest) :
    Applies gx gx' (data.length + 1 - rest.length) := by
  have hlen := h.whole
  rw [h.left, h.state, List.length_drop]
  unfold draw
  dsimp only
  split
  · refine .one (GxState.apply_applied ..) ?_
    show _ ≤ ((data.drop 2).take _).length + 9
    rw [List.length_take, List.length_drop]
    omega
  · refine ⟨List.append_assoc gx.applied _ _ ▸ List.prefix_append _ _, ?_⟩
    dsimp only
    have hbegin (prim fmt count : Nat) (l : List Applied) :
        weight (.begin_ prim fmt count :: l) = weight l := by
      unfold weight
      rw [List.map_cons, List.sum_cons]
      exact Nat.zero_add _
    rw [weight_append, weight_append, hbegin, weight_attrsOf]
    omega

theorem command_applies (h : command pf gx (cmd :: data) = (gx', some rest)) :
    Applies gx gx' (data.length + 1 - rest.length) := by
  rcases command_some h with ⟨-, h⟩ | h
  · exact load_applies h
  · exact h.applies

theorem command_keeps (pf : Platform) (gx : GxState) (data : List Byte) :
    gx.applied <+: (command pf gx data).1.applied := by
  rcases h : command pf gx data with ⟨gx', o⟩
  cases o with
  | none =>
    rw [command_cut h]
  | some rest =>
    cases data with
    | nil => cases h
    | cons cmd data => exact (command_applies h).grows

theorem Run_keeps (pf : Platform) (gx : GxState) (data : List Byte) :
    gx.applied <+: (Run pf gx data).1.applied :=
  loop_rel (R := fun m m' : GxState => m.applied <+: m'.applied) (fun _ => List.prefix_refl _)
    (fun _ _ _ => List.IsPrefix.trans) (command_keeps pf) data.length gx data

/-! ## draws of no vertices -/

def HasEmptyDraw (applied : List Applied) : Prop := ∃ prim fmt, .begin_ prim fmt 0 ∈ applied

def Applied.isEmptyDraw : Applied → Bool
  | .begin_ _ _ 0 => true
  | _ => false

instance : DecidablePred HasEmptyDraw := fun xs =>
  decidable_of_iff (xs.any Applied.isEmptyDraw = true) <| by
    rw [List.any_eq_true]
    constructor
    · rintro ⟨a, hmem, ha⟩
      cases a with
      | begin_ prim fmt count =>
        cases count with
        | zero => exact ⟨prim, fmt, hmem⟩
        | succ count => cases ha
      | _ => cases ha
    · rintro ⟨prim, fmt, hmem⟩
      exact ⟨_, hmem, rfl⟩

theorem HasEmptyDraw.mono {xs ys : List Applied} (h : HasEmptyDraw xs) (hle : xs <+: ys) :
    HasEmptyDraw ys := by
  obtain ⟨prim, fmt, hmem⟩ := h
  exact ⟨prim, fmt, hle.subset hmem⟩

theorem HasEmptyDraw.of_append {xs : List Applied} {a : Applied}
    (ha : ∀ prim fmt, Applied.begin_ prim fmt 0 ≠ a) (h : HasEmptyDraw (xs ++ [a])) :
    HasEmptyDraw xs := by
  obtain ⟨prim, fmt, hmem⟩ := h
  rw [List.mem_append, List.mem_singleton] at hmem
  exact ⟨prim, fmt, hmem.resolve_right (ha prim fmt)⟩

theorem load_draws {o : Option (List Byte)} (h : load pf cmd gx data = (gx', o))
    (hempty : HasEmptyDraw gx'.applied) : HasEmptyDraw gx.applied := by
  unfold load loadXf GxState.callList at h
  dsimp only at h
  split_ifs at h <;> cases h <;> first
    | exact hempty
    | exact hempty.of_append fun _ _ => by simp

theorem load_bytes (h : load pf cmd gx data = (gx', some rest)) :
    (gx' = gx ∧ rest = data) ∨ 4 ≤ data.length := by
  unfold load loadXf at h
  dsimp only at h
  split_ifs at h <;> cases h <;> first | exact .inl ⟨rfl, rfl⟩ | exact .inr (by omega)

/-- three bytes hold nothing but commands without effect and draws of no vertices -/
theorem Run_tiny (gx : GxState) (h3 : data.length ≤ 3) :
    (Run pf gx data).1 = gx ∨ HasEmptyDraw (Run pf gx data).1.applied := by
  induction hn : data.length using Nat.strong_induction_on generalizing data with
  | _ n ih =>
    rcases hc : command pf gx data with ⟨gx', o⟩
    cases o with
    | none =>
      rw [Run_none (by rw [hc])]
      exact .inl rfl
    | some rest =>
      have hlt := (command_resumable pf).shrinks gx data gx' rest hc
      rw [Run_some hc]
      cases data with
      | nil => cases hc
      | cons cmd data =>
        rw [List.length_cons] at h3 hn hlt
        rcases command_some hc with ⟨-, hload⟩ | hdraw
        · rcases load_bytes hload with ⟨rfl, rfl⟩ | hlen
          · exact ih rest.length (by omega) (by omega) rfl
          · omega
        · have hwhole := hdraw.whole
          -- a vertex has a byte at least
          have hcount : be16 data = 0 := by
            by_contra hcount
            have hattrs : gx.vtx.vertices (be16 data) ≠ [] := by
              obtain ⟨count, hsucc⟩ := Nat.exists_eq_succ_of_ne_zero hcount
              rw [VtxState.vertices, hsucc, List.replicate_succ, List.flatten_cons]
              exact List.append_ne_nil_of_left_ne_nil (fun h => hcount (hdraw.layout h)) _
            have := VtxState.bytesOf_pos gx.vtx (cmd.toNat % 8) hattrs
            omega
          refine .inr (HasEmptyDraw.mono ?_ (Run_keeps pf _ _))
          rw [hdraw.state]
          unfold draw
          rw [hcount]
          exact ⟨OpcodeToGXPrimitive cmd, cmd.toNat % 8, by simp⟩

end DolTranslator.Gx.Hle
