import DolTranslator.Gx.RawStream

/-!
# The vertices of a draw, one by one

In the middle of a draw the parser has some attributes of its vertices left to take, and perhaps
some components of the first of them taken.

* `finish`   a draw from its middle on;
* `Vertex`   the parser at an attribute of a vertex;
* `takeAttr_spec`, `vertexLoop_spec`   what it takes is what the stream has;
* `Takes`, `Grows`   what any step applies stays, and is out of the bytes of the ring.
-/

namespace DolTranslator.Gx.Hle

open Function Streams

/-! ## the order of attributes -/

namespace VtxState

variable {s : VtxState} {fmt attr : Nat} {attrs : List Nat}

theorem enabled_sorted (s : VtxState) : s.enabled.Pairwise (· < ·) :=
  List.pairwise_lt_range.filter _

theorem NextEnabledAttr_zero (s : VtxState) : s.NextEnabledAttr 0 = s.enabled.head? := by
  unfold NextEnabledAttr
  cases s.enabled <;> rfl

theorem NextEnabledAttr_succ (h : attr :: attrs <:+ s.enabled) :
    s.NextEnabledAttr (attr + 1) = attrs.head? := by
  obtain ⟨before, hbefore⟩ := h
  have hsorted := enabled_sorted s
  unfold NextEnabledAttr
  rw [← hbefore] at hsorted ⊢
  obtain ⟨-, hafter, hlt⟩ := List.pairwise_append.mp hsorted
  have hnone : before.find? (fun a => decide (attr + 1 ≤ a)) = none := by
    refine List.find?_eq_none.mpr fun a ha => ?_
    have := hlt a ha attr List.mem_cons_self
    simp only [decide_eq_true_eq]
    omega
  rw [List.find?_append, hnone, Option.none_or,
    List.find?_cons_of_neg (by simp only [decide_eq_true_eq]; omega)]
  cases attrs with
  | nil => rfl
  | cons a attrs =>
    have := (List.pairwise_cons.mp hafter).1 a List.mem_cons_self
    exact List.find?_cons_of_pos (by simp only [decide_eq_true_eq]; omega)

theorem vtxDesc_enabled (h : attr :: attrs <:+ s.enabled) : s.vtxDesc attr ≠ .none := by
  have hmem : attr ∈ s.enabled := h.subset List.mem_cons_self
  simpa using (List.mem_filter.mp hmem).2

theorem bytesOf_append (s : VtxState) (fmt : Nat) (xs ys : List Nat) :
    s.bytesOf fmt (xs ++ ys) = s.bytesOf fmt xs + s.bytesOf fmt ys := by
  unfold bytesOf
  rw [List.map_append, List.sum_append]

theorem vertices_succ (s : VtxState) (n : Nat) :
    s.vertices (n + 1) = s.enabled ++ s.vertices n := by
  unfold vertices
  rw [List.replicate_succ, List.flatten_cons]

def Componentwise (s : VtxState) (attr : Nat) : Bool :=
  !IsMatrixIndexAttr attr && s.vtxDesc attr = .direct && !(attr = 11 ∨ attr = 12 : Bool)

end VtxState

/-! ## draws from their middle on -/

/-- the rest of a draw that has begun in `gxd` and come to `gx` -/
def finish (gxd gx : GxState) (fmt : Nat) (attrs : List Nat) (data : List Byte) :
    GxState × Option (List Byte) :=
  if data.length < gx.vtx.bytesOf fmt attrs then (gxd, none)
  else
    ({ gx with applied := gx.applied ++ gx.vtx.attrsOf fmt attrs data ++ [.end_] },
      some (data.drop (gx.vtx.bytesOf fmt attrs)))

theorem finish_nil (gxd gx : GxState) (fmt : Nat) (data : List Byte) :
    finish gxd gx fmt [] data = (gx.apply .end_, some data) := by
  show (({ gx with applied := gx.applied ++ [] ++ [Applied.end_] } : GxState), _) = _
  rw [List.append_nil]
  rfl

theorem finish_cons (gxd gx : GxState) {fmt attr : Nat} (attrs : List Nat) {bytes more : List Byte}
    (h : gx.vtx.attrBytes fmt attr ≤ bytes.length) :
    finish gxd gx fmt (attr :: attrs) (bytes ++ more) =
      finish gxd (gx.apply (.attr attr (gx.vtx.units fmt attr).1
          (beWords (gx.vtx.units fmt attr).1 (gx.vtx.units fmt attr).2 bytes)))
        fmt attrs (bytes.drop (gx.vtx.attrBytes fmt attr) ++ more) := by
  have hbytes : (gx.vtx.units fmt attr).1 * (gx.vtx.units fmt attr).2 = gx.vtx.attrBytes fmt attr :=
    rfl
  have hdrop : bytes.drop (gx.vtx.attrBytes fmt attr) ++ more =
      (bytes ++ more).drop (gx.vtx.attrBytes fmt attr) :=
    (List.drop_append_of_le_length h).symm
  have hattrs : gx.vtx.attrsOf fmt (attr :: attrs) (bytes ++ more) =
      .attr attr (gx.vtx.units fmt attr).1
        (beWords (gx.vtx.units fmt attr).1 (gx.vtx.units fmt attr).2 bytes) ::
        gx.vtx.attrsOf fmt attrs ((bytes ++ more).drop (gx.vtx.attrBytes fmt attr)) := by
    rw [← beWords_append _ _ more (by omega)]
    rfl
  have hle : bytes.length ≤ (bytes ++ more).length := by
    rw [List.length_append]
    omega
  unfold finish
  rw [hdrop, VtxState.bytesOf_cons, hattrs, List.length_drop]
  show _ = if _ - _ < gx.vtx.bytesOf fmt attrs then _ else _
  by_cases hlen : (bytes ++ more).length < gx.vtx.attrBytes fmt attr + gx.vtx.bytesOf fmt attrs
  · rw [if_pos hlen, if_pos (by omega)]
  · rw [if_neg hlen, if_neg (by omega), GxState.apply_applied, ← List.drop_drop,
      List.append_cons gx.applied]
    rfl

namespace RawFifo

variable {s s' : RawFifo} {attr fuel : Nat} {attrs : List Nat} {comp : List Byte}

theorem vertexLoop_whole (hin : s.inBegin = true) (hattr : s.currentAttr = some attr)
    (hdesc : IsMatrixIndexAttr attr = true ∨ s.gx.vtx.vtxDesc attr ≠ .none) (hwhole : s.gx.vtx.Componentwise attr = false) :
    vertexLoop (fuel + 1) s =
      if s.bytes.length < s.gx.vtx.attrBytes s.currentVtxFmt attr then s
      else
        vertexLoop fuel (s.takeAttr attr (s.gx.vtx.units s.currentVtxFmt attr).1
          (beWords (s.gx.vtx.units s.currentVtxFmt attr).1
            (s.gx.vtx.units s.currentVtxFmt attr).2 s.bytes)
          (s.gx.vtx.attrBytes s.currentVtxFmt attr)) := by
  unfold VtxState.Componentwise at hwhole
  unfold VtxState.attrBytes VtxState.units
  rw [vertexLoop, if_pos hin, hattr]
  dsimp only
  by_cases hm : IsMatrixIndexAttr attr = true
  · simp only [hm, if_true, Nat.mul_one]
  · rw [if_neg hm, if_neg hm]
    rcases hd : s.gx.vtx.vtxDesc attr with _ | _ | _ | _
    · exact absurd hd (hdesc.resolve_left hm)
    · have hcolor : attr = 11 ∨ attr = 12 := by
        by_contra hcolor
        simp [hm, hd, hcolor] at hwhole
      simp only [hcolor, if_true, Nat.one_mul]
    · simp
    · simp

theorem vertexLoop_component (hin : s.inBegin = true) (hattr : s.currentAttr = some attr)
    (hcomp : s.gx.vtx.Componentwise attr = true) :
    vertexLoop (fuel + 1) s =
      if s.bytes.length < (s.gx.vtx.units s.currentVtxFmt attr).1 then s
      else
        let comps := s.rawCompBuffer ++
          [beWord (s.bytes.take (s.gx.vtx.units s.currentVtxFmt attr).1)]
        let rest := s.bytes.drop (s.gx.vtx.units s.currentVtxFmt attr).1
        if comps.length ≥ (s.gx.vtx.units s.currentVtxFmt attr).2 then
          vertexLoop fuel (s.takeAttr attr (s.gx.vtx.units s.currentVtxFmt attr).1 comps
            (s.gx.vtx.units s.currentVtxFmt attr).1)
        else vertexLoop fuel { s with bytes := rest, rawCompBuffer := comps } := by
  unfold VtxState.Componentwise at hcomp
  simp only [Bool.and_eq_true, Bool.not_eq_true', decide_eq_true_eq, decide_eq_false_iff_not]
    at hcomp
  obtain ⟨⟨hm, hd⟩, hcolor⟩ := hcomp
  unfold VtxState.units
  rw [vertexLoop, if_pos hin, hattr]
  simp only [hm, hd, hcolor, if_true, if_false, Bool.false_eq_true]

/-! ## at an attribute -/

/-- the parser is at an attribute of a vertex, some of whose components it has taken -/
structure Vertex (s : RawFifo) (attr : Nat) (attrs : List Nat) (comp : List Byte) : Prop where
  inBegin : s.inBegin = true
  attrs : attr :: attrs <:+ s.gx.vtx.enabled
  remaining : 0 < s.vertsRemaining
  currentAttr : s.currentAttr = some attr
  comps : s.rawCompBuffer =
    beWords (s.gx.vtx.units s.currentVtxFmt attr).1 s.rawCompBuffer.length comp
  taken : comp.length = (s.gx.vtx.units s.currentVtxFmt attr).1 * s.rawCompBuffer.length
  fewer : s.rawCompBuffer.length < (s.gx.vtx.units s.currentVtxFmt attr).2
  whole : s.rawCompBuffer = [] ∨ s.gx.vtx.Componentwise attr = true

def ahead (s : RawFifo) (gxd : GxState) (attrs : List Nat) (data : List Byte) :
    GxState × Option (List Byte) :=
  finish gxd s.gx s.currentVtxFmt (attrs ++ s.gx.vtx.vertices (s.vertsRemaining - 1)) data

/-- the parser from one state of a draw to another -/
inductive Outcome (s : RawFifo) (attrs : List Nat) (comp : List Byte) (s' : RawFifo) : Prop where
  | ended (inBegin : s'.inBegin = false)
      (ahead : ∀ gxd more,
        s.ahead gxd attrs (comp ++ s.bytes ++ more) = (s'.gx, some (s'.bytes ++ more)))
  | vertex (attr' : Nat) (attrs' : List Nat) (comp' : List Byte) (at' : s'.Vertex attr' attrs' comp')
      (short : (comp' ++ s'.bytes).length < s'.gx.vtx.attrBytes s'.currentVtxFmt attr')
      (begun : s'.auroraBeginCalled = s.auroraBeginCalled)
      (ahead : ∀ gxd more, s.ahead gxd attrs (comp ++ s.bytes ++ more) =
        s'.ahead gxd (attr' :: attrs') (comp' ++ s'.bytes ++ more))

theorem Vertex.fresh {s : RawFifo} {attr : Nat} {attrs : List Nat} (hin : s.inBegin = true)
    (hattrs : attr :: attrs <:+ s.gx.vtx.enabled) (hremaining : 0 < s.vertsRemaining)
    (hattr : s.currentAttr = some attr) (hcomps : s.rawCompBuffer = []) :
    s.Vertex attr attrs [] where
  inBegin := hin
  attrs := hattrs
  remaining := hremaining
  currentAttr := hattr
  comps := by
    rw [hcomps]
    rfl
  taken := by
    rw [hcomps]
    rfl
  fewer := by
    have hpos := (VtxState.attrBytes_pos s.gx.vtx s.currentVtxFmt attr).1
    rw [hcomps]
    exact Nat.pos_of_mul_pos_left hpos
  whole := .inl hcomps

/-- after an attribute that is there: the end of the draw, or the next attribute -/
theorem takeAttr_spec {raws : List (BitVec 32)} {size : Nat} (h : s.Vertex attr attrs comp)
    (hraws : raws = beWords (s.gx.vtx.units s.currentVtxFmt attr).1
      (s.gx.vtx.units s.currentVtxFmt attr).2 (comp ++ s.bytes))
    (hsize : comp.length + size = s.gx.vtx.attrBytes s.currentVtxFmt attr)
    (hlen : size ≤ s.bytes.length) {s' : RawFifo}
    (hs' : s' = s.takeAttr attr (s.gx.vtx.units s.currentVtxFmt attr).1 raws size) :
    (s'.inBegin = false ∧ ∀ gxd more,
      s.ahead gxd (attr :: attrs) (comp ++ s.bytes ++ more) = (s'.gx, some (s'.bytes ++ more))) ∨
    ∃ attr' attrs', s'.Vertex attr' attrs' [] ∧ s'.auroraBeginCalled = s.auroraBeginCalled ∧
      s'.bytes = s.bytes.drop size ∧ ∀ gxd more,
        s.ahead gxd (attr :: attrs) (comp ++ s.bytes ++ more) =
          s'.ahead gxd (attr' :: attrs') (s'.bytes ++ more) := by
  have hahead (gxd : GxState) (more : List Byte) :
      s.ahead gxd (attr :: attrs) (comp ++ s.bytes ++ more) =
        finish gxd (s.gx.apply (.attr attr (s.gx.vtx.units s.currentVtxFmt attr).1 raws))
          s.currentVtxFmt (attrs ++ s.gx.vtx.vertices (s.vertsRemaining - 1))
          (s.bytes.drop size ++ more) := by
    have hdrop : (comp ++ s.bytes).drop (s.gx.vtx.attrBytes s.currentVtxFmt attr) =
        s.bytes.drop size := by
      rw [← hsize, ← List.drop_drop, List.drop_left]
    show finish _ _ _ (attr :: (attrs ++ _)) _ = _
    rw [finish_cons gxd s.gx _ (by rw [List.length_append]; omega), hdrop, ← hraws]
  have hremaining := h.remaining
  unfold takeAttr finishVertexIfNeeded at hs'
  dsimp only at hs'
  rw [show (s.gx.apply _).vtx.NextEnabledAttr (attr + 1) = attrs.head? from
    VtxState.NextEnabledAttr_succ h.attrs] at hs'
  cases attrs with
  | cons a attrs =>
    subst hs'
    refine .inr ⟨a, attrs, .fresh h.inBegin ?_ hremaining rfl rfl, rfl, rfl, hahead⟩
    exact (List.suffix_cons attr (a :: attrs)).trans h.attrs
  | nil =>
    dsimp only [List.head?_nil, ResetVertex] at hs'
    simp only [gt_iff_lt, hremaining, if_true] at hs'
    by_cases hlast : s.vertsRemaining - 1 = 0
    · simp only [hlast, if_true] at hs'
      subst hs'
      refine .inl ⟨rfl, fun gxd more => ?_⟩
      rw [hahead, hlast]
      exact finish_nil ..
    · simp only [hlast, if_false] at hs'
      obtain ⟨n, hn⟩ := Nat.exists_eq_succ_of_ne_zero hlast
      subst hs'
      rw [show (s.gx.apply _).vtx.NextEnabledAttr 0 = _ from VtxState.NextEnabledAttr_zero _]
      cases he : s.gx.vtx.enabled with
      | nil =>
        have hattrs := h.attrs
        rw [he] at hattrs
        exact absurd (List.suffix_nil.mp hattrs) (List.cons_ne_nil attr [])
      | cons a as =>
        refine .inr ⟨a, as, .fresh h.inBegin ?_ (Nat.pos_of_ne_zero hlast) ?_ rfl, rfl, rfl, ?_⟩
        · exact he ▸ List.suffix_refl _
        · exact he ▸ rfl
        · intro gxd more
          rw [hahead]
          show finish _ _ _ ([] ++ s.gx.vtx.vertices (s.vertsRemaining - 1)) _ =
            finish _ _ _ (a :: as ++ s.gx.vtx.vertices (s.vertsRemaining - 1 - 1)) _
          rw [hn, VtxState.vertices_succ, he]
          rfl

theorem Outcome.stay (h : s.Vertex attr attrs comp)
    (hlen : (comp ++ s.bytes).length < s.gx.vtx.attrBytes s.currentVtxFmt attr) :
    Outcome s (attr :: attrs) comp s :=
  .vertex attr attrs comp h hlen rfl fun _ _ => rfl

theorem Outcome.after {s s' s'' : RawFifo} {attrs attrs' : List Nat} {comp comp' : List Byte}
    (hbegun : s'.auroraBeginCalled = s.auroraBeginCalled)
    (hahead : ∀ gxd more, s.ahead gxd attrs (comp ++ s.bytes ++ more) =
      s'.ahead gxd attrs' (comp' ++ s'.bytes ++ more))
    (h : Outcome s' attrs' comp' s'') : Outcome s attrs comp s'' := by
  cases h with
  | ended inBegin ahead => exact .ended inBegin fun gxd more => (hahead gxd more).trans (ahead gxd more)
  | vertex attr'' attrs'' comp'' at' short begun ahead =>
    exact .vertex attr'' attrs'' comp'' at' short (begun.trans hbegun) fun gxd more =>
      (hahead gxd more).trans (ahead gxd more)

theorem vertexLoop_idle (fuel : Nat) (h : s.inBegin = false) : vertexLoop fuel s = s := by
  cases fuel with
  | zero => rfl
  | succ fuel => rw [vertexLoop, if_neg (by rw [h]; exact Bool.false_ne_true)]

theorem Vertex.component (h : s.Vertex attr attrs comp) (hcomp : s.gx.vtx.Componentwise attr = true)
    (hlen : (s.gx.vtx.units s.currentVtxFmt attr).1 ≤ s.bytes.length)
    (hmore : s.rawCompBuffer.length + 1 < (s.gx.vtx.units s.currentVtxFmt attr).2) :
    Vertex { s with
        bytes := s.bytes.drop (s.gx.vtx.units s.currentVtxFmt attr).1
        rawCompBuffer := s.rawCompBuffer ++
          [beWord (s.bytes.take (s.gx.vtx.units s.currentVtxFmt attr).1)] } attr attrs
      (comp ++ s.bytes.take (s.gx.vtx.units s.currentVtxFmt attr).1) where
  inBegin := h.inBegin
  attrs := h.attrs
  remaining := h.remaining
  currentAttr := h.currentAttr
  comps := by
    dsimp only
    rw [List.length_append, List.length_singleton, beWords_succ _ _ _ h.taken, ← h.comps,
      List.take_take, Nat.min_self]
  taken := by
    dsimp only
    rw [List.length_append, List.length_append, List.length_singleton, List.length_take,
      Nat.min_eq_left hlen, h.taken, Nat.mul_succ]
  fewer := by
    dsimp only
    rw [List.length_append, List.length_singleton]
    exact hmore
  whole := .inr hcomp

/-- **Vertex by vertex.**  What the parser takes is what the stream has, and it stops at an
attribute that is not all there, or at the draw's end. -/
theorem vertexLoop_spec (h : s.Vertex attr attrs comp) (hfuel : s.bytes.length < fuel) :
    Outcome s (attr :: attrs) comp (vertexLoop fuel s) := by
  induction fuel generalizing s attr attrs comp with
  | zero => omega
  | succ fuel ih =>
    have hattr := VtxState.attrBytes_pos s.gx.vtx s.currentVtxFmt attr
    have hbytes : (s.gx.vtx.units s.currentVtxFmt attr).1 *
        (s.gx.vtx.units s.currentVtxFmt attr).2 = s.gx.vtx.attrBytes s.currentVtxFmt attr := rfl
    -- after an attribute that was there, by induction
    have htake {raws : List (BitVec 32)} {size : Nat}
        (hraws : raws = beWords (s.gx.vtx.units s.currentVtxFmt attr).1
          (s.gx.vtx.units s.currentVtxFmt attr).2 (comp ++ s.bytes))
        (hsize : comp.length + size = s.gx.vtx.attrBytes s.currentVtxFmt attr)
        (hlen : size ≤ s.bytes.length) (hpos : 0 < size) :
        Outcome s (attr :: attrs) comp (vertexLoop fuel
          (s.takeAttr attr (s.gx.vtx.units s.currentVtxFmt attr).1 raws size)) := by
      rcases takeAttr_spec h hraws hsize hlen rfl with
        ⟨hended, hahead⟩ | ⟨attr', attrs', hvertex, hbegun, hrest, hahead⟩
      · rw [vertexLoop_idle fuel hended]
        exact .ended hended hahead
      · refine .after hbegun hahead (ih hvertex ?_)
        rw [hrest, List.length_drop]
        omega
    by_cases hcomp : s.gx.vtx.Componentwise attr = true
    · have hunit := Nat.pos_of_mul_pos_right (hbytes ▸ hattr.1)
      have htaken := h.taken
      have hle := Nat.mul_le_mul_left (s.gx.vtx.units s.currentVtxFmt attr).1 h.fewer
      rw [Nat.mul_succ] at hle
      rw [vertexLoop_component h.inBegin h.currentAttr hcomp]
      dsimp only
      rw [List.length_append, List.length_singleton]
      split
      · refine .stay h ?_
        rw [List.length_append]
        omega
      · split
        · next hlen hlast =>
          have hn : (s.gx.vtx.units s.currentVtxFmt attr).2 = s.rawCompBuffer.length + 1 := by
            have := h.fewer
            omega
          refine htake ?_ ?_ (by omega) hunit
          · rw [hn, beWords_succ _ _ s.bytes htaken, ← h.comps]
          · rw [htaken, ← Nat.mul_succ, ← hbytes, hn]
        · next hlen hmore =>
          have hnext := h.component hcomp (by omega) (by omega)
          refine .after ?_ ?_ (ih hnext ?_)
          · rfl
          · intro gxd more
            rw [List.append_assoc comp (List.take _ _), List.take_append_drop]
            rfl
          · dsimp only
            rw [List.length_drop]
            omega
    · have hwhole : s.gx.vtx.Componentwise attr = false := by simpa using hcomp
      rw [vertexLoop_whole h.inBegin h.currentAttr (.inr (VtxState.vtxDesc_enabled h.attrs)) hwhole]
      have hnil : s.rawCompBuffer = [] := h.whole.resolve_right hcomp
      obtain rfl : comp = [] := List.length_eq_zero_iff.mp (by rw [h.taken, hnil]; rfl)
      split
      · exact .stay h (by assumption)
      · next hlen => exact htake rfl (Nat.zero_add _) (by omega) hattr.1

/-! ## what is applied, and the bytes it takes -/

/-- the bytes of the components taken so far -/
def pending (s : RawFifo) : Nat :=
  if s.inBegin then
    match s.currentAttr with
    | some attr =>
      s.rawCompBuffer.length * GetCompSizeBytes (s.gx.vtx.vtxAttrFmt s.currentVtxFmt attr).type
    | none => 0
  else 0

/-- what is applied stays, and takes bytes out of the ring -/
structure Takes (s s' : RawFifo) : Prop where
  grows : s.gx.applied <+: s'.gx.applied
  weighs : weight s'.gx.applied + s'.bytes.length + s'.pending ≤
    weight s.gx.applied + s.bytes.length + s.pending

/-- and begins no draw -/
structure Grows (s s' : RawFifo) : Prop where
  grows : s.gx.applied <+: s'.gx.applied
  draws : HasEmptyDraw s'.gx.applied → HasEmptyDraw s.gx.applied
  weighs : weight s'.gx.applied + s'.bytes.length + s'.pending ≤
    weight s.gx.applied + s.bytes.length + s.pending

theorem Takes.refl (s : RawFifo) : Takes s s := ⟨List.prefix_refl _, le_rfl⟩

theorem Takes.trans {s s' s'' : RawFifo} (h : Takes s s') (h' : Takes s' s'') : Takes s s'' :=
  ⟨h.grows.trans h'.grows, h'.weighs.trans h.weighs⟩

theorem Grows.takes {s s' : RawFifo} (h : Grows s s') : Takes s s' := ⟨h.grows, h.weighs⟩

theorem Grows.refl (s : RawFifo) : Grows s s := ⟨List.prefix_refl _, id, le_rfl⟩

theorem Grows.trans {s s' s'' : RawFifo} (h : Grows s s') (h' : Grows s' s'') : Grows s s'' :=
  ⟨h.grows.trans h'.grows, h.draws ∘ h'.draws, h'.weighs.trans h.weighs⟩

theorem pending_nil (h : s.rawCompBuffer = []) : s.pending = 0 := by
  unfold pending
  rw [h]
  split
  · split
    · exact Nat.zero_mul _
    · rfl
  · rfl

theorem pending_idle (h : s.inBegin = false) : s.pending = 0 := by
  unfold pending
  rw [h, if_neg Bool.false_ne_true]

theorem Takes.of_idle {s s' : RawFifo} (h : s.inBegin = false) (h' : s'.inBegin = false)
    (hgrows : s.gx.applied <+: s'.gx.applied)
    (hweighs : weight s'.gx.applied + s'.bytes.length ≤ weight s.gx.applied + s.bytes.length) :
    Takes s s' := by
  refine ⟨hgrows, ?_⟩
  rw [pending_idle h, pending_idle h']
  exact hweighs

theorem finishVertexIfNeeded_spec {s' : RawFifo} {attr : Nat}
    (hs' : s' = s.finishVertexIfNeeded attr) :
    (s'.gx = s.gx ∨ s'.gx = s.gx.apply .end_) ∧ s'.bytes = s.bytes ∧ s'.rawCompBuffer = [] := by
  unfold finishVertexIfNeeded at hs'
  dsimp only at hs'
  split at hs'
  · subst hs'
    exact ⟨.inl rfl, rfl, rfl⟩
  · split at hs'
    · split at hs' <;> subst hs'
      · exact ⟨.inr rfl, rfl, rfl⟩
      · exact ⟨.inl rfl, rfl, rfl⟩
    · subst hs'
      exact ⟨.inl rfl, rfl, rfl⟩

theorem takeAttr_grows {attr unit size : Nat} {raws : List (BitVec 32)}
    (hsize : size ≤ s.bytes.length) (hraws : unit * raws.length ≤ size + s.pending) :
    Grows s (s.takeAttr attr unit raws size) := by
  obtain ⟨hgx, hbytes, hcomps⟩ : ((s.takeAttr attr unit raws size).gx =
        s.gx.apply (.attr attr unit raws) ∨ (s.takeAttr attr unit raws size).gx =
        (s.gx.apply (.attr attr unit raws)).apply .end_) ∧
      (s.takeAttr attr unit raws size).bytes = s.bytes.drop size ∧
      (s.takeAttr attr unit raws size).rawCompBuffer = [] := finishVertexIfNeeded_spec rfl
  have hweight : weight (s.gx.apply (.attr attr unit raws)).applied =
      weight s.gx.applied + unit * raws.length := weight_append_one _ _
  have hdraws (h : HasEmptyDraw (s.gx.apply (.attr attr unit raws)).applied) :
      HasEmptyDraw s.gx.applied := h.of_append fun _ _ => by simp
  have hlen : (s.bytes.drop size).length = s.bytes.length - size := List.length_drop
  rcases hgx with hgx | hgx
  · refine ⟨?_, ?_, ?_⟩
    · rw [hgx]
      exact List.prefix_append _ _
    · rw [hgx]
      exact hdraws
    · rw [hgx, hbytes, pending_nil hcomps, hweight, hlen]
      omega
  · refine ⟨?_, ?_, ?_⟩
    · rw [hgx]
      exact (List.prefix_append _ _).trans (List.prefix_append _ _)
    · rw [hgx]
      exact fun h => hdraws (h.of_append fun _ _ => by simp)
    · rw [hgx, hbytes, pending_nil hcomps, GxState.apply_applied _ .end_, weight_append_one,
        hweight, hlen]
      show _ + _ + 0 + _ + _ ≤ _
      omega

theorem vertexLoop_grows (fuel : Nat) (s : RawFifo) : Grows s (vertexLoop fuel s) := by
  induction fuel generalizing s with
  | zero => exact .refl s
  | succ fuel ih =>
    by_cases hin : s.inBegin = true
    · cases hattr : s.currentAttr with
      | none =>
        rw [vertexLoop, if_pos hin, hattr]
        refine ⟨List.prefix_refl _, id, ?_⟩
        simp only [pending, hin, hattr, List.length_nil, if_true]
        omega
      | some attr =>
        by_cases hcomp : s.gx.vtx.Componentwise attr = true
        · have hunits : s.gx.vtx.units s.currentVtxFmt attr =
              (GetCompSizeBytes (s.gx.vtx.vtxAttrFmt s.currentVtxFmt attr).type,
                GetExpectedCompCount attr (s.gx.vtx.vtxAttrFmt s.currentVtxFmt attr)) := by
            unfold VtxState.Componentwise at hcomp
            simp only [Bool.and_eq_true, Bool.not_eq_true', decide_eq_true_eq,
              decide_eq_false_iff_not] at hcomp
            obtain ⟨⟨hm, hd⟩, hcolor⟩ := hcomp
            simp only [VtxState.units, hm, hd, hcolor, if_false, Bool.false_eq_true]
          have hpending : s.pending =
              s.rawCompBuffer.length * (s.gx.vtx.units s.currentVtxFmt attr).1 := by
            rw [hunits, pending, if_pos hin, hattr]
          rw [vertexLoop_component hin hattr hcomp]
          dsimp only
          split
          · exact .refl s
          · next hlen =>
            split
            · refine (takeAttr_grows (by omega) ?_).trans (ih _)
              rw [hpending, List.length_append, List.length_singleton, Nat.mul_succ, Nat.mul_comm]
              omega
            · refine .trans ?_ (ih _)
              refine ⟨List.prefix_refl _, id, ?_⟩
              have hnext : pending { s with
                  bytes := s.bytes.drop (s.gx.vtx.units s.currentVtxFmt attr).1
                  rawCompBuffer := s.rawCompBuffer ++
                    [beWord (s.bytes.take (s.gx.vtx.units s.currentVtxFmt attr).1)] } =
                  (s.rawCompBuffer.length + 1) * (s.gx.vtx.units s.currentVtxFmt attr).1 := by
                simp only [pending, hin, hattr, hunits, List.length_append, List.length_singleton,
                  if_true]
              rw [hnext, hpending, Nat.succ_mul]
              dsimp only
              rw [List.length_drop]
              omega
        · by_cases hdesc : IsMatrixIndexAttr attr = true ∨ s.gx.vtx.vtxDesc attr ≠ .none
          · rw [vertexLoop_whole hin hattr hdesc (by simpa using hcomp)]
            split
            · exact .refl s
            · next hlen =>
              refine (takeAttr_grows (by omega) ?_).trans (ih _)
              rw [length_beWords]
              exact Nat.le_add_right _ _
          · -- an attribute of no type is passed over
            obtain ⟨hm, hd⟩ := not_or.mp hdesc
            have hd : s.gx.vtx.vtxDesc attr = .none := not_not.mp hd
            rw [vertexLoop, if_pos hin, hattr]
            simp only [hm, hd, Bool.false_eq_true, if_false, reduceCtorEq, or_self]
            split
            · refine ⟨List.prefix_refl _, id, ?_⟩
              rw [pending_nil rfl]
              exact Nat.le_add_right _ _
            · refine ⟨List.prefix_refl _, id, ?_⟩
              rw [pending_nil rfl]
              exact Nat.le_add_right _ _
    · rw [vertexLoop, if_neg hin]
      exact .refl s

end RawFifo

end DolTranslator.Gx.Hle
