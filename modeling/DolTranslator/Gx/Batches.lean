import DolTranslator.Gx.Renderer
import DolTranslator.Streams.Reads

/-!
# Draws that are merged

Draws that share a state go into one buffer of vertices and one of indices.  What the GPU is to show
are primitives: triangles, lines and points.

* `list_of`, `add_indices`, `send_batch`   the merging; `batched` is the target that does it;
* `assemble`   the primitives of one draw, as the hardware puts them together;
* `alone`   the target that shows each draw at once, by itself;
* `batched_eq_alone`   both show the same, however states, copies and refused draws come between.
-/

namespace DolTranslator.Gx

open Function Streams

def PackedVertexSize (f : VertexFormat) : Nat :=
  let sizes := ((List.range VaCount).filter f.present).map fun attr =>
    PackedAttrSize attr (f.format attr)
  if 0 ∈ sizes then 0 else sizes.sum

variable {V : Type} (vertex : VertexFormat → List Byte → V)

def ConvertVertices (d : Draw) : List V :=
  let stride := PackedVertexSize d.format
  if stride = 0 then []
  else (List.range (min d.count (d.records.length / stride))).map fun i =>
    vertex d.format (slice d.records (i * stride) stride)

/-! ## the pass -/

/-- the display copy's source -/
structure Area where
  left : BitVec 16
  top : BitVec 16
  width : BitVec 16
  height : BitVec 16

structure Pass where
  passOpen : Bool
  /-- the open pass is begin_frame's, on the screen -/
  framePass : Bool
  clearNext : Bool
  display : Area

/-- what else the GPU is given -/
inductive Action where
  | began (clear : Bool) (state : State)
  | copiedTex (p : Packet) (state : State)
  | copiedDisplay (p : Packet) (display : Area)
  | presented (address : BitVec 32)

structure Gpu where
  up : Bool
  /-- the EFB and its depth buffer could be made -/
  efb : Bool

namespace Pass

/-- a pass that is open stays; without a GPU there is none -/
def begin_frame (g : Gpu) (pass : Pass) (s : State) : Pass × List Action :=
  if g.up ∧ ¬ pass.passOpen ∧ g.efb then
    ({ pass with passOpen := true, framePass := true }, [.began pass.clearNext s])
  else (pass, [])

def setDisplay (pass : Pass) (p : Packet) : Pass :=
  if p.srcWidth ≠ 0 ∧ p.srcHeight ≠ 0 then
    { pass with display := ⟨p.left, p.top, p.srcWidth, p.srcHeight⟩ }
  else pass

end Pass

/-! ## batches -/

/-- the list a GX primitive merges into: triangles, lines or points -/
def list_of (primitive : Nat) : Nat :=
  let kind := primitive &&& 0xF8
  if kind = 0x80 ∨ kind = 0x88 ∨ kind = 0x90 ∨ kind = 0x98 ∨ kind = 0xA0 then 0x90
  else if kind = 0xA8 ∨ kind = 0xB0 then 0xA8
  else 0xB8

/-- the indices of each primitive of `n` vertices from `base` -/
def indexGroups (primitive base n : Nat) : List (List Nat) :=
  let kind := primitive &&& 0xF8
  if kind = 0x80 ∨ kind = 0x88 then
    -- quads: (0 1 2) (0 2 3)
    (List.range (n / 4)).flatMap fun k =>
      let q := 4 * k
      [[base + q, base + q + 1, base + q + 2], [base + q, base + q + 2, base + q + 3]]
  else if kind = 0x90 then
    (List.range (n / 3)).map fun k =>
      let i := 3 * k
      [base + i, base + i + 1, base + i + 2]
  else if kind = 0x98 then
    -- every other triangle turned back
    (List.range (n - 2)).map fun i =>
      if i % 2 = 1 then [base + i + 1, base + i, base + i + 2]
      else [base + i, base + i + 1, base + i + 2]
  else if kind = 0xA0 then (List.range (n - 2)).map fun i => [base, base + (i + 1), base + (i + 1) + 1]
  else if kind = 0xA8 then
    (List.range (n / 2)).map fun k =>
      let i := 2 * k
      [base + i, base + i + 1]
  else if kind = 0xB0 then (List.range (n - 1)).map fun i => [base + i, base + i + 1]
  else (List.range n).map fun i => [base + i]

structure Batch (V : Type) where
  /-- the buffer only grows; what is beyond the count is not read -/
  vertices : Nat → V
  indices : List Nat
  count : Nat
  primitive : Nat
  generation : BitVec 64

inductive Sent (V : Type) where
  | drawn (list : Nat) (vertices : List V) (indices : List Nat) (state : State)
  | action (a : Action)

structure Screen (V : Type) where
  pass : Pass
  batch : Batch V
  /-- what the GPU was given, oldest first -/
  sent : List (Sent V)

namespace Screen

def add_indices (t : Screen V) (primitive base n : Nat) : Screen V :=
  { t with batch := { t.batch with
      indices := t.batch.indices ++ (indexGroups primitive base n).flatten } }

def send_batch (t : Screen V) (s : State) : Screen V :=
  if t.batch.count = 0 then t
  else
    { t with
      sent := if t.batch.indices ≠ [] then
          t.sent ++ [.drawn t.batch.primitive (window t.batch.vertices 0 t.batch.count)
            t.batch.indices s]
        else t.sent
      batch := { t.batch with count := 0, indices := [] } }

def begin_frame (g : Gpu) (t : Screen V) (s : State) : Screen V :=
  let begun := t.pass.begin_frame g s
  { t with pass := begun.1, sent := t.sent ++ begun.2.map .action }

def store (t : Screen V) (at_ : Nat) (vs : List V) : Screen V :=
  { t with batch := { t.batch with
      vertices := fun i => if at_ ≤ i then vs.getD (i - at_) (t.batch.vertices i)
        else t.batch.vertices i } }

def draw (g : Gpu) (t : Screen V) (d : Draw) (s : State) : Screen V :=
  let t := t.begin_frame g s
  if t.pass.passOpen then
    let primitive := list_of d.primitive
    let t :=
      if t.batch.count ≠ 0 ∧ (t.batch.primitive ≠ primitive ∨ t.batch.generation ≠ s.generation) then
        t.send_batch s
      else t
    let vs := ConvertVertices vertex d
    let t := t.store t.batch.count vs
    -- a draw that does not convert whole is refused
    if vs.length ≠ d.count then t
    else
      let t := t.add_indices d.primitive t.batch.count d.count
      { t with batch := { t.batch with
          count := t.batch.count + d.count
          primitive := primitive
          generation := s.generation } }
  else t

def copyTex (g : Gpu) (t : Screen V) (s : State) (p : Packet) : Screen V :=
  let t := t.begin_frame g s
  if t.pass.passOpen ∧ t.pass.framePass then
    let t := t.send_batch s
    { t with sent := t.sent ++ [.action (.copiedTex p s)] }
  else t

def copyDisplay (g : Gpu) (t : Screen V) (s : State) (p : Packet) : Screen V :=
  let t := t.begin_frame g s
  if t.pass.passOpen ∧ t.pass.framePass then
    let t := t.send_batch s
    { t with
      pass := { t.pass with passOpen := false, framePass := false, clearNext := p.clear }
      sent := t.sent ++ [.action (.copiedDisplay p t.pass.display)] }
  else t

/-- the renderer's own target -/
def batched (g : Gpu) : Target (Screen V) where
  up := g.up
  passOpen t := t.pass.passOpen
  beforeChange t s := t.send_batch s
  draw t d s := t.draw vertex g d s
  displaySource t p := { t with pass := t.pass.setDisplay p }
  copyTex t s p := t.copyTex g s p
  copyDisplay t s p := t.copyDisplay g s p
  endPass t s := t.send_batch s
  present t address := { t with sent := t.sent ++ [.action (.presented address)] }

end Screen

/-! ## draws by themselves -/

def quads : List V → List (List V)
  | a :: b :: c :: d :: vs => [a, b, c] :: [a, c, d] :: quads vs
  | _ => []

def triangles : List V → List (List V)
  | a :: b :: c :: vs => [a, b, c] :: triangles vs
  | _ => []

def strip (turned : Bool) : List V → List (List V)
  | a :: b :: c :: vs =>
    (if turned then [b, a, c] else [a, b, c]) :: strip (!turned) (b :: c :: vs)
  | _ => []

def fan (first : V) : List V → List (List V)
  | a :: b :: vs => [first, a, b] :: fan first (b :: vs)
  | _ => []

def lines : List V → List (List V)
  | a :: b :: vs => [a, b] :: lines vs
  | _ => []

def lineStrip : List V → List (List V)
  | a :: b :: vs => [a, b] :: lineStrip (b :: vs)
  | _ => []

/-- the primitives that the hardware makes of a draw's vertices -/
def assemble (primitive : Nat) (vs : List V) : List (List V) :=
  let kind := primitive &&& 0xF8
  if kind = 0x80 ∨ kind = 0x88 then quads vs
  else if kind = 0x90 then triangles vs
  else if kind = 0x98 then strip false vs
  else if kind = 0xA0 then
    match vs with
    | [] => []
    | first :: vs => fan first vs
  else if kind = 0xA8 then lines vs
  else if kind = 0xB0 then lineStrip vs
  else vs.map fun v => [v]

inductive Shown (V : Type) where
  /-- one triangle, line or point, and the state it is drawn under -/
  | primitive (vertices : List V) (state : State)
  | action (a : Action)

structure Alone (V : Type) where
  pass : Pass
  shown : List (Shown V)

namespace Alone

def begin_frame (g : Gpu) (t : Alone V) (s : State) : Alone V :=
  let begun := t.pass.begin_frame g s
  { t with pass := begun.1, shown := t.shown ++ begun.2.map .action }

def draw (g : Gpu) (t : Alone V) (d : Draw) (s : State) : Alone V :=
  let t := t.begin_frame g s
  let vs := ConvertVertices vertex d
  if t.pass.passOpen ∧ vs.length = d.count then
    { t with shown := t.shown ++ (assemble d.primitive vs).map fun v => .primitive v s }
  else t

def copyTex (g : Gpu) (t : Alone V) (s : State) (p : Packet) : Alone V :=
  let t := t.begin_frame g s
  if t.pass.passOpen ∧ t.pass.framePass then
    { t with shown := t.shown ++ [.action (.copiedTex p s)] }
  else t

def copyDisplay (g : Gpu) (t : Alone V) (s : State) (p : Packet) : Alone V :=
  let t := t.begin_frame g s
  if t.pass.passOpen ∧ t.pass.framePass then
    { t with
      pass := { t.pass with passOpen := false, framePass := false, clearNext := p.clear }
      shown := t.shown ++ [.action (.copiedDisplay p t.pass.display)] }
  else t

end Alone

/-- nothing is kept back -/
def alone (g : Gpu) : Target (Alone V) where
  up := g.up
  passOpen t := t.pass.passOpen
  beforeChange t _ := t
  draw t d s := t.draw vertex g d s
  displaySource t p := { t with pass := t.pass.setDisplay p }
  copyTex t s p := t.copyTex g s p
  copyDisplay t s p := t.copyDisplay g s p
  endPass t _ := t
  present t address := { t with shown := t.shown ++ [.action (.presented address)] }

/-! ## indices and primitives -/

section

variable (f : Nat → V)

def cut {α : Type} (k : Nat) (xs : List α) : List (List α) :=
  (List.range (xs.length / k)).map fun i => slice xs (i * k) k

theorem cut_nil {α : Type} (k : Nat) : cut k ([] : List α) = [] := by
  unfold cut
  rw [List.length_nil, Nat.zero_div]
  rfl

theorem cut_flatten {α : Type} {k : Nat} (hk : 0 < k) {gs : List (List α)}
    (h : ∀ g ∈ gs, g.length = k) : cut k gs.flatten = gs := by
  induction gs with
  | nil => exact cut_nil k
  | cons g gs ih =>
    have hg := h g List.mem_cons_self
    have ih := ih fun g' hg' => h g' (List.mem_cons_of_mem g hg')
    unfold cut at ih ⊢
    rw [List.flatten_cons, List.length_append, hg, Nat.add_comm, Nat.add_div_right _ hk,
      List.range_succ_eq_map, List.map_cons, List.map_map]
    congr 1
    · rw [Nat.zero_mul, ← hg]
      exact slice_prefix g _
    · conv_rhs => rw [← ih]
      refine List.map_congr_left fun i _ => ?_
      have hright := slice_append_right g gs.flatten (i * k) k
      rw [hg] at hright
      rw [← hright]
      show slice _ ((i + 1) * k) k = _
      rw [Nat.succ_mul, Nat.add_comm]

theorem quads_window : ∀ n base, quads (window f base n) =
    (List.range (n / 4)).flatMap fun k =>
      [[f (base + 4 * k), f (base + 4 * k + 1), f (base + 4 * k + 2)],
        [f (base + 4 * k), f (base + 4 * k + 2), f (base + 4 * k + 3)]]
  | 0, _ | 1, _ | 2, _ | 3, _ => rfl
  | n + 4, base => by
    rw [window_succ, window_succ, window_succ, window_succ, Nat.add_div_right n (by decide),
      List.range_succ_eq_map, List.flatMap_cons, List.flatMap_map]
    show [_, _, _] :: [_, _, _] :: quads (window f (base + 4) n) = _
    rw [quads_window n (base + 4)]
    congr 2
    congr 1
    funext k
    rw [show base + 4 + 4 * k = base + 4 * k.succ by omega]

theorem triangles_window : ∀ n base, triangles (window f base n) =
    (List.range (n / 3)).map fun k =>
      [f (base + 3 * k), f (base + 3 * k + 1), f (base + 3 * k + 2)]
  | 0, _ | 1, _ | 2, _ => rfl
  | n + 3, base => by
    rw [window_succ, window_succ, window_succ, Nat.add_div_right n (by decide),
      List.range_succ_eq_map, List.map_cons, List.map_map]
    show [_, _, _] :: triangles (window f (base + 3) n) = _
    rw [triangles_window n (base + 3)]
    congr 1
    refine List.map_congr_left fun k _ => ?_
    show _ = [f (base + 3 * (k + 1)), f (base + 3 * (k + 1) + 1), f (base + 3 * (k + 1) + 2)]
    rw [show base + 3 + 3 * k = base + 3 * (k + 1) by omega]

theorem strip_window : ∀ n base turned, strip turned (window f base n) =
    (List.range (n - 2)).map fun i =>
      if turned = decide (i % 2 = 0) then [f (base + i + 1), f (base + i), f (base + i + 2)]
      else [f (base + i), f (base + i + 1), f (base + i + 2)]
  | 0, _, _ | 1, _, _ | 2, _, _ => rfl
  | n + 3, base, turned => by
    have ih := strip_window (n + 2) (base + 1) (!turned)
    rw [window_succ, window_succ] at ih
    rw [window_succ, window_succ, window_succ, show n + 3 - 2 = n + 1 by omega,
      List.range_succ_eq_map, List.map_cons, List.map_map]
    unfold strip
    rw [ih]
    congr 1
    refine List.map_congr_left fun i _ => ?_
    show _ = if turned = decide ((i + 1) % 2 = 0) then
        [f (base + (i + 1) + 1), f (base + (i + 1)), f (base + (i + 1) + 2)]
      else [f (base + (i + 1)), f (base + (i + 1) + 1), f (base + (i + 1) + 2)]
    have hparity : ((!turned) = decide (i % 2 = 0)) = (turned = decide ((i + 1) % 2 = 0)) := by
      rcases Nat.mod_two_eq_zero_or_one i with hi | hi
      · rw [decide_eq_true hi, decide_eq_false (by omega)]
        cases turned <;> simp
      · rw [decide_eq_false (by omega), decide_eq_true (by omega)]
        cases turned <;> simp
    simp only [hparity, show base + 1 + i = base + (i + 1) by omega]

theorem fan_window (first : V) : ∀ n base, fan first (window f base n) =
    (List.range (n - 1)).map fun i => [first, f (base + i), f (base + i + 1)]
  | 0, _ | 1, _ => rfl
  | n + 2, base => by
    have ih := fan_window first (n + 1) (base + 1)
    rw [window_succ] at ih
    rw [window_succ, window_succ, show n + 2 - 1 = n + 1 by omega, List.range_succ_eq_map,
      List.map_cons, List.map_map]
    unfold fan
    rw [ih]
    congr 1
    refine List.map_congr_left fun i _ => ?_
    show _ = [first, f (base + (i + 1)), f (base + (i + 1) + 1)]
    rw [show base + 1 + i = base + (i + 1) by omega]

theorem lines_window : ∀ n base, lines (window f base n) =
    (List.range (n / 2)).map fun k => [f (base + 2 * k), f (base + 2 * k + 1)]
  | 0, _ | 1, _ => rfl
  | n + 2, base => by
    rw [window_succ, window_succ, Nat.add_div_right n (by decide), List.range_succ_eq_map,
      List.map_cons, List.map_map]
    show [_, _] :: lines (window f (base + 2) n) = _
    rw [lines_window n (base + 2)]
    congr 1
    refine List.map_congr_left fun k _ => ?_
    show _ = [f (base + 2 * (k + 1)), f (base + 2 * (k + 1) + 1)]
    rw [show base + 2 + 2 * k = base + 2 * (k + 1) by omega]

theorem lineStrip_window : ∀ n base, lineStrip (window f base n) =
    (List.range (n - 1)).map fun i => [f (base + i), f (base + i + 1)]
  | 0, _ | 1, _ => rfl
  | n + 2, base => by
    have ih := lineStrip_window (n + 1) (base + 1)
    rw [window_succ] at ih
    rw [window_succ, window_succ, show n + 2 - 1 = n + 1 by omega, List.range_succ_eq_map,
      List.map_cons, List.map_map]
    unfold lineStrip
    rw [ih]
    congr 1
    refine List.map_congr_left fun i _ => ?_
    show _ = [f (base + (i + 1)), f (base + (i + 1) + 1)]
    rw [show base + 1 + i = base + (i + 1) by omega]

/-- **The indices of a draw make its primitives.** -/
theorem assemble_window (primitive base n : Nat) :
    assemble primitive (window f base n) =
      (indexGroups primitive base n).map fun g => g.map f := by
  unfold assemble indexGroups
  dsimp only
  split
  · rw [quads_window, List.map_flatMap]
    rfl
  split
  · rw [triangles_window, List.map_map]
    rfl
  split
  · rw [strip_window, List.map_map]
    refine List.map_congr_left fun i _ => ?_
    show _ = (if i % 2 = 1 then [base + i + 1, base + i, base + i + 2]
      else [base + i, base + i + 1, base + i + 2]).map f
    rcases Nat.mod_two_eq_zero_or_one i with hi | hi
    · rw [if_neg (by simp [hi]), if_neg (by omega)]
      rfl
    · rw [if_pos (by simp [hi]), if_pos hi]
      rfl
  split
  · cases n with
    | zero => rfl
    | succ n =>
      rw [window_succ]
      show fan (f base) (window f (base + 1) n) = _
      rw [fan_window, List.map_map, show n + 1 - 2 = n - 1 by omega]
      refine List.map_congr_left fun i _ => ?_
      show [f base, f (base + 1 + i), f (base + 1 + i + 1)] =
        [f base, f (base + (i + 1)), f (base + (i + 1) + 1)]
      rw [show base + 1 + i = base + (i + 1) by omega]
  split
  · rw [lines_window, List.map_map]
    rfl
  split
  · rw [lineStrip_window, List.map_map]
    rfl
  · unfold window
    rw [List.map_map, List.map_map]
    rfl

end

/-! ## what a batch shows -/

def listSize (list : Nat) : Nat := if list = 0x90 then 3 else if list = 0xA8 then 2 else 1

theorem listSize_pos (list : Nat) : 0 < listSize list := by
  unfold listSize
  split
  · decide
  · split <;> decide

theorem mem_indexGroups {primitive base n : Nat} {g : List Nat}
    (h : g ∈ indexGroups primitive base n) :
    g.length = listSize (list_of primitive) ∧ ∀ i ∈ g, base ≤ i ∧ i < base + n := by
  unfold indexGroups at h
  unfold list_of
  dsimp only at h ⊢
  generalize primitive &&& 0xF8 = kind at h ⊢
  split at h
  · next hkind =>
    rw [if_pos (by omega)]
    obtain ⟨k, hk, hg⟩ := List.mem_flatMap.mp h
    have hk : k < n / 4 := List.mem_range.mp hk
    rcases List.mem_cons.mp hg with rfl | hg
    · refine ⟨rfl, fun i hi => ?_⟩
      simp only [List.mem_cons, List.not_mem_nil, or_false] at hi
      omega
    · obtain rfl := List.mem_singleton.mp hg
      refine ⟨rfl, fun i hi => ?_⟩
      simp only [List.mem_cons, List.not_mem_nil, or_false] at hi
      omega
  split at h
  · next hkind =>
    rw [if_pos (by omega)]
    obtain ⟨k, hk, rfl⟩ := List.mem_map.mp h
    have hk : k < n / 3 := List.mem_range.mp hk
    refine ⟨rfl, fun i hi => ?_⟩
    simp only [List.mem_cons, List.not_mem_nil, or_false] at hi
    omega
  split at h
  · next hkind =>
    rw [if_pos (by omega)]
    obtain ⟨k, hk, rfl⟩ := List.mem_map.mp h
    have hk : k < n - 2 := List.mem_range.mp hk
    split
    · refine ⟨rfl, fun i hi => ?_⟩
      simp only [List.mem_cons, List.not_mem_nil, or_false] at hi
      omega
    · refine ⟨rfl, fun i hi => ?_⟩
      simp only [List.mem_cons, List.not_mem_nil, or_false] at hi
      omega
  split at h
  · next hkind =>
    rw [if_pos (by omega)]
    obtain ⟨k, hk, rfl⟩ := List.mem_map.mp h
    have hk : k < n - 2 := List.mem_range.mp hk
    refine ⟨rfl, fun i hi => ?_⟩
    simp only [List.mem_cons, List.not_mem_nil, or_false] at hi
    omega
  split at h
  · next hkind =>
    rw [if_neg (by omega), if_pos (by omega)]
    obtain ⟨k, hk, rfl⟩ := List.mem_map.mp h
    have hk : k < n / 2 := List.mem_range.mp hk
    refine ⟨rfl, fun i hi => ?_⟩
    simp only [List.mem_cons, List.not_mem_nil, or_false] at hi
    omega
  split at h
  · next hkind =>
    rw [if_neg (by omega), if_pos (by omega)]
    obtain ⟨k, hk, rfl⟩ := List.mem_map.mp h
    have hk : k < n - 1 := List.mem_range.mp hk
    refine ⟨rfl, fun i hi => ?_⟩
    simp only [List.mem_cons, List.not_mem_nil, or_false] at hi
    omega
  · rw [if_neg (by omega), if_neg (by omega)]
    obtain ⟨k, hk, rfl⟩ := List.mem_map.mp h
    have hk : k < n := List.mem_range.mp hk
    refine ⟨rfl, fun i hi => ?_⟩
    simp only [List.mem_cons, List.not_mem_nil, or_false] at hi
    omega

def Sent.shown : Sent V → List (Shown V)
  | .drawn list vertices indices s =>
    (cut (listSize list) indices).map fun g => .primitive (g.filterMap fun i => vertices[i]?) s
  | .action a => [.action a]

def Batch.shown (b : Batch V) (s : State) : List (Shown V) :=
  (cut (listSize b.primitive) b.indices).map fun g => .primitive (g.map b.vertices) s

/-- whole primitives, of vertices that are there -/
structure Batch.Sound (b : Batch V) : Prop where
  groups : ∃ gs : List (List Nat), b.indices = gs.flatten ∧
    ∀ g ∈ gs, g.length = listSize b.primitive ∧ ∀ i ∈ g, i < b.count

namespace Batch.Sound

variable {b : Batch V}

theorem cut_mem (h : b.Sound) {g : List Nat} (hg : g ∈ cut (listSize b.primitive) b.indices) :
    g.length = listSize b.primitive ∧ ∀ i ∈ g, i < b.count := by
  obtain ⟨gs, hindices, hgs⟩ := h.groups
  rw [hindices, cut_flatten (listSize_pos _) fun g hg => (hgs g hg).1] at hg
  exact hgs g hg

theorem sent_shown (h : b.Sound) (s : State) :
    (Sent.drawn b.primitive (window b.vertices 0 b.count) b.indices s).shown = b.shown s := by
  refine List.map_congr_left fun g hg => ?_
  have hbound := (h.cut_mem hg).2
  congr 1
  rw [← List.filterMap_eq_map]
  refine List.filterMap_congr fun i hi => ?_
  rw [getElem?_window _ _ (hbound i hi), Nat.zero_add]
  rfl

theorem nil (vertices : Nat → V) (count primitive : Nat) (generation : BitVec 64) :
    Batch.Sound ⟨vertices, [], count, primitive, generation⟩ :=
  ⟨⟨[], rfl, fun _ hg => by cases hg⟩⟩

theorem indices_nil (h : b.Sound) (hcount : b.count = 0) : b.indices = [] := by
  obtain ⟨gs, hindices, hgs⟩ := h.groups
  rw [hindices, List.flatten_eq_nil_iff]
  intro g hg
  rw [List.eq_nil_iff_forall_not_mem]
  intro i hi
  have hlt := (hgs g hg).2 i hi
  rw [hcount] at hlt
  exact Nat.not_lt_zero i hlt

theorem shown_empty (h : b.Sound) (hcount : b.count = 0) (s : State) : b.shown s = [] := by
  unfold Batch.shown
  rw [h.indices_nil hcount, cut_nil]
  rfl

theorem shown_congr (h : b.Sound) {vertices : Nat → V}
    (heq : ∀ i < b.count, vertices i = b.vertices i) (s : State) :
    ({ b with vertices := vertices } : Batch V).shown s = b.shown s := by
  refine List.map_congr_left fun g hg => ?_
  congr 1
  exact List.map_congr_left fun i hi => heq i ((h.cut_mem hg).2 i hi)

theorem append (h : b.Sound) {primitive n : Nat} (hlist : b.primitive = list_of primitive)
    (generation : BitVec 64) (s : State) :
    let b' : Batch V := ⟨b.vertices, b.indices ++ (indexGroups primitive b.count n).flatten,
      b.count + n, list_of primitive, generation⟩
    b'.Sound ∧ b'.shown s =
      b.shown s ++ (assemble primitive (window b.vertices b.count n)).map fun v => .primitive v s := by
  intro b'
  obtain ⟨gs, hindices, hgs⟩ := h.groups
  have hall : ∀ g ∈ gs ++ indexGroups primitive b.count n,
      g.length = listSize (list_of primitive) ∧ ∀ i ∈ g, i < b.count + n := fun g hg => by
    rcases List.mem_append.mp hg with hold | hnew
    · obtain ⟨hlength, hbound⟩ := hgs g hold
      exact ⟨hlist ▸ hlength, fun i hi => Nat.lt_add_right n (hbound i hi)⟩
    · obtain ⟨hlength, hbound⟩ := mem_indexGroups hnew
      exact ⟨hlength, fun i hi => (hbound i hi).2⟩
  have hflatten : b'.indices = (gs ++ indexGroups primitive b.count n).flatten := by
    rw [List.flatten_append, ← hindices]
  refine ⟨⟨⟨_, hflatten, hall⟩⟩, ?_⟩
  unfold Batch.shown
  rw [hflatten, hindices, hlist, cut_flatten (listSize_pos _) fun g hg => (hall g hg).1,
    cut_flatten (listSize_pos _) fun g hg => (hall g (List.mem_append_left _ hg)).1,
    List.map_append, assemble_window, List.map_map]
  rfl

end Batch.Sound

/-! ## both targets side by side -/

/-- while the state is `s`: what has been sent, and the batch at hand, show what is shown alone -/
structure Merges (s : State) (t : Screen V) (u : Alone V) : Prop where
  pass : t.pass = u.pass
  sound : t.batch.Sound
  open_ : t.batch.count ≠ 0 → t.pass.passOpen = true
  shown : t.sent.flatMap Sent.shown ++ t.batch.shown s = u.shown

namespace Merges

variable {s s' : State} {t : Screen V} {u : Alone V}

theorem of_empty (h : Merges s t u) (hcount : t.batch.count = 0) (s' : State) : Merges s' t u := by
  refine ⟨h.pass, h.sound, h.open_, ?_⟩
  have hshown := h.shown
  rw [h.sound.shown_empty hcount] at hshown ⊢
  exact hshown

theorem extend (h : Merges s t u) (hcount : t.batch.count = 0) (actions : List Action) :
    Merges s { t with sent := t.sent ++ actions.map .action }
      { u with shown := u.shown ++ actions.map .action } := by
  refine ⟨h.pass, h.sound, fun hne => absurd hcount hne, ?_⟩
  have hshown := h.shown
  have hactions : (actions.map Sent.action : List (Sent V)).flatMap Sent.shown =
      actions.map .action := by
    induction actions with
    | nil => rfl
    | cons a actions ih =>
      rw [List.map_cons, List.flatMap_cons, ih]
      rfl
  show (t.sent ++ _).flatMap Sent.shown ++ t.batch.shown s = u.shown ++ _
  rw [h.sound.shown_empty hcount, List.append_nil] at hshown
  rw [List.flatMap_append, h.sound.shown_empty hcount, List.append_nil, hactions, hshown]

theorem withPass (h : Merges s t u) {pass : Pass}
    (hopen : t.batch.count ≠ 0 → pass.passOpen = true) :
    Merges s { t with pass := pass } { u with pass := pass } :=
  ⟨rfl, h.sound, hopen, h.shown⟩

/-- **A batch that is sent** leaves nothing behind. -/
theorem send_batch (h : Merges s t u) :
    (t.send_batch s).batch.count = 0 ∧ (t.send_batch s).pass = t.pass ∧
      ∀ s', Merges s' (t.send_batch s) u := by
  unfold Screen.send_batch
  split
  · next hcount => exact ⟨hcount, rfl, h.of_empty hcount⟩
  · next hcount =>
    refine ⟨rfl, rfl, fun s' => ?_⟩
    refine ⟨h.pass, .nil _ _ _ _, fun hne => absurd rfl hne, ?_⟩
    rw [(Batch.Sound.nil _ _ _ _).shown_empty rfl, List.append_nil, ← h.shown]
    dsimp only
    split
    · rw [List.flatMap_append, List.flatMap_singleton, h.sound.sent_shown]
    · next hindices =>
      have hnone : t.batch.indices = [] := not_not.mp hindices
      have hempty : t.batch.shown s = [] := by
        unfold Batch.shown
        rw [hnone, cut_nil]
        rfl
      rw [hempty, List.append_nil]

/-- the frame's pass opens before its first draw, so nothing is at hand -/
theorem begin_frame (h : Merges s t u) (g : Gpu) (s' : State) :
    Merges s (t.begin_frame g s') (u.begin_frame g s') := by
  unfold Screen.begin_frame Alone.begin_frame Pass.begin_frame
  rw [← h.pass]
  split
  · next hbegins =>
    have hcount : t.batch.count = 0 := by
      by_contra hne
      exact hbegins.2.1 (h.open_ hne)
    exact (h.extend hcount [_]).withPass fun hne => absurd hcount hne
  · have hnothing : t.sent ++ ([] : List Action).map .action = t.sent := List.append_nil _
    have hnothing' : u.shown ++ ([] : List Action).map .action = u.shown := List.append_nil _
    dsimp only
    rw [hnothing, hnothing', h.pass]
    rw [← h.pass]
    exact h.withPass h.open_

theorem window_store (t : Screen V) (at_ : Nat) (vs : List V) :
    window (t.store at_ vs).batch.vertices at_ vs.length = vs := by
  apply List.ext_getElem?
  intro i
  by_cases hi : i < vs.length
  · rw [getElem?_window _ _ hi, List.getElem?_eq_getElem hi]
    show some (if at_ ≤ at_ + i then vs.getD (at_ + i - at_) _ else _) = _
    rw [if_pos (Nat.le_add_right at_ i), Nat.add_sub_cancel_left, List.getD_eq_getElem _ _ hi]
  · rw [List.getElem?_eq_none (by rw [length_window]; omega), List.getElem?_eq_none (by omega)]

theorem store (h : Merges s t u) (vs : List V) : Merges s (t.store t.batch.count vs) u := by
  refine ⟨h.pass, ⟨h.sound.groups⟩, h.open_, ?_⟩
  rw [← h.shown]
  refine congrArg _ (h.sound.shown_congr (fun i hi => ?_) s)
  exact if_neg (Nat.not_le.mpr hi)

theorem ofList (h : Merges s t u) (hcount : t.batch.count = 0) (list : Nat) :
    Merges s { t with batch := { t.batch with primitive := list } } u := by
  have hindices := h.sound.indices_nil hcount
  have hsound : Batch.Sound { t.batch with primitive := list } := by
    rw [show ({ t.batch with primitive := list } : Batch V) =
      ⟨t.batch.vertices, [], t.batch.count, list, t.batch.generation⟩ by rw [← hindices]]
    exact .nil _ _ _ _
  refine ⟨h.pass, hsound, h.open_, ?_⟩
  have hshown := h.shown
  rw [h.sound.shown_empty hcount] at hshown
  rw [hsound.shown_empty hcount]
  exact hshown

/-- **A draw that is accepted** adds its primitives to what the batch shows. -/
theorem accept (h : Merges s t u) (hopen : t.pass.passOpen = true) {primitive : Nat}
    (hlist : t.batch.count = 0 ∨ t.batch.primitive = list_of primitive) (vs : List V)
    (generation : BitVec 64) :
    Merges s
      { (t.store t.batch.count vs).add_indices primitive t.batch.count vs.length with
        batch := { ((t.store t.batch.count vs).add_indices primitive t.batch.count vs.length).batch
          with
            count := t.batch.count + vs.length
            primitive := list_of primitive
            generation := generation } }
      { u with shown := u.shown ++ (assemble primitive vs).map fun v => .primitive v s } := by
  have htyped : Merges s { t with batch := { t.batch with primitive := list_of primitive } } u := by
    rcases hlist with hcount | hlist
    · exact h.ofList hcount _
    · rw [← hlist]
      exact h
  have hstored := htyped.store vs
  obtain ⟨hsound, hshown⟩ := hstored.sound.append (n := vs.length) rfl generation s
  have hvertices := window_store
    ({ t with batch := { t.batch with primitive := list_of primitive } } : Screen V)
    t.batch.count vs
  refine ⟨h.pass, hsound, fun _ => hopen, ?_⟩
  rw [← hstored.shown, List.append_assoc]
  refine congrArg _ (hshown.trans ?_)
  rw [show (({ t with batch := { t.batch with primitive := list_of primitive } } :
    Screen V).store t.batch.count vs).batch.count = t.batch.count from rfl, hvertices]

/-- **One draw**, merged or shown by itself. -/
theorem draw (h : Merges s t u) (g : Gpu) (d : Draw) :
    Merges s (t.draw vertex g d s) (u.draw vertex g d s) := by
  have hbegun := h.begin_frame g s
  unfold Screen.draw Alone.draw
  dsimp only
  generalize t.begin_frame g s = t at hbegun ⊢
  generalize u.begin_frame g s = u at hbegun ⊢
  have hsame := hbegun.pass
  by_cases hopen : t.pass.passOpen = true
  · have hopen' : u.pass.passOpen = true := hsame ▸ hopen
    rw [if_pos hopen]
    -- what is at hand now is of the draw's list
    have hready : ∃ t', (if t.batch.count ≠ 0 ∧ (t.batch.primitive ≠ list_of d.primitive ∨
          t.batch.generation ≠ s.generation) then t.send_batch s else t) = t' ∧
        Merges s t' u ∧ t'.pass = t.pass ∧
        (t'.batch.count = 0 ∨ t'.batch.primitive = list_of d.primitive) := by
      refine ⟨_, rfl, ?_⟩
      split
      · obtain ⟨hcount, hpass, hsent⟩ := hbegun.send_batch
        exact ⟨hsent s, hpass, .inl hcount⟩
      · next hjoins =>
        refine ⟨hbegun, rfl, ?_⟩
        by_cases hcount : t.batch.count = 0
        · exact .inl hcount
        · refine .inr ?_
          by_contra hlist
          exact hjoins ⟨hcount, .inl hlist⟩
    obtain ⟨t', ht', hmerges, hpass, hlist⟩ := hready
    rw [ht']
    by_cases hwhole : (ConvertVertices vertex d).length = d.count
    · rw [if_neg (not_not.mpr hwhole), if_pos ⟨hopen', hwhole⟩, ← hwhole]
      exact hmerges.accept (by rw [hpass]; exact hopen) hlist _ s.generation
    · rw [if_pos hwhole, if_neg fun hboth => hwhole hboth.2]
      exact hmerges.store _
  · rw [if_neg hopen, if_neg fun hboth => hopen (hsame ▸ hboth.1)]
    exact hbegun

theorem sendThen (h : Merges s t u) (s' : State) (action : Action) :
    Merges s' { t.send_batch s with sent := (t.send_batch s).sent ++ [.action action] }
      { u with shown := u.shown ++ [.action action] } := by
  obtain ⟨hcount, -, hsent⟩ := h.send_batch
  exact (hsent s').extend hcount [action]

theorem copyTex (h : Merges s t u) (h' : Merges s' t u) (g : Gpu) (p : Packet) :
    Merges s' (t.copyTex g s p) (u.copyTex g s p) := by
  have hbegun := h.begin_frame g s
  have hbegun' := h'.begin_frame g s
  unfold Screen.copyTex Alone.copyTex
  dsimp only
  generalize t.begin_frame g s = t at hbegun hbegun' ⊢
  generalize u.begin_frame g s = u at hbegun hbegun' ⊢
  rw [hbegun.pass]
  split
  · exact hbegun.sendThen s' _
  · exact hbegun'

theorem copyDisplay (h : Merges s t u) (h' : Merges s' t u) (g : Gpu) (p : Packet) :
    Merges s' (t.copyDisplay g s p) (u.copyDisplay g s p) := by
  have hbegun := h.begin_frame g s
  have hbegun' := h'.begin_frame g s
  unfold Screen.copyDisplay Alone.copyDisplay
  dsimp only
  generalize t.begin_frame g s = t at hbegun hbegun' ⊢
  generalize u.begin_frame g s = u at hbegun hbegun' ⊢
  rw [hbegun.pass]
  split
  · have hsent := hbegun.send_batch
    rw [hsent.2.1, hbegun.pass]
    exact (hbegun.sendThen s' _).withPass fun hne => absurd hsent.1 hne
  · exact hbegun'

end Merges

theorem Pass.setDisplay_passOpen (pass : Pass) (p : Packet) :
    (pass.setDisplay p).passOpen = pass.passOpen := by
  unfold Pass.setDisplay
  split <;> rfl

theorem merges_follower (g : Gpu) :
    Follower (Screen.batched vertex g) (alone vertex g) (Merges (V := V)) where
  up := rfl
  passOpen h := congrArg Pass.passOpen h.pass
  change h s' := h.send_batch.2.2 s'
  draw d h := h.draw vertex g d
  displaySource {s t u} p h := by
    show Merges s { t with pass := t.pass.setDisplay p } { u with pass := u.pass.setDisplay p }
    rw [← h.pass]
    refine h.withPass fun hne => ?_
    rw [Pass.setDisplay_passOpen]
    exact h.open_ hne
  copyTex p h h' := h.copyTex h' g p
  copyDisplay p h h' := h.copyDisplay h' g p
  endPass {_ s' _ _} a h _ := h.sendThen s' (.presented a)
  present {_ t _} a h hclosed := by
    have hcount : t.batch.count = 0 := by
      by_contra hne
      exact absurd (h.open_ hne) (Bool.eq_false_iff.mp hclosed)
    exact h.extend hcount [.presented a]

namespace Screen

def start (pass : Pass) (vertices : Nat → V) : Screen V :=
  ⟨pass, ⟨vertices, [], 0, 0, 0⟩, []⟩

end Screen

/-- **Merging draws changes nothing that is shown.**  After any packets, what the GPU was given and
what the batch at hand shows are, primitive by primitive, each with its state and among the copies,
what is shown when every accepted draw is converted and shown by itself when it comes. -/
theorem batched_eq_alone (g : Gpu) (memory : Memory) (p : Processor) (pass : Pass)
    (vertices : Nat → V) (ps : List Packet) :
    let r := ps.foldl (Renderer.run (Screen.batched vertex g) memory)
      ⟨{ p with trace := [] }, [], 0, .start pass vertices⟩
    let r' := ps.foldl (Renderer.run (alone vertex g) memory)
      ⟨{ p with trace := [] }, [], 0, ⟨pass, []⟩⟩
    r.processor = r'.processor ∧ r.target.pass = r'.target.pass ∧
      r.target.sent.flatMap Sent.shown ++ r.target.batch.shown r.processor.state =
        r'.target.shown ∧
      (r.target.batch.count = 0 → r.target.sent.flatMap Sent.shown = r'.target.shown) := by
  intro r r'
  have hstart : ∀ s, Merges s (Screen.start pass vertices) ⟨pass, []⟩ := fun s =>
    ⟨rfl, .nil _ _ _ _, fun hne => absurd rfl hne,
      (Batch.Sound.nil _ _ _ _).shown_empty rfl s⟩
  have halike : Alike Merges r r' := Alike.runs (merges_follower vertex g) memory
    ⟨rfl, rfl, ⟨List.isChain_nil, fun e he => by cases he⟩, fun s _ => hstart s⟩ ps
  have hnow := halike.now
  refine ⟨halike.processor, hnow.pass, hnow.shown, fun hcount => ?_⟩
  have hshown := hnow.shown
  rw [hnow.sound.shown_empty hcount, List.append_nil] at hshown
  exact hshown

end DolTranslator.Gx
