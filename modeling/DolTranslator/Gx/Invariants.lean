import DolTranslator.Gx.Commands
import Mathlib.Data.List.Chain

/-!
# What every command keeps, a stream keeps

* `Invariant P`   `P` survives the format cache, the loads, and the callback of a draw;
* `Invariant.Run`   then it survives every stream, whatever lists it calls.
-/

namespace DolTranslator.Gx

open Function Streams

theorem if_rec {α : Type} {P : α → Prop} {c : Prop} [Decidable c] {x y : α} (hx : P x) (hy : P y) :
    P (if c then x else y) := by
  split
  · exact hx
  · exact hy

namespace Processor

structure Invariant (P : Processor → Prop) : Prop where
  format : ∀ p table, P p → P (p.DirectFormat table).1
  cp : ∀ p reg value, P p → P (p.LoadCP reg value)
  bp : ∀ p value, P p → P (p.loadBP value)
  xf : ∀ p cause (address : BitVec 32) words, address.toNat < 0x10000 → 0 < words.length →
    words.length ≤ 0x10000 → P p → P (p.loadXF cause address words)
  draw : ∀ p (d : Draw), P p → P { p with trace := .draw d p.state :: p.trace }

theorem be32s_length (data : List Byte) (count : Nat) : (be32s data count).length = count := by
  rw [be32s, List.length_map, List.length_range]

theorem bits_lt (v : BitVec 32) (size shift : Nat) : bits v size shift < 2 ^ size :=
  Nat.mod_lt _ (Nat.two_pow_pos size)

/-- the draw's only change is the trace -/
theorem drawRecords_trace {memory : Memory} {p p' : Processor} {cmd count : Nat}
    {format : VertexFormat} {data rest : List Byte}
    (h : drawRecords memory p cmd count format data = some (p', rest)) :
    ∃ d : Draw, p' = { p with trace := .draw d p.state :: p.trace } := by
  obtain ⟨l, -, h⟩ := Option.bind_eq_some_iff.mp h
  split at h
  · cases h
  · split at h
    · cases h
    · obtain ⟨rfl, -⟩ := Prod.mk.inj (Option.some.inj h)
      exact ⟨_, rfl⟩

/-- **A predicate on the state alone** is kept when the setters of the state keep it. -/
theorem Invariant.of_state {P : State → Prop} (hclear : ∀ s, P s → P s.clearVtxDesc)
    (hset : ∀ s attr type, P s → P (s.setVtxDesc attr type))
    (hbp : ∀ s value, P s → P (s.applyBP value))
    (hxf : ∀ s (address : BitVec 32) words, address.toNat < 0x10000 → 0 < words.length →
      words.length ≤ 0x10000 → P s → P (s.applyXF address words)) :
    Invariant fun p => P p.state where
  format _ _ h := if_rec (P := fun r : Processor × VertexFormat => P r.1.state) h h
  cp p reg value h := by
    have hdescriptor {p : Processor} (h : P p.state) : P p.setDescriptor.state :=
      List.foldlRecOn (motive := P) _ _ (hclear _ h) fun s hs attr _ => hset s attr _ hs
    unfold LoadCP
    apply if_rec (P := fun p : Processor => P p.state) h
    apply if_rec (P := fun p : Processor => P p.state)
    · exact hdescriptor h
    apply if_rec (P := fun p : Processor => P p.state)
    · exact hdescriptor h
    -- the tables and the arrays
    repeat' first | exact h | apply if_rec (P := fun p : Processor => P p.state)
  bp p value h := if_rec (P := fun p : Processor => P p.state) h (hbp p.state value h)
  xf p _ address words haddress hpos hle h := if_rec (P := fun p : Processor => P p.state) h
    (hxf p.state address words haddress hpos hle h)
  draw _ _ h := h

namespace Invariant

variable {P : Processor → Prop} (hP : Invariant P) (memory : Memory) {p : Processor}
include hP

theorem RunDraw (h : P p) (cmd : Nat) (data : List Byte) : P (RunDraw memory cmd p data).1 := by
  unfold Processor.RunDraw
  have hformat := hP.format p (cmd % 8) h
  split
  · exact h
  · dsimp only
    split
    · exact hformat
    · next p' rest hdraw =>
      obtain ⟨d, rfl⟩ := drawRecords_trace hdraw
      exact hP.draw _ d hformat

omit hP in
theorem ite {c : Prop} [Decidable c] {x y : Processor × Option (List Byte)} (hx : P x.1)
    (hy : P y.1) : P (if c then x else y).1 := by
  split
  · exact hx
  · exact hy

theorem loadXFWords (h : P p) (header : BitVec 32) (data : List Byte) :
    P (p.loadXFWords header data).1 := by
  have hcount := bits_lt header 16 16
  have haddress : (header &&& 0xFFFF).toNat < 0x10000 := by
    rw [BitVec.toNat_and]
    exact Nat.lt_of_le_of_lt Nat.and_le_right (by decide)
  unfold Processor.loadXFWords
  dsimp only
  generalize bits header 16 16 = count at *
  refine ite h (hP.xf p _ _ _ haddress ?_ ?_ h)
  · rw [be32s_length]
    omega
  · rw [be32s_length]
    omega

theorem LoadIndexed (h : P p) (cmd : Nat) (value : BitVec 32) :
    P (p.LoadIndexed memory cmd value) := by
  have hcount := bits_lt value 4 12
  have haddress : (BitVec.ofNat 32 (bits value 12 0)).toNat < 0x10000 := by
    have := bits_lt value 12 0
    rw [BitVec.toNat_ofNat]
    omega
  unfold Processor.LoadIndexed
  dsimp only
  split
  · exact h
  · refine hP.xf p _ _ _ haddress ?_ ?_ h
    · rw [be32s_length]
      omega
    · rw [be32s_length]
      omega

omit hP in
theorem callList {call : Processor → List Byte → Processor}
    (hcall : ∀ p list, P p → P (call p list)) (h : P p) (address bytes : BitVec 32) :
    P (p.callList memory call address bytes) := by
  unfold Processor.callList
  split
  · exact h
  · exact hcall _ _ h

theorem commandBody {call : Processor → List Byte → Processor}
    (hcall : ∀ p list, P p → P (call p list)) (h : P p) (cmd : Nat) (data : List Byte) :
    P (commandBody memory call cmd p data).1 := by
  unfold Processor.commandBody
  refine ite (hP.RunDraw memory h cmd data) (ite h (ite ?_ (ite ?_ (ite ?_ (ite ?_ (ite ?_ h))))))
  · exact ite h (hP.cp p _ _ h)
  · exact ite h (hP.loadXFWords h _ _)
  · exact ite h (hP.LoadIndexed memory h cmd _)
  · exact ite h (callList memory hcall h _ _)
  · exact ite h (hP.bp p _ h)

theorem command {call : Processor → List Byte → Processor}
    (hcall : ∀ p list, P p → P (call p list)) (h : P p) (data : List Byte) :
    P (command memory call p data).1 := by
  cases data with
  | nil => exact h
  | cons byte data => exact hP.commandBody memory hcall h byte.toNat data

theorem runLevels (levels : Nat) (h : P p) (data : List Byte) :
    P (runLevels memory levels p data).1 := by
  induction levels generalizing p data with
  | zero =>
    exact loop_rel (R := fun p p' => P p → P p') (fun _ h => h) (fun _ _ _ h h' hp => h' (h hp))
      (fun p data hp => hP.command memory (fun _ _ h => h) hp data) _ p data h
  | succ levels ih =>
    exact loop_rel (R := fun p p' => P p → P p') (fun _ h => h) (fun _ _ _ h h' hp => h' (h hp))
      (fun p data hp => hP.command memory (fun _ list h => ih h list) hp data) _ p data h

theorem Run (h : P p) (depth : Nat) (data : List Byte) : P (Run memory depth p data).1 :=
  hP.runLevels memory (kMaxDepth - depth) h data

end Invariant

end Processor

end DolTranslator.Gx

/-!
## The batching hook comes before every change

The trace of a run has the state that each callback saw.  Two callbacks in a row, the first a draw,
saw the same state: whatever changes the state has called the hook first.

* `Told p`         the callbacks of the trace and the present state are in order in that sense;
* `told`           every command keeps them so;
* `hook_before_change`   what a renderer that merges draws relies on.
-/

namespace DolTranslator.Gx

open Function Streams

def Event.state : Event → State
  | .change _ s => s
  | .draw _ s => s

/-- the state has not moved from a draw to what came next -/
def Follows (next : State) : Event → Prop
  | .change _ _ => True
  | .draw _ s => next = s

def State.DrawVisible (s : State) : TevConfig × VertexConfig × PixelState × List (BitVec 32) ×
    List (BitVec 32) × (Fin 8 → TexMap) × (BitVec 32 → TlutLoad) :=
  (s.Tev, s.Vertex, s.pixel, s.TevUniforms, s.XfUniforms, s.Texture, s.Tlut)

namespace Processor

structure Told (p : Processor) : Prop where
  trace : p.trace.IsChain fun later earlier => Follows later.state earlier
  now : ∀ e ∈ p.trace.head?, Follows p.state e

variable {p p' : Processor} (memory : Memory)

theorem Told.of_eq (h : Told p) (htrace : p'.trace = p.trace) (hstate : p'.state = p.state) :
    Told p' := by
  refine ⟨htrace ▸ h.trace, ?_⟩
  rw [htrace, hstate]
  exact h.now

theorem Told.push (h : Told p) {e : Event} (he : e.state = p.state) (htrace : p'.trace = e :: p.trace)
    (hnow : Follows p'.state e) : Told p' := by
  refine ⟨?_, ?_⟩
  · rw [htrace, List.isChain_cons]
    refine ⟨fun e' he' => ?_, h.trace⟩
    rw [he]
    exact h.now e' he'
  · rw [htrace]
    rintro e' he'
    obtain rfl := Option.some.inj he'
    exact hnow

theorem Told.change (h : Told p) (cause : Nat) {s : State} :
    Told { p.BeforeChange cause with state := s } :=
  h.push (e := .change cause p.state) rfl rfl trivial

theorem told_DirectFormat (h : Told p) (table : Nat) : Told (p.DirectFormat table).1 := by
  unfold DirectFormat
  split <;> exact h.of_eq rfl rfl

theorem told_LoadCP (h : Told p) (reg : Nat) (value : BitVec 32) : Told (p.LoadCP reg value) := by
  unfold LoadCP
  split
  · exact h
  split
  · have hregs : Told { p with vcdLo := value, formatValid := fun _ => false, vcdSet := true } :=
      h.of_eq rfl rfl
    exact hregs.change _
  split
  · have hregs : Told { p with vcdHi := value, formatValid := fun _ => false, vcdSet := true } :=
      h.of_eq rfl rfl
    exact hregs.change _
  repeat' split
  all_goals exact h.of_eq rfl rfl

theorem told_loadBP (h : Told p) (value : BitVec 32) : Told (p.loadBP value) := by
  unfold loadBP
  split
  · exact h
  · exact h.change _

theorem told_loadXF (h : Told p) (cause : Nat) (address : BitVec 32) (words : List (BitVec 32)) :
    Told (p.loadXF cause address words) := by
  unfold loadXF
  split
  · exact h
  · exact h.change cause

theorem told : Invariant Told where
  format _ table h := told_DirectFormat h table
  cp _ reg value h := told_LoadCP h reg value
  bp _ value h := told_loadBP h value
  xf _ cause address words _ _ _ h := told_loadXF h cause address words
  draw p d h := h.push (e := .draw d p.state) rfl rfl rfl

def callbacks (depth : Nat) (p : Processor) (data : List Byte) : List Event :=
  (Run memory depth { p with trace := [] } data).1.trace.reverse

/-- **The hook precedes every change.**  In every run, when two draws with no draw between them see
different configurations, the hook has fired between them; and when it first fires after a draw, the
state is the one of that draw. -/
theorem hook_before_change (depth : Nat) (p : Processor) (data : List Byte) :
    (∀ front d s between d' s' rest,
      callbacks memory depth p data = front ++ .draw d s :: between ++ .draw d' s' :: rest →
      (∀ e ∈ between, ∀ d s, e ≠ .draw d s) → s.DrawVisible ≠ s'.DrawVisible →
      ∃ cause at_, .change cause at_ ∈ between) ∧
    ∀ front d s cause at_ rest,
      callbacks memory depth p data = front ++ .draw d s :: .change cause at_ :: rest → at_ = s := by
  have htold : Told (Run memory depth { p with trace := [] } data).1 :=
    told.Run memory ⟨List.isChain_nil, fun e he => by cases he⟩ depth data
  have hchain : (callbacks memory depth p data).IsChain fun earlier later =>
      Follows later.state earlier := List.isChain_reverse.mpr htold.trace
  refine ⟨fun front d s between d' s' rest heq hbetween hne => ?_,
    fun front d s cause at_ rest heq => ?_⟩
  · cases between with
    | cons e es =>
      cases e with
      | change cause at_ => exact ⟨cause, at_, List.mem_cons_self⟩
      | draw d₁ s₁ => exact absurd rfl (hbetween _ List.mem_cons_self d₁ s₁)
    | nil =>
      -- two draws in a row: nothing has moved
      rw [heq, List.append_assoc] at hchain
      have hpair := (List.isChain_append_cons_cons.mp hchain).2.1
      have hsame : s' = s := hpair
      exact absurd (by rw [hsame]) hne
  · rw [heq] at hchain
    exact (List.isChain_append_cons_cons.mp hchain).2.1

end Processor

end DolTranslator.Gx
