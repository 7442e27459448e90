import DolTranslator.Gx.Decoding

/-!
# The register of a slot

Each slot is written by one register, but for the counts of texture coordinates and channels, which
BP and XF both load.

* `Register`, `owner`   the register of a slot;
* `Owns r v es`   the effects are on slots of `r` or on the counts, each on its own;
* `Register.owns`   a register's effects are.
-/

namespace DolTranslator.Gx

open Function Streams

/-! ## the register of a slot -/

inductive Register where
  | bp (reg : Nat)
  | xf (address : Nat)
  /-- of the counts of texture coordinates and channels, loaded through BP and through XF -/
  | counts
  deriving DecidableEq

/-- where a row of a BP colour is loaded: red and alpha, or blue and green -/
def colorRegister (row col : Nat) : Nat := 0xE0 + 2 * row + if col = 0 ∨ col = 3 then 0 else 1

def owner : Slot → Register
  | .tev (0, n, 0) => .bp (0xC0 + 2 * n)
  | .tev (0, n, 1) => .bp (0xC1 + 2 * n)
  | .tev (0, n, 2) => .bp (0x28 + n / 2)
  | .tev (0, n, _) => .bp (0xF6 + n / 2)
  | .tev (1, t, 0) => .bp (0xF6 + 2 * t)
  | .tev (1, t, _) => .bp (0xF7 + 2 * t)
  | .tev (2, _, _) => .bp 0x00
  | .tev (3, _, _) => .bp 0xF3
  | .tev (4, _, _) => .bp 0xF1
  | .tev (_, _, _) => .bp 0x42
  | .vertex (0, n, 0) => .xf (if n < 4 then 0x1018 else 0x1019)
  | .vertex (0, n, 1) => .xf (0x1040 + n)
  | .vertex (0, n, _) => .xf (0x1050 + n)
  | .vertex (1, n, _) => .xf (0x100E + n)
  | .vertex (2, _, _) => .xf 0x1012
  | .vertex (_, _, _) => .counts
  | .pixel 0 => .bp 0x00
  | .pixel 1 => .bp 0x40
  | .pixel 2 => .bp 0x41
  | .pixel _ => .bp 0x43
  | .cell .kColors row col => .bp (colorRegister row col)
  | .cell .tevRegs row col => .bp (colorRegister row col)
  | .cell .pos row col => .xf (4 * row + col)
  | .cell .nrm row col => .xf (0x400 + 3 * row + col)
  | .cell .tex row col => .xf (4 * (row + 30) + col)
  | .cell .post row col => .xf (0x500 + 4 * row + col)
  | .number .fogColor i => .bp (if i = 3 then 0x42 else 0xF2)
  | .number .viewport i => .xf (0x101A + i)
  | .single 0 => .bp 0xEE
  | .single 1 => .bp 0xF1
  | .single 2 => .bp 0xEF
  | .single 3 => .bp 0xF0
  | .single _ => .xf 0x1018
  | .chanAmb n => .xf (0x100A + n)
  | .chanMat n => .xf (0x100C + n)
  | .light n (0, _) => .xf (0x600 + 16 * n + 3)
  | .light n (1, i) => .xf (0x600 + 16 * n + 4 + i)
  | .light n (2, i) => .xf (0x600 + 16 * n + 7 + i)
  | .light n (3, i) => .xf (0x600 + 16 * n + 10 + i)
  | .light n (_, i) => .xf (0x600 + 16 * n + 13 + i)
  | .projParam i => .xf (0x1020 + i)
  | .projOrtho => .xf 0x1026
  | .tlut _ => .bp 0x65

/-- the two counts that BP and XF both load -/
inductive Count where
  | texGens
  | channels

def Count.effect : Count → Nat → Effect
  | .texGens, n => .vertex (.texGenCount n)
  | .channels, n => .vertex (.channelCount n)

/-- its register in XF; in BP it is 0x00 -/
def Count.address : Count → Nat
  | .texGens => 0x103F
  | .channels => 0x1009

def State.count (s : State) : Count → Nat
  | .texGens => s.vertex.texGenCount
  | .channels => s.vertex.channelCount

namespace Register

/-- the count in a register's word, for the two registers that have it -/
def count (r : Register) (v : BitVec 32) : Count → Option Nat
  | .texGens =>
    if r = .bp 0x00 then some (texGenCountOf (bits v 4 0))
    else if r = .xf 0x103F then some (texGenCountOf (bits v 8 0))
    else none
  | .channels =>
    if r = .bp 0x00 then some (channelCountOf (bits v 3 4))
    else if r = .xf 0x1009 then some (channelCountOf (bits v 8 0))
    else none

/-- an effect on the counts -/
def Counts (r : Register) (v : BitVec 32) (e : Effect) : Prop := ∃ c, ∃ n ∈ r.count v c, e = c.effect n

theorem Counts.owner {r : Register} {v : BitVec 32} {e : Effect} (h : r.Counts v e) :
    owner (slot e) = .counts := by
  obtain ⟨c, n, _, rfl⟩ := h
  cases c <;> rfl

theorem count_register {r : Register} {v : BitVec 32} {c : Count} {n : Nat} (h : n ∈ r.count v c) :
    r = .bp 0x00 ∨ r = .xf c.address := by
  cases c with
  | texGens =>
    by_cases hbp : r = .bp 0x00
    · exact Or.inl hbp
    · by_cases hxf : r = .xf 0x103F
      · exact Or.inr hxf
      · rw [count, if_neg hbp, if_neg hxf] at h
        cases h
  | channels =>
    by_cases hbp : r = .bp 0x00
    · exact Or.inl hbp
    · by_cases hxf : r = .xf 0x1009
      · exact Or.inr hxf
      · rw [count, if_neg hbp, if_neg hxf] at h
        cases h

end Register

/-- a register's effects: on slots of its own, or on the counts -/
def Owns (r : Register) (v : BitVec 32) (es : List Effect) : Prop :=
  (∀ e ∈ es, owner (slot e) = r ∨ r.Counts v e) ∧ (es.map slot).Nodup

variable {r : Register} {v : BitVec 32}

theorem Owns.nil : Owns r v [] := ⟨fun _ h => absurd h List.not_mem_nil, List.nodup_nil⟩

theorem Owns.one {e : Effect} (h : owner (slot e) = r ∨ r.Counts v e) : Owns r v [e] :=
  ⟨fun e' he' => by rwa [List.mem_singleton.mp he'], List.nodup_singleton _⟩

theorem Owns.cons {e : Effect} {es : List Effect} (h : owner (slot e) = r ∨ r.Counts v e) (hnew : ∀ e' ∈ es, slot e ≠ slot e')
    (hes : Owns r v es) : Owns r v (e :: es) := by
  refine ⟨fun e' he' => ?_, ?_⟩
  · rcases List.mem_cons.mp he' with rfl | he'
    · exact h
    · exact hes.1 e' he'
  · rw [List.map_cons, List.nodup_cons]
    refine ⟨fun hmem => ?_, hes.2⟩
    obtain ⟨e', he', heq⟩ := List.mem_map.mp hmem
    exact hnew e' he' heq.symm

theorem owns_ite {c : Prop} [Decidable c] {es es' : List Effect} (h : c → Owns r v es)
    (h' : ¬c → Owns r v es') : Owns r v (if c then es else es') := by
  by_cases hc : c
  · rw [if_pos hc]
    exact h hc
  · rw [if_neg hc]
    exact h' hc

theorem owns_orders (reg : Nat) (h : 0x28 ≤ reg) (coord map channel coord' map' channel' : Nat) :
    Owns (.bp reg) v [orderEffect ((reg - 0x28) * 2) coord map channel,
      orderEffect ((reg - 0x28) * 2 + 1) coord' map' channel'] := by
  refine .cons (Or.inl ?_) (fun e he => ?_) (.one (Or.inl ?_))
  · show Register.bp (0x28 + (reg - 0x28) * 2 / 2) = .bp reg
    exact congrArg Register.bp (by omega)
  · rw [List.mem_singleton.mp he]
    simp [slot, orderEffect, TevEffect.slot]
  · show Register.bp (0x28 + ((reg - 0x28) * 2 + 1) / 2) = .bp reg
    exact congrArg Register.bp (by omega)

theorem owner_swapBA (t b a : Nat) : owner (slot (.tev (.swapBA t b a))) = .bp (0xF7 + 2 * t) := rfl

theorem owner_swapRG (t r g : Nat) : owner (slot (.tev (.swapRG t r g))) = .bp (0xF6 + 2 * t) := rfl

theorem owns_konst (reg : Nat) (h : 0xF6 ≤ reg) (v : BitVec 32) :
    Owns (.bp reg) v
      [.tev (if (reg - 0xF6) % 2 = 1 then .swapBA ((reg - 0xF6) / 2) (bits v 2 0) (bits v 2 2)
        else .swapRG ((reg - 0xF6) / 2) (bits v 2 0) (bits v 2 2)),
      .tev (.stage ((reg - 0xF6) * 2) (.konst (bits v 5 4) (bits v 5 9))),
      .tev (.stage ((reg - 0xF6) * 2 + 1) (.konst (bits v 5 14) (bits v 5 19)))] := by
  have hstages : Owns (.bp reg) v
      [.tev (.stage ((reg - 0xF6) * 2) (.konst (bits v 5 4) (bits v 5 9))),
        .tev (.stage ((reg - 0xF6) * 2 + 1) (.konst (bits v 5 14) (bits v 5 19)))] := by
    refine .cons (Or.inl ?_) (fun e he => ?_) (.one (Or.inl ?_))
    · show Register.bp (0xF6 + (reg - 0xF6) * 2 / 2) = .bp reg
      exact congrArg Register.bp (by omega)
    · rw [List.mem_singleton.mp he]
      simp [slot, TevEffect.slot]
    · show Register.bp (0xF6 + ((reg - 0xF6) * 2 + 1) / 2) = .bp reg
      exact congrArg Register.bp (by omega)
  by_cases hodd : (reg - 0xF6) % 2 = 1
  · rw [if_pos hodd]
    refine .cons (Or.inl ?_) (fun e he => ?_) hstages
    · rw [owner_swapBA]
      exact congrArg Register.bp (by omega)
    · simp only [List.mem_cons, List.not_mem_nil, or_false] at he
      rcases he with rfl | rfl <;> simp [slot, TevEffect.slot]
  · rw [if_neg hodd]
    refine .cons (Or.inl ?_) (fun e he => ?_) hstages
    · rw [owner_swapRG]
      exact congrArg Register.bp (by omega)
    · simp only [List.mem_cons, List.not_mem_nil, or_false] at he
      rcases he with rfl | rfl <;> simp [slot, TevEffect.slot]

theorem colorRegister_eq {reg row col : Nat} (h : 0xE0 ≤ reg) (hrow : row = (reg - 0xE0) / 2)
    (hcol : reg % 2 = 0 ↔ col = 0 ∨ col = 3) : colorRegister row col = reg := by
  unfold colorRegister
  by_cases hc : col = 0 ∨ col = 3
  · rw [if_pos hc]
    have := hcol.mpr hc
    omega
  · rw [if_neg hc]
    have : ¬reg % 2 = 0 := fun he => hc (hcol.mp he)
    omega

theorem owns_colors (reg : Nat) (h : 0xE0 ≤ reg) {table : Rows}
    (htable : table = .kColors ∨ table = .tevRegs) (x y : Single) :
    Owns (.bp reg) v [.cell table ((reg - 0xE0) / 2) (if reg % 2 = 0 then 0 else 2) x,
      .cell table ((reg - 0xE0) / 2) (if reg % 2 = 0 then 3 else 1) y] := by
  have howner (row col : Nat) (z : Single) :
      owner (slot (.cell table row col z)) = .bp (colorRegister row col) := by
    rcases htable with rfl | rfl <;> rfl
  refine .cons (Or.inl ?_) (fun e he => ?_) (.one (Or.inl ?_))
  · rw [howner, colorRegister_eq h rfl]
    by_cases heven : reg % 2 = 0 <;> simp [heven]
  · rw [List.mem_singleton.mp he]
    by_cases heven : reg % 2 = 0 <;> simp [slot, heven]
  · rw [howner, colorRegister_eq h rfl]
    by_cases heven : reg % 2 = 0 <;> simp [heven]

theorem owns_bpEffects (reg : Nat) (v : BitVec 32) : Owns (.bp reg) v (bpEffects reg v) := by
  unfold bpEffects
  refine owns_ite (fun h => owns_ite (fun hodd => .one (Or.inl ?_)) fun hodd => .one (Or.inl ?_))
    fun _ => ?_
  · show Register.bp (0xC1 + 2 * ((reg - 0xC0) / 2)) = .bp reg
    exact congrArg Register.bp (by omega)
  · show Register.bp (0xC0 + 2 * ((reg - 0xC0) / 2)) = .bp reg
    congr 1
    omega
  refine owns_ite (fun h => owns_orders reg h.1 ..) fun _ => ?_
  refine owns_ite (fun h => owns_konst reg h.1 v) fun _ => ?_
  refine owns_ite (fun h => owns_ite (fun _ => owns_colors reg h.1 (Or.inl rfl) ..)
    fun _ => owns_colors reg h.1 (Or.inr rfl) ..) fun _ => ?_
  refine owns_ite (fun h => ?_) fun _ => ?_
  · subst h
    refine .cons (Or.inr ⟨.texGens, _, rfl, rfl⟩) (fun e he => ?_)
      (.cons (Or.inr ⟨.channels, _, rfl, rfl⟩) (fun e he => ?_)
      (.cons (Or.inl rfl) (fun e he => ?_) (.one (Or.inl rfl))))
    all_goals
      simp only [List.mem_cons, List.not_mem_nil, or_false] at he
      rcases he with rfl | rfl | rfl <;> simp [slot, VertexEffect.slot]
  refine owns_ite (fun h => .one (Or.inl (h ▸ rfl))) fun _ => ?_
  refine owns_ite (fun h => .one (Or.inl (h ▸ rfl))) fun _ => ?_
  refine owns_ite (fun h => .one (Or.inl (h ▸ rfl))) fun _ => ?_
  refine owns_ite (fun h => .one (Or.inl (h ▸ rfl))) fun _ => ?_
  refine owns_ite (fun h => .one (Or.inl (h ▸ rfl))) fun _ => ?_
  refine owns_ite (fun h => .one (Or.inl (h ▸ rfl))) fun _ => ?_
  refine owns_ite (fun h => ?_) fun _ => ?_
  · subst h
    refine .cons (Or.inl rfl) (fun e he => ?_) (.one (Or.inl rfl))
    rw [List.mem_singleton.mp he]
    simp [slot]
  refine owns_ite (fun h => ?_) fun _ => ?_
  · subst h
    refine .cons (Or.inl rfl) (fun e he => ?_) (.cons (Or.inl rfl) (fun e he => ?_)
      (.one (Or.inl rfl)))
    all_goals
      simp only [List.mem_cons, List.not_mem_nil, or_false] at he
      rcases he with rfl | rfl <;> simp [slot]
  refine owns_ite (fun h => ?_) fun _ => ?_
  · subst h
    refine .cons (Or.inl rfl) (fun e he => ?_) (.one (Or.inl rfl))
    rw [List.mem_singleton.mp he]
    simp [slot]
  exact owns_ite (fun h => .one (Or.inl (h ▸ rfl))) fun _ => .nil

theorem nodup_matrices (first : Nat) (m : Nat → Nat) (ts : List Nat) (h : ts.Nodup) :
    ((ts.map fun t => Effect.vertex (.texGen (first + t) (.matrix (m t)))).map slot).Nodup := by
  rw [List.map_map]
  refine h.map_on fun t _ t' _ heq => ?_
  simp only [comp_apply, slot, VertexEffect.slot, Slot.vertex.injEq, Prod.mk.injEq] at heq
  omega

theorem owner_matrix {a first t : Nat} (m : Nat) (h : (if first + t < 4 then 0x1018 else 0x1019) = a) :
    owner (slot (.vertex (.texGen (first + t) (.matrix m)))) = .xf a := congrArg Register.xf h

theorem owns_matrices {a : Nat} (first : Nat) (m : Nat → Nat)
    (h : ∀ t < 4, (if first + t < 4 then 0x1018 else 0x1019) = a) :
    Owns (.xf a) v ((List.range 4).map fun t => .vertex (.texGen (first + t) (.matrix (m t)))) := by
  refine ⟨fun e he => ?_, nodup_matrices first m _ List.nodup_range⟩
  obtain ⟨t, ht, rfl⟩ := List.mem_map.mp he
  exact Or.inl (owner_matrix _ (h t (List.mem_range.mp ht)))

theorem owns_xfRegisterEffects (reg : Nat) (v : BitVec 32) :
    Owns (.xf (0x1000 + reg)) v (xfRegisterEffects reg v) := by
  unfold xfRegisterEffects
  refine owns_ite (fun h => .one (Or.inr ⟨.channels, _, h ▸ rfl, rfl⟩)) fun _ => ?_
  refine owns_ite (fun h => .one (Or.inl ?_)) fun _ => ?_
  · exact congrArg Register.xf (by omega)
  refine owns_ite (fun h => .one (Or.inl ?_)) fun _ => ?_
  · exact congrArg Register.xf (by omega)
  refine owns_ite (fun h => .one (Or.inl ?_)) fun _ => ?_
  · exact congrArg Register.xf (by omega)
  refine owns_ite (fun h => .one (Or.inl (h ▸ rfl))) fun _ => ?_
  refine owns_ite (fun h => ?_) fun _ => ?_
  · subst h
    have hmatrices := owns_matrices (a := 0x1018) (v := v) 0 (fun t => texMtxSlotFromRow (bits v 6 (6 + t * 6)))
      fun t ht => if_pos (by omega)
    by_cases hrow : bits v 6 0 + 3 ≤ 30
    · rw [if_pos hrow]
      refine hmatrices.cons (Or.inl rfl) fun e he => ?_
      obtain ⟨t, _, rfl⟩ := List.mem_map.mp he
      simp [slot]
    · rw [if_neg hrow]
      exact hmatrices
  refine owns_ite (fun h => ?_) fun _ => ?_
  · subst h
    exact owns_matrices 4 _ fun t ht => if_neg (by omega)
  refine owns_ite (fun h => .one (Or.inr ⟨.texGens, _, h ▸ rfl, rfl⟩)) fun _ => ?_
  refine owns_ite (fun h => .one (Or.inl ?_)) fun _ => ?_
  · exact congrArg Register.xf (by omega)
  refine owns_ite (fun h => .one (Or.inl ?_)) fun _ => ?_
  · exact congrArg Register.xf (by omega)
  refine owns_ite (fun h => .one (Or.inl (h ▸ rfl))) fun _ => ?_
  refine owns_ite (fun h => .one (Or.inl ?_)) fun _ => ?_
  · exact congrArg Register.xf (by omega)
  refine owns_ite (fun h => .one (Or.inl ?_)) fun _ => .nil
  exact congrArg Register.xf (by omega)

theorem owns_lightEffects (n i : Nat) (w : BitVec 32) :
    Owns (.xf (0x600 + 16 * n + i)) w ((lightEffects i w).map (.light n)) := by
  unfold lightEffects
  by_cases h : i = 3
  · rw [if_pos h]
    exact .one (Or.inl (h ▸ rfl))
  rw [if_neg h]
  by_cases h : 4 ≤ i ∧ i ≤ 6
  · rw [if_pos h]
    exact .one (Or.inl (congrArg Register.xf (by omega)))
  rw [if_neg h]
  by_cases h : 7 ≤ i ∧ i ≤ 9
  · rw [if_pos h]
    exact .one (Or.inl (congrArg Register.xf (by omega)))
  rw [if_neg h]
  by_cases h : 10 ≤ i ∧ i ≤ 12
  · rw [if_pos h]
    exact .one (Or.inl (congrArg Register.xf (by omega)))
  rw [if_neg h]
  by_cases h : 13 ≤ i
  · rw [if_pos h]
    exact .one (Or.inl (congrArg Register.xf (by omega)))
  rw [if_neg h]
  exact .nil

theorem owns_xfEffects (a : Nat) (w : BitVec 32) : Owns (.xf a) w (xfEffects a w) := by
  unfold xfEffects
  refine owns_ite (fun h => ?_) fun _ => ?_
  · refine owns_ite (fun h => .one (Or.inl ?_)) fun _ => owns_ite (fun h => .one (Or.inl ?_))
      fun _ => .nil
    · exact congrArg Register.xf (by omega)
    · exact congrArg Register.xf (by omega)
  refine owns_ite (fun h => owns_ite (fun h => .one (Or.inl ?_)) fun _ => .nil) fun _ => ?_
  · exact congrArg Register.xf (by omega)
  refine owns_ite (fun h => owns_ite (fun h => .one (Or.inl ?_)) fun _ => .nil) fun _ => ?_
  · exact congrArg Register.xf (by omega)
  refine owns_ite (fun h => ?_) fun _ => ?_
  · have ha : a = 0x600 + 16 * ((a - 0x600) / 16) + (a - 0x600) % 16 := by omega
    have hlight := owns_lightEffects ((a - 0x600) / 16) ((a - 0x600) % 16) w
    rwa [← ha] at hlight
  refine owns_ite (fun h => ?_) fun _ => .nil
  have hreg := owns_xfRegisterEffects (a - 0x1000) w
  rwa [Nat.add_sub_cancel' h] at hreg

def Register.effects : Register → BitVec 32 → List Effect
  | .bp reg, v => bpEffects reg v
  | .xf a, w => xfEffects a w
  | .counts, _ => []

theorem Register.owns (r : Register) (v : BitVec 32) : Owns r v (r.effects v) := by
  cases r with
  | bp reg => exact owns_bpEffects reg v
  | xf a => exact owns_xfEffects a v
  | counts => exact .nil

theorem Register.effects_cases {e : Effect} (h : e ∈ r.effects v) :
    (owner (slot e) = r ∧ r ≠ .counts) ∨ r.Counts v e := by
  rcases (r.owns v).1 e h with howner | hcounts
  · refine Or.inl ⟨howner, fun hr => ?_⟩
    subst hr
    cases h
  · exact Or.inr hcounts

theorem Register.count_effects {c : Count} {n : Nat} (h : n ∈ r.count v c) :
    c.effect n ∈ r.effects v := by
  rcases count_register h with rfl | rfl
  · cases c with
    | texGens =>
      obtain rfl := Option.some.inj h
      exact List.mem_cons_self
    | channels =>
      obtain rfl := Option.some.inj h
      exact List.mem_cons_of_mem _ List.mem_cons_self
  · cases c with
    | texGens =>
      obtain rfl := Option.some.inj h
      exact List.mem_cons_self
    | channels =>
      obtain rfl := Option.some.inj h
      exact List.mem_cons_self

end DolTranslator.Gx
