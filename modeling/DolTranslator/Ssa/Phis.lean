import DolTranslator.Ssa.Dominators

/-!
# Where the phis go

* `phiBlocks_spec`   the work list ends, and the blocks it returns contain the frontier of
  every block that defines the variable or has a phi for it;
* `insertPhiNodes_spec`  so do the phis of the new function, for every variable.
-/

namespace DolTranslator.Ssa

/-! ## one variable -/

/-- the frontier of every block in `l` is among the blocks `s` -/
def Covers (df : Frontiers) (s l : List Nat) : Prop :=
  ∀ x ∈ l, ∀ y, InFrontier df x y → y ∈ s

/-- a visit of a frontier: the collected blocks and the queue grow by the same new blocks -/
structure Visited (defBlocks frontier : List Nat) (s r : List Nat × List Nat) : Prop where
  nodup : s.1.Nodup → r.1.Nodup
  sub : s.1 ⊆ r.1
  queue : s.2 ⊆ r.2
  covered : frontier ⊆ r.1
  new : ∀ y ∈ r.1, y ∈ s.1 ∨ (y ∈ frontier ∧ (y ∈ defBlocks ∨ y ∈ r.2))
  queueNew : ∀ y ∈ r.2, y ∈ s.2 ∨ y ∈ frontier
  size : r.2.length + s.1.length ≤ s.2.length + r.1.length

theorem visitFrontier_spec (defBlocks frontier : List Nat) (s : List Nat × List Nat) :
    Visited defBlocks frontier s (visitFrontier defBlocks frontier s) := by
  unfold visitFrontier
  induction frontier using List.reverseRecOn with
  | nil => exact ⟨id, fun _ h => h, fun _ h => h, fun _ h => absurd h List.not_mem_nil,
      fun y h => Or.inl h, fun y h => Or.inl h, by simp [Nat.add_comm]⟩
  | append_singleton l y ih =>
    rw [List.foldl_append, List.foldl_cons, List.foldl_nil]
    generalize l.foldl _ s = r at ih
    have hmem : ∀ z, z ∈ l → z ∈ l ++ [y] := fun z h => List.mem_append_left _ h
    have hy : y ∈ l ++ [y] := List.mem_append_right _ List.mem_cons_self
    by_cases hin : y ∈ r.1
    · rw [if_pos hin]
      refine ⟨ih.nodup, ih.sub, ih.queue, ?_, fun z hz => ?_, fun z hz => ?_, ih.size⟩
      · intro z hz
        rcases List.mem_append.mp hz with hz | hz
        · exact ih.covered hz
        · exact List.mem_singleton.mp hz ▸ hin
      · exact (ih.new z hz).imp id fun h => ⟨hmem z h.1, h.2⟩
      · exact (ih.queueNew z hz).imp id (hmem z)
    · rw [if_neg hin]
      have hcov : l ++ [y] ⊆ r.1 ++ [y] := by
        intro z hz
        rcases List.mem_append.mp hz with hz | hz
        · exact List.mem_append_left _ (ih.covered hz)
        · exact List.mem_append_right _ hz
      have hnd : s.1.Nodup → (r.1 ++ [y]).Nodup := fun h => by
        rw [List.nodup_append]
        refine ⟨ih.nodup h, List.nodup_singleton y, fun a ha b hb e => hin ?_⟩
        rw [← List.mem_singleton.mp hb, ← e]
        exact ha
      have hsize := ih.size
      by_cases hdef : y ∈ defBlocks
      · simp only [if_pos hdef]
        refine ⟨hnd, fun z h => List.mem_append_left _ (ih.sub h), ih.queue, hcov,
          fun z hz => ?_, fun z hz => (ih.queueNew z hz).imp id (hmem z), ?_⟩
        · rcases List.mem_append.mp hz with hz | hz
          · exact (ih.new z hz).imp id fun h => ⟨hmem z h.1, h.2⟩
          · rw [List.mem_singleton.mp hz]
            exact Or.inr ⟨hy, Or.inl hdef⟩
        · simp only [List.length_append, List.length_singleton]
          omega
      · simp only [if_neg hdef]
        refine ⟨hnd, fun z h => List.mem_append_left _ (ih.sub h),
          fun z h => List.mem_append_left _ (ih.queue h), hcov, fun z hz => ?_, fun z hz => ?_, ?_⟩
        · rcases List.mem_append.mp hz with hz | hz
          · exact (ih.new z hz).imp id fun h =>
              ⟨hmem z h.1, h.2.imp id fun h => List.mem_append_left _ h⟩
          · rw [List.mem_singleton.mp hz]
            exact Or.inr ⟨hy, Or.inr (List.mem_append_right _ List.mem_cons_self)⟩
        · rcases List.mem_append.mp hz with hz | hz
          · exact (ih.queueNew z hz).imp id (hmem z)
          · rw [List.mem_singleton.mp hz]
            exact Or.inr hy
        · rw [List.length_append, List.length_append, List.length_singleton]
          omega

/-- the state of the work list: what is not queued has been visited -/
structure WorklistInv (n : Nat) (df : Frontiers) (defBlocks hasAlready worklist : List Nat) :
    Prop where
  nodup : hasAlready.Nodup
  joined : ∀ y ∈ hasAlready, y < n ∧ ∃ x, InFrontier df x y
  pending : ∀ x, x ∈ defBlocks ∨ x ∈ hasAlready →
    x ∈ worklist ∨ ∀ y, InFrontier df x y → y ∈ hasAlready

theorem length_le_of_nodup {n : Nat} {l : List Nat} (hl : l.Nodup) (h : ∀ y ∈ l, y < n) :
    l.length ≤ n := by
  have hsub : l.toFinset ⊆ Finset.range n := fun y hy =>
    Finset.mem_range.mpr (h y (List.mem_toFinset.mp hy))
  have := Finset.card_le_card hsub
  rwa [Finset.card_range, List.toFinset_card_of_nodup hl] at this

theorem phiBlocksLoop_spec {n : Nat} {df : Frontiers} (hdf : ∀ x y, InFrontier df x y → y < n)
    (defBlocks : List Nat) (k : Nat) :
    ∀ hasAlready worklist, WorklistInv n df defBlocks hasAlready worklist →
      worklist.length + n ≤ k + hasAlready.length →
      ∃ r, phiBlocksLoop df defBlocks k hasAlready worklist = some r ∧
        WorklistInv n df defBlocks r [] := by
  induction k with
  | zero =>
    intro hasAlready worklist hinv hk
    cases worklist with
    | nil => exact ⟨hasAlready, by simp [phiBlocksLoop], hinv⟩
    | cons x worklist =>
      have := length_le_of_nodup hinv.nodup fun y hy => (hinv.joined y hy).1
      simp only [List.length_cons] at hk
      omega
  | succ k ih =>
    intro hasAlready worklist hinv hk
    cases worklist with
    | nil => exact ⟨hasAlready, by simp [phiBlocksLoop], hinv⟩
    | cons x worklist =>
      have hv := visitFrontier_spec defBlocks (df.getD x []) (hasAlready, worklist)
      rw [phiBlocksLoop]
      refine ih _ _ ⟨hv.nodup hinv.nodup, fun y hy => ?_, fun z hz => ?_⟩ ?_
      · rcases hv.new y hy with h | h
        · exact hinv.joined y h
        · exact ⟨hdf x y h.1, x, h.1⟩
      · -- a block is the one just visited, was known before, or is new and queued
        by_cases hzx : z = x
        · rw [hzx]
          exact Or.inr fun y hy => hv.covered hy
        · have old : z ∈ defBlocks ∨ z ∈ hasAlready →
              z ∈ (visitFrontier defBlocks (df.getD x []) (hasAlready, worklist)).2 ∨
              ∀ y, InFrontier df z y →
                y ∈ (visitFrontier defBlocks (df.getD x []) (hasAlready, worklist)).1 := by
            intro h
            rcases hinv.pending z h with hw | hc
            · rcases List.mem_cons.mp hw with e | hw
              · exact absurd e hzx
              · exact Or.inl (hv.queue hw)
            · exact Or.inr fun y hy => hv.sub (hc y hy)
          rcases hz with hz | hz
          · exact old (Or.inl hz)
          · rcases hv.new z hz with h | ⟨-, h | h⟩
            · exact old (Or.inr h)
            · exact old (Or.inl h)
            · exact Or.inl h
      · have hsize := hv.size
        simp only [List.length_cons] at hk
        simp only at hsize
        omega

/-- **The work list ends, with the closure of the defining blocks under the frontiers.** -/
theorem phiBlocks_spec {n : Nat} {df : Frontiers} (hdf : ∀ x y, InFrontier df x y → y < n)
    (defBlocks : List Nat) :
    ∃ r, phiBlocks n df defBlocks = some r ∧ (∀ y ∈ r, ∃ x, InFrontier df x y) ∧
      Covers df r (defBlocks ++ r) := by
  obtain ⟨r, hr, hinv⟩ := phiBlocksLoop_spec hdf defBlocks (defBlocks.length + n) [] defBlocks
    ⟨List.nodup_nil, fun y hy => absurd hy List.not_mem_nil,
      fun x hx => Or.inl (hx.resolve_right List.not_mem_nil)⟩ (by simp)
  refine ⟨r, hr, fun y hy => (hinv.joined y hy).2, fun x hx y hy => ?_⟩
  exact (hinv.pending x (List.mem_append.mp hx)).resolve_left List.not_mem_nil y hy

/-! ## all variables -/

/-- a variable of that key is defined in block `i` -/
def SiteOf (sites : DefSites) (key : String) (i : Nat) : Prop :=
  ∃ site ∈ sites, foldCase site.1 = key ∧ i ∈ site.2

theorem DefSites.mem_add (sites : DefSites) (var : String) (i : Nat) :
    SiteOf (sites.add var i) (foldCase var) i := by
  induction sites with
  | nil => exact ⟨(var, [i]), List.mem_cons_self, rfl, List.mem_cons_self⟩
  | cons site rest ih =>
    obtain ⟨v, blocks⟩ := site
    by_cases h : foldCase v = foldCase var
    · refine ⟨(v, if i ∈ blocks then blocks else blocks ++ [i]), ?_, h, ?_⟩
      · simp [DefSites.add, h]
      · by_cases hi : i ∈ blocks <;> simp [hi]
    · obtain ⟨site, hs, hk, hi⟩ := ih
      exact ⟨site, by simp [DefSites.add, h, hs], hk, hi⟩

theorem DefSites.mem_add_of_mem {sites : DefSites} {key : String} {j : Nat}
    (h : SiteOf sites key j) (var : String) (i : Nat) : SiteOf (sites.add var i) key j := by
  induction sites with
  | nil =>
    obtain ⟨site, hs, -⟩ := h
    exact absurd hs List.not_mem_nil
  | cons site rest ih =>
    obtain ⟨v, blocks⟩ := site
    obtain ⟨s, hs, hk, hj⟩ := h
    by_cases hv : foldCase v = foldCase var
    · rcases List.mem_cons.mp hs with rfl | hs
      · refine ⟨(v, if i ∈ blocks then blocks else blocks ++ [i]), by simp [DefSites.add, hv],
          hk, ?_⟩
        by_cases hi : i ∈ blocks
        · simpa [hi] using hj
        · simp only [if_neg hi]
          exact List.mem_append_left _ hj
      · exact ⟨s, by simp [DefSites.add, hv, hs], hk, hj⟩
    · rcases List.mem_cons.mp hs with rfl | hs
      · exact ⟨(v, blocks), by simp [DefSites.add, hv], hk, hj⟩
      · obtain ⟨s', hs', hk', hj'⟩ := ih ⟨s, hs, hk, hj⟩
        exact ⟨s', by simp [DefSites.add, hv, hs'], hk', hj'⟩

/-- names come from the definitions, and keys stay distinct -/
structure SitesInv (P : String → Prop) (sites : DefSites) : Prop where
  names : ∀ site ∈ sites, P site.1
  keys : (sites.map fun s => foldCase s.1).Nodup

theorem DefSites.keys_add (sites : DefSites) (var : String) (i : Nat) :
    (∀ site ∈ sites.add var i, site.1 = var ∨ ∃ s ∈ sites, s.1 = site.1) ∧
      ∀ key ∈ (sites.add var i).map fun s => foldCase s.1,
        key = foldCase var ∨ key ∈ sites.map fun s => foldCase s.1 := by
  induction sites with
  | nil => simp [DefSites.add]
  | cons site rest ih =>
    obtain ⟨v, blocks⟩ := site
    by_cases h : foldCase v = foldCase var
    · simp only [DefSites.add, h, if_true, List.mem_cons, List.map_cons]
      constructor
      · rintro s (rfl | hs)
        · exact Or.inr ⟨(v, blocks), Or.inl rfl, rfl⟩
        · exact Or.inr ⟨s, Or.inr hs, rfl⟩
      · rintro key (rfl | hk)
        · exact Or.inl rfl
        · exact Or.inr (Or.inr hk)
    · simp only [DefSites.add, h, if_false, List.mem_cons, List.map_cons]
      constructor
      · rintro s (rfl | hs)
        · exact Or.inr ⟨(v, blocks), Or.inl rfl, rfl⟩
        · exact (ih.1 s hs).imp id fun ⟨t, ht, e⟩ => ⟨t, Or.inr ht, e⟩
      · rintro key (rfl | hk)
        · exact Or.inr (Or.inl rfl)
        · exact (ih.2 key hk).imp id Or.inr

theorem SitesInv.add {P : String → Prop} {sites : DefSites} (h : SitesInv P sites) {var : String}
    (hv : P var) (i : Nat) : SitesInv P (sites.add var i) := by
  refine ⟨fun site hs => ?_, ?_⟩
  · rcases (sites.keys_add var i).1 site hs with e | ⟨s, hs, e⟩
    · exact e ▸ hv
    · exact e ▸ h.names s hs
  · have hkeys := h.keys
    clear h
    induction sites with
    | nil => simp [DefSites.add]
    | cons site rest ih =>
      obtain ⟨v, blocks⟩ := site
      rw [List.map_cons, List.nodup_cons] at hkeys
      by_cases hvv : foldCase v = foldCase var
      · simp only [DefSites.add, hvv, if_true, List.map_cons, List.nodup_cons]
        rw [hvv] at hkeys
        exact hkeys
      · simp only [DefSites.add, hvv, if_false, List.map_cons, List.nodup_cons]
        refine ⟨fun hin => ?_, ih hkeys.2⟩
        rcases (DefSites.keys_add rest var i).2 _ hin with e | hin
        · exact hvv e
        · exact hkeys.1 hin

/-- the definitions of block `i` that get phis -/
def phiDefinitions (f : IrFunction) (i : Nat) : List String :=
  (definitionsIn (f.body i)).filter fun d => !isBlockLocalTemp d

theorem foldl_add_spec (i : Nat) {P : String → Prop} (ds : List String) :
    ∀ sites : DefSites, SitesInv P sites → (∀ d ∈ ds, P d) →
      SitesInv P (ds.foldl (fun sites d => DefSites.add sites d i) sites) ∧
      (∀ key j, SiteOf sites key j →
        SiteOf (ds.foldl (fun sites d => DefSites.add sites d i) sites) key j) ∧
      ∀ d ∈ ds, SiteOf (ds.foldl (fun sites d => DefSites.add sites d i) sites) (foldCase d) i := by
  induction ds with
  | nil => exact fun sites h _ => ⟨h, fun _ _ h => h, fun d hd => absurd hd List.not_mem_nil⟩
  | cons d ds ih =>
    intro sites h hP
    obtain ⟨h1, h2, h3⟩ := ih (sites.add d i) (h.add (hP d List.mem_cons_self) i)
      fun e he => hP e (List.mem_cons_of_mem _ he)
    refine ⟨h1, fun key j hs => h2 key j (DefSites.mem_add_of_mem hs d i), fun e he => ?_⟩
    rcases List.mem_cons.mp he with rfl | he
    · exact h2 _ i (sites.mem_add e i)
    · exact h3 e he

theorem defSites_spec (f : IrFunction) :
    SitesInv (fun v => ∃ j, v ∈ phiDefinitions f j) (defSites f) ∧
      ∀ i, i < f.blocks.length → ∀ d ∈ phiDefinitions f i, SiteOf (defSites f) (foldCase d) i := by
  have main : ∀ l : List Nat, SitesInv (fun v => ∃ j, v ∈ phiDefinitions f j)
      (l.foldl (fun sites i => (phiDefinitions f i).foldl (fun sites d => sites.add d i) sites) []) ∧
      ∀ i ∈ l, ∀ d ∈ phiDefinitions f i, SiteOf (l.foldl (fun sites i =>
        (phiDefinitions f i).foldl (fun sites d => sites.add d i) sites) []) (foldCase d) i := by
    intro l
    induction l using List.reverseRecOn with
    | nil => exact ⟨⟨fun s hs => absurd hs List.not_mem_nil, List.nodup_nil⟩,
        fun i hi => absurd hi List.not_mem_nil⟩
    | append_singleton l i ih =>
      rw [List.foldl_append, List.foldl_cons, List.foldl_nil]
      obtain ⟨h1, h2, h3⟩ := foldl_add_spec i (phiDefinitions f i) _ ih.1 fun d hd => ⟨i, hd⟩
      refine ⟨h1, fun j hj d hd => ?_⟩
      rcases List.mem_append.mp hj with hj | hj
      · exact h2 _ j (ih.2 j hj d hd)
      · rw [List.mem_singleton.mp hj] at hd ⊢
        exact h3 d hd
  obtain ⟨h1, h2⟩ := main (List.range f.blocks.length)
  exact ⟨h1, fun i hi d hd => h2 i (List.mem_range.mpr hi) d hd⟩

/-! ## the new function -/

/-- block `i` starts with one phi for each variable in `vars i` -/
structure PhisPlaced (f : IrFunction) (df : Frontiers) (vars : Nat → List String)
    (g : IrFunction) : Prop where
  eq : g = { f with blocks := f.blocks.mapIdx fun i b =>
    { b with instructions := (vars i).map (fun v => IrInstruction.phi v []) ++ b.instructions } }
  defined : ∀ i, ∀ v ∈ vars i, ∃ j, v ∈ phiDefinitions f j
  joined : ∀ i, ∀ v ∈ vars i, ∃ x, InFrontier df x i
  keys : ∀ i, ((vars i).map foldCase).Nodup
  closed : ∀ i b key, i < f.blocks.length → InFrontier df i b →
    ((∃ d ∈ phiDefinitions f i, foldCase d = key) ∨ (∃ v ∈ vars i, foldCase v = key)) →
    ∃ v ∈ vars b, foldCase v = key

/-- what is placed for each site -/
structure Placed (df : Frontiers) (sites : DefSites) (placed : List (String × List Nat)) :
    Prop where
  names : placed.map Prod.fst = sites.map Prod.fst
  joined : ∀ v ∈ placed, ∀ y ∈ v.2, ∃ x, InFrontier df x y
  covers : ∀ site ∈ sites, ∃ v ∈ placed, v.1 = site.1 ∧ Covers df v.2 (site.2 ++ v.2)
  self : ∀ v ∈ placed, Covers df v.2 v.2

theorem place_spec {n : Nat} {df : Frontiers} (hdf : ∀ x y, InFrontier df x y → y < n)
    (sites : DefSites) : ∃ placed, (sites.mapM fun site => do
      let blocks ← phiBlocks n df site.2
      return (site.1, blocks)) = some placed ∧ Placed df sites placed := by
  induction sites with
  | nil =>
    exact ⟨[], rfl, rfl, fun v hv => absurd hv List.not_mem_nil,
      fun s hs => absurd hs List.not_mem_nil, fun v hv => absurd hv List.not_mem_nil⟩
  | cons site sites ih =>
    obtain ⟨placed, hp, hspec⟩ := ih
    obtain ⟨r, hr, hj, hcov⟩ := phiBlocks_spec hdf site.2
    refine ⟨(site.1, r) :: placed, ?_, ?_, fun v hv => ?_, fun s hs => ?_, fun v hv => ?_⟩
    · rw [List.mapM_cons, hp, hr]
      rfl
    · rw [List.map_cons, List.map_cons, hspec.names]
    · rcases List.mem_cons.mp hv with rfl | hv
      · exact hj
      · exact hspec.joined v hv
    · rcases List.mem_cons.mp hs with rfl | hs
      · exact ⟨_, List.mem_cons_self, rfl, hcov⟩
      · obtain ⟨v, hv, h⟩ := hspec.covers s hs
        exact ⟨v, List.mem_cons_of_mem _ hv, h⟩
    · rcases List.mem_cons.mp hv with rfl | hv
      · exact fun x hx => hcov x (List.mem_append_right _ hx)
      · exact hspec.self v hv

theorem mem_pendingPhis (placed : List (String × List Nat)) (i : Nat) (v : String) :
    v ∈ pendingPhis placed i ↔ ∃ p ∈ placed, p.1 = v ∧ i ∈ p.2 := by
  simp only [pendingPhis, List.mem_reverse, List.mem_map, List.mem_filter, decide_eq_true_eq]
  constructor
  · rintro ⟨p, ⟨hp, hi⟩, rfl⟩
    exact ⟨p, hp, rfl, hi⟩
  · rintro ⟨p, hp, rfl, hi⟩
    exact ⟨p, ⟨hp, hi⟩, rfl⟩

/-- **Phi insertion succeeds, and every definition and every phi has a phi in its frontier.** -/
theorem insertPhiNodes_spec (f : IrFunction) {df : Frontiers}
    (hdf : ∀ x y, InFrontier df x y → y < f.blocks.length) :
    ∃ g vars, insertPhiNodes f df = some g ∧ PhisPlaced f df vars g := by
  obtain ⟨hsites, hdefs⟩ := defSites_spec f
  obtain ⟨placed, hp, hspec⟩ := place_spec hdf (defSites f)
  have hkeys : (placed.map fun p => foldCase p.1).Nodup := by
    have h : placed.map (fun p => foldCase p.1) = (placed.map Prod.fst).map foldCase := by
      rw [List.map_map]
      rfl
    rw [h, hspec.names, List.map_map]
    exact hsites.keys
  refine ⟨_, pendingPhis placed, ?_, rfl, fun i v hv => ?_, fun i v hv => ?_, fun i => ?_,
    fun i b key hi hb h => ?_⟩
  · rw [insertPhiNodes, hp]
    rfl
  · obtain ⟨p, hpm, rfl, -⟩ := (mem_pendingPhis placed i v).mp hv
    have : p.1 ∈ (defSites f).map Prod.fst := hspec.names ▸ List.mem_map_of_mem hpm
    obtain ⟨s, hs, e⟩ := List.mem_map.mp this
    exact e ▸ hsites.names s hs
  · obtain ⟨p, hpm, -, hpi⟩ := (mem_pendingPhis placed i v).mp hv
    exact hspec.joined p hpm i hpi
  · rw [pendingPhis, List.map_reverse, List.map_map, List.nodup_reverse]
    exact hkeys.sublist (List.filter_sublist.map _)
  · rcases h with ⟨d, hd, rfl⟩ | ⟨v, hv, rfl⟩
    · obtain ⟨site, hs, hk, his⟩ := hdefs i hi d hd
      obtain ⟨p, hpm, he, hcov⟩ := hspec.covers site hs
      exact ⟨p.1, (mem_pendingPhis placed b p.1).mpr ⟨p, hpm, rfl,
        hcov i (List.mem_append_left _ his) b hb⟩, by rw [he, hk]⟩
    · obtain ⟨p, hpm, rfl, hpi⟩ := (mem_pendingPhis placed i v).mp hv
      exact ⟨p.1, (mem_pendingPhis placed b p.1).mpr ⟨p, hpm, rfl, hspec.self p hpm i hpi b hb⟩,
        rfl⟩

end DolTranslator.Ssa
