import DolTranslator.Archive.Ash

/-!
# The trees of an ASH file

* `lay`   the arrays of a code, from a node on; `ReadTreeLoop_spell` a walk lays them;
* `ReadTree_spell`, `ReadTree_sound`   a tree is read exactly from the walk of a code that has a
  branch and leaves a symbol out, with a bit behind it;
* `readSymbol_path`, `readSymbol_sound`   a symbol is read from its path.
-/

namespace DolTranslator.Archive

open Lz

/-! ## the arrays of a code -/

/-- what stands for a code whose first branch is `n` -/
def value : Code → Nat → Nat
  | .leaf symbol, _ => symbol
  | .node _ _, n => n

/-- in the order of the walk: a branch is linked once what hangs from it is there -/
def lay : Code → Nat → Arrays → Arrays
  | .leaf _, _, a => a
  | .node zero one, n, a =>
    ((lay one (n + 1 + zero.branches) ((lay zero (n + 1) a).setLeft n (value zero (n + 1)))).setRight
      n (value one (n + 1 + zero.branches)))

/-- the arrays hold a code from a node on -/
def Laid (a : Arrays) : Code → Nat → Prop
  | .leaf _, _ => True
  | .node zero one, n =>
    a.left n = value zero (n + 1) ∧ a.right n = value one (n + 1 + zero.branches) ∧
      Laid a zero (n + 1) ∧ Laid a one (n + 1 + zero.branches)

theorem lay_outside (c : Code) {n i : Nat} (a : Arrays) (h : i < n ∨ n + c.branches ≤ i) :
    (lay c n a).left i = a.left i ∧ (lay c n a).right i = a.right i := by
  induction c generalizing n a with
  | leaf => exact ⟨rfl, rfl⟩
  | node zero one ihz iho =>
    change i < n ∨ n + (zero.branches + one.branches + 1) ≤ i at h
    have hi : i ≠ n := by omega
    obtain ⟨hzl, hzr⟩ := ihz a (n := n + 1) (by omega)
    obtain ⟨hol, hor⟩ := iho ((lay zero (n + 1) a).setLeft n (value zero (n + 1)))
      (n := n + 1 + zero.branches) (by omega)
    constructor
    · exact hol.trans ((if_neg hi).trans hzl)
    · exact (if_neg hi).trans (hor.trans hzr)

variable {c : Code}

theorem Laid.congr {n : Nat} {a a' : Arrays}
    (h : ∀ i, n ≤ i → i < n + c.branches → a'.left i = a.left i ∧ a'.right i = a.right i)
    (hlaid : Laid a c n) : Laid a' c n := by
  induction c generalizing n with
  | leaf => trivial
  | node zero one ihz iho =>
    obtain ⟨hleft, hright, hz, ho⟩ := hlaid
    change ∀ i, n ≤ i → i < n + (zero.branches + one.branches + 1) → _ at h
    refine ⟨?_, ?_, ihz (fun i h1 h2 => h i (by omega) (by omega)) hz,
      iho (fun i h1 h2 => h i (by omega) (by omega)) ho⟩
    · rw [(h n (Nat.le_refl n) (by omega)).1, hleft]
    · rw [(h n (Nat.le_refl n) (by omega)).2, hright]

theorem laid_lay (c : Code) (n : Nat) (a : Arrays) : Laid (lay c n a) c n := by
  induction c generalizing n a with
  | leaf => trivial
  | node zero one ihz iho =>
    refine ⟨?_, if_pos rfl, ?_, ?_⟩
    · refine (lay_outside one _ (.inl (by omega))).1.trans ?_
      exact if_pos rfl
    · refine (ihz (n + 1) a).congr fun i h1 h2 => ?_
      have hi : i ≠ n := by omega
      obtain ⟨hl, hr⟩ := lay_outside one ((lay zero (n + 1) a).setLeft n (value zero (n + 1)))
        (n := n + 1 + zero.branches) (i := i) (.inl (by omega))
      exact ⟨hl.trans (if_neg hi), (if_neg hi).trans hr⟩
    · refine (iho (n + 1 + zero.branches)
        ((lay zero (n + 1) a).setLeft n (value zero (n + 1)))).congr fun i h1 h2 => ?_
      exact ⟨rfl, if_neg (by omega)⟩

/-! ## reading a walk -/

/-- where the loop is when a code is complete: at the next place, or at the end -/
def ReadTreeDone (width : Nat) (loop : TreeState → Option (Tree × BitReader)) (s : TreeState)
    (symbol : Nat) : Option (Tree × BitReader) :=
  if s.pending = [] then
    if s.reader.failed then none else some (⟨s.arrays, 2 * 2 ^ width - 1, symbol⟩, s.reader)
  else ReadTreeSymbol width loop s symbol

variable {width : Nat} {loop : TreeState → Option (Tree × BitReader)}

theorem ReadTreeDone_left (reader : BitReader) (a : Arrays) (index next v : Nat)
    (pending : List Place) :
    ReadTreeDone width loop
        ⟨reader, a, .left index :: .right index :: pending, next⟩ v =
      loop ⟨reader, a.setLeft index v, .right index :: pending, next⟩ := by
  unfold ReadTreeDone
  rw [if_neg (List.cons_ne_nil _ _)]
  unfold ReadTreeSymbol closePlaces
  dsimp only
  rw [if_pos (List.length_pos_iff.mpr (List.cons_ne_nil _ _))]

theorem ReadTreeDone_right (reader : BitReader) (a : Arrays) (index next v : Nat)
    (pending : List Place) :
    ReadTreeDone width loop ⟨reader, a, .right index :: pending, next⟩ v =
      ReadTreeDone width loop ⟨reader, a.setRight index v, pending, next⟩ index := by
  unfold ReadTreeDone
  rw [if_neg (List.cons_ne_nil _ _)]
  cases pending with
  | nil => rfl
  | cons place pending =>
    have hclose : closePlaces a v (.right index :: place :: pending) =
        closePlaces (a.setRight index v) index (place :: pending) :=
      if_pos (List.length_pos_iff.mpr (List.cons_ne_nil _ _))
    unfold ReadTreeSymbol
    dsimp only
    rw [hclose, if_neg (List.cons_ne_nil _ _)]

theorem ReadTreeLoop_failed (fuel : Nat) (s : TreeState) (h : s.reader.rest = []) :
    ReadTreeLoop width fuel s = none := by
  cases fuel with
  | zero => rfl
  | succ fuel => exact if_pos (.inl (BitReader.failed_iff.mpr h))

theorem ReadTreeSymbol_failed (fuel : Nat) (s : TreeState) (symbol : Nat)
    (h : s.reader.rest = []) : ReadTreeSymbol width (ReadTreeLoop width fuel) s symbol = none := by
  unfold ReadTreeSymbol
  cases closePlaces s.arrays symbol s.pending with
  | none => rfl
  | some closed =>
    obtain ⟨arrays, symbol, pending⟩ := closed
    dsimp only
    split
    · exact ReadTreeLoop_failed fuel _ h
    · exact if_pos (BitReader.failed_iff.mpr h)

def items (c : Code) : Nat := 2 * c.branches + 1

variable {more : List Bool}

/-- **A walk is read**, by induction on the code, as long as there are nodes for it. -/
theorem ReadTreeLoop_spell {s : TreeState} (fuel : Nat)
    (hsymbols : ∀ symbol ∈ c.symbols, symbol < 2 ^ width)
    (hrest : s.reader.rest = c.spell width ++ more)
    (hnodes : s.next + c.branches < 2 * 2 ^ width - 1)
    (hplace : s.pending ≠ [] ∨ c.branches ≠ 0) :
    ∃ reader, reader.rest = more ∧
      ReadTreeLoop width (items c + fuel) s =
        ReadTreeDone width (ReadTreeLoop width fuel)
          ⟨reader, lay c s.next s.arrays, s.pending, s.next + c.branches⟩ (value c s.next) := by
  induction c generalizing s more fuel with
  | leaf symbol =>
    obtain ⟨hgood, hbit, hrest'⟩ := BitReader.bit_of_rest hrest
    refine ⟨(s.reader.bit.2.bits width).2, ?_, ?_⟩
    · rw [BitReader.rest_bits, hrest']
      exact List.drop_left' (length_bitsOf width symbol)
    · have hvalue := BitReader.bits_of_rest hrest'
      rw [length_bitsOf, ofBits_bitsOf,
        Nat.mod_eq_of_lt (hsymbols symbol (List.mem_singleton_self symbol))] at hvalue
      change s.next + 0 < _ at hnodes
      show ReadTreeLoop width (0 + 1 + fuel) s = _
      rw [Nat.zero_add, Nat.add_comm]
      unfold ReadTreeLoop
      rw [hgood, if_neg fun h => h.elim Bool.false_ne_true (by omega), hbit,
        if_neg Bool.false_ne_true]
      dsimp only
      rw [hvalue]
      exact (if_neg (hplace.resolve_right fun h => h rfl)).symm
  | node zero one ihz iho =>
    obtain ⟨hgood, hbit, hrest'⟩ := BitReader.bit_of_rest hrest
    change s.reader.bit.2.rest = (zero.spell width ++ one.spell width) ++ more at hrest'
    rw [List.append_assoc] at hrest'
    change s.next + (zero.branches + one.branches + 1) < _ at hnodes
    have hitems : items (.node zero one) + fuel = items zero + (items one + fuel) + 1 := by
      show 2 * (zero.branches + one.branches + 1) + 1 + fuel =
        2 * zero.branches + 1 + (2 * one.branches + 1 + fuel) + 1
      omega
    obtain ⟨reader, hreader, hzero⟩ := ihz
      (s := ⟨s.reader.bit.2, s.arrays, .left s.next :: .right s.next :: s.pending, s.next + 1⟩)
      (items one + fuel) (fun symbol h => hsymbols symbol (List.mem_append_left _ h)) hrest'
      (by show s.next + 1 + _ < _; omega) (.inl (List.cons_ne_nil _ _))
    obtain ⟨reader', hreader', hone⟩ := iho
      (s := ⟨reader, (lay zero (s.next + 1) s.arrays).setLeft s.next (value zero (s.next + 1)),
        .right s.next :: s.pending, s.next + 1 + zero.branches⟩)
      fuel (fun symbol h => hsymbols symbol (List.mem_append_right _ h)) hreader
      (by show s.next + 1 + _ + _ < _; omega) (.inl (List.cons_ne_nil _ _))
    refine ⟨reader', hreader', ?_⟩
    rw [hitems]
    refine Eq.trans ?_ (hzero.trans ?_)
    · show (if _ then _ else _) = _
      rw [hgood, if_neg fun h => h.elim Bool.false_ne_true (by omega), hbit, if_pos rfl]
    · rw [ReadTreeDone_left]
      refine hone.trans ?_
      rw [ReadTreeDone_right]
      show ReadTreeDone _ _ ⟨_, _, _, s.next + 1 + zero.branches + one.branches⟩ _ =
        ReadTreeDone _ _ ⟨_, _, _, s.next + (zero.branches + one.branches + 1)⟩ _
      rw [show s.next + 1 + zero.branches + one.branches =
        s.next + (zero.branches + one.branches + 1) by omega]
      rfl

/-- **Only walks are read**, by induction on the iterations that are left. -/
theorem ReadTreeLoop_sound {fuel : Nat} {s : TreeState} {result : Tree × BitReader}
    (h : ReadTreeLoop width fuel s = some result) :
    ∃ c reader fuel', fuel' < fuel ∧ (∀ symbol ∈ c.symbols, symbol < 2 ^ width) ∧
      s.next + c.branches < 2 * 2 ^ width - 1 ∧ (s.pending ≠ [] ∨ c.branches ≠ 0) ∧
      s.reader.rest = c.spell width ++ reader.rest ∧
      ReadTreeDone width (ReadTreeLoop width fuel')
        ⟨reader, lay c s.next s.arrays, s.pending, s.next + c.branches⟩ (value c s.next) =
          some result := by
  induction fuel using Nat.strong_induction_on generalizing s with
  | _ fuel ih =>
  cases fuel with
  | zero => cases h
  | succ fuel =>
    unfold ReadTreeLoop at h
    split at h
    · cases h
    · next hguard =>
      have hnodes : s.next < 2 * 2 ^ width - 1 := Nat.lt_of_not_le fun hle => hguard (.inr hle)
      have hsome : s.reader.rest ≠ [] := fun hnil =>
        hguard (.inl (BitReader.failed_iff.mpr hnil))
      obtain ⟨b, bs, hrest⟩ := List.exists_cons_of_ne_nil hsome
      obtain ⟨-, hbit, hbs⟩ := BitReader.bit_of_rest hrest
      rw [hbit] at h
      cases b with
      | true =>
        rw [if_pos rfl] at h
        -- the branch on the left, and then the one on the right
        obtain ⟨zero, reader, fuel', hfuel', hz, hznodes, -, hzrest, h⟩ := ih fuel (by omega) h
        rw [ReadTreeDone_left] at h
        obtain ⟨one, reader', fuel'', hfuel'', ho, honodes, -, horest, h⟩ :=
          ih fuel' (by omega) h
        rw [ReadTreeDone_right] at h
        dsimp only at hznodes hzrest honodes horest h
        refine ⟨.node zero one, reader', fuel'', by omega, ?_, ?_, .inr (Nat.succ_ne_zero _), ?_,
          ?_⟩
        · intro symbol hmem
          obtain hmem | hmem := List.mem_append.mp hmem
          · exact hz symbol hmem
          · exact ho symbol hmem
        · show s.next + (zero.branches + one.branches + 1) < _
          omega
        · rw [hrest, ← hbs, hzrest, horest]
          show _ = true :: (zero.spell width ++ one.spell width) ++ _
          rw [List.cons_append, List.append_assoc]
        · show ReadTreeDone _ _ ⟨_, _, _, s.next + (zero.branches + one.branches + 1)⟩ _ = _
          rw [show s.next + (zero.branches + one.branches + 1) =
            s.next + 1 + zero.branches + one.branches by omega]
          exact h
      | false =>
        rw [if_neg Bool.false_ne_true] at h
        dsimp only at h
        have hafter := BitReader.rest_bits width s.reader.bit.2
        rw [hbs] at hafter
        by_cases hlong : width ≤ bs.length
        · have htake : (bs.take width).length = width := List.length_take_of_le hlong
          have hsplit : s.reader.bit.2.rest = bs.take width ++ bs.drop width := by
            rw [hbs, List.take_append_drop]
          have hvalue := BitReader.bits_of_rest hsplit
          have hlt := ofBits_lt (bs.take width)
          have hback := bitsOf_ofBits (bs.take width)
          rw [htake] at hvalue hlt hback
          rw [hvalue] at h
          have hplace : s.pending ≠ [] := by
            intro hnil
            unfold ReadTreeSymbol at h
            rw [hnil] at h
            cases h
          refine ⟨.leaf (ofBits (bs.take width)), (s.reader.bit.2.bits width).2, fuel, by omega,
            ?_, hnodes, .inl hplace, ?_, ?_⟩
          · intro symbol hmem
            rw [List.mem_singleton.mp hmem]
            exact hlt
          · rw [hrest, hafter]
            show _ = false :: bitsOf width _ ++ _
            rw [hback, List.cons_append, List.take_append_drop]
          · exact (if_neg hplace).trans h
        · rw [List.drop_of_length_le (by omega)] at hafter
          rw [ReadTreeSymbol_failed fuel _ _ hafter] at h
          cases h

def codeTree (width : Nat) (c : Code) : Tree :=
  ⟨lay c (2 ^ width) ⟨fun _ => 0, fun _ => 0⟩, 2 * 2 ^ width - 1, value c (2 ^ width)⟩

variable {reader : BitReader}

theorem ReadTree_spell (hsymbols : ∀ symbol ∈ c.symbols, symbol < 2 ^ width)
    (hrest : reader.rest = c.spell width ++ more) (hbranches : c.branches ≠ 0)
    (hnodes : c.branches + 1 < 2 ^ width) (hmore : more ≠ []) :
    ∃ reader', reader'.rest = more ∧ ReadTree reader width = some (codeTree width c, reader') := by
  obtain ⟨reader', hreader', hloop⟩ := ReadTreeLoop_spell
    (s := ⟨reader, ⟨fun _ => 0, fun _ => 0⟩, [], 2 ^ width⟩) (2 * 2 ^ width - items c) hsymbols
    hrest (by show 2 ^ width + _ < _; omega) (.inr hbranches)
  refine ⟨reader', hreader', ?_⟩
  have hitems : items c ≤ 2 * 2 ^ width := by
    unfold items
    omega
  rw [Nat.add_sub_cancel' hitems] at hloop
  refine hloop.trans ((if_pos rfl).trans (if_neg ?_))
  rw [BitReader.failed_iff, hreader']
  exact hmore

theorem ReadTree_sound {reader' : BitReader} {tree : Tree}
    (h : ReadTree reader width = some (tree, reader')) :
    ∃ c, (∀ symbol ∈ c.symbols, symbol < 2 ^ width) ∧ c.branches ≠ 0 ∧
      c.branches + 1 < 2 ^ width ∧ tree = codeTree width c ∧ reader'.rest ≠ [] ∧
      reader.rest = c.spell width ++ reader'.rest := by
  obtain ⟨c, reader'', fuel', -, hsymbols, hnodes, hplace, hrest, hdone⟩ := ReadTreeLoop_sound h
  unfold ReadTreeDone at hdone
  rw [if_pos rfl] at hdone
  split at hdone
  · cases hdone
  · next hgood =>
    cases hdone
    refine ⟨c, hsymbols, hplace.resolve_left fun h => h rfl, ?_, rfl, ?_, hrest⟩
    · change 2 ^ width + c.branches < _ at hnodes
      omega
    · rwa [Ne, ← BitReader.failed_iff]

/-! ## reading a symbol -/

/-- the arrays hold a code of symbols from a node on that is no symbol -/
structure Stands (tree : Tree) (leaves : Nat) (c : Code) (n : Nat) : Prop where
  laid : Laid tree.arrays c n
  symbols : ∀ symbol ∈ c.symbols, symbol < leaves
  le : leaves ≤ n
  fits : n + c.branches ≤ tree.size

variable {tree : Tree} {leaves n : Nat}

theorem Stands.zero {zero one : Code} (h : Stands tree leaves (.node zero one) n) :
    Stands tree leaves zero (n + 1) ∧ tree.arrays.left n = value zero (n + 1) := by
  have hfits : n + (zero.branches + one.branches + 1) ≤ tree.size := h.fits
  have hle := h.le
  exact ⟨⟨h.laid.2.2.1, fun s hs => h.symbols s (List.mem_append_left _ hs), by omega, by omega⟩,
    h.laid.1⟩

theorem Stands.one {zero one : Code} (h : Stands tree leaves (.node zero one) n) :
    Stands tree leaves one (n + 1 + zero.branches) ∧
      tree.arrays.right n = value one (n + 1 + zero.branches) := by
  have hfits : n + (zero.branches + one.branches + 1) ≤ tree.size := h.fits
  have hle := h.le
  exact ⟨⟨h.laid.2.2.2, fun s hs => h.symbols s (List.mem_append_right _ hs), by omega,
    by omega⟩, h.laid.2.1⟩

theorem Stands.node_lt {zero one : Code} (h : Stands tree leaves (.node zero one) n) :
    n < tree.size := by
  have hfits : n + (zero.branches + one.branches + 1) ≤ tree.size := h.fits
  omega

variable {symbol : Nat}

theorem walkTree_path {bits : List Bool}
    (fuel : Nat) (hpath : c.Path symbol bits) (h : Stands tree leaves c n)
    (hrest : reader.rest = bits ++ more) (hfuel : bits.length < fuel) :
    ∃ reader', reader'.rest = more ∧
      walkTree tree leaves fuel (value c n) reader = some (symbol, reader') := by
  induction hpath generalizing n reader fuel with
  | leaf symbol =>
    obtain ⟨fuel, rfl⟩ := Nat.exists_eq_succ_of_ne_zero (Nat.ne_of_gt hfuel)
    have hlt := h.symbols symbol (List.mem_singleton_self symbol)
    exact ⟨reader, hrest, if_neg (Nat.not_le.mpr hlt)⟩
  | zero _ ih =>
    rw [List.length_cons] at hfuel
    obtain ⟨fuel, rfl⟩ := Nat.exists_eq_succ_of_ne_zero (n := fuel) (by omega)
    obtain ⟨hgood, hbit, hrest'⟩ := BitReader.bit_of_rest hrest
    obtain ⟨hzero, hvalue⟩ := h.zero
    have hlt := h.node_lt
    obtain ⟨reader', hreader', hwalk⟩ := ih fuel hzero hrest' (by omega)
    refine ⟨reader', hreader', ?_⟩
    refine (if_pos h.le).trans ?_
    rw [hgood, hbit, if_neg fun h => h.elim (Nat.not_le.mpr hlt) Bool.false_ne_true,
      if_neg Bool.false_ne_true]
    exact (congrArg (fun v => walkTree tree leaves fuel v reader.bit.2) hvalue).trans hwalk
  | one _ ih =>
    rw [List.length_cons] at hfuel
    obtain ⟨fuel, rfl⟩ := Nat.exists_eq_succ_of_ne_zero (n := fuel) (by omega)
    obtain ⟨hgood, hbit, hrest'⟩ := BitReader.bit_of_rest hrest
    obtain ⟨hone, hvalue⟩ := h.one
    have hlt := h.node_lt
    obtain ⟨reader', hreader', hwalk⟩ := ih fuel hone hrest' (by omega)
    refine ⟨reader', hreader', ?_⟩
    refine (if_pos h.le).trans ?_
    rw [hgood, hbit, if_neg fun h => h.elim (Nat.not_le.mpr hlt) Bool.false_ne_true,
      if_pos rfl]
    exact (congrArg (fun v => walkTree tree leaves fuel v reader.bit.2) hvalue).trans hwalk

theorem walkTree_sound {fuel : Nat} {reader' : BitReader}
    (h : Stands tree leaves c n)
    (hwalk : walkTree tree leaves fuel (value c n) reader = some (symbol, reader')) :
    ∃ bits, c.Path symbol bits ∧ reader.rest = bits ++ reader'.rest := by
  induction c generalizing n fuel reader with
  | leaf s =>
    have hlt := h.symbols s (List.mem_singleton_self s)
    cases fuel with
    | zero => cases hwalk
    | succ fuel =>
      obtain ⟨rfl, rfl⟩ := Prod.mk.inj
        (Option.some.inj ((if_neg (Nat.not_le.mpr hlt)).symm.trans hwalk))
      exact ⟨[], .leaf s, rfl⟩
  | node zero one ihz iho =>
    cases fuel with
    | zero => cases hwalk
    | succ fuel =>
      have hwalk := (if_pos h.le).symm.trans hwalk
      by_cases hguard : n ≥ tree.size ∨ reader.failed = true
      · cases (if_pos hguard).symm.trans hwalk
      · replace hwalk := (if_neg hguard).symm.trans hwalk
        have hsome : reader.rest ≠ [] := fun hnil =>
          hguard (.inr (BitReader.failed_iff.mpr hnil))
        obtain ⟨b, bs, hrest⟩ := List.exists_cons_of_ne_nil hsome
        obtain ⟨-, hbit, hbs⟩ := BitReader.bit_of_rest hrest
        rw [hbit] at hwalk
        cases b with
        | false =>
          rw [if_neg Bool.false_ne_true] at hwalk
          change walkTree tree leaves fuel (tree.arrays.left n) _ = _ at hwalk
          rw [h.zero.2] at hwalk
          obtain ⟨bits, hpath, hbits⟩ := ihz h.zero.1 hwalk
          exact ⟨false :: bits, .zero hpath, by rw [hrest, ← hbs, hbits, List.cons_append]⟩
        | true =>
          rw [if_pos rfl] at hwalk
          change walkTree tree leaves fuel (tree.arrays.right n) _ = _ at hwalk
          rw [h.one.2] at hwalk
          obtain ⟨bits, hpath, hbits⟩ := iho h.one.1 hwalk
          exact ⟨true :: bits, .one hpath, by rw [hrest, ← hbs, hbits, List.cons_append]⟩

theorem codeTree_stands (hsymbols : ∀ symbol ∈ c.symbols, symbol < 2 ^ width)
    (hnodes : c.branches + 1 < 2 ^ width) :
    Stands (codeTree width c) (2 ^ width) c (2 ^ width) :=
  ⟨laid_lay c _ _, hsymbols, Nat.le_refl _, by show 2 ^ width + _ ≤ 2 * 2 ^ width - 1; omega⟩

/-- **A symbol is read from its path.** -/
theorem readSymbol_path {bits : List Bool}
    (hsymbols : ∀ symbol ∈ c.symbols, symbol < 2 ^ width) (hnodes : c.branches + 1 < 2 ^ width)
    (hpath : c.Path symbol bits) (hrest : reader.rest = bits ++ more) :
    ∃ reader', reader'.rest = more ∧
      readSymbol (codeTree width c) (2 ^ width) reader = some (symbol, reader') := by
  have hlength := hpath.length_le
  exact walkTree_path _ hpath (codeTree_stands hsymbols hnodes) hrest
    (by show _ < 2 * 2 ^ width - 1 + 1; omega)

theorem readSymbol_sound {reader' : BitReader}
    (hsymbols : ∀ symbol ∈ c.symbols, symbol < 2 ^ width) (hnodes : c.branches + 1 < 2 ^ width)
    (h : readSymbol (codeTree width c) (2 ^ width) reader = some (symbol, reader')) :
    ∃ bits, c.Path symbol bits ∧ reader.rest = bits ++ reader'.rest :=
  walkTree_sound (codeTree_stands hsymbols hnodes) h

end DolTranslator.Archive
