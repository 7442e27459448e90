import DolTranslator.Ir.Text
import DolTranslator.Ir.Names

/-!
# Sets of architectural state

The masks on which the contract and liveness analyses work (`RegisterSet`, `GuestStateMask`: the
same record in the source).

* `Piece`   one piece of architectural state, and `has`: it is in a set;
* `register`   the state that a name stands for;
* `ofValue`, `ofGqr`, `rangeToTop`   what `AddValue`, `AddGqr` and `AddRegisterRangeToTop` add;
* `instPartialOrder`, `rank`   sets are ordered by their pieces, and are finite.
-/

namespace DolTranslator.Abi

@[ext] structure RegisterSet where
  gpr : BitVec 32
  fpr : BitVec 32
  cr : BitVec 8
  xer : Bool
  ctr : Bool
  lr : Bool
  fpscr : Bool
  gqr : BitVec 8
  hid : BitVec 8
deriving DecidableEq, Repr

/-- one bit of the masks -/
inductive Piece where
  | gpr (i : Fin 32)
  | fpr (i : Fin 32)
  | cr (i : Fin 8)
  | xer
  | ctr
  | lr
  | fpscr
  | gqr (i : Fin 8)
  | hid (i : Fin 8)
deriving DecidableEq, Repr, Fintype

namespace RegisterSet

def empty : RegisterSet := ⟨0, 0, 0, false, false, false, false, 0, 0⟩

/-- `FullState` -/
def full : RegisterSet := ⟨.allOnes 32, .allOnes 32, .allOnes 8, true, true, true, true,
  .allOnes 8, .allOnes 8⟩

def union (s t : RegisterSet) : RegisterSet :=
  ⟨s.gpr ||| t.gpr, s.fpr ||| t.fpr, s.cr ||| t.cr, s.xer || t.xer, s.ctr || t.ctr, s.lr || t.lr,
    s.fpscr || t.fpscr, s.gqr ||| t.gqr, s.hid ||| t.hid⟩

def intersect (s t : RegisterSet) : RegisterSet :=
  ⟨s.gpr &&& t.gpr, s.fpr &&& t.fpr, s.cr &&& t.cr, s.xer && t.xer, s.ctr && t.ctr, s.lr && t.lr,
    s.fpscr && t.fpscr, s.gqr &&& t.gqr, s.hid &&& t.hid⟩

def except (s t : RegisterSet) : RegisterSet :=
  ⟨s.gpr &&& ~~~t.gpr, s.fpr &&& ~~~t.fpr, s.cr &&& ~~~t.cr, s.xer && !t.xer, s.ctr && !t.ctr,
    s.lr && !t.lr, s.fpscr && !t.fpscr, s.gqr &&& ~~~t.gqr, s.hid &&& ~~~t.hid⟩

def singleBit (w : Nat) (i : Nat) : BitVec w := 1#w <<< i

/-! ## pieces -/

def has (s : RegisterSet) : Piece → Bool
  | .gpr i => s.gpr.getLsbD i
  | .fpr i => s.fpr.getLsbD i
  | .cr i => s.cr.getLsbD i
  | .xer => s.xer
  | .ctr => s.ctr
  | .lr => s.lr
  | .fpscr => s.fpscr
  | .gqr i => s.gqr.getLsbD i
  | .hid i => s.hid.getLsbD i

@[simp] theorem has_empty (x : Piece) : empty.has x = false := by
  cases x <;> simp [has, empty]

theorem getLsbD_allOnes_fin {w : Nat} (i : Fin w) : (BitVec.allOnes w).getLsbD i = true := by
  rw [BitVec.getLsbD_allOnes, decide_eq_true i.isLt]

@[simp] theorem has_full (x : Piece) : full.has x = true := by
  cases x <;> first | rfl | exact getLsbD_allOnes_fin _

@[simp] theorem has_union (s t : RegisterSet) (x : Piece) :
    (s.union t).has x = (s.has x || t.has x) := by
  cases x <;> simp [has, union]

@[simp] theorem has_intersect (s t : RegisterSet) (x : Piece) :
    (s.intersect t).has x = (s.has x && t.has x) := by
  cases x <;> simp [has, intersect]

@[simp] theorem has_except (s t : RegisterSet) (x : Piece) :
    (s.except t).has x = (s.has x && !t.has x) := by
  cases x <;> simp [has, except]

def single : Piece → RegisterSet
  | .gpr i => { empty with gpr := singleBit 32 i }
  | .fpr i => { empty with fpr := singleBit 32 i }
  | .cr i => { empty with cr := singleBit 8 i }
  | .xer => { empty with xer := true }
  | .ctr => { empty with ctr := true }
  | .lr => { empty with lr := true }
  | .fpscr => { empty with fpscr := true }
  | .gqr i => { empty with gqr := singleBit 8 i }
  | .hid i => { empty with hid := singleBit 8 i }

theorem getLsbD_singleBit {w : Nat} (i j : Fin w) :
    (singleBit w i).getLsbD j = decide (j = i) := by
  simp only [singleBit, BitVec.getLsbD_shiftLeft, j.isLt, decide_true,
    Bool.true_and, BitVec.getLsbD_one, Fin.ext_iff]
  rw [Bool.eq_iff_iff]
  simp only [Bool.and_eq_true, Bool.not_eq_true', decide_eq_false_iff_not, decide_eq_true_eq]
  omega

@[simp] theorem has_single (x y : Piece) : (single y).has x = decide (x = y) := by
  cases x <;> cases y <;> simp [single, has, empty, getLsbD_singleBit,
    -BitVec.getLsbD_eq_getElem]

theorem ext_has {s t : RegisterSet} (h : ∀ x, s.has x = t.has x) : s = t := by
  have hbits : ∀ {w : Nat} {a b : BitVec w}, (∀ i : Fin w, a.getLsbD i = b.getLsbD i) → a = b :=
    fun hab => BitVec.eq_of_getLsbD_eq fun i hi => hab ⟨i, hi⟩
  ext1
  · exact hbits fun i => h (.gpr i)
  · exact hbits fun i => h (.fpr i)
  · exact hbits fun i => h (.cr i)
  · exact h .xer
  · exact h .ctr
  · exact h .lr
  · exact h .fpscr
  · exact hbits fun i => h (.gqr i)
  · exact hbits fun i => h (.hid i)

/-! ## the order -/

instance : LE RegisterSet := ⟨fun s t => ∀ x, s.has x = true → t.has x = true⟩

instance instPartialOrder : PartialOrder RegisterSet where
  le_refl _ _ h := h
  le_trans _ _ _ h h' x hx := h' x (h x hx)
  le_antisymm _ _ h h' := ext_has fun x => Bool.eq_iff_iff.mpr ⟨h x, h' x⟩

instance : OrderBot RegisterSet where
  bot := empty
  bot_le s x h := by rw [has_empty] at h; cases h

def rank (s : RegisterSet) : Nat := (Finset.univ.filter fun x => s.has x = true).card

def height : Nat := Fintype.card Piece

theorem rank_le_height (s : RegisterSet) : s.rank ≤ height := Finset.card_le_univ _

theorem rank_strictMono : StrictMono rank := by
  intro s t hst
  refine Finset.card_lt_card (Finset.ssubset_iff_subset_ne.mpr ⟨fun x hx => ?_, fun he => ?_⟩)
  · simp only [Finset.mem_filter, Finset.mem_univ, true_and] at hx ⊢
    exact hst.le x hx
  · refine hst.ne (ext_has fun x => Bool.eq_iff_iff.mpr ?_)
    simpa using Finset.ext_iff.mp he x

/-! ## names -/

/-- `SsaBaseName`: the text before the first `_`, when only digits follow it -/
def ssaBaseName (name : List Char) : List Char :=
  match name.span (· ≠ '_') with
  | (front, '_' :: digits) => if front ≠ [] ∧ digits.all Char.isDigit then front else name
  | _ => name

def numberAfter (prefixText : String) (bound : Nat) (name : List Char) : Option Nat :=
  if prefixText.toList.isPrefixOf name then
    (parseDecimal (String.ofList (name.drop prefixText.toList.length))).filter (· < bound)
  else none

def digitAfter (prefixText : String) (bound : Nat) (name : List Char) : Option Nat :=
  if name.length = prefixText.toList.length + 1 ∧ prefixText.toList.isPrefixOf name then
    (decimalValue (name.drop prefixText.toList.length)).filter (· < bound)
  else none

/-- the state that a base name stands for -/
def classify (baseName : List Char) : RegisterSet :=
  let folded := baseName.map Char.toLower
  match numberAfter "r" 32 baseName with
  | some i => { empty with gpr := singleBit 32 i }
  | none =>
  match numberAfter "f" 32 baseName with
  | some i => { empty with fpr := singleBit 32 i }
  | none =>
  match digitAfter "cr" 8 folded with
  | some i => { empty with cr := singleBit 8 i }
  | none =>
  match if baseName.length ≤ 5 then numberAfter "crb" 32 folded else none with
  | some bit => { empty with cr := singleBit 8 (bit / 4) }
  | none =>
  match String.ofList folded with
  | "cr" => { empty with cr := .allOnes 8 }
  | "xer" => { empty with xer := true }
  | "ctr" => { empty with ctr := true }
  | "lr" => { empty with lr := true }
  | "fpscr" => { empty with fpscr := true }
  | _ =>
  match digitAfter "gqr" 8 folded with
  | some i => { empty with gqr := singleBit 8 i }
  | none =>
  match digitAfter "hid" 3 folded with
  | some i => { empty with hid := singleBit 8 i }
  | none => empty

/-- `Register` of the contract analysis -/
def register (name : String) : RegisterSet :=
  if isNullOrWhiteSpace name then empty else classify (ssaBaseName name.toList)

/-- `Register` of the liveness analysis, which cuts names in another way -/
def hardwareRegister (name : String) : RegisterSet :=
  if isNullOrWhiteSpace name then empty else classify (hardwareBaseChars name.toList)

def ofGqr (i : Nat) : RegisterSet :=
  if i ≤ 7 then { empty with gqr := singleBit 8 i } else empty

/-- `rN..r31` or `fN..f31`, the registers that a save or restore thunk touches -/
def rangeToTop (general : Bool) (start : Nat) : RegisterSet :=
  let mask := BitVec.allOnes 32 <<< (start % 32)
  if general then { empty with gpr := mask } else { empty with fpr := mask }

def unionAll (sets : List RegisterSet) : RegisterSet := sets.foldl union empty

theorem has_foldl_union (sets : List RegisterSet) (s : RegisterSet) (x : Piece) :
    (sets.foldl union s).has x = true ↔ s.has x = true ∨ ∃ t ∈ sets, t.has x = true := by
  induction sets generalizing s with
  | nil => simp
  | cons t sets ih =>
    rw [List.foldl_cons, ih, has_union, Bool.or_eq_true, or_assoc]
    simp

theorem has_unionAll (sets : List RegisterSet) (x : Piece) :
    (unionAll sets).has x = true ↔ ∃ t ∈ sets, t.has x = true := by
  rw [unionAll, has_foldl_union, has_empty]
  simp

example : register "r3_12" = { empty with gpr := 8 } := by decide +kernel

end RegisterSet

end DolTranslator.Abi

/-!
## Two ways to cut a register name

The contract analysis and the liveness analysis find the register of a name in two ways.  They agree
on a register with a version; on a temporary such as `r3_rot` only the liveness analysis sees the
register, because a name with an underscore stands for nothing (`classify_underscore`).
-/

namespace DolTranslator.Abi
open RegisterSet

theorem mem_dropWhile_of_not {c : Char} {l : List Char} {q : Char → Bool} (h : c ∈ l)
    (hq : q c = false) : c ∈ l.dropWhile q := by
  induction l with
  | nil => cases h
  | cons a l ih =>
    rw [List.dropWhile_cons]
    split
    · rename_i ha
      refine ih ((List.mem_cons.mp h).resolve_left ?_)
      rintro rfl
      rw [hq] at ha
      cases ha
    · exact h

theorem underscore_mem_trimChars {l : List Char} (h : '_' ∈ l) : '_' ∈ trimChars l := by
  have hws : Char.isWhitespace '_' = false := by decide
  rw [trimChars, List.mem_reverse]
  exact mem_dropWhile_of_not (List.mem_reverse.mpr (mem_dropWhile_of_not h hws)) hws

theorem decimalValue_underscore {l : List Char} (h : '_' ∈ l) : decimalValue l = none := by
  refine if_neg fun hd => ?_
  have := List.all_eq_true.mp hd.2 '_' h
  exact absurd this (by decide)

theorem parseDecimal_underscore {l : List Char} (h : '_' ∈ l) :
    parseDecimal (String.ofList l) = none := by
  have ht := underscore_mem_trimChars h
  rw [parseDecimal, String.toList_ofList]
  split
  · rename_i digits he
    rw [he] at ht
    rw [decimalValue_underscore ((List.mem_cons.mp ht).resolve_left (by decide))]
    rfl
  · rename_i digits he
    rw [he] at ht
    rw [decimalValue_underscore ((List.mem_cons.mp ht).resolve_left (by decide))]
    rfl
  · rw [decimalValue_underscore ht]
    rfl

theorem underscore_mem_drop {l pre : List Char} (hp : '_' ∉ pre) (h : '_' ∈ l)
    (hpre : pre.isPrefixOf l = true) : '_' ∈ l.drop pre.length := by
  obtain ⟨rest, rfl⟩ := List.isPrefixOf_iff_prefix.mp hpre
  rw [List.drop_left]
  exact (List.mem_append.mp h).resolve_left hp

theorem numberAfter_underscore (pre : String) {bound : Nat} {l : List Char}
    (hp : '_' ∉ pre.toList) (h : '_' ∈ l) : numberAfter pre bound l = none := by
  unfold numberAfter
  split
  · rename_i hpre
    rw [parseDecimal_underscore (underscore_mem_drop hp h hpre)]
    rfl
  · rfl

theorem digitAfter_underscore (pre : String) {bound : Nat} {l : List Char}
    (hp : '_' ∉ pre.toList) (h : '_' ∈ l) : digitAfter pre bound l = none := by
  unfold digitAfter
  split
  · rename_i hpre
    rw [decimalValue_underscore (underscore_mem_drop hp h hpre.2)]
    rfl
  · rfl

theorem classify_underscore {l : List Char} (h : '_' ∈ l) : classify l = empty := by
  have hf : '_' ∈ l.map Char.toLower := List.mem_map.mpr ⟨'_', h, by decide⟩
  have hne : ∀ s : String, '_' ∉ s.toList → String.ofList (l.map Char.toLower) ≠ s := by
    intro s hs he
    rw [← he, String.toList_ofList] at hs
    exact hs hf
  unfold classify
  simp only [numberAfter_underscore "r" (by decide) h,
    numberAfter_underscore "f" (by decide) h,
    numberAfter_underscore "crb" (by decide) hf,
    digitAfter_underscore "cr" (by decide) hf,
    digitAfter_underscore "gqr" (by decide) hf,
    digitAfter_underscore "hid" (by decide) hf, ite_self]
  split <;> first | rfl | exact absurd ‹_› (hne _ (by decide))

theorem ssaBaseName_cases (cs : List Char) : ssaBaseName cs = hardwareBaseChars cs ∨
    ssaBaseName cs = cs ∧ '_' ∈ cs := by
  have hbase : ∀ front : List Char, stripNumericSuffixChars cs = front → '_' ∉ front →
      hardwareBaseChars cs = front := by
    intro front hstrip hfront
    have hspan : front.span (· ≠ '_') = (front, []) := by
      rw [List.span_eq_takeWhile_dropWhile]
      have hall : ∀ c ∈ front, decide (c ≠ '_') = true := by
        intro c hc
        rw [decide_eq_true_eq]
        rintro rfl
        exact hfront hc
      rw [List.takeWhile_eq_self_iff.mpr hall, List.dropWhile_eq_nil_iff.mpr hall]
    rw [hardwareBaseChars, hstrip, hspan]
    cases front <;> rfl
  by_cases hu : '_' ∈ cs
  · unfold ssaBaseName
    split
    · rename_i front digits hspan
      split
      · rename_i hd
        left
        rw [List.span_eq_takeWhile_dropWhile] at hspan
        obtain ⟨hfront, hrest⟩ := Prod.mk.inj hspan
        have hcs : cs = front ++ '_' :: digits := by
          rw [← hfront, ← hrest, List.takeWhile_append_dropWhile]
        have hnot : '_' ∉ front := by
          intro hmem
          rw [← hfront] at hmem
          have := List.mem_takeWhile_imp hmem
          simp at this
        refine (hbase front ?_ hnot).symm
        rw [hcs, stripChars_append hd.1 (List.all_eq_true.mp hd.2)]
      · exact Or.inr ⟨rfl, hu⟩
    · exact Or.inr ⟨rfl, hu⟩
  · left
    have hssa : ssaBaseName cs = cs := by
      unfold ssaBaseName
      split
      · rename_i front digits hspan
        rw [List.span_eq_takeWhile_dropWhile] at hspan
        have hcs : cs = front ++ '_' :: digits := by
          rw [← (Prod.mk.inj hspan).1, ← (Prod.mk.inj hspan).2, List.takeWhile_append_dropWhile]
        exact absurd (by rw [hcs]; simp) hu
      · rfl
    rw [hssa]
    exact (hbase cs (stripChars_of_no_underscore hu) hu).symm

theorem register_le_hardwareRegister (name : String) : register name ≤ hardwareRegister name := by
  unfold register hardwareRegister
  split
  · exact le_rfl
  · rcases ssaBaseName_cases name.toList with h | ⟨h, hu⟩
    · rw [h]
    · rw [h, classify_underscore hu]
      exact bot_le

end DolTranslator.Abi
