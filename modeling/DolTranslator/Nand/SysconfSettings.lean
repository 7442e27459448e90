import DolTranslator.Nand.SysconfReload

/-!
# Settings that survive

* `Setting`, `run`   any sequence of calls of the two setters;
* `Kept`   no number of more than a byte was last set as a boolean;
* `survives_iff`  the settings survive a save and a reload exactly when they are kept.
-/

namespace DolTranslator.Nand

open Disc

namespace Sysconf

open SysconfItem

/-! ## calls -/

inductive Setting where
  | number (name : List UInt8) (value : Nat)
  | boolean (name : List UInt8) (value : Bool)

namespace Setting

def name : Setting → List UInt8
  | number name _ => name
  | boolean name _ => name

def isBoolean : Setting → Bool
  | number _ _ => false
  | boolean _ _ => true

def freshType : Setting → SysconfType
  | number _ _ => .long
  | boolean _ _ => .bool

def perform (c : Sysconf) : Setting → Sysconf
  | number name value => (c.SetNumber name value).1
  | boolean name value => (c.SetBoolean name value).1

end Setting

def run (start : Sysconf) (calls : List Setting) : Sysconf := calls.foldl Setting.perform start

def firstType (start : Sysconf) (calls : List Setting) (name : List UInt8) : Option SysconfType :=
  match start.Find name with
  | some item => some item.type
  | none => (calls.find? (·.name = name)).map Setting.freshType

def lastIsBoolean (calls : List Setting) (name : List UInt8) : Bool :=
  match calls.reverse.find? (·.name = name) with
  | some call => call.isBoolean
  | none => false

/-- a short, a long or a long long -/
def Wide (type : SysconfType) : Prop := 1 < FixedWidth type

instance (type : SysconfType) : Decidable (Wide type) := inferInstanceAs (Decidable (1 < _))

/-- no wide number was last set as a boolean -/
def Kept (start : Sysconf) (calls : List Setting) : Prop :=
  ∀ name type, start.firstType calls name = some type → Wide type → lastIsBoolean calls name = false

/-- the same items, and the same answers, after a save and a reload -/
def Survives (c : Sysconf) : Prop :=
  ∃ c', Parse (Build c) = some c' ∧ c'.items = c.items ∧
    ∀ name, c'.Find name = c.Find name ∧ c'.Number name = c.Number name ∧
      ∀ fallback, c'.Boolean name fallback = c.Boolean name fallback

/-! ## the first item of a name -/

variable {name : List UInt8} {fresh : SysconfItem} {set : SysconfItem → Option SysconfItem}
  {items : List SysconfItem}

theorem find_cons_eq {x : SysconfItem} (h : x.name = name) :
    (x :: items).find? (·.name = name) = some x := List.find?_cons_of_pos (decide_eq_true h)

theorem find_cons_ne {x : SysconfItem} (h : x.name ≠ name) :
    (x :: items).find? (·.name = name) = items.find? (·.name = name) :=
  List.find?_cons_of_neg (by rw [decide_eq_true_eq]; exact h)

theorem mem_setFirst (hfresh : fresh.name = name)
    (hset : ∀ item item', set item = some item' → item'.name = item.name) {item : SysconfItem}
    (h : item ∈ (setFirst name fresh set items).1) : item ∈ items ∨ item.name = name := by
  induction items with
  | nil =>
    obtain rfl := List.mem_singleton.mp h
    exact .inr hfresh
  | cons x items ih =>
    by_cases hx : x.name = name
    · unfold setFirst at h
      rw [if_neg (not_not.mpr hx)] at h
      cases hs : set x with
      | none =>
        rw [hs] at h
        exact .inl h
      | some x' =>
        rw [hs] at h
        obtain rfl | h := List.mem_cons.mp h
        · exact .inr ((hset x _ hs).trans hx)
        · exact .inl (List.mem_cons_of_mem _ h)
    · unfold setFirst at h
      rw [if_pos hx] at h
      obtain rfl | h := List.mem_cons.mp h
      · exact .inl List.mem_cons_self
      · exact (ih h).imp_left (List.mem_cons_of_mem _)

/-- an item that is not sized is the first of its name -/
def Sole (items : List SysconfItem) : Prop := items.Pairwise fun x y => x.name = y.name → y.Sized

theorem sole_setFirst (hfresh : fresh.name = name)
    (hset : ∀ item item', set item = some item' → item'.name = item.name) (h : Sole items) :
    Sole (setFirst name fresh set items).1 := by
  induction items with
  | nil => exact List.pairwise_singleton _ _
  | cons x items ih =>
    obtain ⟨hx, hitems⟩ := List.pairwise_cons.mp h
    unfold setFirst
    by_cases hname : x.name = name
    · rw [if_neg (not_not.mpr hname)]
      cases hs : set x with
      | none => exact h
      | some x' =>
        refine List.pairwise_cons.mpr ⟨fun y hy => ?_, hitems⟩
        rw [hset x x' hs]
        exact hx y hy
    · rw [if_pos hname]
      refine List.pairwise_cons.mpr ⟨fun y hy heq => ?_, ih hitems⟩
      obtain hy | hy := mem_setFirst hfresh hset hy
      · exact hx y hy heq
      · exact absurd (heq.trans hy) hname

theorem find_setFirst_ne {other : List UInt8} (hother : other ≠ name) (hfresh : fresh.name = name)
    (hset : ∀ item item', set item = some item' → item'.name = item.name) :
    (setFirst name fresh set items).1.find? (·.name = other) = items.find? (·.name = other) := by
  induction items with
  | nil => exact find_cons_ne fun h => hother (h.symm.trans hfresh)
  | cons x items ih =>
    unfold setFirst
    by_cases hname : x.name = name
    · rw [if_neg (not_not.mpr hname)]
      have hx : x.name ≠ other := fun h => hother (h.symm.trans hname)
      cases hs : set x with
      | none => rfl
      | some x' =>
        have hx' : x'.name ≠ other := (hset x x' hs).symm ▸ hx
        dsimp only
        rw [find_cons_ne hx, find_cons_ne hx']
    · rw [if_pos hname]
      dsimp only
      by_cases hx : x.name = other
      · rw [find_cons_eq hx, find_cons_eq hx]
      · rw [find_cons_ne hx, find_cons_ne hx, ih]

theorem find_setFirst (hfresh : fresh.name = name)
    (hset : ∀ item item', set item = some item' → item'.name = item.name) :
    (setFirst name fresh set items).1.find? (·.name = name) =
      match items.find? (·.name = name) with
      | none => some fresh
      | some item => some ((set item).getD item) := by
  induction items with
  | nil => exact find_cons_eq hfresh
  | cons x items ih =>
    unfold setFirst
    by_cases hname : x.name = name
    · rw [if_neg (not_not.mpr hname), find_cons_eq hname]
      cases hs : set x with
      | none =>
        dsimp only
        rw [find_cons_eq hname, hs]
        rfl
      | some x' =>
        dsimp only
        rw [find_cons_eq ((hset x x' hs).trans hname), hs]
        rfl
    · rw [if_pos hname]
      dsimp only
      rw [find_cons_ne hname, find_cons_ne hname, ih]

theorem all_sized_of_first (hsole : Sole items)
    (h : ∀ name item, items.find? (·.name = name) = some item → item.Sized) :
    ∀ item ∈ items, item.Sized := by
  induction items with
  | nil => exact fun item hmem => absurd hmem (List.not_mem_nil)
  | cons x items ih =>
    obtain ⟨hx, hitems⟩ := List.pairwise_cons.mp hsole
    intro item hmem
    obtain rfl | hmem := List.mem_cons.mp hmem
    · exact h item.name item (find_cons_eq rfl)
    · refine ih hitems (fun name item hfind => ?_) item hmem
      by_cases hname : x.name = name
      · have hitem := List.find?_some hfind
        rw [decide_eq_true_eq] at hitem
        exact hx item (List.mem_of_find?_eq_some hfind) (hname.trans hitem.symm)
      · exact h name item ((find_cons_ne hname).trans hfind)

/-! ## a call -/

namespace Setting

def added : Setting → SysconfItem
  | number name value => ⟨name, .long, NumberBytes value 4⟩
  | boolean name value => ⟨name, .bool, [UInt8.ofNat value.toNat]⟩

def bytes (type : SysconfType) : Setting → List UInt8
  | number _ value => NumberBytes value (FixedWidth type)
  | boolean _ value => [UInt8.ofNat value.toNat]

/-- what a call makes of an item of its name; an array is not set -/
def onto (call : Setting) (item : SysconfItem) : Option SysconfItem :=
  if FixedWidth item.type = 0 then none else some { item with data := call.bytes item.type }

theorem name_onto {call : Setting} (item item' : SysconfItem) (h : call.onto item = some item') :
    item'.name = item.name := by
  unfold onto at h
  split at h
  · cases h
  · cases h
    rfl

theorem name_added (call : Setting) : call.added.name = call.name := by
  cases call <;> rfl

theorem perform_items (c : Sysconf) (call : Setting) :
    (call.perform c).items = (setFirst call.name call.added call.onto c.items).1 := by
  cases call with
  | number name value => rfl
  | boolean name value =>
    show (setFirst name _ _ c.items).1 = (setFirst name _ _ c.items).1
    congr 2
    funext item
    unfold onto
    cases htype : item.type with
    | bool => rfl
    | _ => simp [bytes, FixedWidth]

end Setting

theorem length_NumberBytes (value width : Nat) : (NumberBytes value width).length = width := by
  unfold NumberBytes
  rw [List.length_map, List.length_range]

theorem sized_iff {item : SysconfItem} (h : FixedWidth item.type ≠ 0) :
    item.Sized ↔ item.data.length = FixedWidth item.type := by
  unfold SysconfItem.Sized
  cases htype : item.type with
  | bigArray => exact absurd (by rw [htype]; rfl) h
  | smallArray => exact absurd (by rw [htype]; rfl) h
  | _ => exact Iff.rfl

/-- what is set is sized, but for a wide number set as a boolean -/
theorem sized_onto {call : Setting} {item : SysconfItem} (h : FixedWidth item.type ≠ 0) :
    (SysconfItem.mk item.name item.type (call.bytes item.type)).Sized ↔
      ¬ (Wide item.type ∧ call.isBoolean = true) := by
  have hiff : (SysconfItem.mk item.name item.type (call.bytes item.type)).Sized ↔
      (call.bytes item.type).length = FixedWidth item.type := sized_iff h
  rw [hiff]
  unfold Wide
  cases call with
  | number name value =>
    show (NumberBytes value _).length = _ ↔ ¬ (_ ∧ false = true)
    rw [length_NumberBytes]
    exact ⟨fun _ h => Bool.false_ne_true h.2, fun _ => rfl⟩
  | boolean name value =>
    show 1 = FixedWidth item.type ↔ ¬ (_ ∧ true = true)
    rw [and_iff_left rfl]
    omega

theorem sized_added (call : Setting) :
    call.added.Sized ∧ call.added.type = call.freshType ∧
      ¬ (Wide call.freshType ∧ call.isBoolean = true) := by
  cases call with
  | number name value =>
    exact ⟨length_NumberBytes value 4, rfl, fun h => Bool.false_ne_true h.2⟩
  | boolean name value => exact ⟨rfl, rfl, fun h => absurd h.1 (show ¬ 1 < 1 by decide)⟩

/-! ## a run -/

/-- what holds of a configuration after some calls -/
structure After (start : Sysconf) (calls : List Setting) (c : Sysconf) : Prop where
  sole : Sole c.items
  named : ∀ item ∈ c.items, item.Named
  /-- each first item has the type that the calls say, and is sized unless they spoilt it -/
  first : ∀ name, match c.Find name with
    | none => firstType start calls name = none
    | some item => firstType start calls name = some item.type ∧
        (item.Sized ↔ ¬ (Wide item.type ∧ lastIsBoolean calls name = true))

theorem After.start {start : Sysconf} (h : ∀ item ∈ start.items, item.Named ∧ item.Sized) :
    After start [] start where
  sole := List.pairwise_of_forall_mem_list fun _ _ item hitem _ => (h item hitem).2
  named item hitem := (h item hitem).1
  first name := by
    unfold firstType
    cases hfind : start.Find name with
    | none => rfl
    | some item =>
      have hsized := (h item (List.mem_of_find?_eq_some hfind)).2
      exact ⟨rfl, fun _ hbad => Bool.false_ne_true hbad.2, fun _ => hsized⟩

/-- a call is the last of its own name, and only of that -/
theorem lastIsBoolean_snoc (calls : List Setting) (call : Setting) (name : List UInt8) :
    lastIsBoolean (calls ++ [call]) name =
      if call.name = name then call.isBoolean else lastIsBoolean calls name := by
  unfold lastIsBoolean
  rw [List.reverse_append, List.reverse_singleton, List.singleton_append, List.find?_cons]
  by_cases h : call.name = name
  · rw [decide_eq_true h, if_pos h]
  · rw [decide_eq_false h, if_neg h]

theorem firstType_snoc (start : Sysconf) (calls : List Setting) (call : Setting)
    (name : List UInt8) :
    firstType start (calls ++ [call]) name =
      match firstType start calls name with
      | some type => some type
      | none => if call.name = name then some call.freshType else none := by
  unfold firstType
  cases start.Find name with
  | some item => rfl
  | none =>
    dsimp only
    rw [List.find?_append]
    cases calls.find? (·.name = name) with
    | some found => rfl
    | none =>
      rw [Option.none_or, List.find?_cons]
      by_cases h : call.name = name
      · rw [decide_eq_true h, if_pos h]
        rfl
      · rw [decide_eq_false h, if_neg h]
        rfl

theorem After.step {start c : Sysconf} {calls : List Setting} {call : Setting}
    (hcall : 1 ≤ call.name.length ∧ call.name.length ≤ 32) (h : After start calls c) :
    After start (calls ++ [call]) (call.perform c) where
  sole := by
    rw [Setting.perform_items]
    exact sole_setFirst call.name_added Setting.name_onto h.sole
  named item hitem := by
    rw [Setting.perform_items] at hitem
    obtain hitem | hname := mem_setFirst call.name_added Setting.name_onto hitem
    · exact h.named item hitem
    · unfold SysconfItem.Named
      rw [hname]
      exact hcall
  first name := by
    have hfirst := h.first name
    unfold Find at hfirst ⊢
    rw [Setting.perform_items, lastIsBoolean_snoc, firstType_snoc]
    by_cases hname : call.name = name
    · subst hname
      rw [find_setFirst call.name_added Setting.name_onto, if_pos rfl, if_pos rfl]
      cases hfind : c.items.find? (·.name = call.name) with
      | none =>
        rw [hfind] at hfirst
        dsimp only at hfirst ⊢
        obtain ⟨hsized, htype, hgood⟩ := sized_added call
        rw [hfirst, htype]
        exact ⟨rfl, fun _ => hgood, fun _ => hsized⟩
      | some item =>
        rw [hfind] at hfirst
        obtain ⟨htype, hsized⟩ := hfirst
        dsimp only
        rw [htype]
        by_cases hwidth : FixedWidth item.type = 0
        · have honto : call.onto item = none := if_pos hwidth
          have hnarrow : ¬ Wide item.type := by
            unfold Wide
            omega
          rw [honto]
          exact ⟨rfl, fun _ hbad => hnarrow hbad.1, fun _ => hsized.mpr fun hbad => hnarrow hbad.1⟩
        · have honto : call.onto item = some { item with data := call.bytes item.type } :=
            if_neg hwidth
          rw [honto]
          dsimp only [Option.getD_some]
          exact ⟨rfl, sized_onto hwidth⟩
    · rw [find_setFirst_ne (fun h => hname h.symm) call.name_added Setting.name_onto,
        if_neg hname, if_neg hname]
      cases hfind : c.items.find? (·.name = name) with
      | none =>
        rw [hfind] at hfirst
        dsimp only at hfirst ⊢
        rw [hfirst]
      | some item =>
        rw [hfind] at hfirst
        dsimp only at hfirst ⊢
        rw [hfirst.1]
        exact ⟨rfl, hfirst.2⟩

/-- **After any run.** -/
theorem After.run {start : Sysconf} (hstart : ∀ item ∈ start.items, item.Named ∧ item.Sized)
    {calls : List Setting} (hcalls : ∀ call ∈ calls, 1 ≤ call.name.length ∧ call.name.length ≤ 32) :
    After start calls (run start calls) := by
  induction calls using List.reverseRecOn with
  | nil => exact After.start hstart
  | append_singleton calls call ih =>
    unfold Sysconf.run
    rw [List.foldl_append]
    exact (ih fun call h => hcalls call (List.mem_append_left _ h)).step
      (hcalls call (List.mem_append_right _ (List.mem_singleton_self call)))

theorem Defaults_sized : ∀ item ∈ Defaults.items, item.Named ∧ item.Sized := by
  decide +kernel

/-- **Which settings survive.**  After any calls on the defaults or on a file that parsed, what fits
comes back the same from a save and a reload exactly when no number of more than a byte was last set
as a boolean. -/
theorem survives_iff {start : Sysconf} {calls : List Setting}
    (hstart : start = Defaults ∨ ∃ file, Parse file = some start)
    (hcalls : ∀ call ∈ calls, 1 ≤ call.name.length ∧ call.name.length ≤ 32)
    (hfit : (run start calls).Fits) : Survives (run start calls) ↔ Kept start calls := by
  have hsized : ∀ item ∈ start.items, item.Named ∧ item.Sized := by
    obtain rfl | ⟨file, hfile⟩ := hstart
    · exact Defaults_sized
    · exact Parse_sized hfile
  have hafter := After.run hsized hcalls
  have hiff : Survives (run start calls) ↔ ∀ item ∈ (run start calls).items, item.Sized := by
    rw [← Parse_Build_iff hafter.named hfit]
    constructor
    · rintro ⟨c', hparse, hitems, -⟩
      obtain rfl : c' = run start calls := congrArg Sysconf.mk hitems
      exact hparse
    · exact fun hparse => ⟨_, hparse, rfl, fun _ => ⟨rfl, rfl, fun _ => rfl⟩⟩
  rw [hiff]
  constructor
  · intro hall name type htype hwide
    have hfirst := hafter.first name
    cases hfind : (run start calls).Find name with
    | none =>
      rw [hfind] at hfirst
      cases hfirst.symm.trans htype
    | some item =>
      rw [hfind] at hfirst
      obtain rfl := Option.some.inj (hfirst.1.symm.trans htype)
      by_contra hlast
      exact hfirst.2.mp (hall item (List.mem_of_find?_eq_some hfind))
        ⟨hwide, eq_true_of_ne_false hlast⟩
  · intro hkept
    refine all_sized_of_first hafter.sole fun name item hfind => ?_
    have hfirst := hafter.first name
    unfold Find at hfirst
    rw [hfind] at hfirst
    refine hfirst.2.mpr fun hbad => ?_
    rw [hkept name item.type hfirst.1 hbad.1] at hbad
    exact Bool.false_ne_true hbad.2

/-- **A setting is lost.**  The sensitivity of the sensor bar, a long, set as a boolean. -/
theorem sensitivity_lost :
    (run Defaults [.boolean (chars "BT.SENS") true]).Fits ∧
      ¬ Survives (run Defaults [.boolean (chars "BT.SENS") true]) := by
  have hlong : ¬ (⟨chars "BT.SENS", .long, [1]⟩ : SysconfItem).Sized := by decide
  refine ⟨Nat.le_of_ble_eq_true (by decide +kernel), ?_⟩
  rintro ⟨c', hparse, hitems, -⟩
  have hmem : ⟨chars "BT.SENS", .long, [1]⟩ ∈ c'.items := by
    rw [hitems]
    exact List.mem_cons_self
  exact hlong (Parse_sized hparse _ hmem).2

/-- the aspect ratio as a number and a mode as a boolean -/
theorem survives_iff_menu :
    Survives (run Defaults [.number (chars "IPL.AR") 0, .boolean (chars "IPL.E60") false]) := by
  refine (survives_iff (.inl rfl) ?_ ?_).mpr ?_
  · decide
  · exact Nat.le_of_ble_eq_true (by decide +kernel)
  · intro name type htype hwide
    by_cases hname : name = chars "IPL.E60"
    · subst hname
      have hbool : firstType Defaults [.number (chars "IPL.AR") 0, .boolean (chars "IPL.E60") false]
          (chars "IPL.E60") = some .bool := by decide +kernel
      obtain rfl := Option.some.inj (hbool.symm.trans htype)
      exact absurd hwide (by decide)
    · show lastIsBoolean ([] ++ [.number (chars "IPL.AR") 0] ++ [.boolean (chars "IPL.E60") false])
        name = false
      rw [lastIsBoolean_snoc, lastIsBoolean_snoc, if_neg fun h => hname h.symm]
      split <;> rfl

end Sysconf

end DolTranslator.Nand
