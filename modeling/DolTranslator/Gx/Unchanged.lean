import DolTranslator.Gx.Owners
import DolTranslator.Gx.Invariants

/-!
# Dropping the loads that repeat what a register holds

* `Coherent s`   the effects of every loaded register's word are still there, the counts apart;
* `Load.Agrees`   a load that is dropped finds its counts in place;
* `skipping_sound_iff`   dropping loads is not seen exactly when every dropped load agrees.
-/

namespace DolTranslator.Gx

open Function Streams

/-! ## the words of the registers, and their effects -/

def State.word (s : State) : Register → Option (BitVec 32)
  | .bp reg => if s.bpWritten reg then some (s.bpRegs reg) else none
  | .xf a => if s.xfWritten a then some (s.xfRaw a) else none
  | .counts => none

def Coherent (s : State) : Prop :=
  ∀ r v, s.word r = some v → ∀ e ∈ r.effects v, owner (slot e) ≠ .counts → Stable perform e s

theorem word_performAll (es : List Effect) (s : State) (r : Register) :
    (performAll perform es s).word r = s.word r := by
  have hbooks := performAll_books es s
  have hregs : (performAll perform es s).bpRegs = s.bpRegs := congrArg Books.bpRegs hbooks
  have hwritten : (performAll perform es s).bpWritten = s.bpWritten :=
    congrArg Books.bpWritten hbooks
  have hraw : (performAll perform es s).xfRaw = s.xfRaw := congrArg Books.xfRaw hbooks
  have hxf : (performAll perform es s).xfWritten = s.xfWritten := congrArg Books.xfWritten hbooks
  cases r with
  | bp reg => simp only [State.word, hregs, hwritten]
  | xf a => simp only [State.word, hraw, hxf]
  | counts => rfl

theorem slot_ne {r r' : Register} {v v' : BitVec 32} (hne : r' ≠ r) {e e' : Effect}
    (he : e ∈ r'.effects v') (hcounts : owner (slot e) ≠ .counts) (he' : e' ∈ r.effects v) :
    slot e ≠ slot e' := by
  intro heq
  have howner : owner (slot e) = r' := ((r'.owns v').1 e he).resolve_right fun h => hcounts h.owner
  rcases (r.owns v).1 e' he' with h | h
  · rw [← heq, howner] at h
    exact hne h
  · exact hcounts (heq ▸ h.owner)

variable {s : State}

theorem Coherent.load (h : Coherent s) (r : Register) (v : BitVec 32) (b : Books)
    (hother : ∀ r' v', r' ≠ r → (s.withBooks b).word r' = some v' → s.word r' = some v')
    (hown : ∀ v', (s.withBooks b).word r = some v' → r.effects v' = r.effects v) :
    Coherent (performAll perform (r.effects v) (s.withBooks b)) := by
  intro r' v' hword e he hcounts
  rw [word_performAll] at hword
  by_cases hr : r' = r
  · subst hr
    rw [hown v' hword] at he
    exact effects.stable_performAll_of_nodup (r'.owns v).2 he _
  · have hstable := stable_withBooks (h r' v' (hother r' v' hr hword) e he hcounts) b
    exact effects.stable_performAll_of_ne hstable fun e' he' => slot_ne hr he hcounts he'

theorem Coherent.withBooks (h : Coherent s) (b : Books)
    (hword : ∀ r, (s.withBooks b).word r = s.word r) : Coherent (s.withBooks b) := by
  intro r v hv e he hcounts
  rw [hword] at hv
  exact stable_withBooks (h r v hv e he hcounts) b

theorem Coherent.forget (h : Coherent s) : Coherent s.forget :=
  h.withBooks s.books fun r => by cases r <;> rfl

/-! ## BP loads -/

variable {value : BitVec 32}

namespace State

variable (s : State)

theorem word_storeBP (reg : Nat) (v : BitVec 32) (r : Register) :
    (s.storeBP reg v).word r = if r = .bp reg then some v else s.word r := by
  cases r with
  | bp reg' =>
    by_cases h : reg' = reg
    · subst h
      simp [word, storeBP]
    · simp [word, storeBP, h]
  | xf a => rfl
  | counts => rfl

theorem forget_applyBP_register {reg : Nat} (hreg : bits value 8 24 = reg)
    (hmask : reg ≠ 0xFE) (hlut : reg ≠ 0x65) (hinvalidate : reg ≠ 0x66) :
    (s.applyBP value).forget = performAll perform (bpEffects reg (s.merged reg value))
      (s.storeBP reg (s.merged reg value)).forget := by
  rw [applyBP_register hreg hmask]
  exact forget_decodeBP _ _ hlut hinvalidate

theorem decodeBP_palette (v : BitVec 32) :
    s.decodeBP 0x65 v = { s with
      tluts := update s.tluts (bits v 10 0)
        ⟨(s.bpRegs 0x64 &&& 0x00FFFFFF) <<< 5, bits v 11 10 * 16⟩ } := by
  unfold decodeBP
  repeat rw [if_neg (by omega)]
  rw [if_pos rfl]

theorem decodeBP_invalidate (v : BitVec 32) :
    s.decodeBP 0x66 v = { s with texInvalidations := s.texInvalidations + 1 } := by
  unfold decodeBP
  repeat rw [if_neg (by omega)]
  rw [if_pos rfl]

theorem forget_applyBP_palette (hreg : bits value 8 24 = 0x65) :
    ∃ line load, (s.applyBP value).forget =
      perform (.tlut line load) (s.storeBP 0x65 (s.merged 0x65 value)).forget := by
  rw [applyBP_register hreg (by decide), decodeBP_palette]
  exact ⟨_, _, rfl⟩

end State

theorem coherent_storeBP (h : Coherent s.forget) (reg : Nat) (v : BitVec 32) :
    Coherent (performAll perform (bpEffects reg v) (s.storeBP reg v).forget) := by
  refine h.load (.bp reg) v (s.storeBP reg v).books (fun r v' hr hword => ?_) fun v' hword => ?_
  · have hkept := s.word_storeBP reg v r
    rw [if_neg hr] at hkept
    exact hkept ▸ hword
  · have hstored := s.word_storeBP reg v (.bp reg)
    rw [if_pos rfl] at hstored
    have hv : some v = some v' := hstored ▸ hword
    rw [Option.some.inj hv]

/-- three registers have no effects of their own: palette, invalidation, mask -/
theorem bpEffects_none (reg : Nat) (h : reg ∈ [0x65, 0x66, 0xFE]) (v : BitVec 32) :
    bpEffects reg v = [] := by
  simp only [List.mem_cons, List.not_mem_nil, or_false] at h
  unfold bpEffects
  repeat rw [if_neg (by omega)]

theorem coherent_perform_tlut (h : Coherent s) (line : Nat) (load : TlutLoad) :
    Coherent (perform (.tlut line load) s) := by
  intro r v hword e he hcounts
  have hword : s.word r = some v := (word_performAll [.tlut line load] s r).symm.trans hword
  refine effects.stable_of_ne (h r v hword e he hcounts) fun hslot => ?_
  -- the palettes' register has no effect among its own
  have howner : owner (slot e) = r := ((r.owns v).1 e he).resolve_right fun h => hcounts h.owner
  have hr : r = .bp 0x65 := by
    rw [← howner, hslot]
    rfl
  subst hr
  rw [Register.effects, bpEffects_none _ (by decide)] at he
  exact absurd he List.not_mem_nil

theorem coherent_applyBP (h : Coherent s.forget) (value : BitVec 32) :
    Coherent (s.applyBP value).forget := by
  by_cases hmask : bits value 8 24 = 0xFE
  · have hnone := bpEffects_none 0xFE (by decide)
    have hload := h.load (.bp 0xFE) 0 (s.applyBP value).books (fun r v hr hword => ?_)
      fun v _ => by rw [Register.effects, Register.effects, hnone, hnone]
    · rw [Register.effects, hnone, State.applyBP_mask hmask] at hload
      rwa [State.applyBP_mask hmask]
    · rw [State.applyBP_mask hmask] at hword
      cases r with
      | bp reg =>
        have hne : reg ≠ 0xFE := fun heq => hr (heq ▸ rfl)
        have hkept : update s.bpWritten 0xFE true reg = s.bpWritten reg := update_of_ne hne ..
        change (if update s.bpWritten 0xFE true reg then some (s.bpRegs reg) else none) = _ at hword
        rwa [hkept] at hword
      | xf a => exact hword
      | counts => exact hword
  by_cases hlut : bits value 8 24 = 0x65
  · obtain ⟨line, load, heq⟩ := s.forget_applyBP_palette hlut
    rw [heq]
    exact coherent_perform_tlut (coherent_storeBP h 0x65 _) line load
  by_cases hinvalidate : bits value 8 24 = 0x66
  · rw [State.applyBP_register hinvalidate (by decide), State.decodeBP_invalidate]
    have hstored := coherent_storeBP h 0x66 (s.merged 0x66 value)
    rw [bpEffects_none _ (by decide)] at hstored
    exact hstored.withBooks
      { (s.storeBP 0x66 (s.merged 0x66 value)).books with
        texInvalidations := s.texInvalidations + 1 } fun r => by cases r <;> rfl
  · rw [s.forget_applyBP_register rfl hmask hlut hinvalidate]
    exact coherent_storeBP h _ _

theorem State.applyBP_forget (s : State) (value : BitVec 32) :
    (s.forget.applyBP value).forget = (s.applyBP value).forget := by
  by_cases hmask : bits value 8 24 = 0xFE
  · rw [applyBP_mask hmask, applyBP_mask hmask]
    rfl
  by_cases hlut : bits value 8 24 = 0x65
  · rw [applyBP_register hlut (by decide), applyBP_register hlut (by decide), decodeBP_palette,
      decodeBP_palette]
    rfl
  by_cases hinvalidate : bits value 8 24 = 0x66
  · rw [applyBP_register hinvalidate (by decide), applyBP_register hinvalidate (by decide),
      decodeBP_invalidate, decodeBP_invalidate]
    rfl
  · rw [forget_applyBP_register _ rfl hmask hlut hinvalidate,
      forget_applyBP_register _ rfl hmask hlut hinvalidate]
    rfl

theorem merge_same {r : BitVec 32} (h : r &&& 0x00FFFFFF = value &&& 0x00FFFFFF) :
    (r &&& ~~~0x00FFFFFF#32) ||| (value &&& 0x00FFFFFF &&& 0x00FFFFFF) = r := by
  rw [← h, BitVec.and_assoc, BitVec.and_self]
  ext i
  simp only [BitVec.getElem_or, BitVec.getElem_and, BitVec.getElem_not]
  cases r[i] <;> cases (0x00FFFFFF#32)[i] <;> rfl

theorem State.forget_applyBP_unchanged (h : s.bpUnchanged value = true) :
    (s.applyBP value).forget = performAll perform
      (bpEffects (bits value 8 24) (s.bpRegs (bits value 8 24))) s.forget ∧
      s.word (.bp (bits value 8 24)) = some (s.bpRegs (bits value 8 24)) := by
  unfold bpUnchanged at h
  dsimp only at h
  generalize hreg : bits value 8 24 = reg at *
  split at h
  · cases h
  · next hguard =>
    simp only [not_or, not_and, not_not] at hguard
    obtain ⟨hfull, hmask, _, hstrobe, hwritten⟩ := hguard
    have hmerged : s.merged reg value = s.bpRegs reg := by
      unfold merged
      rw [hfull]
      exact merge_same (of_decide_eq_true h)
    have hsame : s.storeBP reg (s.bpRegs reg) = { s with generation := s.generation + 1 } := by
      unfold storeBP
      rw [← hwritten, update_eq_self, update_eq_self, ← hfull]
    rw [s.forget_applyBP_register hreg hmask (by omega) (by omega), hmerged, hsame]
    exact ⟨rfl, if_pos hwritten⟩

/-! ## XF loads, word by word -/

variable {address : BitVec 32} {words : List (BitVec 32)} {a n : Nat}

namespace State

def storeXFWord (s : State) (a : Nat) (w : BitVec 32) : State :=
  if a < kXfShadow then
    { s with xfRaw := update s.xfRaw a w, xfWritten := update s.xfWritten a true }
  else s

def storeXFWords (s : State) : Nat → List (BitVec 32) → State
  | _, [] => s
  | a, w :: words => storeXFWords (s.storeXFWord a w) (a + 1) words

theorem storeXFWords_of_ge (h : kXfShadow ≤ a) (s : State) (words : List (BitVec 32)) :
    s.storeXFWords a words = s := by
  induction words generalizing a with
  | nil => rfl
  | cons w words ih =>
    have hword : s.storeXFWord a w = s := if_neg (by omega)
    rw [storeXFWords, hword]
    exact ih (by omega)

theorem toNat_succ {a : BitVec 32} (h : a.toNat + (n + 1) < 2 ^ 32) :
    (a + 1).toNat = a.toNat + 1 := by
  have hone : (1 : BitVec 32).toNat = 1 := rfl
  rw [BitVec.toNat_add, hone]
  omega

theorem storeXF_eq_words (s : State)
    (h : address.toNat + words.length < 2 ^ 32) :
    s.storeXF address words = s.storeXFWords address.toNat words := by
  induction words generalizing s address with
  | nil => rfl
  | cons w words ih =>
    have hsucc := toNat_succ h
    have hrest : (address + 1).toNat + words.length < 2 ^ 32 := by
      rw [List.length_cons] at h
      omega
    by_cases hshadow : address.toNat < kXfShadow
    · rw [storeXF, if_pos hshadow, ih _ hrest, hsucc, storeXFWords, storeXFWord, if_pos hshadow]
    · rw [storeXF, if_neg hshadow, storeXFWords_of_ge (by omega)]

theorem storeXFWord_forget (s : State) (a : Nat) (w : BitVec 32) :
    (s.storeXFWord a w).forget = s.forget.storeXFWord a w := by
  unfold storeXFWord
  split <;> rfl

theorem storeXFWords_forget (s : State) (a : Nat) (words : List (BitVec 32)) :
    (s.storeXFWords a words).forget = s.forget.storeXFWords a words := by
  induction words generalizing s a with
  | nil => rfl
  | cons w words ih => rw [storeXFWords, ih, storeXFWord_forget, storeXFWords]

theorem perform_storeXFWord (e : Effect) (s : State) (a : Nat) (w : BitVec 32) :
    perform e (s.storeXFWord a w) = (perform e s).storeXFWord a w := by
  unfold storeXFWord
  split
  · cases e with
    | cell table => cases table <;> rfl
    | number table => cases table <;> rfl
    | _ => rfl
  · rfl

theorem performAll_storeXFWords (es : List Effect) (s : State) (a : Nat) (words : List (BitVec 32)) :
    performAll perform es (s.storeXFWords a words) = (performAll perform es s).storeXFWords a words := by
  have hword (e : Effect) (s : State) (a : Nat) :
      perform e (s.storeXFWords a words) = (perform e s).storeXFWords a words := by
    induction words generalizing s a with
    | nil => rfl
    | cons w words ih => rw [storeXFWords, ih, perform_storeXFWord, storeXFWords]
  induction es generalizing s with
  | nil => rfl
  | cons e es ih => rw [performAll_cons, hword, ih, performAll_cons]

def xfLoadEffects : Nat → List (BitVec 32) → List Effect
  | _, [] => []
  | a, w :: words => xfEffects a w ++ xfLoadEffects (a + 1) words

theorem forget_applyXFWords (s : State)
    (h : address.toNat + words.length < 2 ^ 32) :
    (s.applyXFWords address words).forget =
      performAll perform (xfLoadEffects address.toNat words) s.forget := by
  induction words generalizing s address with
  | nil => rfl
  | cons w words ih =>
    have hsucc := toNat_succ h
    have hrest : (address + 1).toNat + words.length < 2 ^ 32 := by
      rw [List.length_cons] at h
      omega
    rw [applyXFWords, ih _ hrest, hsucc, xfLoadEffects, performAll_append, forget_applyXFWord]

theorem forget_applyXF (s : State)
    (h : address.toNat + words.length < 2 ^ 32) :
    (s.applyXF address words).forget = performAll perform (xfLoadEffects address.toNat words)
      (s.forget.storeXFWords address.toNat words) := by
  unfold applyXF
  rw [forget_applyXFWords _ h]
  have hstored : (storeXF { s with generation := s.generation + 1 } address words).forget =
      s.forget.storeXFWords address.toNat words := by
    rw [storeXF_eq_words _ h, storeXFWords_forget]
    rfl
  split
  · rw [← hstored]
    rfl
  · rw [← hstored]

theorem applyXF_forget (s : State)
    (h : address.toNat + words.length < 2 ^ 32) :
    (s.forget.applyXF address words).forget = (s.applyXF address words).forget := by
  rw [forget_applyXF _ h, forget_applyXF _ h, forget_forget]

end State

theorem xfEffects_of_ge (h : kXfShadow ≤ a) (w : BitVec 32) : xfEffects a w = [] := by
  unfold kXfShadow at h
  unfold xfEffects
  repeat rw [if_neg (by omega)]
  rw [if_pos (by omega)]
  unfold xfRegisterEffects
  repeat rw [if_neg (by omega)]

theorem coherent_storeXFWord (h : Coherent s) (a : Nat) (w : BitVec 32) :
    Coherent (performAll perform (xfEffects a w) (s.storeXFWord a w)) := by
  by_cases hshadow : a < kXfShadow
  · have hload := h.load (.xf a) w
      ⟨s.bpRegs, s.bpMask, s.bpWritten, update s.xfRaw a w, update s.xfWritten a true, s.vtxDesc,
        s.peControlWrites, s.texInvalidations, s.generation, s.dirty⟩ ?_ ?_
    · unfold State.storeXFWord
      rw [if_pos hshadow]
      exact hload
    · intro r v hr hword
      cases r with
      | xf a' =>
        have hne : a' ≠ a := fun heq => hr (heq ▸ rfl)
        have hraw : update s.xfRaw a w a' = s.xfRaw a' := update_of_ne hne ..
        have hwritten : update s.xfWritten a true a' = s.xfWritten a' := update_of_ne hne ..
        change (if update s.xfWritten a true a' then some (update s.xfRaw a w a') else none) = _ at hword
        rwa [hraw, hwritten] at hword
      | bp reg => exact hword
      | counts => exact hword
    · intro v hword
      change (if update s.xfWritten a true a then some (update s.xfRaw a w a) else none) = _ at hword
      rw [update_self, update_self, if_pos rfl] at hword
      rw [Option.some.inj hword]
  · have hword : s.storeXFWord a w = s := if_neg hshadow
    rw [xfEffects_of_ge (by omega), hword]
    exact h

theorem coherent_loadXFWords (h : Coherent s) (a : Nat) (words : List (BitVec 32)) :
    Coherent (performAll perform (State.xfLoadEffects a words) (s.storeXFWords a words)) := by
  induction words generalizing s a with
  | nil => exact h
  | cons w words ih =>
    have hrest := ih (coherent_storeXFWord h a w) (a + 1)
    rw [State.xfLoadEffects, performAll_append, State.storeXFWords, State.performAll_storeXFWords]
    exact hrest

theorem coherent_applyXF (h : Coherent s.forget)
    (hlen : address.toNat + words.length < 2 ^ 32) :
    Coherent (s.applyXF address words).forget := by
  rw [s.forget_applyXF hlen]
  exact coherent_loadXFWords h address.toNat words

theorem State.xfUnchanged_words
    (hlen : address.toNat + words.length < 2 ^ 32) (h : s.xfUnchanged address words = true) {i : Nat}
    {w : BitVec 32} (hw : words[i]? = some w) :
    s.xfWritten (address.toNat + i) = true ∧ s.xfRaw (address.toNat + i) = w := by
  unfold xfUnchanged at h
  split at h
  · cases h
  · obtain ⟨hi, rfl⟩ := List.getElem?_eq_some_iff.mp hw
    have hmem : (words[i], i) ∈ words.zipIdx := List.mk_mem_zipIdx_iff_getElem?.mpr hw
    have hone := List.all_eq_true.mp h _ hmem
    have haddress : (address + BitVec.ofNat 32 i).toNat = address.toNat + i := by
      rw [BitVec.toNat_add, BitVec.toNat_ofNat]
      omega
    simpa [haddress] using hone

theorem storeXFWord_same {w : BitVec 32} (hwritten : s.xfWritten a = true)
    (hraw : s.xfRaw a = w) : s.storeXFWord a w = s := by
  unfold State.storeXFWord
  rw [← hraw, ← hwritten, update_eq_self, update_eq_self, ite_self]

theorem storeXFWords_same
    (h : ∀ i w, words[i]? = some w → s.xfWritten (a + i) = true ∧ s.xfRaw (a + i) = w) :
    s.storeXFWords a words = s := by
  induction words generalizing a with
  | nil => rfl
  | cons w words ih =>
    have hfirst : s.xfWritten a = true ∧ s.xfRaw a = w := h 0 w rfl
    rw [State.storeXFWords, storeXFWord_same hfirst.1 hfirst.2]
    refine ih fun i w' hw => ?_
    have ha : a + 1 + i = a + (i + 1) := by omega
    rw [ha]
    exact h (i + 1) w' hw

theorem mem_xfLoadEffects {e : Effect} :
    e ∈ State.xfLoadEffects a words ↔ ∃ i w, words[i]? = some w ∧ e ∈ xfEffects (a + i) w := by
  induction words generalizing a with
  | nil => simp [State.xfLoadEffects]
  | cons w words ih =>
    rw [State.xfLoadEffects, List.mem_append, ih]
    constructor
    · rintro (he | ⟨i, w', hw, he⟩)
      · exact ⟨0, w, rfl, he⟩
      · refine ⟨i + 1, w', hw, ?_⟩
        rwa [Nat.add_right_comm, Nat.add_assoc] at he
    · rintro ⟨i, w', hw, he⟩
      cases i with
      | zero =>
        obtain rfl := Option.some.inj hw
        exact Or.inl he
      | succ i =>
        have ha : a + (i + 1) = a + 1 + i := by omega
        rw [ha] at he
        exact Or.inr ⟨i, w', hw, he⟩

/-! ## loads -/

/-- the words of an XF load of the stream: a 16-bit address, a 16-bit count -/
structure XFLoad where
  address : BitVec 16
  words : List (BitVec 32)
  words_pos : 0 < words.length
  words_le : words.length ≤ 0x10000

inductive Load where
  | bp (value : BitVec 32)
  | xf (load : XFLoad)

namespace Load

def registers : Load → List Register
  | .bp value => [.bp (bits value 8 24)]
  | .xf l => (List.range l.words.length).map fun i => .xf (l.address.toNat + i)

def unchanged (s : State) : Load → Bool
  | .bp value => s.bpUnchanged value
  | .xf l => s.xfUnchanged (l.address.setWidth 32) l.words

def apply (s : State) : Load → State
  | .bp value => s.applyBP value
  | .xf l => s.applyXF (l.address.setWidth 32) l.words

/-- the load, unless it repeats what its registers hold -/
def skip (s : State) (l : Load) : State := if l.unchanged s then s else l.apply s

end Load

theorem XFLoad.bound (l : XFLoad) :
    (l.address.setWidth 32).toNat + l.words.length < 2 ^ 32 := by
  have := l.words_le
  have := l.address.isLt
  rw [BitVec.toNat_setWidth]
  omega

theorem XFLoad.toNat_address (l : XFLoad) : (l.address.setWidth 32).toNat = l.address.toNat := by
  have := l.address.isLt
  rw [BitVec.toNat_setWidth]
  omega

theorem coherent_apply (h : Coherent s.forget) (l : Load) :
    Coherent (l.apply s).forget := by
  cases l with
  | bp value => exact coherent_applyBP h value
  | xf l => exact coherent_applyXF h l.bound

theorem apply_congr {t : State} (h : s.forget = t.forget) (l : Load) :
    (l.apply s).forget = (l.apply t).forget := by
  cases l with
  | bp value =>
    show (s.applyBP value).forget = (t.applyBP value).forget
    rw [← s.applyBP_forget, h, t.applyBP_forget]
  | xf l =>
    show (s.applyXF _ _).forget = (t.applyXF _ _).forget
    rw [← s.applyXF_forget l.bound, h, t.applyXF_forget l.bound]

variable {l : Load}

theorem unchanged_effects (h : l.unchanged s = true) :
    ∃ es, (l.apply s).forget = performAll perform es s.forget ∧
      ∀ e, e ∈ es ↔ ∃ r ∈ l.registers, ∃ v, s.word r = some v ∧ e ∈ r.effects v := by
  cases l with
  | bp value =>
    obtain ⟨heq, hword⟩ := State.forget_applyBP_unchanged h
    refine ⟨_, heq, fun e => ⟨fun he => ⟨_, List.mem_singleton_self _, _, hword, he⟩, ?_⟩⟩
    rintro ⟨r, hr, v, hv, he⟩
    rw [List.mem_singleton.mp hr] at hv he
    rw [hword] at hv
    rwa [Option.some.inj hv]
  | xf l =>
    have hwords {i : Nat} {w : BitVec 32} (hw : l.words[i]? = some w) :
        s.word (.xf (l.address.toNat + i)) = some w := by
      obtain ⟨hwritten, hraw⟩ := State.xfUnchanged_words l.bound h hw
      rw [l.toNat_address] at hwritten hraw
      rw [State.word, if_pos hwritten, hraw]
    refine ⟨State.xfLoadEffects l.address.toNat l.words, ?_, fun e => ?_⟩
    · show (s.applyXF _ _).forget = _
      rw [s.forget_applyXF l.bound, storeXFWords_same, l.toNat_address]
      exact fun i w hw => State.xfUnchanged_words l.bound h hw
    · rw [mem_xfLoadEffects]
      constructor
      · rintro ⟨i, w, hw, he⟩
        have hi := (List.getElem?_eq_some_iff.mp hw).1
        exact ⟨_, List.mem_map_of_mem (List.mem_range.mpr hi), w, hwords hw, he⟩
      · rintro ⟨r, hr, v, hv, he⟩
        obtain ⟨i, hi, rfl⟩ := List.mem_map.mp hr
        have hlt : i < l.words.length := List.mem_range.mp hi
        have hw : l.words[i]? = some l.words[i] := List.getElem?_eq_getElem hlt
        rw [hwords hw] at hv
        obtain rfl := Option.some.inj hv
        exact ⟨i, _, hw, he⟩

/-! ## agreement -/

/-- the counts in the word of a register are the current ones -/
def State.CountsCurrent (s : State) (r : Register) : Prop :=
  ∀ v ∈ s.word r, ∀ c, ∀ n ∈ r.count v c, s.count c = n

/-- a load that is dropped finds the counts of its registers' words in place -/
def Load.Agrees (s : State) (l : Load) : Prop :=
  l.unchanged s = true → ∀ r ∈ l.registers, s.CountsCurrent r

theorem stable_count {c : Count} :
    Stable perform (c.effect n) s ↔ s.count c = n := by
  refine ⟨fun h => ?_, fun h => ?_⟩
  · have hcount : (perform (c.effect n) s).count c = n := by cases c <;> rfl
    rwa [h] at hcount
  · subst h
    cases c <;> rfl

theorem count_forget (s : State) (c : Count) : s.forget.count c = s.count c := by cases c <;> rfl

theorem apply_of_agrees (hs : Coherent s.forget) (hagrees : l.Agrees s)
    (h : l.unchanged s = true) : (l.apply s).forget = s.forget := by
  obtain ⟨es, heq, hes⟩ := unchanged_effects h
  rw [heq]
  refine performAll_of_stable fun e he => ?_
  obtain ⟨r, hr, v, hv, he⟩ := (hes e).mp he
  rcases r.effects_cases he with ⟨howner, hr'⟩ | ⟨c, n, hn, rfl⟩
  · have hword : s.forget.word r = some v := by
      rw [← hv]
      cases r <;> rfl
    exact hs r v hword e he (howner ▸ hr')
  · rw [stable_count, count_forget]
    exact hagrees h r hr v hv c n hn

theorem registers_count {r r' : Register} {v v' : BitVec 32} {c : Count} {n' : Nat}
    (hr : r ∈ l.registers) (hr' : r' ∈ l.registers) (hn : n ∈ r.count v c)
    (hn' : n' ∈ r'.count v' c) : r = r' := by
  cases l with
  | bp value => rw [List.mem_singleton.mp hr, List.mem_singleton.mp hr']
  | xf l =>
    obtain ⟨i, _, rfl⟩ := List.mem_map.mp hr
    obtain ⟨i', _, rfl⟩ := List.mem_map.mp hr'
    rw [(Register.count_register hn).resolve_left (by simp),
      (Register.count_register hn').resolve_left (by simp)]

theorem count_unique {r r' : Register} {v v' : BitVec 32} {c : Count}
    {e : Effect} (hr : r ∈ l.registers) (hv : s.word r = some v)
    (hn : n ∈ r.count v c) (hr' : r' ∈ l.registers) (hv' : s.word r' = some v')
    (he : e ∈ r'.effects v') (hslot : slot e = slot (c.effect n)) : e = c.effect n := by
  rcases r'.effects_cases he with ⟨howner, hne⟩ | ⟨c', n', hn', rfl⟩
  · have hcounts : owner (slot (c.effect n)) = .counts := by cases c <;> rfl
    rw [hslot, hcounts] at howner
    exact absurd howner.symm hne
  · have hc : c' = c := by
      cases c <;> cases c' <;> first | rfl | cases hslot
    subst hc
    obtain rfl := registers_count hr hr' hn hn'
    rw [hv] at hv'
    obtain rfl := Option.some.inj hv'
    rw [Option.mem_unique hn hn']

theorem agrees_of_apply
    (h : l.unchanged s = true → ∀ c, (l.apply s).count c = s.count c) : l.Agrees s := by
  intro hdropped r hr v hv c n hn
  obtain ⟨es, heq, hes⟩ := unchanged_effects hdropped
  have hmem : c.effect n ∈ es := (hes _).mpr ⟨r, hr, v, hv, r.count_effects hn⟩
  have hstable := effects.stable_performAll hmem (fun e' he' hslot => by
    obtain ⟨r', hr', v', hv', he'⟩ := (hes e').mp he'
    exact count_unique hr hv hn hr' hv' he' hslot) s.forget
  rw [← heq, stable_count, count_forget] at hstable
  rw [← h hdropped c]
  exact hstable

end DolTranslator.Gx
