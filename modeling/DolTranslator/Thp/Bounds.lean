import DolTranslator.Thp.HuffmanLaw

/-!
# What the decoder reads

* `length_Byte`, `Ready`   what is kept from header to header, and from block to block;
* `MarkerFits`, `SizeFits`   what a marker and the first code of a block have to be;
* `decided_headers`, `decodeBlocks_decided`   the two halves of a run;
* `decided_run`, `run_safe_iff`   a run ends, and all its accesses and shifts are within bounds just when every
  marker, every table and every size that it comes to fits.
-/

namespace DolTranslator.Thp

open Streams

/-! ## what is left gets no longer -/

theorem length_Byte (p : List UInt8) : (Byte p).2.length ≤ p.length := by
  cases p with
  | nil => exact Nat.le_refl _
  | cons b p => exact Nat.le_succ _

theorem length_Word (p : List UInt8) : (Word p).2.length ≤ p.length :=
  (length_Byte _).trans (length_Byte _)

/-- what a decoder has at any time: few bits, and tables whose entries are of short codes -/
structure Ready (d : Decoder) : Prop where
  count : d.bitCount < 32
  lookup : ∀ slot bits, (d.huff slot).lookup bits / 256 ≤ kLookupBits

theorem ready_start (data : List UInt8) : Ready (Decoder.start data) :=
  ⟨Nat.zero_lt_succ 31, fun _ _ => (Nat.zero_div 256).trans_le (Nat.zero_le _)⟩

/-- a later state of the headers: the same bits, and tables as good -/
structure Later (d d' : Decoder) : Prop where
  length : d'.p.length ≤ d.p.length
  ready : Ready d → Ready d'

theorem Later.refl (d : Decoder) : Later d d := ⟨Nat.le_refl _, id⟩

theorem Later.trans {d d' d'' : Decoder} (h : Later d d') (h' : Later d' d'') : Later d d'' :=
  ⟨h'.length.trans h.length, fun hd => h'.ready (h.ready hd)⟩

/-! ## quantisation tables -/

theorem naturalOrder_lt {i : Nat} (h : i < 64) : kNaturalOrder.getD i 0 < 64 := by
  revert i
  decide

theorem readNatural_ok {is : List Nat} (his : ∀ i ∈ is, i < 64) (p : List UInt8)
    (natural : Nat → UInt8) :
    ∃ p' natural', readNatural is p natural = .ok (p', natural') ∧ p'.length ≤ p.length := by
  induction is generalizing p natural with
  | nil => exact ⟨p, natural, rfl, Nat.le_refl _⟩
  | cons i is ih =>
    have hi := his i List.mem_cons_self
    have hlength : kNaturalOrder.length = 64 := rfl
    obtain ⟨p', natural', hread, hle⟩ := ih (fun j hj => his j (List.mem_cons_of_mem _ hj)) (Byte p).2
      (Function.update natural (kNaturalOrder.getD i 0) (Byte p).1)
    refine ⟨p', natural', ?_, hle.trans (length_Byte p)⟩
    unfold readNatural
    rw [within_of_le (by omega), within_of_le (naturalOrder_lt hi), ok_bind, ok_bind]
    exact hread

theorem quantLoop_ok {fuel : Nat} (length : Int) {p : List UInt8} (hfuel : p.length < fuel)
    (quant : Nat → Nat → UInt8) :
    ∃ p' quant', quantLoop fuel length p quant = .ok (p', quant') ∧ p'.length ≤ p.length := by
  induction fuel generalizing length p quant with
  | zero => omega
  | succ fuel ih =>
    unfold quantLoop
    split
    · next hmore =>
      obtain ⟨id, rest, rfl⟩ := List.exists_cons_of_ne_nil hmore.2
      obtain ⟨p', natural, hread, hle⟩ := readNatural_ok
        (fun i hi => List.mem_range.mp hi : ∀ i ∈ List.range 64, i < 64) rest fun _ => 0
      have hshort : p'.length < fuel := by
        rw [List.length_cons] at hfuel
        omega
      obtain ⟨p'', quant'', hloop, hle'⟩ := ih (length - 65) hshort
        (Function.update quant (id.toNat % 4) natural)
      refine ⟨p'', quant'', ?_, ?_⟩
      · show (readNatural (List.range 64) rest _ >>= fun r =>
          quantLoop fuel (length - 65) r.1 (Function.update quant (id.toNat % 4) r.2)) = _
        rw [hread, ok_bind]
        exact hloop
      · rw [List.length_cons]
        omega
    · exact ⟨p, quant, rfl, Nat.le_refl _⟩

theorem ReadQuantTables_ok (d : Decoder) : ∃ d', ReadQuantTables d = .ok d' ∧ Later d d' := by
  obtain ⟨p', quant', hloop, hle⟩ := quantLoop_ok ((Word d.p).1.toNat - 2)
    (Nat.lt_succ_self (Word d.p).2.length) d.quant
  refine ⟨{ d with p := p', quant := quant' }, ?_, hle.trans (length_Word _), fun h => ⟨h.1, h.2⟩⟩
  unfold ReadQuantTables
  dsimp only
  rw [hloop]
  rfl

/-! ## Huffman tables -/

theorem lookup_length {table : HuffmanTable} {e : Definition} (h : Built table e) (bits : Nat) :
    applyWrites (lookupWrites table) (fun _ => 0) bits / 256 ≤ kLookupBits := by
  have hbits : kLookupBits = 9 := rfl
  by_cases hmem : bits ∈ footprint (lookupWrites table)
  · obtain ⟨write, hwrite, -, hvalue⟩ := applyWrites_mem hmem (m := fun _ => 0)
    obtain ⟨len, j, fill, hlen, hle, -, -, -, rfl⟩ := (mem_lookupWrites h).mp hwrite
    have hval : (table.vals (Lz.firstIndex e.counts len + j)).toNat < 256 := UInt8.toNat_lt _
    rw [hvalue]
    show (len * 256 + _) / 256 ≤ _
    omega
  · rw [applyWrites_of_not_mem hmem]
    exact Nat.zero_le _

theorem defineTable_decided (table : HuffmanTable) (e : Definition) :
    Decided (defineTable table e) e.LookupFits := by
  rw [defineTable_eq]
  unfold fillLookup
  refine ⟨fun h => ?_, fun h => ?_⟩
  · rw [if_pos ((writes_lt_iff (built_assigned table e)).mpr h)]
    exact ⟨_, rfl⟩
  · exact if_neg fun hlt => h ((writes_lt_iff (built_assigned table e)).mp hlt)

theorem lookup_defineTable {table table' : HuffmanTable} {e : Definition}
    (h : defineTable table e = .ok table') (bits : Nat) : table'.lookup bits / 256 ≤ kLookupBits := by
  rw [defineTable_eq] at h
  unfold fillLookup at h
  split at h
  · cases h
    exact lookup_length (built_assigned table e) bits
  · cases h

theorem huffmanLoop_decided {fuel : Nat} (length : Int) {p : List UInt8} (hfuel : p.length < fuel)
    (huff : Nat → HuffmanTable) :
    Decided (huffmanLoop fuel length p huff)
        (∀ e ∈ segmentLoop fuel length p, e.LookupFits) ∧
      ∀ p' huff', huffmanLoop fuel length p huff = .ok (p', huff') → p'.length ≤ p.length ∧
        ((∀ slot bits, (huff slot).lookup bits / 256 ≤ kLookupBits) →
          ∀ slot bits, (huff' slot).lookup bits / 256 ≤ kLookupBits) := by
  induction fuel generalizing length p huff with
  | zero => omega
  | succ fuel ih =>
    unfold huffmanLoop segmentLoop
    split
    · next hmore =>
      have hshorter := length_readDefinition hmore.2
      obtain ⟨first, p₀, hread⟩ : ∃ first p₀, readDefinition p = (first, p₀) := ⟨_, _, rfl⟩
      rw [hread] at hshorter ⊢
      dsimp only at hshorter ⊢
      have hrest (table : HuffmanTable) := ih (length - (17 + first.total))
        (by omega : p₀.length < fuel) (Function.update huff first.slot table)
      constructor
      · refine ((defineTable_decided (huff first.slot) first).bind fun table _ =>
          (hrest table).1).congr ?_
        rw [List.forall_mem_cons]
        refine ⟨fun h => ⟨h.1, ?_⟩, fun h => ⟨h.1, fun _ _ => h.2⟩⟩
        obtain ⟨table, htable⟩ := (defineTable_decided (huff first.slot) first).1 h.1
        exact h.2 table htable
      · intro p' huff' h
        obtain ⟨table, htable, hloop⟩ := bind_ok h
        obtain ⟨hle, hlookup⟩ := (hrest table).2 p' huff' hloop
        refine ⟨by omega, fun hhuff => hlookup fun slot bits => ?_⟩
        by_cases hslot : slot = first.slot
        · rw [hslot, Function.update_self]
          exact lookup_defineTable htable bits
        · rw [Function.update_of_ne hslot]
          exact hhuff slot bits
    · constructor
      · exact (Decided.of_ok rfl).congr ⟨fun _ e he => (by cases he), fun _ => trivial⟩
      · intro p' huff' h
        cases h
        exact ⟨Nat.le_refl _, id⟩

theorem ReadHuffmanTables_decided (d : Decoder) :
    Decided (ReadHuffmanTables d) (∀ e ∈ segment d.p, e.LookupFits) ∧
      ∀ d', ReadHuffmanTables d = .ok d' → Later d d' := by
  obtain ⟨hdecided, hlater⟩ := huffmanLoop_decided ((Word d.p).1.toNat - 2)
    (Nat.lt_succ_self (Word d.p).2.length) d.huff
  constructor
  · exact hdecided.bind_ok fun r _ => ⟨_, rfl⟩
  · intro d' h
    obtain ⟨⟨p', huff'⟩, hloop, h⟩ := bind_ok h
    obtain ⟨hle, hlookup⟩ := hlater p' huff' hloop
    cases h
    exact ⟨hle.trans (length_Word _), fun hd => ⟨hd.count, hlookup hd.lookup⟩⟩

/-! ## headers -/

theorem readComponents_later (is : List Nat) (d : Decoder) : Later d (readComponents is d).2 := by
  induction is generalizing d with
  | nil => exact Later.refl d
  | cons i is ih =>
    have hle := (length_Byte (Byte d.p).2).trans (length_Byte d.p)
    unfold readComponents
    dsimp only
    split
    · exact ⟨hle, fun h => ⟨h.1, h.2⟩⟩
    · refine Later.trans ?_ (ih _)
      exact ⟨(length_Byte _).trans hle, fun h => ⟨h.1, h.2⟩⟩

theorem ReadFrameHeader_later (d : Decoder) : Later d (ReadFrameHeader d).2 := by
  have hprecision := (length_Byte (Word d.p).2).trans (length_Word d.p)
  unfold ReadFrameHeader
  dsimp only
  split
  · exact ⟨hprecision, fun h => ⟨h.1, h.2⟩⟩
  · have hcomponents := ((length_Byte _).trans (length_Word _)).trans
      ((length_Word (Byte (Word d.p).2).2).trans hprecision)
    split
    · exact ⟨hcomponents, fun h => ⟨h.1, h.2⟩⟩
    · refine Later.trans ?_ (readComponents_later _ _)
      exact ⟨hcomponents, fun h => ⟨h.1, h.2⟩⟩

theorem readSelectors_later (is : List Nat) (d : Decoder) : Later d (readSelectors is d).2 := by
  induction is generalizing d with
  | nil => exact ⟨length_takeBytes _ _, fun h => ⟨h.1, h.2⟩⟩
  | cons i is ih =>
    have hle := (length_Byte (Byte d.p).2).trans (length_Byte d.p)
    unfold readSelectors
    dsimp only
    split
    · exact ⟨hle, fun h => ⟨h.1, h.2⟩⟩
    · refine Later.trans ?_ (ih _)
      exact ⟨hle, fun h => ⟨h.1, h.2⟩⟩

theorem ReadScanHeader_later (d : Decoder) : Later d (ReadScanHeader d).2 := by
  have hle := (length_Byte (Word d.p).2).trans (length_Word d.p)
  unfold ReadScanHeader
  dsimp only
  split
  · exact ⟨hle, fun h => ⟨h.1, h.2⟩⟩
  · refine Later.trans ?_ (readSelectors_later _ _)
    exact ⟨hle, fun h => ⟨h.1, h.2⟩⟩

/-- the tables of a segment do not run over their lookup, and the size of what is skipped is there -/
def MarkerFits (marker : UInt8) (d : Decoder) : Prop :=
  (marker = 0xC4 → ∀ e ∈ segment d.p, e.LookupFits) ∧ (skipped marker = true → 2 ≤ d.p.length)

theorem markerFits_of_ne {marker : UInt8} {d : Decoder} (h : marker ≠ 0xC4)
    (hskipped : skipped marker = false) : MarkerFits marker d ↔ True :=
  ⟨fun _ => trivial, fun _ => ⟨fun heq => absurd heq h, fun hs => by rw [hskipped] at hs; cases hs⟩⟩

theorem readMarker_decided (marker : UInt8) (d : Decoder) :
    Decided (readMarker marker d) (MarkerFits marker d) ∧
      ∀ answer d', readMarker marker d = .ok (answer, d') → Later d d' := by
  unfold readMarker
  split
  · next hmarker =>
    obtain ⟨hdecided, hlater⟩ := ReadHuffmanTables_decided d
    constructor
    · refine (hdecided.bind_ok fun _ _ => ⟨_, rfl⟩).congr ⟨fun h => ⟨fun _ => h, fun hs => ?_⟩,
        fun h => h.1 hmarker⟩
      rw [hmarker] at hs
      exact absurd hs (by decide)
    · intro answer d' h
      obtain ⟨d₁, hd₁, h⟩ := bind_ok h
      cases h
      exact hlater _ hd₁
  · next hne =>
    split
    · next hmarker =>
      subst hmarker
      refine ⟨(Decided.of_ok rfl).congr (markerFits_of_ne hne (by decide)).symm, fun answer d' h => ?_⟩
      cases h
      exact ReadFrameHeader_later d
    · split
      · next hmarker =>
        subst hmarker
        obtain ⟨d₁, hd₁, hlater⟩ := ReadQuantTables_ok d
        rw [hd₁, ok_bind]
        refine ⟨(Decided.of_ok rfl).congr (markerFits_of_ne hne (by decide)).symm,
          fun answer d' h => ?_⟩
        cases h
        exact hlater
      · split
        · next hmarker =>
          subst hmarker
          refine ⟨(Decided.of_ok rfl).congr (markerFits_of_ne hne (by decide)).symm,
            fun answer d' h => ?_⟩
          cases h
          exact ⟨(length_Word _).trans (length_Word _), fun hd => ⟨hd.1, hd.2⟩⟩
        · split
          · next hmarker =>
            subst hmarker
            refine ⟨(Decided.of_ok rfl).congr (markerFits_of_ne hne (by decide)).symm,
              fun answer d' h => ?_⟩
            cases h
            exact Later.refl d
          · split
            · next hmarker =>
              subst hmarker
              refine ⟨(Decided.of_ok rfl).congr (markerFits_of_ne hne (by decide)).symm,
                fun answer d' h => ?_⟩
              cases h
              exact ReadScanHeader_later d
            · split
              · next hskipped =>
                constructor
                · refine ((Decided.within_iff (by decide)).bind_ok fun _ _ => ⟨_, rfl⟩).congr ?_
                  rw [Nat.zero_add]
                  exact ⟨fun h => ⟨fun heq => absurd heq hne, fun _ => h⟩, fun h => h.2 hskipped⟩
                · intro answer d' h
                  obtain ⟨-, -, h⟩ := bind_ok h
                  cases h
                  refine ⟨?_, fun hd => ⟨hd.1, hd.2⟩⟩
                  show (d.p.drop _).length ≤ _
                  rw [List.length_drop]
                  exact Nat.sub_le _ _
              · next hother =>
                refine ⟨(Decided.of_ok rfl).congr
                  (markerFits_of_ne hne (eq_false_of_ne_true hother)).symm, fun answer d' h => ?_⟩
                cases h
                exact Later.refl d

def nextMarker (d : Decoder) : Option (UInt8 × Decoder) :=
  match d.p with
  | [] => none
  | first :: p =>
    if first ≠ 0xFF then none
    else some ((Byte (p.dropWhile (· = 0xFF))).1, { d with p := (Byte (p.dropWhile (· = 0xFF))).2 })

/-- every marker that the headers come to fits -/
def HeadersFit : Nat → Decoder → Prop
  | 0, _ => True
  | fuel + 1, d => ∀ marker d₁, nextMarker d = some (marker, d₁) →
    MarkerFits marker d₁ ∧ ∀ d₂, readMarker marker d₁ = .ok (none, d₂) → HeadersFit fuel d₂

theorem decided_headers {fuel : Nat} {d : Decoder} (hfuel : d.p.length < fuel) :
    Decided (parseLoop fuel d) (HeadersFit fuel d) ∧
      ∀ status d', parseLoop fuel d = .ok (status, d') → Later d d' := by
  induction fuel generalizing d with
  | zero => omega
  | succ fuel ih =>
    have hnone (hnext : nextMarker d = none) : HeadersFit (fuel + 1) d ↔ True :=
      ⟨fun _ => trivial, fun _ marker d₁ h => by rw [hnext] at h; cases h⟩
    unfold parseLoop
    split
    · next hp =>
      have hnext : nextMarker d = none := by
        unfold nextMarker
        rw [hp]
      refine ⟨(Decided.of_ok rfl).congr (hnone hnext).symm, fun status d' h => ?_⟩
      cases h
      exact Later.refl d
    · next first p hp =>
      split
      · next hfirst =>
        have hnext : nextMarker d = none := by
          unfold nextMarker
          rw [hp]
          exact if_pos hfirst
        refine ⟨(Decided.of_ok rfl).congr (hnone hnext).symm, fun status d' h => ?_⟩
        cases h
        refine ⟨?_, fun hd => ⟨hd.1, hd.2⟩⟩
        rw [hp]
        exact Nat.le_succ _
      · next hfirst =>
        obtain ⟨marker, p₁, hbyte⟩ : ∃ marker p₁, Byte (p.dropWhile (· = 0xFF)) = (marker, p₁) :=
          ⟨_, _, rfl⟩
        have hp₁ : p₁.length ≤ p.length := by
          have hle := length_Byte (p.dropWhile (· = 0xFF))
          rw [hbyte] at hle
          exact hle.trans (List.dropWhile_sublist _).length_le
        have hnext : nextMarker d = some (marker, { d with p := p₁ }) := by
          unfold nextMarker
          rw [hp]
          dsimp only
          rw [if_neg hfirst, hbyte]
        have hlength : d.p.length = p.length + 1 := congrArg List.length hp
        have hstart : Later d { d with p := p₁ } :=
          ⟨by show p₁.length ≤ _; omega, fun hd => ⟨hd.1, hd.2⟩⟩
        obtain ⟨hdecided, hlater⟩ := readMarker_decided marker { d with p := p₁ }
        have hafter {answer : Option Nat} {d₂ : Decoder}
            (h : readMarker marker { d with p := p₁ } = .ok (answer, d₂)) : d₂.p.length < fuel := by
          have hle : d₂.p.length ≤ p₁.length := (hlater _ _ h).length
          omega
        rw [hbyte]
        dsimp only
        constructor
        · refine (hdecided.bind (q := fun r => r.1 = none → HeadersFit fuel r.2)
            fun r hr => ?_).congr ?_
          · obtain ⟨answer, d₂⟩ := r
            cases answer with
            | some status =>
              refine (Decided.of_ok rfl).congr ⟨fun _ h => ?_, fun _ => trivial⟩
              cases h
            | none => exact (ih (hafter hr)).1.congr ⟨fun h _ => h, fun h => h rfl⟩
          · constructor
            · rintro ⟨hfits, hrest⟩ marker' d₁ heq
              rw [hnext] at heq
              cases heq
              exact ⟨hfits, fun d₂ h => hrest _ h rfl⟩
            · intro h
              obtain ⟨hfits, hrest⟩ := h marker _ hnext
              refine ⟨hfits, fun r hr hnone => hrest r.2 ?_⟩
              rw [hr, ← hnone]
        · intro status d' h
          obtain ⟨⟨answer, d₂⟩, hmarker, h⟩ := bind_ok h
          have hd₂ := hstart.trans (hlater _ _ hmarker)
          cases answer with
          | some status' =>
            cases h
            exact hd₂
          | none => exact hd₂.trans ((ih (hafter hmarker)).2 _ _ h)

/-! ## bits -/

namespace Reader

variable {r : Reader}

theorem Peek_ok (bits : Nat) (hbits : bits < 32) (hlt : r.bitCount - bits < 32) :
    ∃ value < 2 ^ bits, r.Peek bits = .ok value := by
  refine ⟨r.bitBuffer / 2 ^ (r.bitCount - bits) % 2 ^ bits, Nat.mod_lt _ (Nat.two_pow_pos bits), ?_⟩
  unfold Peek
  rw [within_of_le (by omega), within_of_le (by omega)]
  rfl

theorem Bits_decided (n : Nat) (hcount : r.bitCount < 32) :
    Decided (r.Bits n) (n < 32) ∧
      ∀ value r', r.Bits n = .ok (value, r') → r'.bitCount < 32 := by
  unfold Bits
  split
  · next hzero =>
    refine ⟨(Decided.of_ok rfl).congr ⟨fun _ => by omega, fun _ => trivial⟩, fun value r' h => ?_⟩
    cases h
    exact hcount
  · obtain ⟨hfill, hmax⟩ := bitCount_Fill n r
    dsimp only
    by_cases hn : n < 32
    · obtain ⟨value, -, hpeek⟩ := @Peek_ok (r.Fill n) n hn (by omega)
      rw [hpeek, ok_bind, drop_eq hfill, ok_bind]
      refine ⟨(Decided.of_ok rfl).congr ⟨fun _ => hn, fun _ => trivial⟩, fun value' r' h => ?_⟩
      cases h
      show (r.Fill n).bitCount - n < 32
      omega
    · have hpeek : (r.Fill n).Peek n = .error .outside := by
        unfold Peek
        rw [within_of_lt (by decide) (by omega)]
        rfl
      rw [hpeek, error_bind]
      refine ⟨⟨fun h => absurd h hn, fun _ => rfl⟩, fun value r' h => (by cases h)⟩

end Reader

theorem Extend_ok (value : Nat) {bits : Nat} (h : bits < 32) : ∃ i, Extend value bits = .ok i := by
  unfold Extend
  rw [within_of_le (by omega), within_of_le (by omega)]
  exact ⟨_, rfl⟩

theorem walkLengths_bounds {table : HuffmanTable} {window n start len : Nat}
    (h : walkLengths table window n start = some len) : start ≤ len ∧ len < start + n := by
  induction n generalizing start with
  | zero => cases h
  | succ n ih =>
    unfold walkLengths at h
    split at h
    · cases h
      exact ⟨Nat.le_refl _, by omega⟩
    · have hrest := ih h
      omega

theorem valueAt_ok (table : HuffmanTable) (window len : Nat) :
    ∃ value, valueAt table window len = .ok value := by
  unfold valueAt
  dsimp only
  split
  · rw [within_of_le (by omega)]
    exact ⟨_, rfl⟩
  · exact ⟨0, rfl⟩

/-- **A code is decoded within bounds**, whatever the bits are. -/
theorem DecodeHuffman_ok {table : HuffmanTable} (hlookup : ∀ bits, table.lookup bits / 256 ≤ kLookupBits)
    {r : Reader} (hcount : r.bitCount < 32) :
    ∃ value r', DecodeHuffman table r = .ok (value, r') ∧ r'.bitCount < 32 := by
  have hnine : kLookupBits = 9 := rfl
  obtain ⟨hfill, hmax⟩ := Reader.bitCount_Fill kLookupBits r
  obtain ⟨bits, hbits, hpeek⟩ := @Reader.Peek_ok (r.Fill kLookupBits) kLookupBits
    (by decide) (by omega)
  have hentry := hlookup bits
  unfold DecodeHuffman
  dsimp only
  rw [hpeek, ok_bind, within_of_le (Nat.succ_le_of_lt hbits), ok_bind]
  split
  · rw [Reader.drop_eq (by omega), ok_bind]
    refine ⟨_, _, rfl, ?_⟩
    show (r.Fill kLookupBits).bitCount - _ < 32
    omega
  · obtain ⟨hfill', hmax'⟩ := Reader.bitCount_Fill 16 (r.Fill kLookupBits)
    obtain ⟨window, -, hpeek'⟩ := @Reader.Peek_ok ((r.Fill kLookupBits).Fill 16) 16
      (by decide) (by omega)
    have hdropped (n : Nat) : (((r.Fill kLookupBits).Fill 16).dropped n).bitCount < 32 := by
      show ((r.Fill kLookupBits).Fill 16).bitCount - n < 32
      omega
    rw [hpeek', ok_bind]
    split
    · rw [Reader.drop_eq hfill', ok_bind]
      exact ⟨_, _, rfl, hdropped 16⟩
    · next len hwalk =>
      obtain ⟨hlen, hlt⟩ := walkLengths_bounds hwalk
      obtain ⟨value, hvalue⟩ := valueAt_ok table window len
      rw [Reader.drop_eq (by omega), ok_bind, hvalue, ok_bind]
      exact ⟨_, _, rfl, hdropped len⟩

/-! ## blocks -/

theorem acLoop_ok {table : HuffmanTable} (hlookup : ∀ bits, table.lookup bits / 256 ≤ kLookupBits)
    {fuel k : Nat} (hpos : 0 < fuel) (hfuel : 64 < k + fuel) (out : Nat → Int) (anyAc : Bool) {r : Reader}
    (hcount : r.bitCount < 32) :
    ∃ answer, acLoop table fuel k out anyAc r = .ok answer ∧ answer.2.2.bitCount < 32 := by
  induction fuel generalizing k out anyAc r with
  | zero => omega
  | succ fuel ih =>
    unfold acLoop
    split
    · exact ⟨_, rfl, hcount⟩
    · next hk =>
      obtain ⟨rs, r₁, hdecode, hcount₁⟩ := DecodeHuffman_ok hlookup hcount
      rw [hdecode, ok_bind]
      dsimp only
      split
      · split
        · exact ⟨_, rfl, hcount₁⟩
        · exact ih (by omega) (by omega) out anyAc hcount₁
      · split
        · exact ⟨_, rfl, hcount₁⟩
        · next hplace =>
          have hlength : kNaturalOrder.length = 64 := rfl
          have hsize : rs % 16 < 32 := by omega
          obtain ⟨hbits, hafter⟩ := Reader.Bits_decided (rs % 16) hcount₁
          obtain ⟨⟨value, r₂⟩, hvalue⟩ := hbits.1 hsize
          obtain ⟨coefficient, hextend⟩ := Extend_ok value hsize
          rw [within_of_le (by omega), ok_bind, within_of_le (naturalOrder_lt (by omega)), ok_bind,
            hvalue, ok_bind]
          dsimp only
          rw [hextend, ok_bind]
          exact ih (by omega) (by omega) _ true (hafter _ _ hvalue)

/-- the first code of a block stands for a number of bits below 32 -/
def SizeFits (d : Decoder) (c : Nat) : Prop :=
  ∀ size r, DecodeHuffman (d.huff ((d.comp c).dcTable * 2)) d.toReader = .ok (size, r) → size < 32

theorem decodeDifference_decided (size : Nat) {r : Reader} (hcount : r.bitCount < 32) :
    Decided (decodeDifference size r) (size < 32) ∧
      ∀ diff r', decodeDifference size r = .ok (diff, r') → r'.bitCount < 32 := by
  unfold decodeDifference
  obtain ⟨hbits, hafter⟩ := Reader.Bits_decided size hcount
  split
  · constructor
    · refine (hbits.bind (q := fun _ => True) fun answer hanswer => ?_).congr
        ⟨fun h => h.1, fun h => ⟨h, fun _ _ => trivial⟩⟩
      have hsize : size < 32 := by
        by_contra hnot
        rw [hbits.2 hnot] at hanswer
        cases hanswer
      obtain ⟨diff, hextend⟩ := Extend_ok answer.1 hsize
      show Decided (Extend answer.1 size >>= fun diff => .ok (diff, answer.2)) True
      rw [hextend]
      exact Decided.of_ok rfl
    · intro diff r' h
      obtain ⟨⟨value, r₁⟩, hvalue, h⟩ := bind_ok h
      obtain ⟨diff', -, h⟩ := bind_ok h
      cases h
      exact hafter _ _ hvalue
  · next hzero =>
    refine ⟨(Decided.of_ok rfl).congr ⟨fun _ => by omega, fun _ => trivial⟩, fun diff r' h => ?_⟩
    cases h
    exact hcount

theorem DecodeBlock_decided {d : Decoder} (hd : Ready d) (c : Nat) :
    Decided (DecodeBlock d c) (SizeFits d c) ∧
      ∀ answer, DecodeBlock d c = .ok answer → Ready answer.2.2 := by
  obtain ⟨size, r, hdecode, hcount⟩ := DecodeHuffman_ok (hd.lookup ((d.comp c).dcTable * 2)) hd.count
  obtain ⟨hdifference, hafter⟩ := decodeDifference_decided size hcount
  have hfits : SizeFits d c ↔ size < 32 := by
    refine ⟨fun h => h size r hdecode, fun h size' r' hdecode' => ?_⟩
    rw [hdecode] at hdecode'
    cases hdecode'
    exact h
  have hac {r' : Reader} (hr' : r'.bitCount < 32) (out : Nat → Int) :=
    acLoop_ok (hd.lookup ((d.comp c).acTable * 2 + 1)) (by decide : 0 < 64)
      (by decide : 64 < 1 + 64) out false hr'
  unfold DecodeBlock
  dsimp only
  rw [hdecode, ok_bind]
  dsimp only
  constructor
  · refine (hdifference.bind_ok fun answer hanswer => ?_).congr hfits.symm
    obtain ⟨diff, r'⟩ := answer
    obtain ⟨answer, hloop, -⟩ := hac (hafter _ _ hanswer)
      (Function.update (fun _ => 0) 0 ((d.comp c).predDC + diff))
    dsimp only
    rw [hloop, ok_bind]
    exact ⟨_, rfl⟩
  · intro answer h
    obtain ⟨⟨diff, r'⟩, hdiff, h⟩ := bind_ok h
    obtain ⟨answer', hloop, hcount'⟩ := hac (hafter _ _ hdiff)
      (Function.update (fun _ => 0) 0 ((d.comp c).predDC + diff))
    dsimp only at h
    rw [hloop, ok_bind] at h
    cases h
    exact ⟨hcount', hd.lookup⟩

/-- every block that comes fits -/
def BlocksFit : List (Nat × Nat × Nat) → Decoder → Prop
  | [], _ => True
  | (c, _, _) :: rest, d =>
    SizeFits d c ∧ ∀ answer, DecodeBlock d c = .ok answer → BlocksFit rest answer.2.2

theorem decodeBlocks_decided {places : List (Nat × Nat × Nat)} {d : Decoder} (hd : Ready d) :
    Decided (decodeBlocks places d) (BlocksFit places d) ∧
      ∀ blocks d', decodeBlocks places d = .ok (blocks, d') → Ready d' := by
  induction places generalizing d with
  | nil =>
    refine ⟨Decided.of_ok rfl, fun blocks d' h => ?_⟩
    cases h
    exact hd
  | cons place places ih =>
    obtain ⟨c, x, y⟩ := place
    obtain ⟨hblock, hready⟩ := DecodeBlock_decided hd c
    constructor
    · exact hblock.bind fun answer hanswer =>
        (ih (hready answer hanswer)).1.bind_ok fun _ _ => ⟨_, rfl⟩
    · intro blocks d' h
      obtain ⟨answer, hanswer, h⟩ := bind_ok h
      obtain ⟨⟨rest, d₂⟩, hrest, h⟩ := bind_ok h
      cases h
      exact (ih (hready answer hanswer)).2 _ _ hrest

def afterMcu (untilRestart : Nat) (d : Decoder) : Nat × Decoder :=
  if d.restartInterval ≠ 0 then
    if untilRestart - 1 = 0 then (d.restartInterval.toNat, restart d) else (untilRestart - 1, d)
  else (untilRestart, d)

theorem ready_afterMcu {d : Decoder} (untilRestart : Nat) (hd : Ready d) :
    Ready (afterMcu untilRestart d).2 := by
  unfold afterMcu
  split
  · split
    · exact ⟨(Nat.sub_le _ _).trans_lt hd.count, hd.lookup⟩
    · exact hd
  · exact hd

/-- every block of the MCUs that come fits -/
def McusFit : List (Nat × Nat) → Nat → Decoder → Prop
  | [], _, _ => True
  | (x, y) :: rest, untilRestart, d =>
    BlocksFit (mcuBlocks x y) d ∧ ∀ answer, decodeBlocks (mcuBlocks x y) d = .ok answer →
      McusFit rest (afterMcu untilRestart answer.2).1 (afterMcu untilRestart answer.2).2

theorem decodeMcus_decided {places : List (Nat × Nat)} {untilRestart : Nat} {d : Decoder}
    (hd : Ready d) : Decided (decodeMcus places untilRestart d) (McusFit places untilRestart d) := by
  induction places generalizing untilRestart d with
  | nil => exact Decided.of_ok rfl
  | cons place places ih =>
    obtain ⟨x, y⟩ := place
    obtain ⟨hblocks, hready⟩ := @decodeBlocks_decided (mcuBlocks x y) d hd
    refine hblocks.bind fun answer hanswer => ?_
    obtain ⟨blocks, d'⟩ := answer
    exact (ih (ready_afterMcu untilRestart (hready _ _ hanswer))).bind_ok fun _ _ => ⟨_, rfl⟩

/-! ## a whole run -/

def run (data : List UInt8) : Checked Unit := do
  let (status, d) ← ParseHeaders data
  if status = kThpOk then do
    let _ ← Decode d
    .ok ()
  else .ok ()

/-- every marker that the headers come to fits, and every block of the scan -/
def InputFits (data : List UInt8) : Prop :=
  HeadersFit (data.length + 1) (Decoder.start data) ∧ ∀ d, ParseHeaders data = .ok (kThpOk, d) →
    McusFit (mcuPlaces d.width d.height) d.restartInterval.toNat d

theorem decided_run (data : List UInt8) : Decided (run data) (InputFits data) := by
  obtain ⟨hheaders, hlater⟩ := @decided_headers (data.length + 1) (Decoder.start data)
    (Nat.lt_succ_self _)
  refine (hheaders.bind (q := fun answer => answer.1 = kThpOk →
    McusFit (mcuPlaces answer.2.width answer.2.height) answer.2.restartInterval.toNat answer.2)
    fun answer hanswer => ?_).congr ⟨fun h => ⟨h.1, fun d hd => h.2 _ hd rfl⟩,
      fun h => ⟨h.1, fun answer hanswer hstatus => ?_⟩⟩
  · obtain ⟨status, d⟩ := answer
    have hready : Ready d := (hlater _ _ hanswer).ready (ready_start data)
    dsimp only
    split
    · next hstatus =>
      exact ((decodeMcus_decided hready).bind_ok fun _ _ => ⟨_, rfl⟩).congr
        ⟨fun h _ => h, fun h => h hstatus⟩
    · next hstatus =>
      exact (Decided.of_ok rfl).congr ⟨fun _ h => absurd h hstatus, fun _ => trivial⟩
  · obtain ⟨status, d⟩ := answer
    obtain rfl : status = kThpOk := hstatus
    exact h.2 d hanswer

/-- **The decoder stays in bounds** just when every marker, every table and every size fits; and
it ends on any bytes. -/
theorem run_safe_iff (data : List UInt8) : Finishes (run data) ∧ (Safe (run data) ↔ InputFits data) :=
  ⟨(decided_run data).finishes, (decided_run data).safe_iff⟩

/-- a frame with tables of one code each; what the code of the first coefficients stands for -/
def frame (size height width : UInt8) : List UInt8 :=
  [0xFF, 0xD8, 0xFF, 0xC4, 0, 38, 0x00, 1] ++ List.replicate 15 0 ++ [size, 0x10, 1] ++
    List.replicate 15 0 ++ [0, 0xFF, 0xC0, 0, 17, 8, 0, height, 0, width, 3, 1, 0x22, 0, 2, 0x11, 0, 3,
    0x11, 0, 0xFF, 0xDA, 0, 12, 3, 1, 0, 2, 0, 3, 0, 0, 63, 0]

/-- a comment whose size is past the end, a table with three codes of one bit, and a first coefficient
of 32 bits -/
theorem run_outside : ¬Safe (run [0xFF, 0xFE]) ∧
    ¬Safe (run ([0xFF, 0xC4, 0, 22, 0, 3] ++ List.replicate 18 0)) ∧ ¬Safe (run (frame 32 16 16)) := by
  decide +kernel

end DolTranslator.Thp
