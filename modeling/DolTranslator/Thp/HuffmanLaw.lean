import DolTranslator.Streams.Reads
import DolTranslator.Lz.Codes
import DolTranslator.Thp.Decoder

/-!
# The codes are canonical

* `Reader.stream`   the bits to come, and zeros after them; filling does not change them;
* `Built`   a table and the definition it is of; `built_assigned`;
* `lookup_short`, `lookup_long`   what the lookup says of the next nine bits;
* `DecodeHuffman_code`   one code, by the lookup or by its length;
* `decode_canonical`   a segment of tables, and then any codes of one of them.
-/

namespace DolTranslator.Thp

open Lz Streams

/-! ## the bits to come -/

def byteBit (p : List UInt8) (i : Nat) : Bool := (p.getD (i / 8) 0).toNat.testBit (7 - i % 8)

namespace Reader

variable {r : Reader}

def stream (r : Reader) (i : Nat) : Bool :=
  if i < r.bitCount then r.bitBuffer.testBit (r.bitCount - 1 - i) else byteBit r.p (i - r.bitCount)

theorem byteBit_tail (p : List UInt8) (i : Nat) : byteBit p (i + 8) = byteBit (Byte p).2 i := by
  unfold byteBit
  rw [Nat.add_div_right i (by decide), Nat.add_mod_right]
  cases p with
  | nil => rfl
  | cons b p => rfl

theorem byteBit_head (p : List UInt8) {i : Nat} (h : i < 8) :
    byteBit p i = (Byte p).1.toNat.testBit (7 - i) := by
  unfold byteBit
  rw [Nat.div_eq_of_lt h, Nat.mod_eq_of_lt h]
  cases p with
  | nil => rfl
  | cons b p => rfl

theorem stream_feed (h : r.bitCount ≤ 56) : r.feed.stream = r.stream := by
  funext i
  have hbyte : (Byte r.p).1.toNat < 2 ^ 8 := UInt8.toNat_lt _
  have hbuffer : (r.bitBuffer * 256 + (Byte r.p).1.toNat) % 2 ^ 64 =
      (2 ^ 8 * r.bitBuffer + (Byte r.p).1.toNat) % 2 ^ 64 := by
    rw [Nat.mul_comm, show (256 : Nat) = 2 ^ 8 from rfl]
  show (if i < r.bitCount + 8 then
      ((r.bitBuffer * 256 + (Byte r.p).1.toNat) % 2 ^ 64).testBit (r.bitCount + 8 - 1 - i)
    else byteBit (Byte r.p).2 (i - (r.bitCount + 8))) =
    if i < r.bitCount then r.bitBuffer.testBit (r.bitCount - 1 - i) else byteBit r.p (i - r.bitCount)
  rw [hbuffer]
  rcases Nat.lt_or_ge i r.bitCount with hi | hi
  · rw [if_pos (by omega), if_pos hi, Nat.testBit_mod_two_pow, Nat.testBit_two_pow_mul_add _ hbyte,
      if_neg (by omega), decide_eq_true (by omega), Bool.true_and,
      show r.bitCount + 8 - 1 - i - 8 = r.bitCount - 1 - i by omega]
  · rw [if_neg (c := i < r.bitCount) (by omega)]
    rcases Nat.lt_or_ge i (r.bitCount + 8) with hi' | hi'
    · rw [if_pos hi', Nat.testBit_mod_two_pow, Nat.testBit_two_pow_mul_add _ hbyte,
        if_pos (by omega), decide_eq_true (by omega), Bool.true_and, byteBit_head _ (by omega),
        show r.bitCount + 8 - 1 - i = 7 - (i - r.bitCount) by omega]
    · rw [if_neg (by omega), show i - r.bitCount = i - (r.bitCount + 8) + 8 by omega, byteBit_tail]

theorem bitCount_fillLoop {fuel bits : Nat} (h : bits ≤ r.bitCount + fuel) :
    bits ≤ (fillLoop fuel bits r).bitCount ∧
      (fillLoop fuel bits r).bitCount ≤ max r.bitCount (bits + 7) := by
  induction fuel generalizing r with
  | zero => exact ⟨h, Nat.le_max_left _ _⟩
  | succ fuel ih =>
    unfold fillLoop
    split
    · next hlt =>
      have hcount : r.feed.bitCount = r.bitCount + 8 := rfl
      obtain ⟨hle, hmax⟩ := ih (r := r.feed) (by omega)
      exact ⟨hle, by omega⟩
    · next hge => exact ⟨not_lt.mp hge, Nat.le_max_left _ _⟩

theorem bitCount_Fill (bits : Nat) (r : Reader) :
    bits ≤ (r.Fill bits).bitCount ∧ (r.Fill bits).bitCount ≤ max r.bitCount (bits + 7) :=
  bitCount_fillLoop (Nat.le_add_left _ _)

/-- filling only moves bits -/
theorem stream_Fill {bits : Nat} (h : bits ≤ 57) : (r.Fill bits).stream = r.stream := by
  have hgo (fuel : Nat) (r : Reader) : (fillLoop fuel bits r).stream = r.stream := by
    induction fuel generalizing r with
    | zero => rfl
    | succ fuel ih =>
      unfold fillLoop
      split
      · next hlt => rw [ih, stream_feed (by omega)]
      · rfl
  exact hgo bits r

theorem Peek_eq {bits : Nat} (hbits : bits < 32) (hle : bits ≤ r.bitCount)
    (hlt : r.bitCount - bits < 32) : r.Peek bits = .ok (ofBits (window r.stream 0 bits)) := by
  have hwindow : window r.stream 0 bits = bitsOf bits (r.bitBuffer / 2 ^ (r.bitCount - bits)) := by
    rw [bitsOf_eq_map]
    apply List.map_congr_left
    intro i hi
    have hi := List.mem_range.mp hi
    rw [Nat.testBit_div_two_pow, Nat.zero_add]
    unfold stream
    rw [if_pos (by omega), show r.bitCount - 1 - i = bits - 1 - i + (r.bitCount - bits) by omega]
  unfold Peek
  rw [within_of_le (by omega), within_of_le (by omega), hwindow, ofBits_bitsOf]
  rfl

theorem drop_eq {n : Nat} (h : n ≤ r.bitCount) : r.drop n = .ok (r.dropped n) := by
  unfold drop
  rw [within_of_le (by omega)]
  rfl

theorem stream_dropped {n : Nat} (h : n ≤ r.bitCount) :
    (r.dropped n).stream = fun i => r.stream (i + n) := by
  funext i
  show (if i < r.bitCount - n then r.bitBuffer.testBit (r.bitCount - n - 1 - i)
    else byteBit r.p (i - (r.bitCount - n))) =
      if i + n < r.bitCount then r.bitBuffer.testBit (r.bitCount - 1 - (i + n))
      else byteBit r.p (i + n - r.bitCount)
  rcases Nat.lt_or_ge (i + n) r.bitCount with hi | hi
  · rw [if_pos (by omega), if_pos hi, show r.bitCount - n - 1 - i = r.bitCount - 1 - (i + n) by omega]
  · rw [if_neg (by omega), if_neg (by omega),
      show i - (r.bitCount - n) = i + n - r.bitCount by omega]

end Reader

/-! ## the table of a definition -/

/-- where a definition's code of a length is, and what it stands for -/
structure Built (table : HuffmanTable) (e : Definition) : Prop where
  minCode : ∀ len, 1 ≤ len → len ≤ 16 → table.minCode len = firstCode e.counts len
  valPtr : ∀ len, 1 ≤ len → len ≤ 16 → table.valPtr len = firstIndex e.counts len
  maxCode : ∀ len, 1 ≤ len → len ≤ 16 → table.maxCode len =
    if e.counts len ≠ 0 then (firstCode e.counts len + e.counts len : Int) - 1 else -1
  vals : ∀ i < e.total, table.vals i = e.symbols.getD i 0

theorem assignCodes_spec {counts : Nat → Nat} {len : Nat} (hlen : 1 ≤ len) (n : Nat)
    (table : HuffmanTable) :
    (assignCodes counts n len (firstCode counts len) (firstIndex counts len) table).vals =
        table.vals ∧
      ∀ l, (len ≤ l → l < len + n →
          (assignCodes counts n len (firstCode counts len) (firstIndex counts len) table).minCode l =
              firstCode counts l ∧
            (assignCodes counts n len (firstCode counts len) (firstIndex counts len) table).valPtr l =
              firstIndex counts l ∧
            (assignCodes counts n len (firstCode counts len) (firstIndex counts len) table).maxCode l =
              if counts l ≠ 0 then (firstCode counts l + counts l : Int) - 1 else -1) ∧
        (l < len →
          (assignCodes counts n len (firstCode counts len) (firstIndex counts len) table).minCode l =
              table.minCode l ∧
            (assignCodes counts n len (firstCode counts len) (firstIndex counts len) table).valPtr l =
              table.valPtr l ∧
            (assignCodes counts n len (firstCode counts len) (firstIndex counts len) table).maxCode l =
              table.maxCode l) := by
  induction n generalizing len table with
  | zero => exact ⟨rfl, fun l => ⟨fun h h' => by omega, fun _ => ⟨rfl, rfl, rfl⟩⟩⟩
  | succ n ih =>
    unfold assignCodes
    rw [← firstCode_succ counts hlen, ← firstIndex_succ counts hlen]
    obtain ⟨hvals, hfields⟩ := ih (Nat.le_add_left 1 len) { table with
      valPtr := Function.update table.valPtr len (firstIndex counts len)
      minCode := Function.update table.minCode len (firstCode counts len)
      maxCode := Function.update table.maxCode len
        (if counts len ≠ 0 then (firstCode counts len + counts len : Int) - 1 else -1) }
    refine ⟨hvals, fun l => ⟨fun h h' => ?_, fun h => ?_⟩⟩
    · rcases Nat.eq_or_lt_of_le h with rfl | hlt
      · obtain ⟨hmin, hptr, hmax⟩ := (hfields len).2 (Nat.lt_succ_self len)
        rw [hmin, hptr, hmax]
        exact ⟨Function.update_self .., Function.update_self .., Function.update_self ..⟩
      · exact (hfields l).1 hlt (by omega)
    · obtain ⟨hmin, hptr, hmax⟩ := (hfields l).2 (by omega)
      rw [hmin, hptr, hmax]
      have hne : l ≠ len := by omega
      exact ⟨Function.update_of_ne hne .., Function.update_of_ne hne .., Function.update_of_ne hne ..⟩

variable {table : HuffmanTable} {e : Definition}

theorem mem_codesOfLength (h : Built table e) {len c : Nat} (hlen : 1 ≤ len) (hle : len ≤ 16) :
    c ∈ codesOfLength table len ↔ ∃ j < e.counts len, c = firstCode e.counts len + j := by
  have hnumber : (table.maxCode len + 1 - table.minCode len).toNat = e.counts len := by
    rw [h.maxCode len hlen hle, h.minCode len hlen hle]
    split
    · omega
    · omega
  unfold codesOfLength
  rw [hnumber, h.minCode len hlen hle, List.mem_map]
  constructor
  · rintro ⟨j, hj, rfl⟩
    exact ⟨j, List.mem_range.mp hj, rfl⟩
  · rintro ⟨j, hj, rfl⟩
    exact ⟨j, List.mem_range.mpr hj, rfl⟩

theorem mem_lookupWrites (h : Built table e) {write : Nat × Nat} :
    write ∈ lookupWrites table ↔ ∃ len j fill, 1 ≤ len ∧ len ≤ kLookupBits ∧ j < e.counts len ∧
      firstIndex e.counts len + j < 256 ∧ fill < 2 ^ (kLookupBits - len) ∧
        write = ((firstCode e.counts len + j) * 2 ^ (kLookupBits - len) + fill,
          len * 256 + (table.vals (firstIndex e.counts len + j)).toNat) := by
  have hbits : kLookupBits = 9 := rfl
  have hcode {len j : Nat} (hlen : 1 ≤ len) (hle : len ≤ 16) :
      table.valPtr len + (firstCode e.counts len + j) - table.minCode len =
        firstIndex e.counts len + j := by
    rw [h.minCode len hlen hle, h.valPtr len hlen hle]
    omega
  unfold lookupWrites
  rw [List.mem_flatMap]
  constructor
  · rintro ⟨i, hi, hmem⟩
    have hi := List.mem_range.mp hi
    obtain ⟨c, hc, hmem⟩ := List.mem_flatMap.mp hmem
    obtain ⟨j, hj, rfl⟩ := (mem_codesOfLength h (by omega) (by omega)).mp hc
    unfold fillCode at hmem
    rw [hcode (by omega) (by omega)] at hmem
    dsimp only at hmem
    split at hmem
    · cases hmem
    · next hindex =>
      obtain ⟨fill, hfill, rfl⟩ := List.mem_map.mp hmem
      exact ⟨i + 1, j, fill, by omega, by omega, hj, by omega, List.mem_range.mp hfill, rfl⟩
  · rintro ⟨len, j, fill, hlen, hle, hj, hindex, hfill, rfl⟩
    refine ⟨len - 1, List.mem_range.mpr (by omega), List.mem_flatMap.mpr ?_⟩
    rw [Nat.sub_add_cancel hlen]
    refine ⟨firstCode e.counts len + j, (mem_codesOfLength h hlen (by omega)).mpr ⟨j, hj, rfl⟩, ?_⟩
    unfold fillCode
    rw [hcode hlen (by omega)]
    dsimp only
    rw [if_neg (by omega), List.mem_map]
    exact ⟨fill, List.mem_range.mpr hfill, rfl⟩

def assigned (table : HuffmanTable) (e : Definition) : HuffmanTable :=
  let table := { table with
    vals := fun i => if i < e.total then e.symbols.getD i 0 else table.vals i }
  let table := assignCodes e.counts 16 1 0 0 table
  { table with maxCode := Function.update table.maxCode 17 0x7FFFFFFF }

theorem defineTable_eq (table : HuffmanTable) (e : Definition) :
    defineTable table e = fillLookup (assigned table e) := by
  unfold defineTable
  rw [within_of_le (by unfold Definition.total; omega)]
  rfl

theorem built_assigned (table : HuffmanTable) (e : Definition) : Built (assigned table e) e := by
  obtain ⟨hvals, hfields⟩ := @assignCodes_spec e.counts 1 (Nat.le_refl 1) 16
    { table with vals := fun i => if i < e.total then e.symbols.getD i 0 else table.vals i }
  refine ⟨fun len hlen hle => ((hfields len).1 hlen (by omega)).1,
    fun len hlen hle => ((hfields len).1 hlen (by omega)).2.1, fun len hlen hle => ?_, fun i hi => ?_⟩
  · have hne : len ≠ 17 := by omega
    exact (Function.update_of_ne hne ..).trans ((hfields len).1 hlen (by omega)).2.2
  · exact (congrFun hvals i).trans (if_pos hi)

/-! ## the lookup -/

theorem div_of_split {c n fill : Nat} (h : fill < 2 ^ n) : (c * 2 ^ n + fill) / 2 ^ n = c := by
  rw [Nat.mul_comm, Nat.mul_add_div (Nat.two_pow_pos n), Nat.div_eq_of_lt h, Nat.add_zero]

/-- of the first 256 codes, those that are looked up fit into their length -/
def Definition.LookupFits (e : Definition) : Prop :=
  ∀ len j, 1 ≤ len → len ≤ kLookupBits → j < e.counts len → firstIndex e.counts len + j < 256 →
    firstCode e.counts len + j < 2 ^ len

theorem writes_lt_iff (h : Built table e) :
    (∀ write ∈ lookupWrites table, write.1 < 2 ^ kLookupBits) ↔ e.LookupFits := by
  have hpow {len : Nat} (hle : len ≤ kLookupBits) :
      2 ^ kLookupBits = 2 ^ len * 2 ^ (kLookupBits - len) := by
    rw [← pow_add, Nat.add_sub_cancel' hle]
  constructor
  · intro hlt len j hlen hle hj hindex
    have hwrite : (firstCode e.counts len + j) * 2 ^ (kLookupBits - len) + 0 < 2 ^ kLookupBits :=
      hlt _ ((mem_lookupWrites h).mpr ⟨len, j, 0, hlen, hle, hj, hindex, Nat.two_pow_pos _, rfl⟩)
    rw [Nat.add_zero, hpow hle] at hwrite
    exact Nat.lt_of_mul_lt_mul_right hwrite
  · intro hfits write hmem
    obtain ⟨len, j, fill, hlen, hle, hj, hindex, hfill, rfl⟩ := (mem_lookupWrites h).mp hmem
    have hmul := Nat.mul_le_mul_right (2 ^ (kLookupBits - len))
      (Nat.succ_le_of_lt (hfits len j hlen hle hj hindex))
    rw [← hpow hle, Nat.succ_mul] at hmul
    show (firstCode e.counts len + j) * 2 ^ (kLookupBits - len) + fill < 2 ^ kLookupBits
    omega

theorem lookupFits_of_kraft (h : Kraft e.counts) : e.LookupFits :=
  fun _ _ hlen hle hj _ => code_lt h hlen (hle.trans (by decide)) hj

theorem same_code {bits len len' j j' : Nat} (hlen : 1 ≤ len) (hlen' : 1 ≤ len')
    (hle : len ≤ kLookupBits) (hle' : len' ≤ kLookupBits) (hj : j < e.counts len)
    (hj' : j' < e.counts len')
    (h : bits / 2 ^ (kLookupBits - len) = firstCode e.counts len + j)
    (h' : bits / 2 ^ (kLookupBits - len') = firstCode e.counts len' + j') : len = len' ∧ j = j' := by
  have hshift {a b : Nat} (hab : a ≤ b) (hb : b ≤ kLookupBits) :
      bits / 2 ^ (kLookupBits - b) / 2 ^ (b - a) = bits / 2 ^ (kLookupBits - a) := by
    rw [Nat.div_div_eq_div_mul, ← pow_add, show kLookupBits - b + (b - a) = kLookupBits - a by omega]
  rcases Nat.lt_trichotomy len len' with hlt | rfl | hlt
  · have hge := prefix_ge hlen hlt (Nat.le_add_right (firstCode e.counts len') j')
    rw [← h', hshift hlt.le hle', h] at hge
    omega
  · exact ⟨rfl, by omega⟩
  · have hge := prefix_ge hlen' hlt (Nat.le_add_right (firstCode e.counts len) j)
    rw [← h, hshift hlt.le hle, h'] at hge
    omega

variable {bits len j : Nat}

theorem lookup_short (h : Built table e) (hlen : 1 ≤ len) (hle : len ≤ kLookupBits)
    (hj : j < e.counts len) (hindex : firstIndex e.counts len + j < 256)
    (hbits : bits / 2 ^ (kLookupBits - len) = firstCode e.counts len + j) :
    applyWrites (lookupWrites table) (fun _ => 0) bits =
      len * 256 + (table.vals (firstIndex e.counts len + j)).toNat := by
  apply applyWrites_of_unique
  · refine List.mem_map.mpr ⟨_, (mem_lookupWrites h).mpr
      ⟨len, j, bits % 2 ^ (kLookupBits - len), hlen, hle, hj, hindex,
        Nat.mod_lt _ (Nat.two_pow_pos _), rfl⟩, ?_⟩
    show (firstCode e.counts len + j) * 2 ^ (kLookupBits - len) + _ = bits
    rw [← hbits, Nat.mul_comm, Nat.div_add_mod]
  · intro write hmem hat
    obtain ⟨len', j', fill, hlen', hle', hj', -, hfill, rfl⟩ := (mem_lookupWrites h).mp hmem
    have hbits' : bits / 2 ^ (kLookupBits - len') = firstCode e.counts len' + j' := by
      rw [← hat]
      exact div_of_split hfill
    obtain ⟨rfl, rfl⟩ := same_code hlen hlen' hle hle' hj hj' hbits hbits'
    rfl

theorem lookup_long (h : Built table e)
    (hbits : ∀ l, 1 ≤ l → l ≤ kLookupBits →
      firstCode e.counts l + e.counts l ≤ bits / 2 ^ (kLookupBits - l)) :
    applyWrites (lookupWrites table) (fun _ => 0) bits = 0 := by
  apply applyWrites_of_not_mem
  intro hmem
  obtain ⟨write, hmem, hat⟩ := List.mem_map.mp hmem
  obtain ⟨len, j, fill, hlen, hle, hj, -, hfill, rfl⟩ := (mem_lookupWrites h).mp hmem
  have hge := hbits len hlen hle
  rw [← hat] at hge
  rw [show ((firstCode e.counts len + j) * 2 ^ (kLookupBits - len) + fill) /
    2 ^ (kLookupBits - len) = firstCode e.counts len + j from div_of_split hfill] at hge
  omega

theorem walkLengths_eq (h : Built table e) {window : Nat} {n start : Nat} (hstart : 1 ≤ start)
    (hle : start ≤ len) (hlt : len < start + n) (hlen : len ≤ 16) (hj : j < e.counts len)
    (hwindow : window / 2 ^ (16 - len) = firstCode e.counts len + j) :
    walkLengths table window n start = some len := by
  induction n generalizing start with
  | zero => omega
  | succ n ih =>
    unfold walkLengths
    rcases Nat.eq_or_lt_of_le hle with rfl | hbefore
    · rw [if_pos]
      rw [hwindow, h.maxCode start hstart hlen, if_pos (by omega)]
      omega
    · -- a shorter length ends before the bits there
      have hge := prefix_ge hstart hbefore (Nat.le_add_right (firstCode e.counts len) j)
      rw [← hwindow, Nat.div_div_eq_div_mul, ← pow_add,
        show 16 - len + (len - start) = 16 - start by omega] at hge
      rw [if_neg]
      · exact ih (by omega) (by omega) (by omega)
      · rw [h.maxCode start hstart (by omega)]
        split
        · omega
        · omega

/-! ## one code -/

/-- a table whose lookup is filled -/
structure Filled (table : HuffmanTable) (e : Definition) : Prop extends Built table e where
  lookup : table.lookup = applyWrites (lookupWrites table) fun _ => 0

theorem defineTable_filled (table : HuffmanTable) (hkraft : Kraft e.counts) :
    ∃ table', defineTable table e = .ok table' ∧ Filled table' e := by
  have hbuilt := built_assigned table e
  rw [defineTable_eq, fillLookup, if_pos ((writes_lt_iff hbuilt).mpr (lookupFits_of_kraft hkraft))]
  exact ⟨_, rfl, ⟨hbuilt.minCode, hbuilt.valPtr, hbuilt.maxCode, hbuilt.vals⟩, rfl⟩

theorem prefix_div {stream : Nat → Bool} {len n code : Nat} (hle : len ≤ n) (hcode : code < 2 ^ len)
    (h : window stream 0 len = bitsOf len code) :
    ofBits (window stream 0 n) / 2 ^ (n - len) = code := by
  obtain ⟨m, rfl⟩ := Nat.exists_eq_add_of_le hle
  have hlength : (window stream (0 + len) m).length = m := length_window _ _ _
  rw [window_add, h, Nat.add_sub_cancel_left]
  conv_lhs => rw [← hlength]
  rw [hlength]
  have hdiv := ofBits_append_div (bitsOf len code) (window stream (0 + len) m)
  rw [hlength] at hdiv
  rw [hdiv, ofBits_bitsOf, Nat.mod_eq_of_lt hcode]

theorem ofBits_window_lt (stream : Nat → Bool) (n : Nat) : ofBits (window stream 0 n) < 2 ^ n := by
  have h := ofBits_lt (window stream 0 n)
  rwa [length_window] at h

/-- **One code**, by the lookup or by its length. -/
theorem DecodeHuffman_code (h : Filled table e) (hkraft : Kraft e.counts) {r : Reader}
    (hcount : r.bitCount < 32) (hlen : 1 ≤ len) (hle : len ≤ 16) (hj : j < e.counts len)
    (hindex : firstIndex e.counts len + j < 256)
    (hstream : window r.stream 0 len = bitsOf len (firstCode e.counts len + j)) :
    ∃ r', DecodeHuffman table r = .ok ((table.vals (firstIndex e.counts len + j)).toNat, r') ∧
      (r'.stream = fun i => r.stream (i + len)) ∧ r'.bitCount < 32 := by
  have hbits : kLookupBits = 9 := rfl
  have hcode := code_lt hkraft hlen hle hj
  obtain ⟨hfill, hmax⟩ := Reader.bitCount_Fill kLookupBits r
  have hsame : (r.Fill kLookupBits).stream = r.stream := Reader.stream_Fill (by omega)
  have hval : (table.vals (firstIndex e.counts len + j)).toNat < 256 := UInt8.toNat_lt _
  have hnine := ofBits_window_lt r.stream kLookupBits
  unfold DecodeHuffman
  dsimp only
  rw [Reader.Peek_eq (by omega) hfill (by omega), hsame, ok_bind,
    within_of_le (Nat.succ_le_of_lt hnine), ok_bind, h.lookup]
  rcases Nat.lt_or_ge kLookupBits len with hlong | hshort
  · -- by its length
    have hfirst : ∀ l, 1 ≤ l → l ≤ kLookupBits →
        firstCode e.counts l + e.counts l ≤
          ofBits (window r.stream 0 kLookupBits) / 2 ^ (kLookupBits - l) := by
      intro l hl hl'
      have hge := prefix_ge hl (by omega : l < len) (Nat.le_add_right (firstCode e.counts len) j)
      have hlenDiv : ofBits (window r.stream 0 len) / 2 ^ (len - l) =
          ofBits (window r.stream 0 kLookupBits) / 2 ^ (kLookupBits - l) := by
        have hwindow : window r.stream 0 len = window r.stream 0 kLookupBits ++
            window r.stream (0 + kLookupBits) (len - kLookupBits) := by
          rw [← window_add, Nat.add_sub_cancel' hlong.le]
        have hdiv := ofBits_append_div (window r.stream 0 kLookupBits)
          (window r.stream (0 + kLookupBits) (len - kLookupBits))
        rw [length_window] at hdiv
        rw [hwindow, show len - l = len - kLookupBits + (kLookupBits - l) by omega, pow_add,
          ← Nat.div_div_eq_div_mul, hdiv]
      rw [hstream, ofBits_bitsOf, Nat.mod_eq_of_lt hcode] at hlenDiv
      rwa [hlenDiv] at hge
    obtain ⟨hfill', hmax'⟩ := Reader.bitCount_Fill 16 (r.Fill kLookupBits)
    have hsame' : ((r.Fill kLookupBits).Fill 16).stream = r.stream := by
      rw [Reader.stream_Fill (by omega), hsame]
    have hprefix := prefix_div hle hcode hstream
    have hmin := h.minCode len hlen hle
    have hptr := h.valPtr len hlen hle
    have hwalk := walkLengths_eq h.toBuilt (Nat.le_add_left 1 kLookupBits) (by omega)
      (by omega : len < kLookupBits + 1 + 7) hle hj hprefix
    have hplace : (table.valPtr len + (ofBits (window r.stream 0 16) / 2 ^ (16 - len) : Nat) -
        table.minCode len : Int) = (firstIndex e.counts len + j : Nat) := by
      rw [ hprefix, hmin, hptr]
      omega
    rw [lookup_long h.toBuilt hfirst, if_neg (by simp),
      Reader.Peek_eq (by omega) hfill' (by omega), hsame', ok_bind, hwalk]
    dsimp only
    rw [Reader.drop_eq (by omega), ok_bind]
    unfold valueAt
    dsimp only
    rw [hplace, if_pos (by omega), Int.toNat_natCast, within_of_le hindex, ok_bind, ok_bind]
    refine ⟨_, rfl, ?_, ?_⟩
    · rw [Reader.stream_dropped (by omega), hsame']
    · show ((r.Fill kLookupBits).Fill 16).bitCount - len < 32
      omega
  · -- by the lookup
    have hentry := lookup_short h.toBuilt hlen hshort hj hindex (prefix_div hshort hcode hstream)
    rw [hentry, if_pos (by omega), show (len * 256 + (table.vals (firstIndex e.counts len + j)).toNat)
      % 256 = (table.vals (firstIndex e.counts len + j)).toNat by omega,
      show (len * 256 + (table.vals (firstIndex e.counts len + j)).toNat) / 256 = len by omega,
      Reader.drop_eq (by omega), ok_bind]
    refine ⟨_, rfl, ?_, ?_⟩
    · rw [Reader.stream_dropped (by omega), hsame]
    · show (r.Fill kLookupBits).bitCount - len < 32
      omega

/-! ## a segment -/

def segmentLoop : Nat → Int → List UInt8 → List Definition
  | 0, _, _ => []
  | fuel + 1, length, p =>
    if length > 0 ∧ p ≠ [] then
      (readDefinition p).1 ::
        segmentLoop fuel (length - (17 + (readDefinition p).1.total)) (readDefinition p).2
    else []

def segment (p : List UInt8) : List Definition :=
  segmentLoop ((Word p).2.length + 1) ((Word p).1.toNat - 2) (Word p).2

def lastOf (slot : Nat) (defs : List Definition) : Option Definition :=
  defs.reverse.find? fun e => e.slot = slot

theorem lastOf_cons (slot : Nat) (e : Definition) (defs : List Definition) :
    lastOf slot (e :: defs) = (lastOf slot defs).or (if e.slot = slot then some e else none) := by
  unfold lastOf
  rw [List.reverse_cons, List.find?_append, List.find?_singleton]
  congr 1
  by_cases h : e.slot = slot
  · rw [if_pos h, decide_eq_true h]
    rfl
  · rw [if_neg h, decide_eq_false h]
    rfl

theorem length_takeBytes (n : Nat) (p : List UInt8) : (takeBytes n p).2.length ≤ p.length := by
  induction n generalizing p with
  | zero => exact Nat.le_refl _
  | succ n ih =>
    have hbyte : (Byte p).2.length ≤ p.length := by
      cases p with
      | nil => exact Nat.le_refl _
      | cons b p => exact Nat.le_succ _
    exact (ih (Byte p).2).trans hbyte

theorem length_readDefinition {p : List UInt8} (h : p ≠ []) :
    (readDefinition p).2.length < p.length := by
  cases p with
  | nil => exact absurd rfl h
  | cons b p =>
    unfold readDefinition Byte
    dsimp only
    exact Nat.lt_succ_of_le ((length_takeBytes _ _).trans (length_takeBytes _ _))

/-- the lengths of a table that a segment may hold -/
def Definition.Canonical (e : Definition) : Prop :=
  Kraft e.counts ∧ (e.lengths.map UInt8.toNat).sum ≤ 256

instance (e : Definition) : Decidable e.Canonical := inferInstanceAs (Decidable (_ ∧ _))

theorem huffmanLoop_filled {fuel : Nat} {length : Int} {p : List UInt8} (hfuel : p.length < fuel)
    (hdefs : ∀ e ∈ segmentLoop fuel length p, e.Canonical) (huff : Nat → HuffmanTable) :
    ∃ p' huff', huffmanLoop fuel length p huff = .ok (p', huff') ∧
      ∀ slot, ∀ e ∈ lastOf slot (segmentLoop fuel length p), Filled (huff' slot) e := by
  have hgo : ∃ p' huff', huffmanLoop fuel length p huff = .ok (p', huff') ∧
      ∀ slot, (lastOf slot (segmentLoop fuel length p) = none → huff' slot = huff slot) ∧
        ∀ e ∈ lastOf slot (segmentLoop fuel length p), Filled (huff' slot) e := by
    induction fuel generalizing length p huff with
    | zero => omega
    | succ fuel ih =>
      unfold huffmanLoop
      unfold segmentLoop at hdefs ⊢
      split
      · next hmore =>
        rw [if_pos hmore] at hdefs
        have hshorter := length_readDefinition hmore.2
        obtain ⟨first, p₀, hread⟩ : ∃ first p₀, readDefinition p = (first, p₀) := ⟨_, _, rfl⟩
        rw [hread] at hdefs hshorter ⊢
        dsimp only at hdefs hshorter ⊢
        obtain ⟨table, htable, hfilled⟩ := defineTable_filled (huff first.slot)
          (hdefs _ List.mem_cons_self).1
        obtain ⟨p', huff', hloop, hslots⟩ := ih (by omega)
          (fun e he => hdefs e (List.mem_cons_of_mem _ he)) (Function.update huff first.slot table)
        refine ⟨p', huff', ?_, fun slot => ?_⟩
        · rw [htable]
          exact hloop
        · obtain ⟨hnone, hsome⟩ := hslots slot
          rw [lastOf_cons]
          cases hlast : lastOf slot (segmentLoop fuel (length - (17 + first.total)) p₀) with
          | none =>
            rw [Option.none_or]
            by_cases hslot : first.slot = slot
            · rw [if_pos hslot]
              refine ⟨fun h => (by cases h), fun e he => ?_⟩
              obtain rfl := Option.some.inj he
              rw [hnone hlast, ← hslot, Function.update_self]
              exact hfilled
            · rw [if_neg hslot]
              refine ⟨fun _ => ?_, fun e he => (by cases he)⟩
              rw [hnone hlast, Function.update_of_ne (Ne.symm hslot)]
          | some e =>
            rw [Option.some_or]
            refine ⟨fun h => (by cases h), fun e' he' => ?_⟩
            obtain rfl := Option.some.inj he'
            exact hsome e hlast
      · next hdone => exact ⟨p, huff, rfl, fun slot => ⟨fun _ => rfl, fun e he => (by cases he)⟩⟩
  obtain ⟨p', huff', hloop, hslots⟩ := hgo
  exact ⟨p', huff', hloop, fun slot => (hslots slot).2⟩

/-! ## any codes, one after the other -/

def Definition.codes (e : Definition) : List ((Nat × Nat) × UInt8) :=
  (canonicalCodes e.counts).zip e.symbols

def decodeSymbols (table : HuffmanTable) : Nat → Reader → Checked (List Nat × Reader)
  | 0, r => .ok ([], r)
  | n + 1, r => do
    let (value, r) ← DecodeHuffman table r
    let (values, r) ← decodeSymbols table n r
    .ok (value :: values, r)

def codeBits (codes : List ((Nat × Nat) × UInt8)) : List Bool :=
  codes.flatMap fun code => bitsOf code.1.1 code.1.2

theorem mem_codes {code : (Nat × Nat) × UInt8} (h : code ∈ e.codes) :
    1 ≤ code.1.1 ∧ code.1.1 ≤ 16 ∧ ∃ j < e.counts code.1.1,
      code.1.2 = firstCode e.counts code.1.1 + j ∧
        e.symbols[firstIndex e.counts code.1.1 + j]? = some code.2 := by
  unfold Definition.codes at h
  rw [canonicalCodes_eq] at h
  obtain ⟨k, hk⟩ := List.getElem?_of_mem h
  rw [List.getElem?_zip_eq_some] at hk
  obtain ⟨hle, hlt, j, hj, hcode, hplace⟩ := getElem?_codesOfFrom (Nat.le_refl 1) hk.1
  have hfirst : firstIndex e.counts 1 = 0 := rfl
  refine ⟨hle, by omega, j, hj, hcode, ?_⟩
  rw [← hplace, hfirst, Nat.zero_add]
  exact hk.2

theorem decodeSymbols_codes (h : Filled table e) (hcanonical : e.Canonical)
    (hsymbols : e.symbols.length = e.total) {codes : List ((Nat × Nat) × UInt8)}
    (hcodes : ∀ code ∈ codes, code ∈ e.codes) {r : Reader} (hcount : r.bitCount < 32)
    (hstream : window r.stream 0 (codeBits codes).length = codeBits codes) :
    ∃ r', decodeSymbols table codes.length r = .ok (codes.map (·.2.toNat), r') ∧
      (r'.stream = fun i => r.stream (i + (codeBits codes).length)) ∧ r'.bitCount < 32 := by
  induction codes generalizing r with
  | nil => exact ⟨r, rfl, rfl, hcount⟩
  | cons code codes ih =>
    obtain ⟨hlen, hle, j, hj, hcode, hvalue⟩ := mem_codes (hcodes code List.mem_cons_self)
    obtain ⟨hplace, hat⟩ := List.getElem?_eq_some_iff.mp hvalue
    have htotal : e.total ≤ 256 := Nat.min_le_right _ _
    have hval : table.vals (firstIndex e.counts code.1.1 + j) = code.2 := by
      rw [h.vals _ (by omega), List.getD_eq_getElem?_getD, hvalue]
      rfl
    have hbits : codeBits (code :: codes) = bitsOf code.1.1 code.1.2 ++ codeBits codes :=
      List.flatMap_cons
    rw [hbits, List.length_append, length_bitsOf, window_add] at hstream
    obtain ⟨hfirst, hrest⟩ := List.append_inj hstream (by rw [length_window, length_bitsOf])
    obtain ⟨r', hdecode, hstream', hcount'⟩ := DecodeHuffman_code h hcanonical.1 hcount hlen hle hj
      (by omega) (by rw [hfirst, hcode])
    have hnext : window r'.stream 0 (codeBits codes).length = codeBits codes := by
      have hshift : window (fun i => r.stream (i + code.1.1)) 0 (codeBits codes).length =
          window r.stream (0 + code.1.1) (codeBits codes).length :=
        window_congr fun i _ => by rw [Nat.zero_add, Nat.zero_add, Nat.add_comm]
      rw [hstream', hshift, hrest]
    obtain ⟨r'', hdecodes, hstream'', hcount''⟩ :=
      ih (fun c hc => hcodes c (List.mem_cons_of_mem _ hc)) hcount' hnext
    refine ⟨r'', ?_, ?_, hcount''⟩
    · rw [List.length_cons, decodeSymbols, hdecode, ok_bind]
      dsimp only
      rw [hdecodes, ok_bind, hval]
      rfl
    · funext i
      rw [hstream'', hstream', hbits, List.length_append, length_bitsOf]
      show r.stream (i + (codeBits codes).length + code.1.1) = _
      rw [Nat.add_assoc, Nat.add_comm (codeBits codes).length]

theorem length_takeBytes_fst (n : Nat) (p : List UInt8) : (takeBytes n p).1.length = n := by
  induction n generalizing p with
  | zero => rfl
  | succ n ih => exact congrArg (· + 1) (ih (Byte p).2)

theorem symbols_readDefinition (p : List UInt8) :
    (readDefinition p).1.symbols.length = (readDefinition p).1.total := by
  unfold readDefinition Definition.total
  dsimp only
  exact length_takeBytes_fst _ _

theorem symbols_segmentLoop {fuel : Nat} {length : Int} {p : List UInt8} :
    ∀ e ∈ segmentLoop fuel length p, e.symbols.length = e.total := by
  induction fuel generalizing length p with
  | zero => intro e he; cases he
  | succ fuel ih =>
    intro e he
    unfold segmentLoop at he
    split at he
    · rcases List.mem_cons.mp he with he | he
      · rw [he]
        exact symbols_readDefinition p
      · exact ih e he
    · cases he

/-- **Decoding is canonical**: after a segment whose tables satisfy Kraft's inequality, the codes of
any of them, one after the other, give what they stand for, and no bit more is taken. -/
theorem decode_canonical (d : Decoder) (h : ∀ e ∈ segment d.p, e.Canonical) :
    ∃ d', ReadHuffmanTables d = .ok d' ∧
      ∀ slot, ∀ e ∈ lastOf slot (segment d.p), ∀ codes : List ((Nat × Nat) × UInt8),
        (∀ code ∈ codes, code ∈ e.codes) → ∀ r : Reader, r.bitCount < 32 →
          window r.stream 0 (codeBits codes).length = codeBits codes →
            ∃ r', decodeSymbols (d'.huff slot) codes.length r = .ok (codes.map (·.2.toNat), r') ∧
              (r'.stream = fun i => r.stream (i + (codeBits codes).length)) ∧ r'.bitCount < 32 := by
  obtain ⟨p', huff', hloop, hslots⟩ := huffmanLoop_filled (Nat.lt_succ_self (Word d.p).2.length) h
    d.huff
  refine ⟨{ d with p := p', huff := huff' }, ?_, fun slot e he codes hcodes r hcount hstream => ?_⟩
  · unfold ReadHuffmanTables
    dsimp only
    rw [hloop]
    rfl
  · have hmem : e ∈ segment d.p := by
      unfold lastOf at he
      exact List.mem_reverse.mp (List.mem_of_find?_eq_some he)
    exact decodeSymbols_codes (hslots slot e he) (h e hmem) (symbols_segmentLoop e hmem) hcodes hcount
      hstream

def twoCodes : Definition where
  spec := 0
  lengths := [1, 0, 0, 0, 0, 0, 0, 0, 0, 1, 0, 0, 0, 0, 0, 0]
  symbols := [5, 7]

theorem decode_canonical_twoCodes :
    ∃ d', ReadHuffmanTables (Decoder.start ([0, 21, 0] ++ twoCodes.lengths ++ twoCodes.symbols)) =
        .ok d' ∧
      ∃ r', decodeSymbols (d'.huff 0) 2 ⟨[0x80, 0], 0, 0⟩ = .ok ([7, 5], r') := by
  obtain ⟨d', hread, hcodes⟩ := decode_canonical
    (Decoder.start ([0, 21, 0] ++ twoCodes.lengths ++ twoCodes.symbols)) (by decide +kernel)
  obtain ⟨r', hdecode, -⟩ := hcodes 0 twoCodes
    (by decide +kernel : lastOf 0 (segment ([0, 21, 0] ++ twoCodes.lengths ++ twoCodes.symbols)) =
      some twoCodes) [((10, 512), 7), ((1, 0), 5)] (by decide +kernel) ⟨[0x80, 0], 0, 0⟩ (by decide)
    (by decide +kernel)
  exact ⟨d', hread, r', hdecode⟩

end DolTranslator.Thp
