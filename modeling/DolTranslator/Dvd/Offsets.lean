import DolTranslator.Dvd.ImageLaw
import DolTranslator.Streams.LastOfKey

/-!
# The offsets of the files that are published

* `Effective`   the registration that a path stands for;
* `realOffset`   the offset that the extracted table has for a path;
* `Assigns`   what `assignOffsets` does, file by file;
* `Offsets`   which offset each registration has then;
* `publishEntries_spec`   what is published: the effective registrations, at these offsets.
-/

namespace DolTranslator.Dvd

open Streams

variable {fstFiles : List FstFileEntry} {registrations : List Registration} {i j : Nat}

/-! ## registrations -/

def Registration.lookup (r : Registration) : Bytes := NormalizeLookupPath r.dvdPath

def Registration.entry (r : Registration) : DVDFileEntry :=
  ⟨r.hostPath, CanonicalizePath r.dvdPath, r.size, 0, false⟩

/-- a registration that no later one replaces -/
abbrev Effective (registrations : List Registration) (i : Nat) (r : Registration) : Prop :=
  LastOfKey Registration.lookup registrations i r

theorem registerAll_append (registrations : List Registration) (r : Registration) :
    registerAll (registrations ++ [r]) = RegisterFileEntry (registerAll registrations) r := by
  unfold registerAll
  rw [List.foldl_append]
  rfl

theorem registerAll_fileEntries (registrations : List Registration) :
    (registerAll registrations).fileEntries = registrations.map Registration.entry := by
  induction registrations using List.reverseRecOn with
  | nil => rfl
  | append_singleton registrations r ih =>
    rw [registerAll_append, List.map_append]
    show (registerAll registrations).fileEntries ++ _ = _
    rw [ih]
    rfl

theorem registerAll_pathToEntry (registrations : List Registration) (q : Bytes) (i : Nat) :
    (registerAll registrations).pathToEntry[q]? = some i ↔
      ∃ r, Effective registrations i r ∧ r.lookup = q := by
  induction registrations using List.reverseRecOn generalizing i with
  | nil =>
    show (∅ : PathMap Nat)[q]? = some i ↔ _
    rw [Std.TreeMap.getElem?_emptyc]
    exact ⟨fun h => (by cases h), fun ⟨r, h, _⟩ => (by cases h.get)⟩
  | append_singleton registrations r ih =>
    rw [registerAll_append]
    show ((registerAll registrations).pathToEntry.insert (NormalizeLookupPath
      (CanonicalizePath r.dvdPath)) (registerAll registrations).fileEntries.length)[q]? = some i ↔ _
    rw [NormalizeLookupPath_canonical, Std.TreeMap.getElem?_insert, registerAll_fileEntries,
      List.length_map]
    simp only [Effective, lastOfKey_concat]
    by_cases hq : NormalizeLookupPath r.dvdPath = q
    · rw [if_pos (Std.LawfulEqOrd.compare_eq_iff_eq.mpr hq), Option.some.injEq]
      constructor
      · rintro rfl
        exact ⟨r, .inl ⟨rfl, rfl⟩, hq⟩
      · rintro ⟨r', ⟨rfl, -⟩ | ⟨-, hne⟩, hr'⟩
        · rfl
        · exact absurd (hr'.trans hq.symm) hne
    · rw [if_neg (fun h => hq (Std.LawfulEqOrd.compare_eq_iff_eq.mp h)), ih]
      constructor
      · rintro ⟨r', h, hr'⟩
        exact ⟨r', .inr ⟨h, fun heq => hq (heq.symm.trans hr')⟩, hr'⟩
      · rintro ⟨r', ⟨-, rfl⟩ | ⟨h, -⟩, hr'⟩
        · exact absurd hr' hq
        · exact ⟨r', h, hr'⟩

/-! ## the offsets of the extracted table -/

/-- the word offset of a path in the extracted table, where the last file of it counts; 0 for none -/
def realOffset (fstFiles : List FstFileEntry) (q : Bytes) : UInt32 :=
  match fstFiles.reverse.find? fun f => decide (NormalizeLookupPath f.dvdPath = q) with
  | none => 0
  | some f => f.start / 4

theorem realOffset_append (fstFiles : List FstFileEntry) (f : FstFileEntry) (q : Bytes) :
    realOffset (fstFiles ++ [f]) q =
      if NormalizeLookupPath f.dvdPath = q then f.start / 4 else realOffset fstFiles q := by
  unfold realOffset
  rw [List.reverse_append, List.reverse_singleton, List.singleton_append, List.find?_cons]
  by_cases h : NormalizeLookupPath f.dvdPath = q
  · rw [decide_eq_true h, if_pos h]
  · rw [decide_eq_false h, if_neg h]

def keptOffset (fstFiles : List FstFileEntry) (registrations : List Registration) (i : Nat)
    (r : Registration) : UInt32 :=
  if (registerAll registrations).pathToEntry[r.lookup]? = some i then realOffset fstFiles r.lookup
  else 0

theorem keptOffset_of_effective (fstFiles : List FstFileEntry) {r : Registration}
    (h : Effective registrations i r) :
    keptOffset fstFiles registrations i r = realOffset fstFiles r.lookup :=
  if_pos ((registerAll_pathToEntry registrations _ i).mpr ⟨r, h, rfl⟩)

theorem effective_of_keptOffset {r : Registration} (hr : registrations[i]? = some r)
    (h : keptOffset fstFiles registrations i r ≠ 0) : Effective registrations i r := by
  by_contra hnot
  refine h (if_neg fun hindex => hnot ?_)
  obtain ⟨r', hr', -⟩ := (registerAll_pathToEntry registrations _ i).mp hindex
  cases hr.symm.trans hr'.get
  exact hr'

def DVDFileEntry.placed (e : DVDFileEntry) (words : UInt32) : DVDFileEntry :=
  { e with discOffsetWords := words }

theorem keepOffset_getElem? (pathToEntry : PathMap Nat) (entries : List DVDFileEntry)
    (f : FstFileEntry) (i : Nat) :
    (keepOffset pathToEntry entries f)[i]? =
      if pathToEntry[NormalizeLookupPath f.dvdPath]? = some i then
        entries[i]?.map (·.placed (f.start / 4))
      else entries[i]? := by
  unfold keepOffset
  cases hk : pathToEntry[NormalizeLookupPath f.dvdPath]? with
  | none => rw [if_neg (fun h => (by cases h))]
  | some k =>
    show (entries.modify k _)[i]? = _
    rw [List.getElem?_modify]
    by_cases hki : k = i
    · rw [hki, if_pos rfl]
      cases entries[i]? with
      | none => rfl
      | some e => exact congrArg some (if_pos rfl)
    · rw [if_neg (fun h => hki (Option.some.inj h))]
      cases entries[i]? with
      | none => rfl
      | some e => exact congrArg some (if_neg hki)

theorem keptOffset_append {r : Registration} (hr : registrations[i]? = some r) (f : FstFileEntry) :
    keptOffset (fstFiles ++ [f]) registrations i r =
      if (registerAll registrations).pathToEntry[NormalizeLookupPath f.dvdPath]? = some i then
        f.start / 4
      else keptOffset fstFiles registrations i r := by
  unfold keptOffset
  rw [realOffset_append]
  by_cases hf : (registerAll registrations).pathToEntry[NormalizeLookupPath f.dvdPath]? = some i
  · obtain ⟨r', hr', hpath⟩ := (registerAll_pathToEntry registrations _ i).mp hf
    cases hr.symm.trans hr'.get
    rw [if_pos hf, hpath, if_pos hf, if_pos rfl]
  · rw [if_neg hf]
    by_cases hi : (registerAll registrations).pathToEntry[r.lookup]? = some i
    · have hne : NormalizeLookupPath f.dvdPath ≠ r.lookup := fun h => hf (h ▸ hi)
      rw [if_pos hi, if_pos hi, if_neg hne]
    · rw [if_neg hi, if_neg hi]

theorem keepOffsets_getElem? (fstFiles : List FstFileEntry) (registrations : List Registration)
    (i : Nat) :
    (keepOffsets fstFiles (registerAll registrations))[i]? = registrations[i]?.map fun r =>
      r.entry.placed (keptOffset fstFiles registrations i r) := by
  unfold keepOffsets
  induction fstFiles using List.reverseRecOn with
  | nil =>
    show (registerAll registrations).fileEntries[i]? = _
    rw [registerAll_fileEntries, List.getElem?_map]
    refine congrArg (Option.map · registrations[i]?) (funext fun r => ?_)
    have h0 : keptOffset [] registrations i r = 0 := ite_self 0
    rw [h0]
    rfl
  | append_singleton fstFiles f ih =>
    rw [List.foldl_append, List.foldl_cons, List.foldl_nil, keepOffset_getElem?, ih]
    cases hr : registrations[i]? with
    | none => exact ite_self none
    | some r =>
      rw [Option.map_some, Option.map_some, Option.map_some, keptOffset_append hr]
      split
      · rfl
      · rfl

/-! ## the offsets behind them -/

theorem align32_le (n : Nat) : n ≤ align32 n ∧ 32 ∣ align32 n := by
  unfold align32
  omega

/-- what is assigned, behind `next`: an entry keeps its offset or gets the next one -/
inductive Assigns : Nat → List DVDFileEntry → List DVDFileEntry → Prop where
  | nil (next : Nat) : Assigns next [] []
  | keep {next : Nat} {e : DVDFileEntry} {es es' : List DVDFileEntry} :
      e.discOffsetWords ≠ 0 → Assigns next es es' → Assigns next (e :: es) (e :: es')
  | new {next : Nat} {e : DVDFileEntry} {es es' : List DVDFileEntry} {words : UInt32} :
      e.discOffsetWords = 0 → words.toNat * 4 = align32 next →
      Assigns (align32 next + max e.size.toNat 4) es es' →
      Assigns next (e :: es) (e.placed words :: es')

theorem assigns_of_assignOffsets {next : Nat} {es es' : List DVDFileEntry}
    (hfiles : ∀ e ∈ es, e.isDirectory = false) (h : assignOffsets next es = some es') :
    Assigns next es es' := by
  induction es generalizing next es' with
  | nil =>
    cases h
    exact .nil next
  | cons e es ih =>
    have hfile := hfiles e List.mem_cons_self
    unfold assignOffsets at h
    by_cases hkeep : e.discOffsetWords = 0
    · rw [if_neg (by rw [hfile, hkeep]; decide)] at h
      split at h
      · cases h
      · obtain ⟨rest, hrest, rfl⟩ := Option.map_eq_some_iff.mp h
        refine .new hkeep ?_ (ih (fun e he => hfiles e (List.mem_cons_of_mem _ he)) hrest)
        have hdvd := (align32_le next).2
        have hsize : UInt32.size = 2 ^ 32 := rfl
        rw [UInt32.toNat_ofNat_of_lt' (by omega)]
        omega
    · rw [if_pos (.inr hkeep)] at h
      obtain ⟨rest, hrest, rfl⟩ := Option.map_eq_some_iff.mp h
      exact .keep hkeep (ih (fun e he => hfiles e (List.mem_cons_of_mem _ he)) hrest)

def wordsAt (es : List DVDFileEntry) (i : Nat) : UInt32 :=
  match es[i]? with
  | none => 0
  | some e => e.discOffsetWords

@[simp] theorem wordsAt_zero (e : DVDFileEntry) (es : List DVDFileEntry) :
    wordsAt (e :: es) 0 = e.discOffsetWords := rfl

@[simp] theorem wordsAt_succ (e : DVDFileEntry) (es : List DVDFileEntry) (i : Nat) :
    wordsAt (e :: es) (i + 1) = wordsAt es i := rfl

namespace Assigns

variable {next : Nat} {es es' : List DVDFileEntry} {e e' : DVDFileEntry}

theorem getElem? (h : Assigns next es es') (i : Nat) :
    es'[i]? = es[i]?.map (·.placed (wordsAt es' i)) := by
  induction h generalizing i with
  | nil => rfl
  | keep _ _ ih =>
    cases i with
    | zero => rfl
    | succ i => exact ih i
  | new _ _ _ ih =>
    cases i with
    | zero => rfl
    | succ i => exact ih i

theorem kept (h : Assigns next es es') (he : es[i]? = some e) (hne : e.discOffsetWords ≠ 0) :
    wordsAt es' i = e.discOffsetWords := by
  induction h generalizing i with
  | nil => cases he
  | keep _ _ ih =>
    cases i with
    | zero => cases he; rfl
    | succ i => exact ih he
  | new h0 _ _ ih =>
    cases i with
    | zero => cases he; exact absurd h0 hne
    | succ i => exact ih he

theorem le (h : Assigns next es es') (he : es[i]? = some e) (h0 : e.discOffsetWords = 0) :
    align32 next ≤ (wordsAt es' i).toNat * 4 := by
  induction h generalizing i with
  | nil => cases he
  | keep hne _ ih =>
    cases i with
    | zero => cases he; exact absurd h0 hne
    | succ i => exact ih he
  | @new next e _ _ _ _ hwords _ ih =>
    cases i with
    | zero => exact hwords.ge
    | succ i =>
      have hle := ih he
      have halign := (align32_le (align32 next + max e.size.toNat 4)).1
      rw [wordsAt_succ]
      omega

theorem first (h : Assigns next es es') (he : es[i]? = some e) (h0 : e.discOffsetWords = 0)
    (hfirst : ∀ j e', j < i → es[j]? = some e' → e'.discOffsetWords ≠ 0) :
    (wordsAt es' i).toNat * 4 = align32 next := by
  induction h generalizing i with
  | nil => cases he
  | keep hne _ ih =>
    cases i with
    | zero => cases he; exact absurd h0 hne
    | succ i => exact ih he fun j e' hj hj' => hfirst (j + 1) e' (Nat.succ_lt_succ hj) hj'
  | @new _ e _ _ _ hzero hwords _ ih =>
    cases i with
    | zero => exact hwords
    | succ i => exact absurd hzero (hfirst 0 e (Nat.succ_pos i) rfl)

theorem lt (h : Assigns next es es') (he : es[i]? = some e) (h0 : e.discOffsetWords = 0)
    (hj : es[j]? = some e') (hj0 : e'.discOffsetWords = 0) (hji : j < i) :
    (wordsAt es' j).toNat < (wordsAt es' i).toNat := by
  induction h generalizing i j with
  | nil => cases he
  | keep hne _ ih =>
    cases i with
    | zero => cases hji
    | succ i =>
      cases j with
      | zero => cases hj; exact absurd hj0 hne
      | succ j => exact ih he hj (Nat.lt_of_succ_lt_succ hji)
  | @new next e _ _ words _ hwords htail ih =>
    cases i with
    | zero => cases hji
    | succ i =>
      cases j with
      | zero =>
        have hle := htail.le he h0
        have halign := (align32_le (align32 next + max e.size.toNat 4)).1
        show words.toNat < _
        rw [wordsAt_succ]
        omega
      | succ j => exact ih he hj (Nat.lt_of_succ_lt_succ hji)

end Assigns

/-! ## what is behind everything -/

/-- everything that has an offset ends at `m` or before it -/
structure EndsBy (fstFiles : List FstFileEntry) (registrations : List Registration) (m : Nat) :
    Prop where
  table : ∀ f ∈ fstFiles, f.stop.toNat ≤ m
  files : ∀ i r, Effective registrations i r → realOffset fstFiles r.lookup ≠ 0 →
    (realOffset fstFiles r.lookup).toNat * 4 + r.size.toNat ≤ m

theorem foldl_max_le {α : Type} (p : α → Prop) [DecidablePred p] (f : α → Nat) (xs : List α)
    (n m : Nat) :
    xs.foldl (fun n x => if p x then max n (f x) else n) n ≤ m ↔
      n ≤ m ∧ ∀ x ∈ xs, p x → f x ≤ m := by
  induction xs generalizing n with
  | nil => simp
  | cons x xs ih =>
    rw [List.foldl_cons, ih, List.forall_mem_cons]
    by_cases hx : p x
    · rw [if_pos hx, Nat.max_le]
      tauto
    · rw [if_neg hx]
      tauto

theorem nextFreeBytes_le_iff (fstFiles : List FstFileEntry) (entries : List DVDFileEntry)
    (m : Nat) :
    nextFreeBytes fstFiles entries ≤ m ↔ (∀ f ∈ fstFiles, f.stop.toNat ≤ m) ∧
      ∀ e ∈ entries, e.discOffsetWords ≠ 0 → e.discOffsetWords.toNat * 4 + e.size.toNat ≤ m := by
  unfold nextFreeBytes
  rw [foldl_max_le (fun e : DVDFileEntry => e.discOffsetWords ≠ 0)
    fun e => e.discOffsetWords.toNat * 4 + e.size.toNat]
  refine and_congr_left fun _ => ?_
  have hall := foldl_max_le (fun _ : FstFileEntry => True) (fun f => f.stop.toNat) fstFiles 0 m
  simp only [if_true] at hall
  rw [hall]
  simp

theorem nextFreeBytes_kept_le_iff (m : Nat) :
    nextFreeBytes fstFiles (keepOffsets fstFiles (registerAll registrations)) ≤ m ↔
      EndsBy fstFiles registrations m := by
  rw [nextFreeBytes_le_iff]
  constructor
  · rintro ⟨htable, hfiles⟩
    refine ⟨htable, fun i r hr hne => ?_⟩
    have hi := keepOffsets_getElem? fstFiles registrations i
    rw [hr.get, Option.map_some, keptOffset_of_effective fstFiles hr] at hi
    exact hfiles _ (List.mem_of_getElem? hi) hne
  · rintro ⟨htable, hfiles⟩
    refine ⟨htable, fun e he hne => ?_⟩
    obtain ⟨i, hi⟩ := List.mem_iff_getElem?.mp he
    rw [keepOffsets_getElem?] at hi
    obtain ⟨r, hr, rfl⟩ := Option.map_eq_some_iff.mp hi
    have heff := effective_of_keptOffset hr hne
    have hkept := keptOffset_of_effective fstFiles heff
    show (keptOffset fstFiles registrations i r).toNat * 4 + r.size.toNat ≤ m
    rw [hkept]
    exact hfiles i r heff (hkept ▸ hne)

/-! ## what is published -/

/-- a registration without an offset of the extracted table -/
def New (fstFiles : List FstFileEntry) (registrations : List Registration) (i : Nat) : Prop :=
  ∃ r, registrations[i]? = some r ∧
    ¬(Effective registrations i r ∧ realOffset fstFiles r.lookup ≠ 0)

/-- the word offsets of the registrations, when what has an offset ends at `ends` -/
structure Offsets (fstFiles : List FstFileEntry) (registrations : List Registration) (ends : Nat)
    (words : Nat → UInt32) : Prop where
  ends_le_iff : ∀ m, ends ≤ m ↔ EndsBy fstFiles registrations m
  real : ∀ i r, Effective registrations i r → realOffset fstFiles r.lookup ≠ 0 →
    words i = realOffset fstFiles r.lookup
  first : ∀ i, New fstFiles registrations i → (∀ j, j < i → ¬New fstFiles registrations j) →
    (words i).toNat * 4 = align32 ends
  le : ∀ i, New fstFiles registrations i → align32 ends ≤ (words i).toNat * 4
  lt : ∀ i j, New fstFiles registrations i → New fstFiles registrations j → j < i →
    (words j).toNat < (words i).toNat

theorem offsets_of_assigns {es' : List DVDFileEntry} {next : Nat}
    (hnext : next = nextFreeBytes fstFiles (keepOffsets fstFiles (registerAll registrations)))
    (h : Assigns next (keepOffsets fstFiles (registerAll registrations)) es') :
    Offsets fstFiles registrations next (wordsAt es') := by
  have hkeep := keepOffsets_getElem? fstFiles registrations
  have hget : ∀ i (r : Registration), registrations[i]? = some r →
      (keepOffsets fstFiles (registerAll registrations))[i]? =
        some (r.entry.placed (keptOffset fstFiles registrations i r)) := by
    intro i r hr
    rw [hkeep, hr]
    rfl
  -- a new one keeps no offset
  have hzero : ∀ i r, registrations[i]? = some r →
      ¬(Effective registrations i r ∧ realOffset fstFiles r.lookup ≠ 0) →
      keptOffset fstFiles registrations i r = 0 := by
    intro i r hr hnot
    by_contra hne
    have heff := effective_of_keptOffset hr hne
    exact hnot ⟨heff, keptOffset_of_effective fstFiles heff ▸ hne⟩
  refine ⟨fun m => ?_, fun i r hr hne => ?_, ?_, ?_, ?_⟩
  · rw [hnext]
    exact nextFreeBytes_kept_le_iff m
  · have hkept := keptOffset_of_effective fstFiles hr
    rw [h.kept (hget i r hr.get) (show keptOffset fstFiles registrations i r ≠ 0 by rwa [hkept])]
    exact hkept
  · rintro i ⟨r, hr, hnot⟩ hfirst
    refine h.first (hget i r hr) (hzero i r hr hnot) fun j e hji he => ?_
    rw [hkeep] at he
    obtain ⟨r', hr', rfl⟩ := Option.map_eq_some_iff.mp he
    intro h0
    refine hfirst j hji ⟨r', hr', fun ⟨heff, hne⟩ => hne ?_⟩
    rw [← keptOffset_of_effective fstFiles heff]
    exact h0
  · rintro i ⟨r, hr, hnot⟩
    exact h.le (hget i r hr) (hzero i r hr hnot)
  · rintro i j ⟨r, hr, hnot⟩ ⟨r', hr', hnot'⟩ hji
    exact h.lt (hget i r hr) (hzero i r hr hnot) (hget j r' hr') (hzero j r' hr' hnot') hji

/-- the file of an entry, its size and its word offset; none for a directory -/
def DVDFileEntry.file (e : DVDFileEntry) : Option (Bytes × UInt32 × UInt32) :=
  if e.isDirectory then none else some (e.hostPath, e.size, e.discOffsetWords)

theorem lastRegistration_placed {files : List RegisteredFile} {words : Nat → UInt32}
    (hfiles : ∀ i : Nat, files[i]? = registrations[i]?.map fun r =>
      (r.entry.placed (words i)).registered) (q : Bytes)
    (d : Bytes × UInt32 × UInt32) :
    (∃ last, lastRegistration files q = some last ∧ last.file = d) ↔
      ∃ i r, Effective registrations i r ∧ r.lookup = q ∧ (r.hostPath, r.size, words i) = d := by
  have hkey : ∀ i file, files[i]? = some file → ∃ r, registrations[i]? = some r ∧
      NormalizeLookupPath file.dvdPath = r.lookup ∧
        file.file = (r.hostPath, r.size, words i) := by
    intro i file hfile
    rw [hfiles] at hfile
    obtain ⟨r, hr, rfl⟩ := Option.map_eq_some_iff.mp hfile
    exact ⟨r, hr, NormalizeLookupPath_canonical r.dvdPath, rfl⟩
  unfold lastRegistration
  simp only [find?_reverse_key]
  constructor
  · rintro ⟨file, ⟨i, hlast, rfl⟩, rfl⟩
    obtain ⟨r, hr, hpath, hfile⟩ := hkey i file hlast.get
    refine ⟨i, r, ⟨hr, fun j r' hij hr' => ?_⟩, hpath.symm, hfile.symm⟩
    have hne := hlast.last j _ hij (by rw [hfiles, hr']; rfl)
    intro heq
    exact hne ((NormalizeLookupPath_canonical r'.dvdPath).trans (heq.trans hpath.symm))
  · rintro ⟨i, r, heff, rfl, rfl⟩
    refine ⟨(r.entry.placed (words i)).registered, ⟨i, ⟨?_, ?_⟩, ?_⟩, rfl⟩
    · rw [hfiles, heff.get]
      rfl
    · intro j file hij hfile
      obtain ⟨r', hr', hpath, -⟩ := hkey j file hfile
      rw [hpath]
      exact fun heq => heff.last j r' hij hr' (heq.trans (NormalizeLookupPath_canonical r.dvdPath))
    · exact NormalizeLookupPath_canonical r.dvdPath

/-- what is published: the effective registrations, at their offsets -/
theorem publishEntries_spec {reserved : Nat} {entries : List DVDFileEntry}
    (h : publishEntries fstFiles registrations reserved = some entries) :
    ∃ ends words, Offsets fstFiles registrations ends words ∧
      ∀ d, (∃ e ∈ entries, e.file = some d) ↔
        ∃ i r, Effective registrations i r ∧ (r.hostPath, r.size, words i) = d := by
  unfold publishEntries at h
  dsimp only at h
  split at h
  · cases h
  next es' hassign =>
  split at h
  · cases h
  next image himage =>
  split at h
  · cases h
  cases h
  have hplain : ∀ e ∈ keepOffsets fstFiles (registerAll registrations), e.isDirectory = false := by
    intro e he
    obtain ⟨i, hi⟩ := List.mem_iff_getElem?.mp he
    rw [keepOffsets_getElem?] at hi
    obtain ⟨r, -, rfl⟩ := Option.map_eq_some_iff.mp hi
    rfl
  have hassigns := assigns_of_assignOffsets hplain hassign
  refine ⟨_, wordsAt es', offsets_of_assigns rfl hassigns, fun d => ?_⟩
  have hplaced : ∀ i : Nat, (es'.map DVDFileEntry.registered)[i]? = registrations[i]?.map fun r =>
      (r.entry.placed (wordsAt es' i)).registered := by
    intro i
    rw [List.getElem?_map, hassigns.getElem?, keepOffsets_getElem?, Option.map_map, Option.map_map]
    rfl
  have hfiles := ((BuildImage_correct _).1 image himage).files
  constructor
  · rintro ⟨_, hmem, hd⟩
    obtain ⟨e, he, rfl⟩ := List.mem_map.mp hmem
    obtain ⟨i, r, heff, -, hr⟩ :=
      (lastRegistration_placed hplaced _ d).mp ((hfiles _ d).mp ⟨e, he, rfl, hd⟩)
    exact ⟨i, r, heff, hr⟩
  · rintro ⟨i, r, heff, hr⟩
    obtain ⟨e, he, -, hd⟩ :=
      (hfiles _ d).mpr ((lastRegistration_placed hplaced _ d).mpr ⟨i, r, heff, rfl, hr⟩)
    exact ⟨e.entry, List.mem_map_of_mem he, hd⟩

end DolTranslator.Dvd
