import DolTranslator.Gx.Commands
import Mathlib.Data.List.GetD

/-!
# A command stream in pieces

Every command does its length checks before its first side effect, but for the cache of vertex
formats, which a draw that is cut has filled already.

* `command_resumable`   a command looks at its own bytes only, and a cut one can be run again;
* `command_cut`   a command that is cut has no effect but that;
* `Run_in_pieces`   a stream in two pieces, and the stream whole.
-/

namespace DolTranslator.Gx

open Function Streams

/-! ## words of a stream -/

variable {data more : List Byte}

theorem be16_append (h : 2 ≤ data.length) :
    be16 (data ++ more) = be16 data := by
  unfold be16
  rw [List.getD_append _ _ _ _ (by omega), List.getD_append _ _ _ _ (by omega)]

theorem be32_append (h : 4 ≤ data.length) :
    be32 (data ++ more) = be32 data := by
  unfold be32
  rw [List.getD_append _ _ _ _ (by omega), List.getD_append _ _ _ _ (by omega),
    List.getD_append _ _ _ _ (by omega), List.getD_append _ _ _ _ (by omega)]

theorem be32_drop_append {n : Nat} (h : n + 4 ≤ data.length) :
    be32 ((data ++ more).drop n) = be32 (data.drop n) := by
  rw [List.drop_append_of_le_length (by omega), be32_append (by rw [List.length_drop]; omega)]

theorem be32s_append {count : Nat} (h : count * 4 ≤ data.length) :
    be32s (data ++ more) count = be32s data count := by
  unfold be32s
  refine List.map_congr_left fun i hi => ?_
  have hi : i < count := List.mem_range.mp hi
  exact be32_drop_append (by omega)

namespace Processor

variable (memory : Memory) (call : Processor → List Byte → Processor)

/-! ## draws -/

theorem DirectFormat_twice (p : Processor) (table : Nat) :
    (p.DirectFormat table).1.DirectFormat table = p.DirectFormat table := by
  unfold DirectFormat
  by_cases h : p.formatValid (table % 8) = true
  · simp only [h, if_true]
  · simp [h]

variable {p p' : Processor}

theorem drawRecords_append {cmd count : Nat} {format : VertexFormat}
    {rest : List Byte} (more : List Byte)
    (h : drawRecords memory p cmd count format data = some (p', rest)) :
    rest <:+ data ∧ drawRecords memory p cmd count format (data ++ more) = some (p', rest ++ more) := by
  obtain ⟨l, hl, h⟩ := Option.bind_eq_some_iff.mp h
  split at h
  · cases h
  · next hsize =>
    split at h
    · cases h
    · next hlen =>
      obtain ⟨rfl, rfl⟩ := Prod.mk.inj (Option.some.inj h)
      refine ⟨List.drop_suffix _ data, ?_⟩
      unfold drawRecords
      rw [hl, Option.bind_some, if_neg hsize, if_neg (by rw [List.length_append]; omega),
        List.take_append_of_le_length (by omega), List.drop_append_of_le_length (by omega)]

theorem drawRecords_tight {cmd count : Nat} {format : VertexFormat}
    {rest : List Byte}
    (h : drawRecords memory p cmd count format (data ++ more) = some (p', rest ++ more)) :
    drawRecords memory p cmd count format data = some (p', rest) := by
  obtain ⟨l, hl, h⟩ := Option.bind_eq_some_iff.mp h
  split at h
  · cases h
  · next hsize =>
    split at h
    · cases h
    · next hmore =>
      obtain ⟨rfl, hrest⟩ := Prod.mk.inj (Option.some.inj h)
      have hlen : l.streamSize * count ≤ data.length := by
        have hlengths := congrArg List.length hrest
        simp only [List.length_drop, List.length_append] at hlengths hmore
        omega
      rw [List.drop_append_of_le_length hlen] at hrest
      unfold drawRecords
      rw [hl, Option.bind_some, if_neg hsize, if_neg (by omega),
        List.take_append_of_le_length hlen, List.append_cancel_right hrest]

theorem RunDraw_body (cmd : Nat) : Body (RunDraw memory cmd) where
  suffix p data p' rest h := by
    unfold RunDraw at h
    split at h
    · cases h
    · dsimp only at h
      split at h
      · cases h
      · next hdraw =>
        cases h
        exact ((drawRecords_append memory [] hdraw).1).trans (List.drop_suffix 2 data)
  grows p data p' rest more h := by
    unfold RunDraw at h ⊢
    split at h
    · cases h
    · next hlen =>
      dsimp only at h ⊢
      split at h
      · cases h
      · next hdraw =>
        cases h
        rw [if_neg (by rw [List.length_append]; omega), be16_append (by omega),
          List.drop_append_of_le_length (by omega), (drawRecords_append memory more hdraw).2]
  tight p data p' rest more h := by
    unfold RunDraw at h ⊢
    split at h
    · cases h
    · next hmore =>
      dsimp only at h ⊢
      split at h
      · cases h
      · next hdraw =>
        obtain ⟨rfl, hrest⟩ := Prod.mk.inj h
        cases hrest
        have hlen : 2 ≤ data.length := by
          have hle := ((drawRecords_append memory [] hdraw).1).length_le
          simp only [List.length_drop, List.length_append] at hle hmore
          omega
        rw [be16_append hlen, List.drop_append_of_le_length hlen] at hdraw
        rw [if_neg (by omega), drawRecords_tight memory hdraw]
  retries p data p' more h := by
    unfold RunDraw at h
    split at h
    · cases h
      rfl
    · next hlen =>
      dsimp only at h
      split at h
      · cases h
        -- the cut draw has put its format in the cache, where the next try finds it
        unfold RunDraw
        rw [if_neg (by rw [List.length_append]; omega), if_neg (by rw [List.length_append]; omega),
          DirectFormat_twice]
      · cases h

/-! ## commands -/

theorem loadXFWords_body (header : BitVec 32) :
    Body fun (p : Processor) (data : List Byte) => p.loadXFWords header data := by
  unfold loadXFWords
  refine .fixed _ (fun (p : Processor) data => p.loadXF _ _ (be32s data _)) fun p data more h => ?_
  rw [be32s_append h]

theorem loadXF_body :
    Body fun (p : Processor) (data : List Byte) =>
      if data.length < 4 then (p, none) else p.loadXFWords (be32 data) (data.drop 4) where
  suffix p data p' rest h := by
    split at h
    · cases h
    · exact ((loadXFWords_body _).suffix _ _ _ _ h).trans (List.drop_suffix 4 data)
  grows p data p' rest more h := by
    split at h
    · cases h
    · next hlen =>
      rw [if_neg (by rw [List.length_append]; omega), be32_append (by omega),
        List.drop_append_of_le_length (by omega)]
      exact (loadXFWords_body _).grows _ _ _ _ more h
  tight p data p' rest more h := by
    split at h
    · cases h
    · next hmore =>
      have hlen : 4 ≤ data.length := by
        have hle := ((loadXFWords_body _).suffix _ _ _ _ h).length_le
        simp only [List.length_drop, List.length_append] at hle hmore
        omega
      rw [be32_append hlen, List.drop_append_of_le_length hlen] at h
      rw [if_neg (by omega)]
      exact (loadXFWords_body _).tight _ _ _ _ more h
  retries p data p' more h := by
    split at h
    · cases h
      rfl
    · next hlen =>
      rw [if_neg (by rw [List.length_append]; omega), if_neg (by rw [List.length_append]; omega),
        be32_append (by omega), List.drop_append_of_le_length (by omega)]
      exact (loadXFWords_body _).retries _ _ _ more h

theorem commandBody_body (cmd : Nat) : Body (commandBody memory call cmd) := by
  unfold commandBody
  refine .ite (RunDraw_body memory cmd) (.ite ?_ (.ite ?_ (.ite loadXF_body (.ite ?_ (.ite ?_
    (.ite ?_ .stop))))))
  · exact .skip
  · refine .fixed 5 (fun (p : Processor) data => p.LoadCP (data.getD 0 0).toNat (be32 (data.drop 1)))
      fun p data more h => ?_
    rw [List.getD_append _ _ _ _ (by omega), be32_drop_append (by omega)]
  · refine .fixed 4 (fun (p : Processor) data => p.LoadIndexed memory cmd (be32 data)) fun p data more h => ?_
    rw [be32_append h]
  · refine .fixed 8 (fun (p : Processor) data =>
      p.callList memory call (be32 data &&& 0x3FFFFFFF) (be32 (data.drop 4))) fun p data more h => ?_
    rw [be32_append (by omega), be32_drop_append (by omega)]
  · refine .fixed 4 (fun (p : Processor) data => p.loadBP (be32 data)) fun p data more h => ?_
    rw [be32_append h]

theorem command_resumable : Resumable (command memory call) :=
  .of_bodies (fun _ => rfl) (fun _ _ _ => rfl) fun byte => commandBody_body memory call byte.toNat

/-! ## streams -/

/-- the commands that are called from a stream with so many levels left -/
def callAt (levels : Nat) : Processor → List Byte → Processor :=
  match levels with
  | 0 => fun p _ => p
  | levels + 1 => fun p list => (runLevels memory levels p list).1

theorem runLevels_eq (levels : Nat) (p : Processor) (data : List Byte) :
    runLevels memory levels p data =
      loop (command memory (callAt memory levels)) data.length p data := by
  cases levels <;> rfl

theorem command_suffix {rest : List Byte}
    (h : command memory call p data = (p', some rest)) : rest <:+ data := by
  cases data with
  | nil => cases h
  | cons byte data =>
    exact ((commandBody_body memory call byte.toNat).suffix p data p' rest h).trans
      (List.suffix_cons byte data)

theorem runLevels_left (levels : Nat) (p : Processor) (data : List Byte) :
    (runLevels memory levels p data).2 =
      data.drop (data.length - (runLevels memory levels p data).2.length) := by
  rw [runLevels_eq]
  have hsuffix : (loop (command memory (callAt memory levels)) data.length p data).2 <:+ data :=
    loop_suffix (fun _ _ _ _ h => command_suffix memory _ h) data.length p data
  exact List.suffix_iff_eq_drop.mp hsuffix

theorem runLevels_append (levels : Nat) (p : Processor) (data more : List Byte) :
    runLevels memory levels p (data ++ more) =
      runLevels memory levels (runLevels memory levels p data).1
        ((runLevels memory levels p data).2 ++ more) := by
  rw [runLevels_eq, runLevels_eq memory levels p data, runLevels_eq]
  exact (command_resumable memory _).loop_append le_rfl le_rfl le_rfl

/-- a stop leaves the machine as it is, but for the cache of formats -/
def forgetFormats (p : Processor) : Processor :=
  { p with formats := fun _ => ⟨fun _ => false, fun _ => ⟨1, 0, 0⟩⟩, formatValid := fun _ => false }

theorem forgetFormats_DirectFormat (p : Processor) (table : Nat) :
    (p.DirectFormat table).1.forgetFormats = p.forgetFormats := by
  unfold DirectFormat
  split <;> rfl

theorem RunDraw_cut {cmd : Nat}
    (h : RunDraw memory cmd p data = (p', none)) : p'.forgetFormats = p.forgetFormats := by
  unfold RunDraw at h
  split at h
  · cases h
    rfl
  · dsimp only at h
    split at h
    · cases h
      exact forgetFormats_DirectFormat p _
    · cases h

theorem command_cut
    (h : command memory call p data = (p', none)) : p'.forgetFormats = p.forgetFormats := by
  cases data with
  | nil =>
    cases h
    rfl
  | cons byte data =>
    unfold command commandBody at h
    dsimp only at h
    by_cases hdraw : 0x80 ≤ byte.toNat ∧ byte.toNat ≤ 0xBF
    · rw [if_pos hdraw] at h
      exact RunDraw_cut memory h
    · rw [if_neg hdraw] at h
      unfold loadXFWords at h
      dsimp only at h
      repeat' split at h
      all_goals
        first
        | cases h; rfl
        | cases h

theorem runLevels_take (levels : Nat) (p : Processor) (data : List Byte) :
    (runLevels memory levels p (data.take (data.length -
        (runLevels memory levels p data).2.length))).2 = [] ∧
      (runLevels memory levels p (data.take (data.length -
        (runLevels memory levels p data).2.length))).1.forgetFormats =
          (runLevels memory levels p data).1.forgetFormats := by
  have hdata : data = data.take (data.length - (runLevels memory levels p data).2.length) ++
      (runLevels memory levels p data).2 := by
    conv_lhs => rw [← List.take_append_drop (data.length -
      (runLevels memory levels p data).2.length) data]
    rw [← runLevels_left]
  generalize hfront : data.take (data.length - (runLevels memory levels p data).2.length) =
    front at hdata
  rw [runLevels_eq memory levels p data] at hdata ⊢
  rw [runLevels_eq]
  exact (command_resumable memory _).loop_take (fun _ _ _ _ h => command_suffix memory _ h)
    (fun _ _ _ h => command_cut memory _ h) (le_of_eq (congrArg List.length hdata.symm)) le_rfl hdata

/-- **A stream in pieces.**  Whatever the processor and wherever the stream is split, running what
the first piece has left over gives the state, the registers, the callbacks and the byte count of
the whole; and a command that the split cuts has had no effect. -/
theorem Run_in_pieces (depth : Nat) (p : Processor) (data : List Byte) (k : Nat) :
    let first := Run memory depth p (data.take k)
    let second := Run memory depth first.1 (data.drop first.2)
    Run memory depth p data = (second.1, first.2 + second.2) ∧
      (Run memory depth p (data.take first.2)).2 = first.2 ∧
      (Run memory depth p (data.take first.2)).1.forgetFormats = first.1.forgetFormats := by
  intro first second
  have hleft := runLevels_left memory (kMaxDepth - depth) p (data.take k)
  have hwhole := runLevels_append memory (kMaxDepth - depth) p (data.take k) (data.drop k)
  have halone := runLevels_take memory (kMaxDepth - depth) p (data.take k)
  rw [List.take_append_drop] at hwhole
  generalize hr : runLevels memory (kMaxDepth - depth) p (data.take k) = r at hleft hwhole halone
  have hfirst : first = (r.1, (data.take k).length - r.2.length) := by
    show ((runLevels memory (kMaxDepth - depth) p (data.take k)).1, _) = _
    rw [hr]
  have hcount : first.2 ≤ (data.take k).length := by
    rw [hfirst]
    exact Nat.sub_le _ _
  have hrest : data.drop first.2 = r.2 ++ data.drop k := by
    conv_lhs => rw [← List.take_append_drop k data]
    rw [List.drop_append_of_le_length hcount, hfirst]
    exact congrArg (· ++ data.drop k) hleft.symm
  have htake : data.take first.2 = (data.take k).take ((data.take k).length - r.2.length) := by
    rw [hfirst] at hcount ⊢
    rw [List.take_take, Nat.min_eq_left]
    exact hcount.trans (List.length_take_le k data)
  refine ⟨?_, ?_, ?_⟩
  · have hsecond : second = ((runLevels memory (kMaxDepth - depth) p data).1,
        (data.drop first.2).length - (runLevels memory (kMaxDepth - depth) p data).2.length) := by
      show ((runLevels memory (kMaxDepth - depth) first.1 (data.drop first.2)).1,
        (data.drop first.2).length -
          (runLevels memory (kMaxDepth - depth) first.1 (data.drop first.2)).2.length) = _
      rw [hrest, hwhole, hfirst]
    have hle : (runLevels memory (kMaxDepth - depth) p data).2.length ≤ (data.drop first.2).length := by
      have hshort := runLevels_left memory (kMaxDepth - depth) r.1 (r.2 ++ data.drop k)
      rw [← hwhole] at hshort
      rw [hrest, hshort, List.length_drop]
      exact Nat.sub_le _ _
    have hcount' : first.2 ≤ data.length := hcount.trans (List.length_take_le' k data)
    show ((runLevels memory (kMaxDepth - depth) p data).1,
      data.length - (runLevels memory (kMaxDepth - depth) p data).2.length) = _
    rw [hsecond]
    rw [List.length_drop] at hle ⊢
    congr 1
    omega
  · show (data.take first.2).length -
      (runLevels memory (kMaxDepth - depth) p (data.take first.2)).2.length = _
    rw [htake, halone.1, ← htake, List.length_take, List.length_nil, Nat.sub_zero, Nat.min_eq_left]
    exact hcount.trans (List.length_take_le' k data)
  · show (runLevels memory (kMaxDepth - depth) p (data.take first.2)).1.forgetFormats = _
    rw [htake, halone.2, hfirst]

end Processor

end DolTranslator.Gx
