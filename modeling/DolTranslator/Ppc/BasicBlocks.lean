import DolTranslator.Ppc.Closure

/-!
# Basic blocks

`BasicBlockBuilder.Build` on the instructions that the disassembler returns.

* `leaders`, `leaderOf`, `build`   the builder: leaders, buckets, edges;
* `nextInFunction`   the addresses that control can reach next from an instruction;
* `BlocksRight`   a partition with the right edges;
* `EdgesRight`   when the edges are right: what a call ends, and where leaders lie;
* `blocks_right_iff`   the two are the same.
-/

namespace DolTranslator.Ppc

structure BasicBlock where
  startAddress : Word
  instructions : List PpcInstruction
  successors : List Word
  predecessors : List Word
deriving DecidableEq, Repr

/-- `EndAddress`, for an instruction that control can leave at its end -/
def PpcInstruction.endOf (ins : PpcInstruction) : Word := ins.address + 4

/-- a branch, a return or a jump table; the record forms and the comparisons count as conditional -/
def PpcInstruction.transfers (ins : PpcInstruction) : Bool :=
  ins.isConditionalBranch || ins.isReturn || ins.isUnconditionalBranch

/-! ## leaders -/

def jumpLeaders (ins : PpcInstruction) : List Word :=
  if ins.isConditionalBranch then ins.branchTargets ++ [ins.endOf]
  else if ins.isUnconditionalBranch then ins.branchTargets
  else []

/-- the instruction after one that control does not leave at its end -/
def gapLeader (previous ins : PpcInstruction) : Option Word :=
  if previous.isReturn || previous.isUnconditionalBranch || previous.endOf != ins.address then
    some ins.address
  else none

def consecutive (instructions : List PpcInstruction) : List (PpcInstruction × PpcInstruction) :=
  instructions.zip instructions.tail

def leaders (instructions : List PpcInstruction) (extraLeaders : List Word) : List Word :=
  (instructions.head?.map PpcInstruction.address).toList ++
    (instructions.map PpcInstruction.address).filter extraLeaders.contains ++
    (consecutive instructions).filterMap (fun p => gapLeader p.1 p.2) ++
    instructions.flatMap jumpLeaders

def sortedLeaders (instructions : List PpcInstruction) (extraLeaders : List Word) : List Word :=
  (leaders instructions extraLeaders).dedup.insertionSort (· ≤ ·)

/-- the greatest leader that is not above an address; the end of the last block is
`uint.MaxValue`, exclusive -/
def leaderOf (sorted : List Word) (address : Word) : Option Word :=
  if address = BitVec.allOnes 32 then none else (sorted.filter (· ≤ address)).getLast?

def bucket (sorted : List Word) (instructions : List PpcInstruction) (leader : Word) :
    List PpcInstruction :=
  instructions.filter fun ins => leaderOf sorted ins.address = some leader

/-- the leaders whose buckets are not empty -/
def blockStarts (instructions : List PpcInstruction) (extraLeaders : List Word) : List Word :=
  let sorted := sortedLeaders instructions extraLeaders
  sorted.filter fun leader => bucket sorted instructions leader ≠ []

def edgeTargets (term : PpcInstruction) : List Word :=
  if term.isConditionalBranch then term.branchTargets ++ [term.endOf]
  else if term.isUnconditionalBranch || term.isCall then term.branchTargets
  else if !term.isReturn then [term.endOf]
  else []

def successorsOf (starts : List Word) (bucket : List PpcInstruction) : List Word :=
  match bucket.getLast? with
  | some term => dedupFirst ((edgeTargets term).filter starts.contains)
  | none => []

/-- `BasicBlockBuilder.Build` -/
def build (instructions : List PpcInstruction) (extraLeaders : List Word) : List BasicBlock :=
  let sorted := sortedLeaders instructions extraLeaders
  let starts := blockStarts instructions extraLeaders
  let successors leader := successorsOf starts (bucket sorted instructions leader)
  starts.map fun leader => {
    startAddress := leader
    instructions := bucket sorted instructions leader
    successors := successors leader
    predecessors := starts.filter fun from_ => (successors from_).contains leader }

/-- where control can go next: both ways of a conditional branch, the return point of a call, the
targets of a jump, the next address after anything that is no return -/
def nextInFunction (ins : PpcInstruction) : List Word :=
  if ins.isConditionalBranch then ins.branchTargets ++ [ins.endOf]
  else if ins.isCall then [ins.endOf]
  else if ins.isReturn then []
  else if ins.branchTargets ≠ [] then ins.branchTargets
  else [ins.endOf]

def addresses (instructions : List PpcInstruction) : List Word :=
  instructions.map PpcInstruction.address

/-- a partition, with control leaving blocks at their ends only, and the right edges -/
structure BlocksRight (instructions : List PpcInstruction) (blocks : List BasicBlock) : Prop where
  partition : blocks.flatMap BasicBlock.instructions = instructions
  nonempty : ∀ b ∈ blocks, b.instructions ≠ []
  transfers_last : ∀ b ∈ blocks, ∀ ins ∈ b.instructions.dropLast, ins.transfers = false
  targets_start : ∀ ins ∈ instructions, ins.transfers = true → ∀ a ∈ ins.branchTargets,
    a ∈ addresses instructions → ∃ b ∈ blocks, b.startAddress = a ∧
      b.instructions.head?.map PpcInstruction.address = some a
  edges : ∀ b ∈ blocks, ∀ term, b.instructions.getLast? = some term → ∀ a,
    a ∈ b.successors ↔ a ∈ nextInFunction term ∧ a ∈ addresses instructions

/-! ## when the edges are right -/

/-- one instruction comes right after another -/
def Follows (instructions : List PpcInstruction) (x z : PpcInstruction) : Prop :=
  ∃ l r, instructions = l ++ x :: z :: r

/-- an address where a block has to begin -/
inductive IsLeader (instructions : List PpcInstruction) (extraLeaders : List Word) : Word → Prop where
  | first {ins : PpcInstruction} {rest : List PpcInstruction} (h : instructions = ins :: rest) :
      IsLeader instructions extraLeaders ins.address
  | requested {ins : PpcInstruction} (h : ins ∈ instructions) (hextra : ins.address ∈ extraLeaders) :
      IsLeader instructions extraLeaders ins.address
  | gap {x z : PpcInstruction} (h : Follows instructions x z)
      (hgap : x.isReturn = true ∨ x.isUnconditionalBranch = true ∨ x.endOf ≠ z.address) :
      IsLeader instructions extraLeaders z.address
  | jump {ins : PpcInstruction} {a : Word} (h : ins ∈ instructions) (ha : a ∈ jumpLeaders ins) :
      IsLeader instructions extraLeaders a

/-- no block goes on after an instruction -/
def EndsBlock (instructions : List PpcInstruction) (extraLeaders : List Word) (x : PpcInstruction) :
    Prop :=
  ∀ z, Follows instructions x z → IsLeader instructions extraLeaders z.address

/-- no leader lies inside an instruction that control leaves at its end -/
def InsideRight (instructions : List PpcInstruction) (extraLeaders : List Word) : Prop :=
  ∀ x z, Follows instructions x z → ¬ IsLeader instructions extraLeaders z.address →
    ∀ a, IsLeader instructions extraLeaders a → ¬ (x.address < a ∧ a < z.address)

/-- a call that ends a block branches to its own return point, among the places where blocks begin;
no leader lies inside an instruction that control leaves at its end -/
structure EdgesRight (instructions : List PpcInstruction) (extraLeaders : List Word) : Prop where
  calls : ∀ x ∈ instructions, x.isCall = true → x.isConditionalBranch = false →
    EndsBlock instructions extraLeaders x → ∀ a ∈ addresses instructions,
      IsLeader instructions extraLeaders a → (a ∈ x.branchTargets ↔ a = x.endOf)
  inside : InsideRight instructions extraLeaders

/-! ## lists in the order of their addresses -/

/-- what the disassembler says of its instructions -/
structure Listing (instructions : List PpcInstruction) : Prop where
  sorted : (instructions.map PpcInstruction.address).Pairwise (· < ·)
  falls : ∀ ins ∈ instructions, ins.fallsThrough = true → ins.address.toNat + 4 < 2 ^ 32
  bounded : ∀ ins ∈ instructions, ins.address ≠ BitVec.allOnes 32
  returns : ∀ ins ∈ instructions, ins.isCall = true → ins.isReturn = false
  return_targets : ∀ ins ∈ instructions, ins.isReturn = true → ins.branchTargets = []

theorem Result.listing {q : DisassemblyRequest} {tables : Tables}
    {instructions : List PpcInstruction} (h : Result q tables instructions) :
    Listing instructions where
  sorted := h.sorted
  falls := h.falls
  bounded ins hins he := by
    have hwin := ((h.mem_iff ins).mp hins).1.inside.1
    simp only [DisassemblyRequest.inWindow, decide_eq_true_eq, he] at hwin
    have hlt := BitVec.lt_def.mp hwin.2
    have := q.endAddress.isLt
    rw [BitVec.toNat_allOnes] at hlt
    omega
  returns ins hins hcall := by
    obtain ⟨word, seen, -, -, -, he⟩ := h.detected ins hins
    rw [he] at hcall ⊢
    generalize tables ins.address = table at *
    cases table with
    | some targets => rfl
    | none => exact (decodeWord_cases _ word).call_not_return hcall
  return_targets ins hins hreturn := by
    obtain ⟨word, seen, -, -, -, he⟩ := h.detected ins hins
    rw [he] at hreturn ⊢
    generalize tables ins.address = table at *
    cases table with
    | some targets => cases hreturn
    | none => exact (decodeWord_cases _ word).return_targets hreturn

section
variable {instructions : List PpcInstruction} {extraLeaders : List Word}
variable {x y z : PpcInstruction} {a : Word}

theorem Follows.mem (h : Follows instructions x z) : x ∈ instructions ∧ z ∈ instructions := by
  obtain ⟨l, r, rfl⟩ := h
  simp

theorem mem_consecutive : (x, z) ∈ consecutive instructions ↔ Follows instructions x z := by
  induction instructions with
  | nil =>
    constructor
    · intro h
      cases h
    · rintro ⟨l, r, h⟩
      simp at h
  | cons first rest ih =>
    cases rest with
    | nil =>
      constructor
      · intro h
        cases h
      · rintro ⟨l, r, h⟩
        have := congrArg List.length h
        simp at this
        omega
    | cons second rest =>
      have hcons : (x, z) ∈ consecutive (first :: second :: rest) ↔
          (x = first ∧ z = second) ∨ (x, z) ∈ consecutive (second :: rest) := by
        simp [consecutive]
      rw [hcons, ih]
      constructor
      · rintro (⟨rfl, rfl⟩ | ⟨l, r, h⟩)
        · exact ⟨[], rest, rfl⟩
        · exact ⟨first :: l, r, by rw [h]; rfl⟩
      · rintro ⟨l, r, h⟩
        cases l with
        | nil =>
          simp only [List.nil_append, List.cons.injEq] at h
          exact Or.inl ⟨h.1.symm, h.2.1.symm⟩
        | cons first' l =>
          simp only [List.cons_append, List.cons.injEq] at h
          exact Or.inr ⟨l, r, h.2⟩

theorem Listing.pairwise (h : Listing instructions) :
    instructions.Pairwise fun x y => x.address < y.address :=
  List.pairwise_map.mp h.sorted

theorem Listing.lt_of_follows (h : Listing instructions) (hxz : Follows instructions x z) :
    x.address < z.address := by
  obtain ⟨l, r, rfl⟩ := hxz
  have := (List.pairwise_append.mp h.pairwise).2.1
  exact List.rel_of_pairwise_cons this List.mem_cons_self

theorem Listing.follows_le (h : Listing instructions) (hxz : Follows instructions x z)
    (hy : y ∈ instructions) (hlt : x.address < y.address) : z.address ≤ y.address := by
  obtain ⟨l, r, rfl⟩ := hxz
  have hpair := List.pairwise_append.mp h.pairwise
  rcases List.mem_append.mp hy with hl | hr
  · exact absurd hlt (BitVec.lt_asymm (hpair.2.2 y hl x List.mem_cons_self))
  · rcases List.mem_cons.mp hr with rfl | hr
    · exact absurd hlt (BitVec.lt_irrefl _)
    · rcases List.mem_cons.mp hr with rfl | hr
      · exact BitVec.le_refl _
      · exact BitVec.le_of_lt (List.rel_of_pairwise_cons (List.pairwise_cons.mp hpair.2.1).2 hr)

theorem Listing.exists_follows (h : Listing instructions) (hx : x ∈ instructions)
    (hy : y ∈ instructions) (hlt : x.address < y.address) :
    ∃ z, Follows instructions x z ∧ z.address ≤ y.address := by
  obtain ⟨l, r, rfl⟩ := List.append_of_mem hx
  have hpair := List.pairwise_append.mp h.pairwise
  have hr : y ∈ r := by
    rcases List.mem_append.mp hy with hl | hr
    · have := hpair.2.2 y hl x List.mem_cons_self
      exact absurd hlt (BitVec.lt_asymm this)
    · rcases List.mem_cons.mp hr with rfl | hr
      · exact absurd hlt (BitVec.lt_irrefl _)
      · exact hr
  cases r with
  | nil => cases hr
  | cons z r => exact ⟨z, ⟨l, r, rfl⟩, h.follows_le ⟨l, r, rfl⟩ hy hlt⟩

/-- every instruction but the first has one right before it -/
theorem Listing.exists_before (hx : x ∈ instructions)
    (hfirst : ∀ rest, instructions ≠ x :: rest) : ∃ p, Follows instructions p x := by
  obtain ⟨l, r, rfl⟩ := List.append_of_mem hx
  rcases List.eq_nil_or_concat l with rfl | ⟨l, p, rfl⟩
  · exact absurd rfl (hfirst r)
  · exact ⟨p, l, r, by simp⟩

theorem Listing.eq_of_address (h : Listing instructions) (hx : x ∈ instructions)
    (hy : y ∈ instructions) (he : x.address = y.address) : x = y := by
  by_contra hne
  have hnodup : (instructions.map PpcInstruction.address).Nodup :=
    h.sorted.imp fun hlt he => by simp [he, BitVec.lt_irrefl] at hlt
  exact hne (List.inj_on_of_nodup_map hnodup hx hy he)

theorem mem_leaders : a ∈ leaders instructions extraLeaders ↔
    IsLeader instructions extraLeaders a := by
  unfold leaders
  simp only [List.mem_append, Option.mem_toList, Option.map_eq_some_iff,
    List.mem_filter, List.mem_map, List.contains_iff_mem, List.mem_filterMap, List.mem_flatMap]
  constructor
  · rintro (((⟨ins, hhead, rfl⟩ | ⟨⟨ins, hins, rfl⟩, hextra⟩) | ⟨⟨x, z⟩, hxz, hgap⟩) |
      ⟨ins, hins, ha⟩)
    · cases instructions with
      | nil => cases hhead
      | cons first rest =>
        obtain rfl := Option.some.inj hhead
        exact .first rfl
    · exact .requested hins hextra
    · unfold gapLeader at hgap
      split at hgap
      · rename_i hcond
        obtain rfl := Option.some.inj hgap
        refine .gap (mem_consecutive.mp hxz) ?_
        simpa [or_assoc] using hcond
      · cases hgap
    · exact .jump hins ha
  · intro h
    cases h with
    | first h => exact Or.inl (Or.inl (Or.inl ⟨_, by rw [h]; rfl, rfl⟩))
    | requested h hextra => exact Or.inl (Or.inl (Or.inr ⟨⟨_, h, rfl⟩, hextra⟩))
    | @gap x z h hgap =>
      refine Or.inl (Or.inr ⟨(x, z), mem_consecutive.mpr h, ?_⟩)
      have hcond : (x.isReturn || x.isUnconditionalBranch || x.endOf != z.address) = true := by
        simpa [or_assoc] using hgap
      exact if_pos hcond
    | jump h ha => exact Or.inr ⟨_, h, ha⟩

theorem mem_sortedLeaders : a ∈ sortedLeaders instructions extraLeaders ↔
    IsLeader instructions extraLeaders a := by
  rw [sortedLeaders, (List.perm_insertionSort _ _).mem_iff, List.mem_dedup, mem_leaders]

theorem sortedLeaders_sorted :
    (sortedLeaders instructions extraLeaders).Pairwise (· < ·) := by
  have hle : (sortedLeaders instructions extraLeaders).Pairwise (· ≤ ·) := by
    have htotal : Std.Total fun a b : Word => a ≤ b := ⟨BitVec.le_total⟩
    have htrans : IsTrans Word fun a b => a ≤ b := ⟨fun a b c => BitVec.le_trans⟩
    exact List.pairwise_insertionSort _ _
  have hne : (sortedLeaders instructions extraLeaders).Pairwise (· ≠ ·) :=
    ((List.perm_insertionSort _ _).nodup_iff).mpr (List.nodup_dedup _)
  exact (hle.and hne).imp fun h => BitVec.lt_of_le_ne h.1 h.2

end

/-! ## the blocks of the builder -/

theorem getLast?_sorted {l : List Word} (hl : l.Pairwise (· < ·)) {a : Word} :
    l.getLast? = some a ↔ a ∈ l ∧ ∀ b ∈ l, b ≤ a := by
  have hlast : ∀ {c : Word}, l.getLast? = some c → c ∈ l ∧ ∀ b ∈ l, b ≤ c := by
    intro c hc
    obtain ⟨l', rfl⟩ := List.getLast?_eq_some_iff.mp hc
    refine ⟨by simp, fun b hb => ?_⟩
    rcases List.mem_append.mp hb with hb | hb
    · exact BitVec.le_of_lt ((List.pairwise_append.mp hl).2.2 b hb c List.mem_cons_self)
    · obtain rfl := List.mem_singleton.mp hb
      exact BitVec.le_refl _
  refine ⟨hlast, fun ⟨ha, hmax⟩ => ?_⟩
  obtain ⟨c, hc⟩ : ∃ c, l.getLast? = some c := by
    rw [List.getLast?_eq_some_getLast (List.ne_nil_of_mem ha)]
    exact ⟨_, rfl⟩
  rw [hc, BitVec.le_antisymm (hmax c (hlast hc).1) ((hlast hc).2 a ha)]

theorem leaderOf_eq_some {sorted : List Word} (hsorted : sorted.Pairwise (· < ·)) {a L : Word} :
    leaderOf sorted a = some L ↔ a ≠ BitVec.allOnes 32 ∧ (L ∈ sorted ∧ L ≤ a) ∧
      ∀ M ∈ sorted, M ≤ a → M ≤ L := by
  unfold leaderOf
  split
  · rename_i hmax
    simp [hmax]
  · rename_i hmax
    rw [getLast?_sorted (hsorted.filter _)]
    simp only [List.mem_filter, decide_eq_true_eq, and_imp]
    exact ⟨fun h => ⟨hmax, h⟩, fun h => h.2⟩

theorem mem_bucket {sorted : List Word} {instructions : List PpcInstruction} {L : Word}
    {ins : PpcInstruction} : ins ∈ bucket sorted instructions L ↔
      ins ∈ instructions ∧ leaderOf sorted ins.address = some L := by
  rw [bucket, List.mem_filter, decide_eq_true_eq]

theorem eq_of_sorted {l r : List PpcInstruction}
    (hl : l.Pairwise fun x y => x.address < y.address)
    (hr : r.Pairwise fun x y => x.address < y.address) (h : ∀ x, x ∈ l ↔ x ∈ r) : l = r := by
  have hnodup : ∀ {l : List PpcInstruction}, (l.Pairwise fun x y => x.address < y.address) →
      l.Nodup := fun hl => hl.imp fun hlt he => by simp [he, BitVec.lt_irrefl] at hlt
  exact ((List.perm_ext_iff_of_nodup (hnodup hl) (hnodup hr)).mpr h).eq_of_pairwise
    (fun a b _ _ hab hba => absurd hab (BitVec.lt_asymm hba)) hl hr

section
variable {instructions : List PpcInstruction} {extraLeaders : List Word}
variable {x y z : PpcInstruction} {a L : Word}

theorem leader_spec : leaderOf (sortedLeaders instructions extraLeaders) a = some L ↔
    a ≠ BitVec.allOnes 32 ∧ (IsLeader instructions extraLeaders L ∧ L ≤ a) ∧
      ∀ M, IsLeader instructions extraLeaders M → M ≤ a → M ≤ L := by
  rw [leaderOf_eq_some sortedLeaders_sorted]
  simp only [mem_sortedLeaders]

theorem mem_blockStarts : L ∈ blockStarts instructions extraLeaders ↔
    ∃ ins ∈ instructions,
      leaderOf (sortedLeaders instructions extraLeaders) ins.address = some L := by
  unfold blockStarts
  rw [List.mem_filter, decide_eq_true_eq]
  constructor
  · rintro ⟨-, hne⟩
    obtain ⟨ins, hins⟩ := List.exists_mem_of_ne_nil _ hne
    exact ⟨ins, mem_bucket.mp hins⟩
  · rintro ⟨ins, hins, hleader⟩
    exact ⟨mem_sortedLeaders.mpr (leader_spec.mp hleader).2.1.1,
      List.ne_nil_of_mem (mem_bucket.mpr ⟨hins, hleader⟩)⟩

theorem Listing.leader_self (h : Listing instructions) (hx : x ∈ instructions)
    (hleader : IsLeader instructions extraLeaders x.address) :
    leaderOf (sortedLeaders instructions extraLeaders) x.address = some x.address :=
  leader_spec.mpr ⟨h.bounded x hx, ⟨hleader, BitVec.le_refl _⟩, fun _ _ hle => hle⟩

theorem Listing.exists_leader (h : Listing instructions) (extraLeaders : List Word)
    (hx : x ∈ instructions) :
    ∃ L, leaderOf (sortedLeaders instructions extraLeaders) x.address = some L := by
  obtain ⟨first, rest, rfl⟩ := List.exists_cons_of_ne_nil (List.ne_nil_of_mem hx)
  have hle : first.address ≤ x.address := by
    rcases List.mem_cons.mp hx with rfl | hx
    · exact BitVec.le_refl _
    · exact BitVec.le_of_lt (List.rel_of_pairwise_cons h.pairwise hx)
  have hmem : first.address ∈ (sortedLeaders (first :: rest) extraLeaders).filter
      (· ≤ x.address) := by
    rw [List.mem_filter, decide_eq_true_eq]
    exact ⟨mem_sortedLeaders.mpr (.first rfl), hle⟩
  rw [leaderOf, if_neg (h.bounded x hx), List.getLast?_eq_some_getLast (List.ne_nil_of_mem hmem)]
  exact ⟨_, rfl⟩

theorem bucket_sorted (h : Listing instructions) (sorted : List Word) (L : Word) :
    (bucket sorted instructions L).Pairwise fun x y => x.address < y.address :=
  h.pairwise.filter _

theorem Listing.partition (h : Listing instructions) :
    (build instructions extraLeaders).flatMap BasicBlock.instructions = instructions := by
  have hbuild : (build instructions extraLeaders).flatMap BasicBlock.instructions =
      (blockStarts instructions extraLeaders).flatMap
        (bucket (sortedLeaders instructions extraLeaders) instructions) := by
    simp only [build, List.flatMap_map]
  rw [hbuild]
  refine eq_of_sorted ?_ h.pairwise fun x => ?_
  · refine List.pairwise_flatMap.mpr ⟨fun L _ => bucket_sorted h _ L, ?_⟩
    refine (sortedLeaders_sorted.filter _).imp fun {L M} hlt x hx y hy => ?_
    obtain ⟨-, -, hmax⟩ := leader_spec.mp (mem_bucket.mp hx).2
    obtain ⟨-, ⟨hM, hle⟩, -⟩ := leader_spec.mp (mem_bucket.mp hy).2
    by_contra hxy
    have hMx : M ≤ x.address := BitVec.le_trans hle (BitVec.not_lt.mp hxy)
    exact BitVec.not_lt.mpr (hmax M hM hMx) hlt
  · rw [List.mem_flatMap]
    constructor
    · rintro ⟨L, -, hx⟩
      exact (mem_bucket.mp hx).1
    · intro hx
      obtain ⟨L, hL⟩ := h.exists_leader extraLeaders hx
      exact ⟨L, mem_blockStarts.mpr ⟨x, hx, hL⟩, mem_bucket.mpr ⟨hx, hL⟩⟩

/-! ### where blocks end -/

theorem leader_lt (hx : leaderOf (sortedLeaders instructions extraLeaders) x.address = some L)
    {M : Word} (hy : leaderOf (sortedLeaders instructions extraLeaders) y.address = some M)
    (ha : IsLeader instructions extraLeaders a) (hxa : x.address < a) (hay : a ≤ y.address) :
    L ≠ M := by
  rintro rfl
  obtain ⟨-, ⟨-, hL⟩, -⟩ := leader_spec.mp hx
  have hle := (leader_spec.mp hy).2.2 a ha hay
  exact BitVec.not_lt.mpr (BitVec.le_trans hle hL) hxa

theorem leader_after_transfer (hxz : Follows instructions x z) (ht : x.transfers = true) :
    IsLeader instructions extraLeaders z.address := by
  by_cases hend : x.endOf = z.address
  · unfold PpcInstruction.transfers at ht
    by_cases hc : x.isConditionalBranch = true
    · refine .jump hxz.mem.1 ?_
      rw [jumpLeaders, if_pos hc, hend]
      exact List.mem_append_right _ List.mem_cons_self
    · refine .gap hxz ?_
      simpa [hc, or_assoc, hend] using ht
  · exact .gap hxz (Or.inr (Or.inr hend))

theorem last_of_bucket (h : Listing instructions) {sorted : List Word}
    (hx : (bucket sorted instructions L).getLast? = some x) (hy : y ∈ bucket sorted instructions L) :
    y.address ≤ x.address := by
  obtain ⟨l, hl⟩ := List.getLast?_eq_some_iff.mp hx
  have hpair := bucket_sorted h sorted L
  rw [hl] at hpair hy
  rcases List.mem_append.mp hy with hy | hy
  · exact BitVec.le_of_lt ((List.pairwise_append.mp hpair).2.2 y hy x List.mem_cons_self)
  · obtain rfl := List.mem_singleton.mp hy
    exact BitVec.le_refl _

theorem getLast?_of_max (h : Listing instructions) {sorted : List Word}
    (hx : x ∈ bucket sorted instructions L)
    (hmax : ∀ y ∈ bucket sorted instructions L, y.address ≤ x.address) :
    (bucket sorted instructions L).getLast? = some x := by
  obtain ⟨y, hy⟩ : ∃ y, (bucket sorted instructions L).getLast? = some y := by
    rw [List.getLast?_eq_some_getLast (List.ne_nil_of_mem hx)]
    exact ⟨_, rfl⟩
  have hmem := List.mem_of_getLast? hy
  have he : x = y := h.eq_of_address (mem_bucket.mp hx).1 (mem_bucket.mp hmem).1
    (BitVec.le_antisymm (last_of_bucket h hy hx) (hmax y hmem))
  rw [hy, he]

theorem Listing.last_of_leader (h : Listing instructions) (hx : x ∈ instructions)
    (hL : leaderOf (sortedLeaders instructions extraLeaders) x.address = some L)
    (hnext : ∀ z, Follows instructions x z → ∃ a, IsLeader instructions extraLeaders a ∧
      x.address < a ∧ a ≤ z.address) :
    (bucket (sortedLeaders instructions extraLeaders) instructions L).getLast? = some x := by
  refine getLast?_of_max h (mem_bucket.mpr ⟨hx, hL⟩) fun y hy => ?_
  obtain ⟨hy, hyL⟩ := mem_bucket.mp hy
  by_contra hlt
  obtain ⟨z, hz, hzy⟩ := h.exists_follows hx hy (BitVec.not_le.mp hlt)
  obtain ⟨a, ha, hxa, haz⟩ := hnext z hz
  exact leader_lt hL hyL ha hxa (BitVec.le_trans haz hzy) rfl

theorem Listing.leader_of_last (h : Listing instructions)
    (hx : (bucket (sortedLeaders instructions extraLeaders) instructions L).getLast? = some x)
    (hxz : Follows instructions x z) :
    ∃ a, IsLeader instructions extraLeaders a ∧ x.address < a ∧ a ≤ z.address := by
  obtain ⟨hmem, hL⟩ := mem_bucket.mp (List.mem_of_getLast? hx)
  obtain ⟨M, hM⟩ := h.exists_leader extraLeaders hxz.mem.2
  obtain ⟨-, ⟨hlead, hle⟩, hmax⟩ := leader_spec.mp hM
  refine ⟨M, hlead, ?_, hle⟩
  by_contra hnot
  have hMx : M ≤ x.address := BitVec.not_lt.mp hnot
  -- otherwise the next instruction would be in the same bucket
  have hsame : L = M := by
    obtain ⟨-, ⟨hLlead, hLx⟩, hmax'⟩ := leader_spec.mp hL
    have hlt := h.lt_of_follows hxz
    exact BitVec.le_antisymm (hmax L hLlead (BitVec.le_trans hLx (BitVec.le_of_lt hlt)))
      (hmax' M hlead hMx)
  have hz := last_of_bucket h hx (mem_bucket.mpr ⟨hxz.mem.2, hsame ▸ hM⟩)
  exact BitVec.not_lt.mpr hz (h.lt_of_follows hxz)

theorem Listing.transfers_last (h : Listing instructions)
    (hx : x ∈ (bucket (sortedLeaders instructions extraLeaders) instructions L).dropLast) :
    x.transfers = false := by
  by_contra ht
  have ht : x.transfers = true := by simpa using ht
  obtain ⟨hmem, hL⟩ := mem_bucket.mp (List.mem_of_mem_dropLast hx)
  have hlast := h.last_of_leader hmem hL fun z hz =>
    ⟨z.address, leader_after_transfer hz ht, h.lt_of_follows hz, BitVec.le_refl _⟩
  obtain ⟨l, hl⟩ := List.getLast?_eq_some_iff.mp hlast
  rw [hl, List.dropLast_concat] at hx
  have hpair := bucket_sorted h (sortedLeaders instructions extraLeaders) L
  rw [hl] at hpair
  have := (List.pairwise_append.mp hpair).2.2 x hx x List.mem_cons_self
  exact BitVec.lt_irrefl _ this

/-! ### where blocks begin -/

theorem mem_addresses : a ∈ addresses instructions ↔ ∃ ins ∈ instructions, ins.address = a :=
  List.mem_map

theorem Listing.not_first (h : Listing instructions) (hx : x ∈ instructions)
    (hlt : x.address < y.address) (rest : List PpcInstruction) : instructions ≠ y :: rest := by
  rintro rfl
  rcases List.mem_cons.mp hx with rfl | hx
  · exact BitVec.lt_irrefl _ hlt
  · exact BitVec.lt_asymm hlt (List.rel_of_pairwise_cons h.pairwise hx)

theorem Listing.mem_starts (h : Listing instructions) (ha : a ∈ addresses instructions)
    (hleader : IsLeader instructions extraLeaders a) :
    a ∈ blockStarts instructions extraLeaders := by
  obtain ⟨ins, hins, rfl⟩ := mem_addresses.mp ha
  exact mem_blockStarts.mpr ⟨ins, hins, h.leader_self hins hleader⟩

theorem Listing.start_mem (h : Listing instructions) (hright : InsideRight instructions extraLeaders)
    (ha : a ∈ blockStarts instructions extraLeaders) :
    a ∈ addresses instructions ∧ IsLeader instructions extraLeaders a := by
  obtain ⟨ins, hins, hleader⟩ := mem_blockStarts.mp ha
  refine ⟨?_, (leader_spec.mp hleader).2.1.1⟩
  by_contra hnot
  have hmem := mem_bucket.mpr ⟨hins, hleader⟩
  obtain ⟨x, rest, hbucket⟩ := List.exists_cons_of_ne_nil (List.ne_nil_of_mem hmem)
  have hx : x ∈ bucket (sortedLeaders instructions extraLeaders) instructions a := by
    rw [hbucket]
    exact List.mem_cons_self
  obtain ⟨hxmem, hxa⟩ := mem_bucket.mp hx
  obtain ⟨-, ⟨hlead, hle⟩, hmax⟩ := leader_spec.mp hxa
  have hne : a ≠ x.address := fun he => hnot (mem_addresses.mpr ⟨x, hxmem, he.symm⟩)
  have hnotleader : ¬ IsLeader instructions extraLeaders x.address := fun hl =>
    hne (BitVec.le_antisymm hle (hmax _ hl (BitVec.le_refl _)))
  obtain ⟨p, hpx⟩ := Listing.exists_before hxmem fun rest hrest => hnotleader (.first hrest)
  have hplt := h.lt_of_follows hpx
  refine hright p x hpx hnotleader a hlead ⟨?_, BitVec.lt_of_le_ne hle hne⟩
  by_contra hpa
  have hap : a ≤ p.address := BitVec.not_lt.mp hpa
  -- otherwise the instruction before the first one would be in the bucket
  have hpin : p ∈ bucket (sortedLeaders instructions extraLeaders) instructions a :=
    mem_bucket.mpr ⟨hpx.mem.1, leader_spec.mpr ⟨h.bounded p hpx.mem.1, ⟨hlead, hap⟩,
      fun M hM hMp => hmax M hM (BitVec.le_trans hMp (BitVec.le_of_lt hplt))⟩⟩
  have hpair := bucket_sorted h (sortedLeaders instructions extraLeaders) a
  rw [hbucket] at hpin hpair
  rcases List.mem_cons.mp hpin with rfl | hpin
  · exact BitVec.lt_irrefl _ hplt
  · exact BitVec.lt_asymm hplt (List.rel_of_pairwise_cons hpair hpin)

theorem Listing.mem_starts_iff (h : Listing instructions)
    (hright : InsideRight instructions extraLeaders) :
    a ∈ blockStarts instructions extraLeaders ↔
      a ∈ addresses instructions ∧ IsLeader instructions extraLeaders a :=
  ⟨h.start_mem hright, fun ha => h.mem_starts ha.1 ha.2⟩

theorem Listing.end_leader (h : Listing instructions) (hright : InsideRight instructions extraLeaders)
    (hx : (bucket (sortedLeaders instructions extraLeaders) instructions L).getLast? = some x)
    (hfalls : x.fallsThrough = true) (hend : x.endOf ∈ addresses instructions) :
    IsLeader instructions extraLeaders x.endOf := by
  obtain ⟨hmem, -⟩ := mem_bucket.mp (List.mem_of_getLast? hx)
  obtain ⟨e, he, haddress⟩ := mem_addresses.mp hend
  have hbound := h.falls x hmem hfalls
  have hlt : x.address < e.address := by
    rw [haddress, PpcInstruction.endOf, BitVec.lt_def, BitVec.toNat_add]
    simp only [BitVec.reduceToNat]
    omega
  obtain ⟨p, hpe⟩ := Listing.exists_before he (h.not_first hmem hlt)
  rw [← haddress]
  by_cases hgap : p.endOf = e.address
  · have hpx : p = x := h.eq_of_address hpe.mem.1 hmem
      (BitVec.add_left_inj _ |>.mp (hgap.trans haddress))
    subst hpx
    obtain ⟨a, ha, hpa, hae⟩ := h.leader_of_last hx hpe
    by_contra hnot
    have hne : a ≠ e.address := fun heq => hnot (heq ▸ ha)
    exact hright p e hpe hnot a ha ⟨hpa, BitVec.lt_of_le_ne hae hne⟩
  · exact .gap hpe (Or.inr (Or.inr hgap))

/-! ## edges -/

theorem mem_dedupFirst {targets : List Word} : a ∈ dedupFirst targets ↔ a ∈ targets := by
  simp [dedupFirst]

theorem of_mem_build {b : BasicBlock} (hb : b ∈ build instructions extraLeaders) :
    ∃ L ∈ blockStarts instructions extraLeaders,
      b.instructions = bucket (sortedLeaders instructions extraLeaders) instructions L ∧
      b.successors = successorsOf (blockStarts instructions extraLeaders) b.instructions := by
  rw [build, List.mem_map] at hb
  obtain ⟨L, hL, rfl⟩ := hb
  exact ⟨L, hL, rfl, rfl⟩

theorem exists_block (hL : L ∈ blockStarts instructions extraLeaders) :
    ∃ b ∈ build instructions extraLeaders, b.startAddress = L ∧
      b.instructions = bucket (sortedLeaders instructions extraLeaders) instructions L ∧
      b.successors = successorsOf (blockStarts instructions extraLeaders) b.instructions :=
  ⟨_, List.mem_map_of_mem hL, rfl, rfl, rfl⟩

theorem mem_successorsOf {starts : List Word} {l : List PpcInstruction}
    (hx : l.getLast? = some x) :
    a ∈ successorsOf starts l ↔ a ∈ edgeTargets x ∧ a ∈ starts := by
  rw [successorsOf, hx]
  simp only [mem_dedupFirst, List.mem_filter, List.contains_iff_mem]

/-- but for calls, the builder asks for the edges that control takes -/
theorem edgeTargets_eq (h : x.isConditionalBranch = true ∨ x.isCall = false) :
    edgeTargets x = nextInFunction x := by
  unfold edgeTargets nextInFunction
  by_cases hc : x.isConditionalBranch = true
  · rw [if_pos hc, if_pos hc]
  · have hcall := h.resolve_left hc
    have hc : x.isConditionalBranch = false := by simpa using hc
    simp only [hc, hcall, Bool.or_false, PpcInstruction.isUnconditionalBranch]
    cases hr : x.isReturn <;> by_cases ht : x.branchTargets = [] <;> simp [ht]

theorem edgeTargets_call (hc : x.isConditionalBranch = false) (hcall : x.isCall = true) :
    edgeTargets x = x.branchTargets ∧ nextInFunction x = [x.endOf] := by
  unfold edgeTargets nextInFunction
  simp [hc, hcall]

theorem next_leader (hx : x ∈ instructions) (hcall : x.isConditionalBranch = true ∨ x.isCall = false)
    (ha : a ∈ nextInFunction x) :
    IsLeader instructions extraLeaders a ∨ x.fallsThrough = true ∧ a = x.endOf := by
  unfold nextInFunction at ha
  by_cases hc : x.isConditionalBranch = true
  · rw [if_pos hc] at ha
    exact Or.inl (.jump hx (by rwa [jumpLeaders, if_pos hc]))
  have hcall := hcall.resolve_left hc
  have hcf : x.isConditionalBranch = false := by simpa using hc
  simp only [hcf, hcall, Bool.false_eq_true, if_false] at ha
  by_cases hr : x.isReturn = true
  · simp [hr] at ha
  have hrf : x.isReturn = false := by simpa using hr
  simp only [hrf, Bool.false_eq_true, if_false] at ha
  split at ha
  · rename_i ht
    have hu : x.isUnconditionalBranch = true := by
      simp [PpcInstruction.isUnconditionalBranch, ht, hcf, hcall, hrf]
    exact Or.inl (.jump hx (by rwa [jumpLeaders, if_neg hc, if_pos hu]))
  · rename_i ht
    have hu : x.isUnconditionalBranch = false := by
      have ht : x.branchTargets = [] := by simpa using ht
      simp [PpcInstruction.isUnconditionalBranch, ht]
    exact Or.inr ⟨by simp [PpcInstruction.fallsThrough, hu, hrf], List.mem_singleton.mp ha⟩

theorem next_of_plain (h : x.transfers = false) : x.endOf ∈ nextInFunction x := by
  simp only [PpcInstruction.transfers, Bool.or_eq_false_iff] at h
  obtain ⟨⟨hc, hr⟩, hu⟩ := h
  unfold nextInFunction
  simp only [hc, hr, Bool.false_eq_true, if_false]
  split
  · exact List.mem_cons_self
  · rename_i hcall
    rw [if_neg]
    · exact List.mem_cons_self
    · intro ht
      simp [PpcInstruction.isUnconditionalBranch, ht, hc, hr, hcall] at hu

theorem call_falls (hcall : x.isCall = true) (hr : x.isReturn = false) : x.fallsThrough = true := by
  simp [PpcInstruction.fallsThrough, PpcInstruction.isUnconditionalBranch, hcall, hr]

theorem Listing.edges (h : Listing instructions) (hright : EdgesRight instructions extraLeaders)
    (hx : (bucket (sortedLeaders instructions extraLeaders) instructions L).getLast? = some x) :
    (a ∈ edgeTargets x ∧ a ∈ blockStarts instructions extraLeaders) ↔
      a ∈ nextInFunction x ∧ a ∈ addresses instructions := by
  obtain ⟨hmem, -⟩ := mem_bucket.mp (List.mem_of_getLast? hx)
  rw [h.mem_starts_iff hright.inside]
  by_cases hcall : x.isConditionalBranch = true ∨ x.isCall = false
  · rw [edgeTargets_eq hcall]
    refine ⟨fun ha => ⟨ha.1, ha.2.1⟩, fun ha => ⟨ha.1, ha.2, ?_⟩⟩
    rcases next_leader hmem hcall ha.1 with hleader | ⟨hfalls, rfl⟩
    · exact hleader
    · exact h.end_leader hright.inside hx hfalls ha.2
  · rw [not_or, Bool.not_eq_true, Bool.not_eq_false] at hcall
    obtain ⟨hc, hcall⟩ := hcall
    rw [(edgeTargets_call hc hcall).1, (edgeTargets_call hc hcall).2, List.mem_singleton]
    have hends : EndsBlock instructions extraLeaders x := fun z hz => by
      obtain ⟨b, hb, hxb, hbz⟩ := h.leader_of_last hx hz
      by_contra hnot
      have hne : b ≠ z.address := fun he => hnot (he ▸ hb)
      exact hright.inside x z hz hnot b hb ⟨hxb, BitVec.lt_of_le_ne hbz hne⟩
    constructor
    · rintro ⟨ht, ha, hleader⟩
      exact ⟨(hright.calls x hmem hcall hc hends a ha hleader).mp ht, ha⟩
    · rintro ⟨rfl, ha⟩
      have hleader := h.end_leader hright.inside hx (call_falls hcall (h.returns x hmem hcall)) ha
      exact ⟨(hright.calls x hmem hcall hc hends _ ha hleader).mpr rfl, ha, hleader⟩

theorem Listing.targets_start (h : Listing instructions) (extraLeaders : List Word)
    (hx : x ∈ instructions)
    (ht : x.transfers = true) (ha : a ∈ x.branchTargets) (hmem : a ∈ addresses instructions) :
    a ∈ blockStarts instructions extraLeaders ∧
      ((bucket (sortedLeaders instructions extraLeaders) instructions a).head?.map
        PpcInstruction.address) = some a := by
  have hjump : a ∈ jumpLeaders x := by
    unfold PpcInstruction.transfers at ht
    unfold jumpLeaders
    split
    · exact List.mem_append_left _ ha
    · rename_i hc
      have hr : x.isReturn = false := by
        by_contra hr
        rw [h.return_targets x hx (Bool.eq_true_of_not_eq_false hr)] at ha
        cases ha
      have hu : x.isUnconditionalBranch = true := by simpa [hc, hr] using ht
      rwa [if_pos hu]
  have hleader : IsLeader instructions extraLeaders a := .jump hx hjump
  refine ⟨h.mem_starts hmem hleader, ?_⟩
  obtain ⟨ins, hins, rfl⟩ := mem_addresses.mp hmem
  have hin : ins ∈ bucket (sortedLeaders instructions extraLeaders) instructions ins.address :=
    mem_bucket.mpr ⟨hins, h.leader_self hins hleader⟩
  obtain ⟨first, rest, hbucket⟩ := List.exists_cons_of_ne_nil (List.ne_nil_of_mem hin)
  have hpair := bucket_sorted h (sortedLeaders instructions extraLeaders) ins.address
  rw [hbucket] at hin hpair ⊢
  rcases List.mem_cons.mp hin with rfl | hrest
  · rfl
  · have hfirst : first ∈ bucket (sortedLeaders instructions extraLeaders) instructions
        ins.address := by
      rw [hbucket]
      exact List.mem_cons_self
    obtain ⟨-, ⟨-, hle⟩, -⟩ := leader_spec.mp (mem_bucket.mp hfirst).2
    exact absurd (List.rel_of_pairwise_cons hpair hrest) (BitVec.not_lt.mpr hle)

theorem Listing.blocksRight (h : Listing instructions)
    (hright : EdgesRight instructions extraLeaders) :
    BlocksRight instructions (build instructions extraLeaders) where
  partition := h.partition
  nonempty b hb := by
    obtain ⟨L, hL, hins, -⟩ := of_mem_build hb
    obtain ⟨ins, hmem, hleader⟩ := mem_blockStarts.mp hL
    rw [hins]
    exact List.ne_nil_of_mem (mem_bucket.mpr ⟨hmem, hleader⟩)
  transfers_last b hb ins hins := by
    obtain ⟨L, -, hbucket, -⟩ := of_mem_build hb
    rw [hbucket] at hins
    exact h.transfers_last hins
  targets_start ins hins ht a ha hmem := by
    obtain ⟨hstart, hfirst⟩ := h.targets_start extraLeaders hins ht ha hmem
    obtain ⟨b, hb, hba, hbucket, -⟩ := exists_block hstart
    exact ⟨b, hb, hba, hbucket ▸ hfirst⟩
  edges b hb term hterm a := by
    obtain ⟨L, -, hbucket, hsucc⟩ := of_mem_build hb
    rw [hsucc, mem_successorsOf hterm]
    exact h.edges hright (hbucket ▸ hterm)

theorem Listing.edgesRight (h : Listing instructions)
    (hblocks : BlocksRight instructions (build instructions extraLeaders)) :
    EdgesRight instructions extraLeaders := by
  have hedges : ∀ {L : Word} {x : PpcInstruction},
      (bucket (sortedLeaders instructions extraLeaders) instructions L).getLast? = some x → ∀ a,
      (a ∈ edgeTargets x ∧ a ∈ blockStarts instructions extraLeaders) ↔
        a ∈ nextInFunction x ∧ a ∈ addresses instructions := by
    intro L x hx a
    obtain ⟨hmem, hL⟩ := mem_bucket.mp (List.mem_of_getLast? hx)
    obtain ⟨b, hb, -, hbucket, hsucc⟩ := exists_block (mem_blockStarts.mpr ⟨x, hmem, hL⟩)
    have hterm : b.instructions.getLast? = some x := hbucket ▸ hx
    have := hblocks.edges b hb x hterm a
    rwa [hsucc, mem_successorsOf hterm] at this
  refine ⟨fun x hx hcall hc hends a ha hleader => ?_, fun x z hxz hnot a ha ⟨hxa, haz⟩ => ?_⟩
  · obtain ⟨L, hL⟩ := h.exists_leader extraLeaders hx
    have hlast := h.last_of_leader hx hL fun z hz =>
      ⟨z.address, hends z hz, h.lt_of_follows hz, BitVec.le_refl _⟩
    have := hedges hlast a
    rw [(edgeTargets_call hc hcall).1, (edgeTargets_call hc hcall).2, List.mem_singleton] at this
    simpa [ha, h.mem_starts ha hleader] using this
  · -- control goes on to an instruction that begins no block
    obtain ⟨L, hL⟩ := h.exists_leader extraLeaders hxz.mem.1
    have hlast := h.last_of_leader hxz.mem.1 hL fun y hy => ⟨a, ha, hxa, BitVec.le_trans
      (BitVec.le_of_lt haz) (h.follows_le hxz hy.mem.2 (h.lt_of_follows hy))⟩
    have hend : x.endOf = z.address := by
      by_contra hgap
      exact hnot (.gap hxz (Or.inr (Or.inr hgap)))
    have hplain : x.transfers = false := by
      by_contra ht
      exact hnot (leader_after_transfer hxz (by simpa using ht))
    have hz := (hedges hlast x.endOf).mpr ⟨next_of_plain hplain, hend ▸ mem_addresses.mpr ⟨z, hxz.mem.2, rfl⟩⟩
    obtain ⟨ins, hins, hleader⟩ := mem_blockStarts.mp hz.2
    exact hnot (hend ▸ (leader_spec.mp hleader).2.1.1)

end

/-- **The blocks are right exactly when the edges are.** -/
theorem blocks_right_iff (q : DisassemblyRequest) (order : DisassemblyState → Nat) (fuel : Nat)
    (instructions : List PpcInstruction) (extraLeaders : List Word)
    (h : disassembleInOrder q order fuel = some (.ok instructions)) :
    BlocksRight instructions (build instructions extraLeaders) ↔
      EdgesRight instructions extraLeaders := by
  obtain ⟨⟨tables, hresult⟩, -⟩ := result_of_ok h
  exact ⟨hresult.listing.edgesRight, hresult.listing.blocksRight⟩

/-! ### a call before a loop -/

/-- a call, and then a loop that begins at its return point -/
def callBeforeLoop : DisassemblyRequest where
  image := {
    memory := [0x48001001, 0x3863FFFF, 0x4200FFFC, 0x4E800020].flatMap wordBytes
    memoryBase := 0x80000000
    length_lt := by decide }
  entryPoint := 0x80000000
  maxInstructions := 256
  maxBytes := 0x800
  knownFunctionEntryPoints := []

def callInstructions : List PpcInstruction :=
  [decodeWord 0x80000000 0x48001001, decodeWord 0x80000004 0x3863FFFF,
    decodeWord 0x80000008 0x4200FFFC, decodeWord 0x8000000C 0x4E800020]

def callBlock : BasicBlock where
  startAddress := 0x80000000
  instructions := [decodeWord 0x80000000 0x48001001]
  successors := []
  predecessors := []

/-- **The return point of a call that ends a block has no edge.** -/
theorem callBeforeLoop_wrong :
    disassembleFunction callBeforeLoop 10 = some (.ok callInstructions) ∧
      ¬ BlocksRight callInstructions (build callInstructions []) := by
  refine ⟨by decide +kernel, fun h => ?_⟩
  have hmem : callBlock ∈ build callInstructions [] := by decide +kernel
  have hedge := (h.edges callBlock hmem _ rfl 0x80000004).mpr (by decide +kernel)
  cases hedge

theorem blocks_right_iff_call : BlocksRight callInstructions (build callInstructions []) ↔
    EdgesRight callInstructions [] :=
  blocks_right_iff callBeforeLoop firstIn 10 callInstructions [] (by decide +kernel)

end DolTranslator.Ppc
