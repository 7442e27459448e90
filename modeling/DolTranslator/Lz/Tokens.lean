import Mathlib.Data.List.GetD

/-!
# Literals and copies

A sliding-window format is a sequence of tokens, each a byte or a copy from some way back in what
has been produced so far.

* `copyBack`, `expand`   what tokens produce; a copy may run into its own bytes;
* `Grouped`   the tokens as bytes, after flags that come so many at a time;
* `encode`   a stream of some tokens;
* `decode`   the reader; `decode_eq_some` it accepts exactly the grouped streams.
-/

namespace Lz

variable {B : Type} [Inhabited B]

/-! ## tokens -/

inductive Token (B : Type) where
  | literal (b : B)
  | copy (distance length : Nat)
  deriving DecidableEq

def Token.isCopy : Token B → Bool
  | .literal _ => false
  | .copy _ _ => true

/-- one byte after the other, each the one `distance` back -/
def copyBack (distance : Nat) : Nat → List B → List B
  | 0, out => out
  | n + 1, out => copyBack distance n (out ++ [out.getD (out.length - distance) default])

def expand : List (Token B) → List B → Option (List B)
  | [], out => some out
  | .literal b :: tokens, out => expand tokens (out ++ [b])
  | .copy distance length :: tokens, out =>
    if distance ≤ out.length then expand tokens (copyBack distance length out) else none

@[simp] theorem length_copyBack (distance n : Nat) (out : List B) :
    (copyBack distance n out).length = out.length + n := by
  induction n generalizing out with
  | zero => rfl
  | succ n ih =>
    show (copyBack distance n _).length = _
    rw [ih, List.length_append, List.length_singleton]
    omega

theorem copyBack_keeps (distance n : Nat) (out : List B) : out <+: copyBack distance n out := by
  induction n generalizing out with
  | zero => exact List.prefix_refl out
  | succ n ih => exact (List.prefix_append out _).trans (ih _)

theorem expand_keeps {tokens : List (Token B)} {out out' : List B}
    (h : expand tokens out = some out') : out <+: out' := by
  induction tokens generalizing out with
  | nil => exact (Option.some.inj h) ▸ List.prefix_refl out
  | cons token tokens ih =>
    cases token with
    | literal b => exact (List.prefix_append out [b]).trans (ih h)
    | copy distance length =>
      unfold expand at h
      split at h
      · exact (copyBack_keeps distance length out).trans (ih h)
      · cases h

/-! ## tokens as bytes -/

/-- how a format writes its tokens -/
structure Format (B : Type) where
  /-- the flags of a group, in their order; whether each is a copy -/
  flags : B → List Bool
  /-- the copies that can be written -/
  Fits : Nat → Nat → Prop
  spell : Nat → Nat → List B
  read : List B → Option ((Nat × Nat) × List B)

namespace Format

/-- what makes a format readable -/
structure Lawful (f : Format B) : Prop where
  flags_ne_nil : ∀ b, f.flags b ≠ []
  /-- a reference reads back, and nothing else reads -/
  read_eq_some : ∀ src distance length rest, f.read src = some ((distance, length), rest) ↔
    f.Fits distance length ∧ src = f.spell distance length ++ rest
  fits_pos : ∀ distance length, f.Fits distance length → 0 < length
  spell_ne_nil : ∀ distance length, f.Fits distance length → f.spell distance length ≠ []

def spellToken (f : Format B) : Token B → List B
  | .literal b => [b]
  | .copy distance length => f.spell distance length

def FitsToken (f : Format B) : Token B → Prop
  | .literal _ => True
  | .copy distance length => f.Fits distance length

/-- a source that begins with the tokens, given the flags that are left of the last group -/
inductive Grouped (f : Format B) : List Bool → List (Token B) → List B → Prop
  | done (flags : List Bool) (rest : List B) : Grouped f flags [] rest
  | group {b : B} {token : Token B} {tokens : List (Token B)} {src : List B}
      (h : Grouped f (f.flags b) (token :: tokens) src) : Grouped f [] (token :: tokens) (b :: src)
  | token {flags : List Bool} {token : Token B} {tokens : List (Token B)} {src : List B}
      (hfits : f.FitsToken token) (h : Grouped f flags tokens src) :
      Grouped f (token.isCopy :: flags) (token :: tokens) (f.spellToken token ++ src)

/-- the reader, up to a size; none for what is not a stream of that size -/
def decode (f : Format B) (size : Nat) : Nat → List Bool → List B → List B → Option (List B)
  | 0, _, _, _ => none
  | fuel + 1, flags, src, out =>
    if size ≤ out.length then some out
    else
      match flags with
      | [] =>
        match src with
        | [] => none
        | b :: src => f.decode size fuel (f.flags b) src out
      | false :: flags =>
        match src with
        | [] => none
        | b :: src => f.decode size fuel flags src (out ++ [b])
      | true :: flags =>
        match f.read src with
        | none => none
        | some ((distance, length), src) =>
          if distance ≤ out.length ∧ out.length + length ≤ size then
            f.decode size fuel flags src (copyBack distance length out)
          else none

/-- the tokens in groups of so many, each after its flags in one unit -/
def encodeFrom (f : Format B) (pack : List Bool → B) (n : Nat) : Nat → List (Token B) → List B
  | 0, _ => []
  | _, [] => []
  | fuel + 1, tokens =>
    pack ((tokens.take n).map Token.isCopy) :: (tokens.take n).flatMap f.spellToken ++
      f.encodeFrom pack n fuel (tokens.drop n)

def encode (f : Format B) (pack : List Bool → B) (n : Nat) (tokens : List (Token B)) : List B :=
  f.encodeFrom pack n tokens.length tokens

variable {f : Format B} {size fuel : Nat} {flags : List Bool} {tokens : List (Token B)}
  {src out out' : List B}

/-! ## the reader, case by case -/

theorem decode_full (h : size ≤ out.length) :
    f.decode size (fuel + 1) flags src out = some out := if_pos h

theorem decode_group (h : out.length < size) :
    f.decode size (fuel + 1) [] src out =
      match src with
      | [] => none
      | b :: src => f.decode size fuel (f.flags b) src out := if_neg (by omega)

theorem decode_literal (h : out.length < size) :
    f.decode size (fuel + 1) (false :: flags) src out =
      match src with
      | [] => none
      | b :: src => f.decode size fuel flags src (out ++ [b]) := if_neg (by omega)

theorem decode_copy (h : out.length < size) :
    f.decode size (fuel + 1) (true :: flags) src out =
      match f.read src with
      | none => none
      | some ((distance, length), src) =>
        if distance ≤ out.length ∧ out.length + length ≤ size then
          f.decode size fuel flags src (copyBack distance length out)
        else none := if_neg (by omega)

/-! ## streams -/

omit [Inhabited B] in
theorem Grouped.append {chunk : List (Token B)} (hfits : ∀ token ∈ chunk, f.FitsToken token)
    (h : f.Grouped flags tokens src) :
    f.Grouped (chunk.map Token.isCopy ++ flags) (chunk ++ tokens)
      (chunk.flatMap f.spellToken ++ src) := by
  induction chunk with
  | nil => exact h
  | cons token chunk ih =>
    rw [List.flatMap_cons, List.append_assoc]
    exact .token (hfits token List.mem_cons_self)
      (ih fun token hmem => hfits token (List.mem_cons_of_mem _ hmem))

omit [Inhabited B] in
/-- **Every sequence of tokens has a stream**, whatever comes after it. -/
theorem grouped_encode {pack : List Bool → B} {n : Nat} (hn : 0 < n)
    (hpack : ∀ fs : List Bool, fs.length ≤ n → fs <+: f.flags (pack fs))
    (hflags : ∀ b, (f.flags b).length = n) (hfits : ∀ token ∈ tokens, f.FitsToken token)
    (rest : List B) : f.Grouped [] tokens (f.encode pack n tokens ++ rest) := by
  unfold encode
  generalize hfuel : tokens.length = fuel
  replace hfuel : tokens.length ≤ fuel := Nat.le_of_eq hfuel
  induction fuel generalizing tokens with
  | zero =>
    obtain rfl : tokens = [] := List.length_eq_zero_iff.mp (Nat.le_zero.mp hfuel)
    exact .done [] _
  | succ fuel ih =>
    cases tokens with
    | nil => exact .done [] _
    | cons token tokens =>
      have hlen : ((token :: tokens).take n).length ≤ n := List.length_take_le n _
      obtain ⟨more, hmore⟩ := hpack (((token :: tokens).take n).map Token.isCopy) (by
        rw [List.length_map]
        exact hlen)
      have hrest : f.Grouped more ((token :: tokens).drop n)
          (f.encodeFrom pack n fuel ((token :: tokens).drop n) ++ rest) := by
        by_cases hshort : (token :: tokens).length ≤ n
        · rw [List.drop_of_length_le hshort]
          exact .done more _
        · -- a whole group leaves no flags
          have hmorelen := congrArg List.length hmore
          rw [hflags, List.length_append, List.length_map, List.length_take] at hmorelen
          obtain rfl : more = [] := List.length_eq_zero_iff.mp (by omega)
          refine ih (fun t ht => hfits t (List.mem_of_mem_drop ht)) ?_
          rw [List.length_drop]
          omega
      have htake : ∀ t ∈ (token :: tokens).take n, f.FitsToken t := fun t ht =>
        hfits t (List.mem_of_mem_take ht)
      have hgroup := hrest.append htake
      rw [hmore, List.take_append_drop, ← List.append_assoc] at hgroup
      exact .group hgroup

theorem Grouped.length_expand (hf : f.Lawful) (h : f.Grouped flags tokens src)
    (hexpand : expand tokens out = some out') : out.length + tokens.length ≤ out'.length := by
  induction h generalizing out with
  | done => exact (Option.some.inj hexpand) ▸ Nat.le_refl _
  | group _ ih => exact ih hexpand
  | @token flags token tokens src hfits _ ih =>
    cases token with
    | literal b =>
      have := ih hexpand
      rw [List.length_append, List.length_singleton] at this
      rw [List.length_cons]
      omega
    | copy distance length =>
      have hpos := hf.fits_pos distance length hfits
      unfold expand at hexpand
      split at hexpand
      · have := ih hexpand
        rw [length_copyBack] at this
        rw [List.length_cons]
        omega
      · cases hexpand

omit [Inhabited B] in
theorem Grouped.inv {flag : Bool} {token : Token B}
    (h : f.Grouped (flag :: flags) (token :: tokens) src) :
    token.isCopy = flag ∧ f.FitsToken token ∧
      ∃ rest, src = f.spellToken token ++ rest ∧ f.Grouped flags tokens rest := by
  generalize hflags : flag :: flags = fl at h
  cases h with
  | group => cases hflags
  | token hfits h =>
    obtain ⟨rfl, rfl⟩ := List.cons.inj hflags
    exact ⟨rfl, hfits, _, rfl, h⟩

/-- **Exactly the streams.**  The reader's result is what the tokens of the source produce, if they
come to the size; it reads nothing else. -/
theorem decode_eq_some (hf : f.Lawful) (hfuel : src.length < fuel) (hsize : out.length ≤ size) :
    f.decode size fuel flags src out = some out' ↔
      ∃ tokens, f.Grouped flags tokens src ∧ expand tokens out = some out' ∧
        out'.length = size := by
  induction fuel generalizing flags src out with
  | zero => omega
  | succ fuel ih =>
    unfold decode
    by_cases hfull : size ≤ out.length
    · rw [if_pos hfull]
      constructor
      · intro h
        obtain rfl := Option.some.inj h
        exact ⟨[], .done flags src, rfl, by omega⟩
      · rintro ⟨tokens, hgrouped, hexpand, hlen⟩
        have := hgrouped.length_expand hf hexpand
        obtain rfl : tokens = [] := List.length_eq_zero_iff.mp (by omega)
        exact hexpand
    · rw [if_neg hfull]
      have hmore {tokens : List (Token B)} (hexpand : expand tokens out = some out')
          (hlen : out'.length = size) : tokens ≠ [] := by
        rintro rfl
        obtain rfl := Option.some.inj hexpand
        omega
      match flags, src with
      | [], [] =>
        dsimp only
        refine ⟨fun h => (by cases h), ?_⟩
        rintro ⟨tokens, hgrouped, hexpand, hlen⟩
        cases hgrouped with
        | done => exact absurd rfl (hmore hexpand hlen)
      | [], b :: src =>
        dsimp only
        rw [List.length_cons] at hfuel
        rw [ih (by omega) hsize]
        constructor
        · rintro ⟨tokens, hgrouped, hexpand, hlen⟩
          obtain ⟨token, tokens, rfl⟩ := List.exists_cons_of_ne_nil (hmore hexpand hlen)
          exact ⟨token :: tokens, .group hgrouped, hexpand, hlen⟩
        · rintro ⟨tokens, hgrouped, hexpand, hlen⟩
          cases hgrouped with
          | done => exact absurd rfl (hmore hexpand hlen)
          | group h => exact ⟨_, h, hexpand, hlen⟩
      | false :: flags, [] =>
        dsimp only
        refine ⟨fun h => (by cases h), ?_⟩
        rintro ⟨tokens, hgrouped, hexpand, hlen⟩
        obtain ⟨token, tokens, rfl⟩ := List.exists_cons_of_ne_nil (hmore hexpand hlen)
        obtain ⟨hflag, -, rest, hsrc, -⟩ := hgrouped.inv
        cases token with
        | literal b => cases hsrc
        | copy distance length => cases hflag
      | false :: flags, b :: src =>
        dsimp only
        rw [List.length_cons] at hfuel
        rw [ih (by omega) (by rw [List.length_append, List.length_singleton]; omega)]
        constructor
        · rintro ⟨tokens, hgrouped, hexpand, hlen⟩
          have hfits : f.FitsToken (.literal b) := trivial
          exact ⟨.literal b :: tokens, .token hfits hgrouped, hexpand, hlen⟩
        · rintro ⟨tokens, hgrouped, hexpand, hlen⟩
          obtain ⟨token, tokens, rfl⟩ := List.exists_cons_of_ne_nil (hmore hexpand hlen)
          obtain ⟨hflag, -, rest, hsrc, hrest⟩ := hgrouped.inv
          cases token with
          | literal b' =>
            obtain ⟨rfl, rfl⟩ := List.cons.inj hsrc
            exact ⟨tokens, hrest, hexpand, hlen⟩
          | copy distance length => cases hflag
      | true :: flags, src =>
        dsimp only
        constructor
        · intro h
          split at h
          · cases h
          · next distance length rest hread =>
            obtain ⟨hfits, rfl⟩ := (hf.read_eq_some _ _ _ _).mp hread
            have hspell := List.length_pos_iff.mpr (hf.spell_ne_nil _ _ hfits)
            rw [List.length_append] at hfuel
            split at h
            · next hcopy =>
              obtain ⟨tokens, hgrouped, hexpand, hlen⟩ := (ih (by omega)
                (by rw [length_copyBack]; exact hcopy.2)).mp h
              refine ⟨.copy distance length :: tokens,
                .token (show f.FitsToken (.copy distance length) from hfits) hgrouped, ?_, hlen⟩
              show (if _ then _ else _) = _
              rw [if_pos hcopy.1]
              exact hexpand
            · cases h
        · rintro ⟨tokens, hgrouped, hexpand, hlen⟩
          obtain ⟨token, tokens, rfl⟩ := List.exists_cons_of_ne_nil (hmore hexpand hlen)
          obtain ⟨hflag, hfits, rest, rfl, hrest⟩ := hgrouped.inv
          cases token with
          | literal b => cases hflag
          | copy distance length =>
            have hread : f.read (f.spell distance length ++ rest) =
                some ((distance, length), rest) := (hf.read_eq_some _ _ _ _).mpr ⟨hfits, rfl⟩
            have hspell := List.length_pos_iff.mpr (hf.spell_ne_nil _ _ hfits)
            change (f.spell distance length ++ rest).length < fuel + 1 at hfuel
            rw [List.length_append] at hfuel
            change (if _ then _ else _) = _ at hexpand
            show (match f.read (f.spell distance length ++ rest) with
              | none => _
              | some ((distance, length), src) => _) = _
            rw [hread]
            dsimp only
            split at hexpand
            · next hdistance =>
              have hle := hrest.length_expand hf hexpand
              rw [length_copyBack] at hle
              rw [if_pos ⟨hdistance, by omega⟩, ih (by omega) (by rw [length_copyBack]; omega)]
              exact ⟨tokens, hrest, hexpand, hlen⟩
            · cases hexpand

end Format

end Lz
