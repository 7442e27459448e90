import DolTranslator.Lz.Tokens
import DolTranslator.Streams.Checked

/-!
# A reader whose positions have a limit

The reader of a format whose check of a copy is a sum that wraps around at some limit: a copy that
reaches it is taken, and written outside the output.

* `decodeWithin`   the reader, which says how it stops;
* `Overruns`   the tokens of a source come to such a copy;
* `decodeWithin_outside_iff`   it writes outside just then, `decodeWithin_finishes` it always stops.
-/

namespace Lz.Format

open Streams

variable {B : Type} [Inhabited B]

def decodeWithin (f : Format B) (limit size : Nat) :
    Nat → List Bool → List B → List B → Checked (List B)
  | 0, _, _, _ => .error .unfinished
  | fuel + 1, flags, src, out =>
    if size ≤ out.length then .ok out
    else
      match flags with
      | [] =>
        match src with
        | [] => .error .refused
        | b :: src => f.decodeWithin limit size fuel (f.flags b) src out
      | false :: flags =>
        match src with
        | [] => .error .refused
        | b :: src => f.decodeWithin limit size fuel flags src (out ++ [b])
      | true :: flags =>
        match f.read src with
        | none => .error .refused
        | some ((distance, length), src) =>
          if distance ≤ out.length then
            if limit ≤ out.length + length then .error .outside
            else if out.length + length ≤ size then
              f.decodeWithin limit size fuel flags src (copyBack distance length out)
            else .error .refused
          else .error .refused

/-- some tokens fall short of the size, and the copy behind them reaches the limit -/
def Overruns (f : Format B) (limit size : Nat) (flags : List Bool) (src out : List B) : Prop :=
  ∃ (tokens : List (Token B)) (distance length : Nat) (out' : List B),
    f.Grouped flags (tokens ++ [.copy distance length]) src ∧ expand tokens out = some out' ∧
      out'.length < size ∧ distance ≤ out'.length ∧ limit ≤ out'.length + length

variable {f : Format B} {limit size fuel : Nat} {flags : List Bool} {src out : List B}

/-! ## the first token -/

theorem not_overruns_full (h : size ≤ out.length) : ¬f.Overruns limit size flags src out := by
  rintro ⟨tokens, distance, length, out', -, hexpand, hshort, -⟩
  have := (expand_keeps hexpand).length_le
  omega

theorem overruns_group {b : B} :
    f.Overruns limit size [] (b :: src) out ↔ f.Overruns limit size (f.flags b) src out := by
  constructor
  · rintro ⟨tokens, distance, length, out', hgrouped, hrest⟩
    generalize htokens : tokens ++ [.copy distance length] = all at hgrouped
    cases hgrouped with
    | done => cases tokens <;> cases htokens
    | group h => exact ⟨tokens, distance, length, out', htokens ▸ h, hrest⟩
  · rintro ⟨tokens, distance, length, out', hgrouped, hrest⟩
    refine ⟨tokens, distance, length, out', ?_, hrest⟩
    cases tokens with
    | nil => exact .group hgrouped
    | cons token tokens => exact .group hgrouped

theorem not_overruns_nil_group : ¬f.Overruns limit size [] [] out := by
  rintro ⟨tokens, distance, length, out', hgrouped, -⟩
  generalize htokens : tokens ++ [.copy distance length] = all at hgrouped
  cases hgrouped with
  | done => cases tokens <;> cases htokens

theorem overruns_literal {b : B} :
    f.Overruns limit size (false :: flags) (b :: src) out ↔
      f.Overruns limit size flags src (out ++ [b]) := by
  constructor
  · rintro ⟨tokens, distance, length, out', hgrouped, hexpand, hrest⟩
    cases tokens with
    | nil =>
      obtain ⟨hflag, -⟩ := hgrouped.inv
      cases hflag
    | cons token tokens =>
      obtain ⟨hflag, -, rest, hsrc, hgrouped⟩ := hgrouped.inv
      cases token with
      | literal b' =>
        obtain ⟨rfl, rfl⟩ := List.cons.inj hsrc
        exact ⟨tokens, distance, length, out', hgrouped, hexpand, hrest⟩
      | copy distance length => cases hflag
  · rintro ⟨tokens, distance, length, out', hgrouped, hexpand, hrest⟩
    have hfits : f.FitsToken (.literal b) := trivial
    exact ⟨.literal b :: tokens, distance, length, out', .token hfits hgrouped, hexpand, hrest⟩

theorem not_overruns_nil_literal : ¬f.Overruns limit size (false :: flags) [] out := by
  rintro ⟨tokens, distance, length, out', hgrouped, -⟩
  cases tokens with
  | nil =>
    obtain ⟨hflag, -⟩ := hgrouped.inv
    cases hflag
  | cons token tokens =>
    obtain ⟨hflag, -, rest, hsrc, -⟩ := hgrouped.inv
    cases token with
    | literal b => cases hsrc
    | copy distance length => cases hflag

/-- a copy in front of the source: it reaches the limit, or a later one does -/
theorem overruns_copy (hf : f.Lawful) {distance length : Nat} (hfits : f.Fits distance length)
    (hmore : out.length < size) :
    f.Overruns limit size (true :: flags) (f.spell distance length ++ src) out ↔
      distance ≤ out.length ∧ (limit ≤ out.length + length ∨
        f.Overruns limit size flags src (copyBack distance length out)) := by
  have hread {d l : Nat} {rest : List B} (hfits' : f.Fits d l)
      (h : f.spell distance length ++ src = f.spell d l ++ rest) :
      distance = d ∧ length = l ∧ src = rest := by
    have h1 := (hf.read_eq_some _ _ _ _).mpr ⟨hfits, (rfl : f.spell distance length ++ src = _)⟩
    have h2 := (hf.read_eq_some _ _ _ _).mpr ⟨hfits', h⟩
    rw [h1] at h2
    cases h2
    exact ⟨rfl, rfl, rfl⟩
  constructor
  · rintro ⟨tokens, d, l, out', hgrouped, hexpand, hshort, hdistance, hlimit⟩
    cases tokens with
    | nil =>
      obtain ⟨-, hfits', rest, hsrc, -⟩ := hgrouped.inv
      obtain ⟨rfl, rfl, rfl⟩ := hread hfits' hsrc
      obtain rfl := Option.some.inj hexpand
      exact ⟨hdistance, .inl hlimit⟩
    | cons token tokens =>
      obtain ⟨hflag, hfits', rest, hsrc, hgrouped⟩ := hgrouped.inv
      cases token with
      | literal b => cases hflag
      | copy d' l' =>
        obtain ⟨rfl, rfl, rfl⟩ := hread hfits' hsrc
        change (if _ then _ else _) = _ at hexpand
        split at hexpand
        · next hback =>
          exact ⟨hback, .inr ⟨tokens, d, l, out', hgrouped, hexpand, hshort, hdistance, hlimit⟩⟩
        · cases hexpand
  · rintro ⟨hdistance, hlimit | ⟨tokens, d, l, out', hgrouped, hexpand, hrest⟩⟩
    · have hfits' : f.FitsToken (.copy distance length) := hfits
      exact ⟨[], distance, length, out, .token hfits' (.done flags src), rfl, hmore, hdistance,
        hlimit⟩
    · have hfits' : f.FitsToken (.copy distance length) := hfits
      refine ⟨.copy distance length :: tokens, d, l, out', .token hfits' hgrouped, ?_, hrest⟩
      show (if _ then _ else _) = _
      rw [if_pos hdistance]
      exact hexpand

theorem not_overruns_copy (hread : f.read src = none) (hf : f.Lawful) :
    ¬f.Overruns limit size (true :: flags) src out := by
  rintro ⟨tokens, distance, length, out', hgrouped, -⟩
  have hspelled {d l : Nat} {rest : List B} (hfits : f.Fits d l)
      (h : src = f.spell d l ++ rest) : False := by
    rw [(hf.read_eq_some _ _ _ _).mpr ⟨hfits, h⟩] at hread
    cases hread
  cases tokens with
  | nil =>
    obtain ⟨-, hfits, rest, hsrc, -⟩ := hgrouped.inv
    exact hspelled hfits hsrc
  | cons token tokens =>
    obtain ⟨hflag, hfits, rest, hsrc, -⟩ := hgrouped.inv
    cases token with
    | literal b => cases hflag
    | copy d l => exact hspelled hfits hsrc

theorem exists_expand_replicate {distance length : Nat} (n : Nat) {out : List B}
    (hdistance : distance ≤ out.length) :
    ∃ out', expand (List.replicate n (.copy distance length)) out = some out' ∧
      out'.length = out.length + n * length := by
  induction n generalizing out with
  | zero => exact ⟨out, rfl, by omega⟩
  | succ n ih =>
    have hlength := length_copyBack distance length out
    obtain ⟨out', hexpand, hout'⟩ := @ih (copyBack distance length out) (by omega)
    refine ⟨out', ?_, ?_⟩
    · show (if distance ≤ out.length then _ else _) = _
      rw [if_pos hdistance]
      exact hexpand
    · rw [hout', hlength, Nat.succ_mul]
      omega

/-- **The reader writes outside exactly on the sources that overrun.** -/
theorem decodeWithin_outside_iff (hf : f.Lawful) (hfuel : src.length < fuel) :
    f.decodeWithin limit size fuel flags src out = .error .outside ↔
      f.Overruns limit size flags src out := by
  induction fuel generalizing flags src out with
  | zero => omega
  | succ fuel ih =>
    unfold decodeWithin
    by_cases hfull : size ≤ out.length
    · rw [if_pos hfull]
      exact ⟨fun h => (by cases h), fun h => absurd h (not_overruns_full hfull)⟩
    · rw [if_neg hfull]
      match flags, src with
      | [], [] => exact ⟨fun h => (by cases h), fun h => absurd h not_overruns_nil_group⟩
      | [], b :: src =>
        rw [List.length_cons] at hfuel
        rw [overruns_group]
        exact ih (by omega)
      | false :: flags, [] =>
        exact ⟨fun h => (by cases h), fun h => absurd h not_overruns_nil_literal⟩
      | false :: flags, b :: src =>
        rw [List.length_cons] at hfuel
        rw [overruns_literal]
        exact ih (by omega)
      | true :: flags, src =>
        dsimp only
        cases hread : f.read src with
        | none => exact ⟨fun h => (by cases h), fun h => absurd h (not_overruns_copy hread hf)⟩
        | some run =>
          obtain ⟨⟨distance, length⟩, rest⟩ := run
          obtain ⟨hfits, rfl⟩ := (hf.read_eq_some _ _ _ _).mp hread
          have hspell := List.length_pos_iff.mpr (hf.spell_ne_nil _ _ hfits)
          rw [List.length_append] at hfuel
          rw [overruns_copy hf hfits (Nat.lt_of_not_le hfull)]
          dsimp only
          by_cases hdistance : distance ≤ out.length
          · rw [if_pos hdistance, and_iff_right hdistance]
            by_cases hlimit : limit ≤ out.length + length
            · rw [if_pos hlimit]
              exact ⟨fun _ => .inl hlimit, fun _ => rfl⟩
            · rw [if_neg hlimit, or_iff_right hlimit]
              by_cases hsize : out.length + length ≤ size
              · rw [if_pos hsize]
                exact ih (by omega)
              · rw [if_neg hsize]
                refine ⟨fun h => (by cases h), fun h => absurd h (not_overruns_full ?_)⟩
                rw [length_copyBack]
                omega
          · rw [if_neg hdistance]
            exact ⟨fun h => (by cases h), fun h => absurd h.1 hdistance⟩

theorem decodeWithin_finishes (hf : f.Lawful) (hfuel : src.length < fuel) :
    Finishes (f.decodeWithin limit size fuel flags src out) := by
  induction fuel generalizing flags src out with
  | zero => omega
  | succ fuel ih =>
    unfold decodeWithin
    split
    · exact fun h => by cases h
    · match flags, src with
      | [], [] => exact fun h => by cases h
      | [], b :: src => exact ih (Nat.lt_of_succ_lt_succ hfuel)
      | false :: flags, [] => exact fun h => by cases h
      | false :: flags, b :: src => exact ih (Nat.lt_of_succ_lt_succ hfuel)
      | true :: flags, src =>
        dsimp only
        split
        · exact fun h => by cases h
        · next distance length rest hread =>
          obtain ⟨hfits, rfl⟩ := (hf.read_eq_some _ _ _ _).mp hread
          have hspell := List.length_pos_iff.mpr (hf.spell_ne_nil _ _ hfits)
          rw [List.length_append] at hfuel
          split
          · split
            · exact fun h => by cases h
            · split
              · exact ih (by omega)
              · exact fun h => by cases h
          · exact fun h => by cases h

end Lz.Format
