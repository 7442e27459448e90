import Mathlib.Tactic
import DolTranslator.Input.Expressions

/-!
# The grammar of input expressions

Levels of precedence from 0, the loosest, to 8, the operands.  `Derives` relates a run of tokens to
the node that it stands for, `Tokenizes` a text to its tokens.

* `Consumes`   the tokens between two parsers;
* `Returns`   a parser function has calls enough, and what its result satisfies;
* `sound`   every result is derived from the tokens that were consumed;
* `Outcome.Le`, `stable`   more calls do not change a result.
-/

namespace DolTranslator.InputExpr

/-- the text is these tokens -/
inductive Tokenizes : List Char → List Token → Prop where
  | stop {text rest : List Char} : lexNext text = .ok (.stop, rest) → Tokenizes text []
  | token {text rest : List Char} {t : Token} {ts : List Token} :
      lexNext text = .ok (t, rest) → t ≠ .stop → Tokenizes rest ts → Tokenizes text (t :: ts)

/-- what a run of tokens is derived from -/
inductive Symbol where
  | level (n : Nat)
  | arguments
  | argumentList
deriving DecidableEq, Repr

variable {ts : List Token} {m : Nat}

section
variable {V : Type} [Zero V] (strtod : List Char → V)

inductive Derives : Symbol → List Token → List (Node V) → Prop where
  | up {n : Nat} {ts : List Token} {e : Node V} : n < 8 → Derives (.level (n + 1)) ts [e] →
      Derives (.level n) ts [e]
  | binary {op : Char} {prec : Nat} {ls rs : List Token} {l r : Node V} :
      precedence op = some prec → Derives (.level prec) ls [l] →
      Derives (.level (prec + 1)) rs [r] →
      Derives (.level prec) (ls ++ .op op :: rs) [operation (binaryKind op) [l, r]]
  | unary {op : Char} {ts : List Token} {e : Node V} : isUnary op = true →
      Derives (.level 7) ts [e] → Derives (.level 7) (.op op :: ts) [unaryNode op e]
  | input {name : List Char} : Derives (.level 8) [.input name] [inputNode name]
  | number {text : List Char} : Derives (.level 8) [.number text] [literalNode (strtod text)]
  | ident {name : List Char} : Derives (.level 8) [.ident name] [inputNode name]
  | paren {ts : List Token} {e : Node V} : Derives (.level 0) ts [e] →
      Derives (.level 8) (.lparen :: (ts ++ [.rparen])) [e]
  | call {name : List Char} {info : FnInfo} {ts : List Token} {args : List (Node V)} :
      findFunction name = some info → Derives .arguments ts args →
      info.minArgs ≤ args.length → args.length ≤ info.maxArgs →
      Derives (.level 8) (.ident name :: .lparen :: (ts ++ [.rparen])) [operation info.kind args]
  | none : Derives .arguments [] []
  | some {ts : List Token} {args : List (Node V)} : Derives .argumentList ts args →
      Derives .arguments ts args
  | last {ts : List Token} {e : Node V} : Derives (.level 0) ts [e] →
      Derives .argumentList ts [e]
  | more {ts us : List Token} {e : Node V} {args : List (Node V)} : Derives (.level 0) ts [e] →
      Derives .argumentList us args → Derives .argumentList (ts ++ .comma :: us) (e :: args)

variable {strtod}

theorem Derives.down {n : Nat} {e : Node V} (hn : n ≤ 8) (hmn : m ≤ n)
    (h : Derives strtod (.level n) ts [e]) : Derives strtod (.level m) ts [e] := by
  induction n with
  | zero =>
    obtain rfl : m = 0 := by omega
    exact h
  | succ n ih =>
    by_cases he : m = n + 1
    · rw [he]
      exact h
    · exact ih (by omega) (by omega) (h.up (by omega))

theorem precedence_le {op : Char} {prec : Nat} (h : precedence op = some prec) : prec ≤ 6 := by
  unfold precedence at h
  split at h <;> cases h <;> decide

end

/-! ## the tokens between two parsers -/

/-- the parser reads these tokens and comes to the second parser -/
inductive Consumes : Parser → List Token → Parser → Prop where
  | nil (p : Parser) : Consumes p [] p
  | cons {p q : Parser} {t : Token} {ts : List Token} : p.tok = t → t ≠ .stop →
      Consumes p.advance ts q → Consumes p (t :: ts) q

variable {p : Parser}

theorem Consumes.single {t : Token} (h : p.tok = t) (ht : t ≠ .stop) :
    Consumes p [t] p.advance :=
  .cons h ht (.nil _)

variable {q : Parser}

theorem Consumes.append {r : Parser} {us : List Token} (h : Consumes p ts q)
    (h' : Consumes q us r) : Consumes p (ts ++ us) r := by
  induction h with
  | nil p => exact h'
  | cons ht hne _ ih => exact .cons ht hne (ih h')

theorem Consumes.split {r : Parser} {us : List Token} (h : Consumes p (ts ++ us) r) :
    ∃ q, Consumes p ts q ∧ Consumes q us r := by
  induction ts generalizing p with
  | nil => exact ⟨p, .nil p, h⟩
  | cons t ts ih =>
    cases h with
    | cons ht hne h =>
      obtain ⟨q, h1, h2⟩ := ih h
      exact ⟨q, .cons ht hne h1, h2⟩

theorem advance_failed (h : p.failed = true) : p.advance.failed = true := by
  unfold Parser.advance
  split
  · exact h
  · rfl

theorem Consumes.failed (h : Consumes p ts q)
    (hp : p.failed = true) : q.failed = true := by
  induction h with
  | nil p => exact hp
  | cons _ _ _ ih => exact ih (advance_failed hp)

theorem Consumes.not_failed (h : Consumes p ts q)
    (hq : q.failed = false) : p.failed = false := by
  apply Bool.eq_false_iff.mpr
  intro hp
  rw [h.failed hp] at hq
  cases hq

/-! ## a token is at least one character -/

theorem lexNext_length {text rest : List Char} {t : Token} (h : lexNext text = .ok (t, rest))
    (ht : t ≠ .stop) : rest.length < text.length := by
  have hle := List.length_dropWhile_le isSpace text
  unfold lexNext at h
  split at h
  · cases h
    exact absurd rfl ht
  rename_i c tail hdrop
  rw [hdrop, List.length_cons] at hle
  split at h
  · have hquote := List.length_dropWhile_le (· != quote) tail
    split at h
    · cases h
    · rename_i after hafter
      cases h
      rw [hafter, List.length_cons] at hquote
      omega
  split at h
  · rename_i hnum
    cases h
    rw [List.dropWhile_cons_of_pos hnum]
    have hnumber := List.length_dropWhile_le isNumberChar tail
    omega
  split at h
  · rename_i halpha
    cases h
    have hident : isIdentChar c = true := by
      rw [Bool.or_eq_true] at halpha
      rcases halpha with h | h
      · simp [isIdentChar, Char.isAlphanum, h]
      · simp [isIdentChar, h]
    have hspace : (c == ' ') = false := by
      rw [Bool.or_eq_true] at halpha
      apply Bool.eq_false_iff.mpr
      intro h
      rw [beq_iff_eq] at h
      subst h
      exact absurd halpha (by decide)
    rw [List.takeWhile_cons_of_pos hident, List.length_drop, List.length_cons]
    have hpos : 0 < ((c :: tail.takeWhile isIdentChar).rdropWhile (· == ' ')).length := by
      apply List.length_pos_iff.mpr
      intro hnil
      rw [List.rdropWhile_eq_nil_iff] at hnil
      have hc := hnil c List.mem_cons_self
      rw [hspace] at hc
      cases hc
    omega
  split at h
  · cases h
    omega
  split at h
  · cases h
    omega
  split at h
  · cases h
    omega
  split at h
  · cases h
    omega
  · cases h

def Parser.remaining (p : Parser) : Nat := p.rest.length + if p.tok = .stop then 0 else 1

theorem advance_remaining_le (p : Parser) : p.advance.remaining ≤ p.rest.length := by
  unfold Parser.advance
  split
  · rename_i tok rest h
    show rest.length + (if tok = .stop then 0 else 1) ≤ p.rest.length
    split
    · rename_i htok
      have hle : rest.length ≤ p.rest.length := by
        by_contra hcon
        unfold lexNext at h
        split at h
        · cases h
          simp at hcon
        · rw [htok] at h
          split at h
          · split at h <;> cases h
          split at h
          · cases h
          split at h
          · cases h
          split at h
          · cases h
          split at h
          · cases h
          split at h
          · cases h
          split at h <;> cases h
      omega
    · rename_i htok
      have hlt := lexNext_length h htok
      omega
  · show p.rest.length + 0 ≤ _
    omega

theorem Consumes.remaining (h : Consumes p ts q) :
    q.remaining + ts.length ≤ p.remaining := by
  induction h with
  | nil p => exact le_refl _
  | @cons p q t ts ht hne _ ih =>
    have hle := advance_remaining_le p
    have hp : p.remaining = p.rest.length + 1 := by
      rw [Parser.remaining, ht, if_neg hne]
    rw [List.length_cons]
    omega

/-! ## results -/

/-- calls enough, and what a result satisfies -/
def Returns {α : Type} (x : Outcome α) (P : α → Parser → Prop) : Prop :=
  ∃ out, x = some out ∧ ∀ a q, out = .ok (a, q) → P a q

theorem Returns.ok {α : Type} {a : α} {P : α → Parser → Prop} (h : P a p) :
    Returns (InputExpr.ok a p) P := by
  refine ⟨_, rfl, fun b q heq => ?_⟩
  cases heq
  exact h

theorem Returns.fail {α : Type} {e : String} {P : α → Parser → Prop} :
    Returns (InputExpr.fail e) P :=
  ⟨_, rfl, fun _ _ heq => by cases heq⟩

theorem Returns.andThen {α β : Type} {x : Outcome α} {f : α → Parser → Outcome β}
    {P : α → Parser → Prop} {Q : β → Parser → Prop} (hx : Returns x P)
    (hf : ∀ a q, P a q → Returns (f a q) Q) : Returns (InputExpr.andThen x f) Q := by
  obtain ⟨out, rfl, hout⟩ := hx
  cases out with
  | error e => exact Returns.fail
  | ok r => exact hf r.1 r.2 (hout r.1 r.2 rfl)

/-- no operator of at least a precedence comes next -/
def Stops (m : Nat) (q : Parser) : Prop :=
  ∀ op prec, q.tok = .op op → precedence op = some prec → prec < m

variable {k : Nat}

section
variable {V : Type} [Zero V] (strtod : List Char → V)

/-- the tokens read are those that the node is derived from -/
def Read (s : Symbol) (p : Parser) (ns : List (Node V)) (q : Parser) : Prop :=
  ∃ ts, Consumes p ts q ∧ Derives strtod s ts ns

/-- what the parser functions return, with a number of calls -/
structure Sound (k : Nat) : Prop where
  binary : ∀ m p, m ≤ 7 → 6 * p.remaining + 5 ≤ k → Returns (parseBinary strtod k m p)
    fun n q => Read strtod (.level m) p [n] q ∧ q.remaining < p.remaining ∧ Stops m q
  operators : ∀ m lev lhs p, m ≤ lev → lev ≤ 8 → Stops (lev + 1) p → 6 * p.remaining + 1 ≤ k →
    Returns (parseOperators strtod k m lhs p) fun n q => ∃ ts, Consumes p ts q ∧ Stops m q ∧
      ∀ ts₀, Derives strtod (.level lev) ts₀ [lhs] → Derives strtod (.level m) (ts₀ ++ ts) [n]
  unary : ∀ p, 6 * p.remaining + 2 ≤ k → Returns (parseUnary strtod k p)
    fun n q => Read strtod (.level 7) p [n] q ∧ q.remaining < p.remaining
  primary : ∀ p, 6 * p.remaining + 1 ≤ k → Returns (parsePrimary strtod k p)
    fun n q => Read strtod (.level 8) p [n] q ∧ q.remaining < p.remaining
  arguments : ∀ p, 6 * p.remaining + 7 ≤ k → Returns (parseArguments strtod k p)
    fun ns q => Read strtod .arguments p ns q
  argumentList : ∀ p, 6 * p.remaining + 6 ≤ k → Returns (parseArgumentList strtod k p)
    fun ns q => Read strtod .argumentList p ns q

variable {strtod}

theorem advance_remaining_lt (h : p.tok ≠ .stop) :
    p.advance.remaining < p.remaining := by
  have hle := advance_remaining_le p
  have hp : p.remaining = p.rest.length + 1 := by rw [Parser.remaining, if_neg h]
  omega

theorem Consumes.remaining_le (h : Consumes p ts q) :
    q.remaining ≤ p.remaining := by
  have := h.remaining
  omega

theorem Read.remaining_le {s : Symbol} {ns : List (Node V)}
    (h : Read strtod s p ns q) : q.remaining ≤ p.remaining := by
  obtain ⟨ts, hts, -⟩ := h
  exact hts.remaining_le

theorem sound_binary (ih : Sound strtod k) (hm : m ≤ 7)
    (hk : 6 * p.remaining + 5 ≤ k + 1) : Returns (parseBinary strtod (k + 1) m p)
      fun n q => Read strtod (.level m) p [n] q ∧ q.remaining < p.remaining ∧ Stops m q := by
  rw [parseBinary]
  apply (ih.unary p (by omega)).andThen
  rintro lhs p' ⟨⟨ts₀, hts₀, hlhs⟩, hlt⟩
  -- after an operand any operator may come
  have hstops : Stops (7 + 1) p' := fun op prec _ hprec => by
    have := precedence_le hprec
    omega
  obtain ⟨out, hout, hspec⟩ := ih.operators m 7 lhs p' hm (by omega) hstops (by omega)
  refine ⟨out, hout, fun n q heq => ?_⟩
  obtain ⟨ts, hts, hstop, hder⟩ := hspec n q heq
  exact ⟨⟨ts₀ ++ ts, hts₀.append hts, hder ts₀ hlhs⟩, lt_of_le_of_lt hts.remaining_le hlt, hstop⟩

theorem sound_operators (ih : Sound strtod k) {lev : Nat} {lhs : Node V}
    (hm : m ≤ lev) (hlev : lev ≤ 8) (hp : Stops (lev + 1) p) (hk : 6 * p.remaining + 1 ≤ k + 1) :
    Returns (parseOperators strtod (k + 1) m lhs p) fun n q => ∃ ts, Consumes p ts q ∧ Stops m q ∧
      ∀ ts₀, Derives strtod (.level lev) ts₀ [lhs] → Derives strtod (.level m) (ts₀ ++ ts) [n] := by
  have hdone : Stops m p → ∃ ts, Consumes p ts p ∧ Stops m p ∧
      ∀ ts₀, Derives strtod (.level lev) ts₀ [lhs] →
        Derives strtod (.level m) (ts₀ ++ ts) [lhs] := by
    intro hstop
    refine ⟨[], .nil p, hstop, fun ts₀ h => ?_⟩
    rw [List.append_nil]
    exact h.down hlev hm
  rw [parseOperators]
  split
  · rename_i op htok
    cases hprec : precedence op with
    | none =>
      apply Returns.ok
      apply hdone
      intro op' prec htok' hprec'
      rw [htok] at htok'
      cases htok'
      rw [hprec] at hprec'
      cases hprec'
    | some prec =>
      dsimp only
      by_cases hlt : prec < m
      · rw [if_pos hlt]
        apply Returns.ok
        apply hdone
        intro op' prec' htok' hprec'
        rw [htok] at htok'
        cases htok'
        rw [hprec] at hprec'
        cases hprec'
        exact hlt
      · rw [if_neg hlt]
        have hne : p.tok ≠ .stop := by rw [htok]; exact fun h => by cases h
        have hprecle := hp op prec htok hprec
        have h6 := precedence_le hprec
        have hadv := advance_remaining_lt hne
        apply (ih.binary (prec + 1) p.advance (by omega) (by omega)).andThen
        rintro rhs p' ⟨⟨rs, hrs, hrhs⟩, hlt', hstop'⟩
        -- the next operator binds no tighter than this one
        obtain ⟨out, hout, hspec⟩ := ih.operators m prec (operation (binaryKind op) [lhs, rhs]) p'
          (by omega) (by omega) hstop' (by omega)
        refine ⟨out, hout, fun n q heq => ?_⟩
        obtain ⟨ts, hts, hstop, hder⟩ := hspec n q heq
        refine ⟨.op op :: (rs ++ ts), .cons htok (fun h => by cases h) (hrs.append hts), hstop,
          fun ts₀ h => ?_⟩
        have hnode := hder _ (.binary hprec (h.down hlev (by omega)) hrhs)
        rwa [List.append_assoc] at hnode
  · rename_i hno
    apply Returns.ok
    apply hdone
    intro op prec htok
    exact absurd htok (hno op)

theorem sound_unary (ih : Sound strtod k)
    (hk : 6 * p.remaining + 2 ≤ k + 1) : Returns (parseUnary strtod (k + 1) p)
      fun n q => Read strtod (.level 7) p [n] q ∧ q.remaining < p.remaining := by
  have hprimary : Returns (parsePrimary strtod k p)
      fun n q => Read strtod (.level 7) p [n] q ∧ q.remaining < p.remaining := by
    obtain ⟨out, hout, hspec⟩ := ih.primary p (by omega)
    refine ⟨out, hout, fun n q heq => ?_⟩
    obtain ⟨⟨ts, hts, hder⟩, hlt⟩ := hspec n q heq
    exact ⟨⟨ts, hts, hder.up (by omega)⟩, hlt⟩
  rw [parseUnary]
  split
  · exact Returns.fail
  split
  · rename_i op htok
    have hne : p.tok ≠ .stop := by rw [htok]; exact fun h => by cases h
    have hadv := advance_remaining_lt hne
    split
    · rename_i hop
      apply (ih.unary p.advance (by omega)).andThen
      rintro inner q ⟨⟨ts, hts, hder⟩, hlt⟩
      apply Returns.ok
      exact ⟨⟨.op op :: ts, .cons htok (fun h => by cases h) hts, .unary hop hder⟩, by omega⟩
    · exact hprimary
  · exact hprimary

theorem sound_primary (ih : Sound strtod k)
    (hk : 6 * p.remaining + 1 ≤ k + 1) : Returns (parsePrimary strtod (k + 1) p)
      fun n q => Read strtod (.level 8) p [n] q ∧ q.remaining < p.remaining := by
  -- an operand of one token
  have hsingle : ∀ {t n}, p.tok = t → t ≠ .stop → Derives strtod (.level 8) [t] [n] →
      Read strtod (.level 8) p [n] p.advance ∧ p.advance.remaining < p.remaining :=
    fun ht hne hder => ⟨⟨_, .single ht hne, hder⟩, advance_remaining_lt (ht ▸ hne)⟩
  rw [parsePrimary]
  split
  · exact Returns.fail
  split
  · rename_i name htok
    exact Returns.ok (hsingle htok (fun h => by cases h) .input)
  · rename_i text htok
    exact Returns.ok (hsingle htok (fun h => by cases h) .number)
  · rename_i htok
    have hne : p.tok ≠ .stop := by rw [htok]; exact fun h => by cases h
    have hadv := advance_remaining_lt hne
    apply (ih.binary 0 p.advance (by omega) (by omega)).andThen
    rintro inner p' ⟨⟨ts, hts, hder⟩, hlt, -⟩
    split
    · exact Returns.fail
    · rename_i hclose
      rw [not_not] at hclose
      have hne' : p'.tok ≠ .stop := by rw [hclose]; exact fun h => by cases h
      have hadv' := advance_remaining_lt hne'
      apply Returns.ok
      refine ⟨⟨_, .cons htok (fun h => by cases h) (hts.append (.single hclose fun h => by cases h)),
        .paren hder⟩, by omega⟩
  · rename_i name htok
    have hne : p.tok ≠ .stop := by rw [htok]; exact fun h => by cases h
    have hadv := advance_remaining_lt hne
    split
    · exact Returns.ok (hsingle htok (fun h => by cases h) .ident)
    rename_i hopen
    rw [not_not] at hopen
    have hne' : p.advance.tok ≠ .stop := by rw [hopen]; exact fun h => by cases h
    have hadv' := advance_remaining_lt hne'
    cases hinfo : findFunction name with
    | none => exact Returns.fail
    | some info =>
      dsimp only
      apply (ih.arguments p.advance.advance (by omega)).andThen
      rintro args p' hargs
      have hle := hargs.remaining_le
      obtain ⟨ts, hts, hder⟩ := hargs
      split
      · exact Returns.fail
      rename_i hclose
      rw [not_not] at hclose
      split
      · exact Returns.fail
      rename_i hcount
      rw [not_or, not_lt, not_lt] at hcount
      have hne'' : p'.tok ≠ .stop := by rw [hclose]; exact fun h => by cases h
      have hadv'' := advance_remaining_lt hne''
      apply Returns.ok
      refine ⟨⟨_, .cons htok (fun h => by cases h) (.cons hopen (fun h => by cases h)
        (hts.append (.single hclose fun h => by cases h))),
        .call hinfo hder hcount.1 hcount.2⟩, by omega⟩
  · exact Returns.fail

theorem sound_arguments (ih : Sound strtod k)
    (hk : 6 * p.remaining + 7 ≤ k + 1) : Returns (parseArguments strtod (k + 1) p)
      fun ns q => Read strtod .arguments p ns q := by
  rw [parseArguments]
  split
  · exact Returns.ok ⟨[], .nil p, .none⟩
  · obtain ⟨out, hout, hspec⟩ := ih.argumentList p (by omega)
    refine ⟨out, hout, fun ns q heq => ?_⟩
    obtain ⟨ts, hts, hder⟩ := hspec ns q heq
    exact ⟨ts, hts, .some hder⟩

theorem sound_argumentList (ih : Sound strtod k)
    (hk : 6 * p.remaining + 6 ≤ k + 1) : Returns (parseArgumentList strtod (k + 1) p)
      fun ns q => Read strtod .argumentList p ns q := by
  rw [parseArgumentList]
  apply (ih.binary 0 p (by omega) (by omega)).andThen
  rintro arg p' ⟨⟨ts, hts, hder⟩, hlt, -⟩
  split
  · exact Returns.ok ⟨ts, hts, .last hder⟩
  · rename_i hcomma
    rw [not_not] at hcomma
    have hne : p'.tok ≠ .stop := by rw [hcomma]; exact fun h => by cases h
    have hadv := advance_remaining_lt hne
    apply (ih.argumentList p'.advance (by omega)).andThen
    rintro args q ⟨us, hus, hders⟩
    apply Returns.ok
    exact ⟨_, hts.append (.cons hcomma (fun h => by cases h) hus), .more hder hders⟩

/-- **Calls enough, and only what the grammar derives.** -/
theorem sound (k : Nat) : Sound strtod k := by
  induction k with
  | zero =>
    constructor
    · intro m p _ hk
      omega
    · intro m lev lhs p _ _ _ hk
      omega
    · intro p hk
      omega
    · intro p hk
      omega
    · intro p hk
      omega
    · intro p hk
      omega
  | succ k ih =>
    constructor
    · exact fun m p hm hk => sound_binary ih hm hk
    · exact fun m lev lhs p hm hlev hp hk => sound_operators ih hm hlev hp hk
    · exact fun p hk => sound_unary ih hk
    · exact fun p hk => sound_primary ih hk
    · exact fun p hk => sound_arguments ih hk
    · exact fun p hk => sound_argumentList ih hk

end

/-! ## more calls -/

/-- a result, once there, stays -/
def Outcome.Le {α : Type} (x y : Outcome α) : Prop := x = none ∨ x = y

theorem Outcome.Le.refl {α : Type} (x : Outcome α) : Outcome.Le x x := Or.inr rfl

theorem Outcome.Le.andThen {α β : Type} {x y : Outcome α} {f g : α → Parser → Outcome β}
    (h : Outcome.Le x y) (hfg : ∀ a q, Outcome.Le (f a q) (g a q)) :
    Outcome.Le (InputExpr.andThen x f) (InputExpr.andThen y g) := by
  rcases h with rfl | rfl
  · exact Or.inl rfl
  · match x with
    | none => exact Or.inl rfl
    | some (.error e) => exact Or.inr rfl
    | some (.ok (a, q)) => exact hfg a q

section
variable {V : Type} [Zero V] (strtod : List Char → V)

/-- one call more does not change a result -/
structure Stable (k : Nat) : Prop where
  binary : ∀ m p, Outcome.Le (parseBinary strtod k m p) (parseBinary strtod (k + 1) m p)
  operators : ∀ m lhs p,
    Outcome.Le (parseOperators strtod k m lhs p) (parseOperators strtod (k + 1) m lhs p)
  unary : ∀ p, Outcome.Le (parseUnary strtod k p) (parseUnary strtod (k + 1) p)
  primary : ∀ p, Outcome.Le (parsePrimary strtod k p) (parsePrimary strtod (k + 1) p)
  arguments : ∀ p, Outcome.Le (parseArguments strtod k p) (parseArguments strtod (k + 1) p)
  argumentList : ∀ p,
    Outcome.Le (parseArgumentList strtod k p) (parseArgumentList strtod (k + 1) p)

variable {strtod}

theorem stable (k : Nat) : Stable strtod k := by
  induction k with
  | zero => constructor <;> intros <;> exact Or.inl rfl
  | succ k ih =>
    constructor
    · intro m p
      rw [parseBinary, parseBinary]
      exact (ih.unary p).andThen fun lhs q => ih.operators m lhs q
    · intro m lhs p
      rw [parseOperators, parseOperators]
      split
      · split
        · exact .refl _
        · split
          · exact .refl _
          · exact (ih.binary _ _).andThen fun rhs q => ih.operators m _ q
      · exact .refl _
    · intro p
      rw [parseUnary, parseUnary]
      split
      · exact .refl _
      split
      · split
        · exact (ih.unary _).andThen fun inner q => .refl _
        · exact ih.primary p
      · exact ih.primary p
    · intro p
      rw [parsePrimary, parsePrimary]
      split
      · exact .refl _
      split
      · exact .refl _
      · exact .refl _
      · exact (ih.binary _ _).andThen fun inner q => .refl _
      · split
        · exact .refl _
        · split
          · exact .refl _
          · exact (ih.arguments _).andThen fun args q => .refl _
      · exact .refl _
    · intro p
      rw [parseArguments, parseArguments]
      split
      · exact .refl _
      · exact ih.argumentList p
    · intro p
      rw [parseArgumentList, parseArgumentList]
      refine (ih.binary 0 p).andThen fun arg q => ?_
      split
      · exact .refl _
      · exact (ih.argumentList _).andThen fun args r => .refl _

theorem parseBinary_mono {j : Nat} {out : Except String (Node V × Parser)}
    (hjk : j ≤ k) (h : parseBinary strtod j m p = some out) :
    parseBinary strtod k m p = some out := by
  induction k, hjk using Nat.le_induction with
  | base => exact h
  | succ k _ ih =>
    have hstable : Stable strtod k := stable k
    rcases hstable.binary m p with hnone | heq
    · rw [ih] at hnone
      cases hnone
    · rw [← heq, ih]

end

end DolTranslator.InputExpr
