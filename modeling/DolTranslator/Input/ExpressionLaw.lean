import DolTranslator.Input.ExpressionGrammar

/-!
# The parser accepts its grammar

* `complete`   a derivation is found, whatever follows it that may follow;
* `parse_of_expression`, `parse_rejects`   the texts that are accepted, and the others.
-/

namespace DolTranslator.InputExpr

section
variable {V : Type} [Zero V] {strtod : List Char → V}

/-! ## with calls enough -/

/-- the result from some number of calls on -/
def Settles {α : Type} (f : Nat → Outcome α) (a : α) (q : Parser) : Prop :=
  ∃ k, ∀ j, k ≤ j → f j = ok a q

variable {q : Parser}

theorem Settles.of_succ {α : Type} {f g : Nat → Outcome α} {a : α}
    (h : ∀ k, f (k + 1) = g k) (hg : Settles g a q) : Settles f a q := by
  obtain ⟨k, hk⟩ := hg
  refine ⟨k + 1, fun j hj => ?_⟩
  obtain ⟨j, rfl⟩ : ∃ i, j = i + 1 := ⟨j - 1, by omega⟩
  rw [h]
  exact hk j (by omega)

theorem Settles.ok {α : Type} (a : α) (q : Parser) : Settles (fun _ => InputExpr.ok a q) a q :=
  ⟨0, fun _ _ => rfl⟩

theorem Settles.andThen {α β : Type} {f : Nat → Outcome α} {g : Nat → α → Parser → Outcome β}
    {a : α} {b : β} {r : Parser} (hf : Settles f a q) (hg : Settles (fun k => g k a q) b r) :
    Settles (fun k => InputExpr.andThen (f k) (g k)) b r := by
  obtain ⟨j, hj⟩ := hf
  obtain ⟨k, hk⟩ := hg
  refine ⟨max j k, fun i hi => ?_⟩
  show InputExpr.andThen (f i) (g i) = _
  rw [hj i (by omega)]
  exact hk i (by omega)

/-! ## completeness -/

/-- what may follow an expression of a level -/
def Follows (n : Nat) (q : Parser) : Prop := q.tok ≠ .lparen ∧ Stops (n + 1) q

theorem Follows.mono {n m : Nat} (h : Follows n q) (hnm : n ≤ m) : Follows m q :=
  ⟨h.1, fun op prec htok hprec => by have := h.2 op prec htok hprec; omega⟩

theorem settles_operators {n : Nat} (h : Stops n q) (e : Node V) :
    Settles (fun k => parseOperators strtod k n e q) e q := by
  apply Settles.of_succ (g := fun _ => ok e q)
  · intro k
    rw [parseOperators]
    split
    · rename_i op htok
      cases hprec : precedence op with
      | none => rfl
      | some prec => exact if_pos (h op prec htok hprec)
    · rfl
  · exact Settles.ok e q

variable {ts : List Token}

theorem Derives.head {s : Symbol} {ns : List (Node V)}
    (h : Derives strtod s ts ns) : s ≠ .arguments →
      ∃ t us, ts = t :: us ∧ t ≠ .rparen ∧ t ≠ .stop := by
  induction h with
  | up _ _ ih => exact fun _ => ih nofun
  | binary _ _ _ ihl _ =>
    intro _
    obtain ⟨t, us, rfl, h1, h2⟩ := ihl nofun
    exact ⟨t, _, rfl, h1, h2⟩
  | unary _ _ _ => exact fun _ => ⟨_, _, rfl, nofun, nofun⟩
  | input => exact fun _ => ⟨_, _, rfl, nofun, nofun⟩
  | number => exact fun _ => ⟨_, _, rfl, nofun, nofun⟩
  | ident => exact fun _ => ⟨_, _, rfl, nofun, nofun⟩
  | paren _ _ => exact fun _ => ⟨_, _, rfl, nofun, nofun⟩
  | call _ _ _ _ _ => exact fun _ => ⟨_, _, rfl, nofun, nofun⟩
  | none => exact fun h => absurd rfl h
  | some _ _ => exact fun h => absurd rfl h
  | last _ ih => exact fun _ => ih nofun
  | more _ _ ih _ =>
    intro _
    obtain ⟨t, us, rfl, h1, h2⟩ := ih nofun
    exact ⟨t, _, rfl, h1, h2⟩

/-- what a derivation makes of the parsers around its tokens -/
def Found (strtod : List Char → V) : Symbol → Parser → List (Node V) → Parser → Prop
  | .level n, p, ns, q => ∀ e, ns = [e] → Follows n q →
      (∀ m, m ≤ n → ∀ a r, Settles (fun k => parseOperators strtod k m e q) a r →
        Settles (fun k => parseBinary strtod k m p) a r) ∧
      (7 ≤ n → Settles (fun k => parseUnary strtod k p) e q) ∧
      (8 ≤ n → Settles (fun k => parsePrimary strtod k p) e q)
  | .arguments, p, ns, q => q.tok = .rparen → Settles (fun k => parseArguments strtod k p) ns q
  | .argumentList, p, ns, q =>
      q.tok = .rparen → Settles (fun k => parseArgumentList strtod k p) ns q

theorem settles_binary {m : Nat} {p r : Parser} {e a : Node V}
    (hu : Settles (fun k => parseUnary strtod k p) e q)
    (ho : Settles (fun k => parseOperators strtod k m e q) a r) :
    Settles (fun k => parseBinary strtod k m p) a r :=
  Settles.of_succ (fun k => by rw [parseBinary])
    (hu.andThen (g := fun k lhs q => parseOperators strtod k m lhs q) ho)

theorem Found.of_primary {p : Parser} {e : Node V} (hfailed : p.failed = false)
    (hop : ∀ op, p.tok ≠ .op op) (h : Follows 8 q → Settles (fun k => parsePrimary strtod k p) e q) :
    Found strtod (.level 8) p [e] q := by
  rintro e' heq hfollow
  cases heq
  have hprimary := h hfollow
  have hunary : Settles (fun k => parseUnary strtod k p) e q := by
    apply Settles.of_succ _ hprimary
    intro k
    rw [parseUnary, hfailed]
    split
    · contradiction
    split
    · rename_i op htok
      exact absurd htok (hop op)
    · rfl
  exact ⟨fun m _ a r ho => settles_binary hunary ho, fun _ => hunary, fun _ => hprimary⟩

theorem Found.binary {n : Nat} {p : Parser} {e : Node V} (h : Found strtod (.level n) p [e] q)
    (hfollow : Follows n q) (hstop : Stops n q) :
    Settles (fun k => parseBinary strtod k n p) e q :=
  (h e rfl hfollow).1 n (le_refl n) e q (settles_operators hstop e)

theorem follows_of_tok (hopen : q.tok ≠ .lparen) (hop : ∀ op, q.tok ≠ .op op)
    (n : Nat) : Follows n q ∧ Stops n q :=
  ⟨⟨hopen, fun op _ htok => absurd htok (hop op)⟩, fun op _ htok => absurd htok (hop op)⟩

/-- **What the grammar derives, the parser finds.** -/
theorem complete {s : Symbol} {ns : List (Node V)}
    (h : Derives strtod s ts ns) : ∀ p q, Consumes p ts q → q.failed = false →
      Found strtod s p ns q := by
  induction h with
  | @up n ts e hn _ ih =>
    rintro p q hts hq e' heq hfollow
    obtain ⟨hall, hunary, -⟩ := ih p q hts hq e' heq (hfollow.mono (Nat.le_succ n))
    exact ⟨fun m hm => hall m (by omega), fun h7 => hunary (by omega), fun h8 => by omega⟩
  | @binary op prec ls rs l r hprec _ _ ihl ihr =>
    rintro p q hts hq e heq hfollow
    cases heq
    obtain ⟨mid, hls, hrest⟩ := hts.split
    cases hrest with
    | cons htok _ hrs =>
      have hmidFailed := (Consumes.cons htok (by simp) hrs).not_failed hq
      have hmid : Follows prec mid := by
        refine ⟨by simp [htok], fun op' prec' htok' hprec' => ?_⟩
        rw [htok] at htok'
        cases htok'
        rw [hprec] at hprec'
        cases hprec'
        omega
      have h6 := precedence_le hprec
      refine ⟨fun m hm a r' ho => ?_, fun h7 => by omega, fun h8 => by omega⟩
      apply (ihl p mid hls hmidFailed l rfl hmid).1 m hm
      -- the loop takes the operator, and its right side up to the next one
      have hright : Settles (fun k => parseBinary strtod k (prec + 1) mid.advance) r q :=
        (ihr mid.advance q hrs hq).binary (hfollow.mono (Nat.le_succ prec)) hfollow.2
      apply Settles.of_succ _ (hright.andThen (g := fun k rhs q =>
        parseOperators strtod k m (operation (binaryKind op) [l, rhs]) q) ho)
      intro k
      rw [parseOperators, htok]
      dsimp only
      rw [hprec]
      exact if_neg (by omega)
  | @unary op ts e hop _ ih =>
    rintro p q hts hq e' heq hfollow
    cases heq
    have hfailed := hts.not_failed hq
    cases hts with
    | cons htok _ hts =>
      have hinner := (ih p.advance q hts hq e rfl hfollow).2.1 (le_refl 7)
      have hunary : Settles (fun k => parseUnary strtod k p) (unaryNode op e) q := by
        apply Settles.of_succ _ (hinner.andThen (g := fun _ inner q => ok (unaryNode op inner) q)
          (Settles.ok _ q))
        intro k
        rw [parseUnary, hfailed, htok]
        dsimp only
        rw [if_neg (by decide), if_pos hop]
      exact ⟨fun m _ a r ho => settles_binary hunary ho, fun _ => hunary, fun h8 => by omega⟩
  | input | number =>
    intro p q hts hq
    have hfailed := hts.not_failed hq
    cases hts with
    | cons htok _ hnil =>
      cases hnil
      refine Found.of_primary hfailed (fun op h => by rw [htok] at h; cases h) fun _ => ?_
      apply Settles.of_succ _ (Settles.ok _ _)
      intro k
      rw [parsePrimary, hfailed, htok]
      rfl
  | @ident name =>
    intro p q hts hq
    have hfailed := hts.not_failed hq
    cases hts with
    | cons htok _ hnil =>
      cases hnil
      refine Found.of_primary hfailed (fun op h => by rw [htok] at h; cases h) fun hfollow => ?_
      apply Settles.of_succ _ (Settles.ok _ _)
      intro k
      rw [parsePrimary, hfailed, htok]
      exact if_pos hfollow.1
  | @paren ts e _ ih =>
    intro p q hts hq
    have hfailed := hts.not_failed hq
    cases hts with
    | cons htok _ hts =>
      obtain ⟨mid, hinside, hclose⟩ := hts.split
      have hmidFailed := hclose.not_failed hq
      cases hclose with
      | cons hrparen _ hnil =>
        cases hnil
        refine Found.of_primary hfailed (fun op h => by rw [htok] at h; cases h) fun _ => ?_
        have hfollow := follows_of_tok (q := mid) (by simp [hrparen])
          (fun op => by simp [hrparen]) 0
        have hinner := (ih p.advance mid hinside hmidFailed).binary hfollow.1 hfollow.2
        apply Settles.of_succ _ (hinner.andThen (g := fun _ inner q =>
          if q.tok ≠ .rparen then fail "expected closing paren" else ok inner q.advance)
          (b := e) (r := mid.advance) ?_)
        · intro k
          rw [parsePrimary, hfailed, htok]
          rfl
        · show Settles (fun _ => if mid.tok ≠ .rparen then _ else ok e mid.advance) _ _
          rw [if_neg (not_not.mpr hrparen)]
          exact Settles.ok _ _
  | @call name info ts args hinfo _ hmin hmax ih =>
    intro p q hts hq
    have hfailed := hts.not_failed hq
    cases hts with
    | cons htok _ hts =>
      cases hts with
      | cons hopen _ hts =>
        obtain ⟨mid, hinside, hclose⟩ := hts.split
        have hmidFailed := hclose.not_failed hq
        cases hclose with
        | cons hrparen _ hnil =>
          cases hnil
          refine Found.of_primary hfailed (fun op h => by rw [htok] at h; cases h) fun _ => ?_
          have hargs := ih p.advance.advance mid hinside hmidFailed hrparen
          apply Settles.of_succ _ (hargs.andThen (g := fun _ args q =>
            if q.tok ≠ .rparen then
              fail ("expected closing paren after " ++ String.ofList name ++ " arguments")
            else if args.length < info.minArgs ∨ info.maxArgs < args.length then
              fail (countError name info)
            else ok (operation info.kind args) q.advance)
            (b := operation info.kind args) (r := mid.advance) ?_)
          · intro k
            rw [parsePrimary, hfailed, htok]
            dsimp only
            rw [if_neg (by decide), if_neg (not_not.mpr hopen), hinfo]
          · rw [if_neg (not_not.mpr hrparen), if_neg (by omega)]
            exact Settles.ok _ _
  | none =>
    intro p q hts hq hrparen
    cases hts
    apply Settles.of_succ _ (Settles.ok _ _)
    intro k
    rw [parseArguments, if_pos hrparen]
  | @some ts args hder ih =>
    intro p q hts hq hrparen
    obtain ⟨t, us, rfl, hne, -⟩ := hder.head (by simp)
    have hp : p.tok ≠ .rparen := by
      cases hts with
      | cons htok _ _ =>
        rw [htok]
        exact hne
    apply Settles.of_succ _ (ih p q hts hq hrparen)
    intro k
    rw [parseArguments, if_neg hp]
  | @last ts e _ ih =>
    intro p q hts hq hrparen
    have hfollow := follows_of_tok (q := q) (by simp [hrparen])
      (fun op => by simp [hrparen]) 0
    have harg := (ih p q hts hq).binary hfollow.1 hfollow.2
    apply Settles.of_succ _ (harg.andThen (g := fun k arg q =>
      if q.tok ≠ .comma then ok [arg] q
      else andThen (parseArgumentList strtod k q.advance) fun args q => ok (arg :: args) q)
      (b := [e]) (r := q) ?_)
    · intro k
      rw [parseArgumentList]
    · have hcomma : q.tok ≠ .comma := by simp [hrparen]
      simp only [if_pos hcomma]
      exact Settles.ok _ _
  | @more ts us e args _ _ ih ihs =>
    intro p q hts hq hrparen
    obtain ⟨mid, hts, hrest⟩ := hts.split
    have hmidFailed := hrest.not_failed hq
    cases hrest with
    | cons hcomma _ hus =>
      have hfollow := follows_of_tok (q := mid) (by simp [hcomma])
        (fun op => by simp [hcomma]) 0
      have harg := (ih p mid hts hmidFailed).binary hfollow.1 hfollow.2
      have hargs := ihs mid.advance q hus hq hrparen
      apply Settles.of_succ _ (harg.andThen (g := fun k arg q =>
        if q.tok ≠ .comma then ok [arg] q
        else andThen (parseArgumentList strtod k q.advance) fun args q => ok (arg :: args) q)
        (b := e :: args) (r := q) ?_)
      · intro k
        rw [parseArgumentList]
      · simp only [if_neg (not_not.mpr hcomma)]
        exact hargs.andThen (g := fun _ args q => ok (e :: args) q) (Settles.ok _ _)

/-! ## whole texts -/

variable {text : List Char}

theorem consumes_of_tokenizes (h : Tokenizes text ts) :
    ∀ t e, ∃ q, Consumes (Parser.advance ⟨text, t, e, false⟩) ts q ∧ q.tok = .stop ∧
      q.failed = false := by
  induction h with
  | stop hlex =>
    intro t e
    refine ⟨_, .nil _, ?_, ?_⟩
    · rw [Parser.advance, hlex]
    · rw [Parser.advance, hlex]
  | @token text rest tok ts hlex hne _ ih =>
    intro t e
    have hadv : Parser.advance ⟨text, t, e, false⟩ = ⟨rest, tok, e, false⟩ := by
      rw [Parser.advance, hlex]
    obtain ⟨q, hq, hstop, hfailed⟩ := ih tok e
    exact ⟨q, by rw [hadv]; exact .cons rfl hne hq, hstop, hfailed⟩

theorem tokenizes_of_consumes : ∀ {text : List Char} {t : Token} {e : String}
    {q : Parser}, Consumes (Parser.advance ⟨text, t, e, false⟩) ts q → q.tok = .stop →
      q.failed = false → Tokenizes text ts := by
  induction ts with
  | nil =>
    intro text t e q h hstop hfailed
    cases h
    unfold Parser.advance at hstop hfailed
    cases hlex : lexNext text with
    | error err => simp [hlex] at hfailed
    | ok r =>
      simp only [hlex] at hstop
      have hr : lexNext text = .ok (.stop, r.2) := by
        rw [hlex, ← hstop]
      exact .stop hr
  | cons tok ts ih =>
    intro text t e q h hstop hfailed
    have hp := h.not_failed hfailed
    cases h with
    | cons htok hne h =>
      cases hlex : lexNext text with
      | error err => simp [Parser.advance, hlex] at hp
      | ok r =>
        have hadv : Parser.advance ⟨text, t, e, false⟩ = ⟨r.2, r.1, e, false⟩ := by
          simp [Parser.advance, hlex]
        rw [hadv] at htok h
        have hr : lexNext text = .ok (tok, r.2) := by
          rw [hlex, ← htok]
        exact .token hr hne (ih h hstop hfailed)

/-- the text is blank to `Trim` -/
def Blank (text : List Char) : Prop := ∀ c ∈ text, isTrimmed c = true

theorem trim_isEmpty_iff (text : List Char) : (trim text).isEmpty = true ↔ Blank text := by
  rw [List.isEmpty_iff, trim, List.rdropWhile_eq_nil_iff]
  constructor
  · intro h
    by_contra hcon
    unfold Blank at hcon
    push Not at hcon
    obtain ⟨c, hc, hno⟩ := hcon
    have hne : text.dropWhile isTrimmed ≠ [] := by
      intro hnil
      exact hno (List.dropWhile_eq_nil_iff.mp hnil c hc)
    have hhead := List.head_dropWhile_not isTrimmed hne
    rw [h _ (List.head_mem hne)] at hhead
    cases hhead
  · intro h c hc
    exact h c ((List.dropWhile_suffix isTrimmed).mem hc)

theorem isSpace_of_isTrimmed {c : Char} (h : isTrimmed c = true) : isSpace c = true := by
  have hcases := of_decide_eq_true h
  obtain rfl | rfl | rfl | rfl := hcases <;> decide

theorem Blank.tokenizes (h : Blank text)
    (hts : Tokenizes text ts) : ts = [] := by
  have hlex : lexNext text = .ok (.stop, []) := by
    have hdrop : text.dropWhile isSpace = [] :=
      List.dropWhile_eq_nil_iff.mpr fun c hc => isSpace_of_isTrimmed (h c hc)
    rw [lexNext, hdrop]
  cases hts with
  | stop _ => rfl
  | token h hne _ =>
    rw [hlex] at h
    cases h
    exact absurd rfl hne

/-- the tokens of the text are an expression, with this node -/
def IsExpression (strtod : List Char → V) (text : List Char) (n : Node V) : Prop :=
  ∃ ts, Tokenizes text ts ∧ Derives strtod (.level 0) ts [n]

theorem IsExpression.not_blank {n : Node V} (h : IsExpression strtod text n) :
    ¬ Blank text := by
  intro hblank
  obtain ⟨ts, hts, hder⟩ := h
  obtain ⟨t, us, rfl, -⟩ := hder.head nofun
  have hnil := hblank.tokenizes hts
  cases hnil

theorem start_remaining_le (text : List Char) : (Parser.start text).remaining ≤ text.length :=
  advance_remaining_le ⟨text, .stop, "", false⟩

theorem parseExpression_spec (strtod : List Char → V) (text : List Char) :
    Returns (parseExpression strtod (callBound text) text) fun n _ =>
      IsExpression strtod text n := by
  have hbound := start_remaining_le text
  unfold parseExpression
  have hsound : Sound strtod (callBound text) := sound _
  apply (hsound.binary 0 (Parser.start text) (by omega) (by unfold callBound; omega)).andThen
  rintro n q ⟨⟨ts, hts, hder⟩, -, -⟩
  split
  · exact Returns.fail
  rename_i hfailed
  split
  · exact Returns.fail
  rename_i hstop
  rw [not_not] at hstop
  exact Returns.ok ⟨ts, tokenizes_of_consumes hts hstop (Bool.eq_false_iff.mpr hfailed), hder⟩

theorem parse_of_expression {n : Node V} (h : IsExpression strtod text n) :
    parse strtod text = ⟨true, some n, none⟩ := by
  have hblank := h.not_blank
  obtain ⟨ts, hts, hder⟩ := h
  obtain ⟨q, hq, hstop, hfailed⟩ := consumes_of_tokenizes hts .stop ""
  have hfollow := follows_of_tok (q := q) (by rw [hstop]; nofun) (fun op => by rw [hstop]; nofun) 0
  obtain ⟨k, hk⟩ := (complete hder _ q hq hfailed).binary hfollow.1 hfollow.2
  -- the bound is enough, and more calls would find the derivation
  have hbound := start_remaining_le text
  have hsound : Sound strtod (callBound text) := sound _
  obtain ⟨out, hout, -⟩ := hsound.binary 0 (Parser.start text) (by omega)
    (by unfold callBound; omega)
  have hmore := parseBinary_mono (Nat.le_max_right k (callBound text)) hout
  have hfound : parseBinary strtod (max k (callBound text)) 0 (Parser.start text) = ok n q :=
    hk _ (Nat.le_max_left k (callBound text))
  rw [hfound] at hmore
  have hexpr : parseExpression strtod (callBound text) text = ok n q := by
    rw [parseExpression, hout, ← hmore]
    show (if q.failed = true then _ else if q.tok ≠ .stop then _ else ok n q) = _
    rw [hfailed, if_neg (by decide), if_neg (not_not.mpr hstop)]
  rw [parse, if_neg fun hempty => hblank ((trim_isEmpty_iff text).mp hempty), hexpr]
  rfl

theorem parse_of_blank (h : Blank text) :
    parse strtod text = ⟨true, none, none⟩ := by
  rw [parse, if_pos ((trim_isEmpty_iff text).mpr h)]

theorem parse_rejects (hblank : ¬ Blank text)
    (h : ∀ n, ¬ IsExpression strtod text n) :
    ∃ e, parse strtod text = ⟨false, none, some e⟩ := by
  obtain ⟨out, hout, hspec⟩ := parseExpression_spec strtod text
  rw [parse, if_neg fun hempty => hblank ((trim_isEmpty_iff text).mp hempty), hout]
  match out with
  | .ok (n, q) => exact absurd (hspec n q rfl) (h n)
  | .error e => exact ⟨e, rfl⟩

end

end DolTranslator.InputExpr
