import DolTranslator.Input.ExpressionLaw

/-!
# Written expressions

Trees whose calls have an allowed number of arguments, written with the parentheses that the
precedences need, inputs in quotes and a space between two tokens.

* `Expr`   the trees;
* `tokenizes_print`   the tokenizer reads back the tokens that were written;
* `derives_tokens`   they are derived from the grammar;
* `parse_spec`   the parser takes each written tree back, and refuses what the grammar does
  not have.
-/

namespace DolTranslator.InputExpr

/-! ## writing tokens -/

def Token.render : Token → List Char
  | .stop => []
  | .input name => quote :: (name ++ [quote])
  | .number text => text
  | .ident name => name
  | .op c => [c]
  | .lparen => ['(']
  | .rparen => [')']
  | .comma => [',']

def spaced (ts : List Token) : List Char := ts.flatMap fun t => ' ' :: t.render

def printTokens : List Token → List Char
  | [] => []
  | t :: ts => t.render ++ spaced ts

/-- a token that the tokenizer can return, with the name of a function for an identifier -/
def Clean : Token → Prop
  | .stop => False
  | .input name => quote ∉ name
  | .number text => text ≠ [] ∧ ∀ c ∈ text, isNumberChar c = true
  | .ident name => ∃ entry ∈ functionTable, name = entry.1.toList
  | .op c => c ∈ operators
  | _ => True

/-- every identifier stands before an opening parenthesis -/
def Called : List Token → Prop
  | [] => True
  | .ident _ :: ts => ts.head? = some .lparen ∧ Called ts
  | _ :: ts => Called ts

theorem Called.append {ts us : List Token} (ht : Called ts) (hu : Called us) :
    Called (ts ++ us) := by
  induction ts with
  | nil => exact hu
  | cons t ts ih =>
    cases t with
    | ident name =>
      refine ⟨?_, ih ht.2⟩
      have hhead := ht.1
      cases ts with
      | nil => cases hhead
      | cons t ts => exact hhead
    | _ => exact ih ht

theorem lexNext_space (text : List Char) : lexNext (' ' :: text) = lexNext text := by
  unfold lexNext
  rw [List.dropWhile_cons_of_pos (by decide)]

/-- what may stand after a token: nothing, or a space -/
def Separated (rest : List Char) : Prop := rest = [] ∨ ∃ more, rest = ' ' :: more

theorem takeWhile_separated {p : Char → Bool} (hp : p ' ' = false) {l rest : List Char}
    (hl : ∀ c ∈ l, p c = true) (hr : Separated rest) : (l ++ rest).takeWhile p = l := by
  rw [List.takeWhile_append_of_pos hl]
  rcases hr with rfl | ⟨more, rfl⟩
  · rw [List.takeWhile_nil, List.append_nil]
  · rw [List.takeWhile_cons_of_neg (by rw [hp]; decide), List.append_nil]

theorem dropWhile_separated {p : Char → Bool} (hp : p ' ' = false) {l rest : List Char}
    (hl : ∀ c ∈ l, p c = true) (hr : Separated rest) : (l ++ rest).dropWhile p = rest := by
  rw [List.dropWhile_append_of_pos hl]
  rcases hr with rfl | ⟨more, rfl⟩
  · rw [List.dropWhile_nil]
  · rw [List.dropWhile_cons_of_neg (by rw [hp]; decide)]

theorem isNumberChar_spec {c : Char} (h : isNumberChar c = true) :
    isSpace c = false ∧ c ≠ quote := by
  have hrange : 46 ≤ c.toNat ∧ c.toNat ≤ 57 := by
    rw [isNumberChar, Bool.or_eq_true] at h
    rcases h with h | h
    · have hdigit := Char.isDigit_iff_toNat.mp h
      have h0 : '0'.toNat = 48 := rfl
      have h9 : '9'.toNat = 57 := rfl
      omega
    · rw [of_decide_eq_true h]
      decide
  constructor
  · apply decide_eq_false
    rintro (rfl | h)
    · exact absurd hrange (by decide)
    · omega
  · rintro rfl
    exact absurd hrange (by decide)

theorem lexNext_input {name rest : List Char} (h : quote ∉ name) :
    lexNext ((Token.input name).render ++ rest) = .ok (.input name, rest) := by
  have hname : ∀ c ∈ name, (c != quote) = true := by
    intro c hc
    rw [bne_iff_ne]
    rintro rfl
    exact h hc
  have htake : (name ++ quote :: rest).takeWhile (· != quote) = name := by
    rw [List.takeWhile_append_of_pos hname, List.takeWhile_cons_of_neg (by simp), List.append_nil]
  have hdrop : (name ++ quote :: rest).dropWhile (· != quote) = quote :: rest := by
    rw [List.dropWhile_append_of_pos hname, List.dropWhile_cons_of_neg (by simp)]
  have htext : (Token.input name).render ++ rest = quote :: (name ++ quote :: rest) := by
    simp [Token.render]
  unfold lexNext
  rw [htext, List.dropWhile_cons_of_neg (by decide)]
  dsimp only
  rw [if_pos rfl, hdrop, htake]

theorem lexNext_number {text rest : List Char} (hne : text ≠ [])
    (h : ∀ c ∈ text, isNumberChar c = true) (hr : Separated rest) :
    lexNext (text ++ rest) = .ok (.number text, rest) := by
  have htake := takeWhile_separated (p := isNumberChar) (by decide) h hr
  have hdrop := dropWhile_separated (p := isNumberChar) (by decide) h hr
  cases text with
  | nil => exact absurd rfl hne
  | cons c text =>
    have hc := h c List.mem_cons_self
    obtain ⟨hspace, hquote⟩ := isNumberChar_spec hc
    unfold lexNext
    rw [List.cons_append, List.dropWhile_cons_of_neg (by rw [hspace]; decide)]
    dsimp only
    rw [if_neg hquote, if_pos hc, ← List.cons_append, htake, hdrop]

def isLetter (c : Char) : Bool :=
  !isSpace c && c != quote && !isNumberChar c && c.isAlpha && isIdentChar c && c != ' '

theorem isLetter_spec {c : Char} (h : isLetter c = true) : isSpace c = false ∧ c ≠ quote ∧
    isNumberChar c = false ∧ c.isAlpha = true ∧ isIdentChar c = true ∧ (c == ' ') = false := by
  simp only [isLetter, Bool.and_eq_true, Bool.not_eq_true', bne_iff_ne] at h
  obtain ⟨⟨⟨⟨⟨hspace, hquote⟩, hnumber⟩, halpha⟩, hident⟩, hne⟩ := h
  exact ⟨hspace, hquote, hnumber, halpha, hident, beq_false_of_ne hne⟩

theorem functionTable_names {entry : String × FnInfo} (h : entry ∈ functionTable) :
    entry.1.toList ≠ [] ∧ ∀ c ∈ entry.1.toList, isSpace c = false ∧ c ≠ quote ∧
      isNumberChar c = false ∧ c.isAlpha = true ∧ isIdentChar c = true ∧ (c == ' ') = false := by
  have hall : (functionTable.all fun entry =>
      !entry.1.toList.isEmpty && entry.1.toList.all isLetter) = true := by
    decide +kernel
  have hentry := List.all_eq_true.mp hall entry h
  rw [Bool.and_eq_true, List.all_eq_true] at hentry
  refine ⟨fun hnil => ?_, fun c hc => isLetter_spec (hentry.2 c hc)⟩
  rw [hnil] at hentry
  exact absurd hentry.1 (by decide)

theorem lexNext_ident {name more : List Char} (h : ∃ entry ∈ functionTable, name = entry.1.toList) :
    lexNext (name ++ ' ' :: '(' :: more) = .ok (.ident name, ' ' :: '(' :: more) := by
  obtain ⟨entry, hentry, rfl⟩ := h
  obtain ⟨hne, hall⟩ := functionTable_names hentry
  generalize entry.1.toList = name at hne hall
  have htake : (name ++ ' ' :: '(' :: more).takeWhile isIdentChar = name ++ [' '] := by
    rw [List.takeWhile_append_of_pos fun c hc => (hall c hc).2.2.2.2.1,
      List.takeWhile_cons_of_pos (by decide), List.takeWhile_cons_of_neg (by decide)]
  have htrim : (name ++ [' ']).rdropWhile (· == ' ') = name := by
    rw [List.rdropWhile_concat_pos (· == ' ') name ' ' (by decide), List.rdropWhile_eq_self_iff]
    intro hl hlast
    rw [(hall _ (List.getLast_mem hl)).2.2.2.2.2] at hlast
    cases hlast
  cases hname : name with
  | nil => exact absurd hname hne
  | cons c tail =>
    obtain ⟨hspace, hquote, hnumber, halpha, -, -⟩ := hall c (by rw [hname]; exact List.mem_cons_self)
    unfold lexNext
    rw [List.cons_append, List.dropWhile_cons_of_neg (by rw [hspace]; decide)]
    dsimp only
    rw [if_neg hquote, if_neg (by rw [hnumber]; decide), if_pos (by rw [halpha]; rfl),
      ← List.cons_append, ← hname, htake, htrim, List.drop_left]

theorem lexNext_op {c : Char} (h : c ∈ operators) (rest : List Char) :
    lexNext (c :: rest) = .ok (.op c, rest) := by
  have hall : (operators.all fun c => !isSpace c && c != quote && !isNumberChar c &&
      !(c.isAlpha || c = '_') && c != '(' && c != ')' && c != ',') = true := by
    decide +kernel
  have hc := List.all_eq_true.mp hall c h
  simp only [Bool.and_eq_true, Bool.not_eq_true', bne_iff_ne] at hc
  obtain ⟨⟨⟨⟨⟨⟨hspace, hquote⟩, hnumber⟩, halpha⟩, hopen⟩, hclose⟩, hcomma⟩ := hc
  unfold lexNext
  rw [List.dropWhile_cons_of_neg (by rw [hspace]; decide)]
  dsimp only
  rw [if_neg hquote, if_neg (by rw [hnumber]; decide), if_neg (by rw [halpha]; decide),
    if_neg hopen, if_neg hclose, if_neg hcomma, if_pos h]

theorem lexNext_render {t : Token} {rest : List Char} (ht : Clean t) (hr : Separated rest)
    (hident : ∀ name, t = .ident name → ∃ more, rest = ' ' :: '(' :: more) :
    lexNext (t.render ++ rest) = .ok (t, rest) := by
  cases t with
  | stop => exact ht.elim
  | input name => exact lexNext_input ht
  | number text => exact lexNext_number ht.1 ht.2 hr
  | ident name =>
    obtain ⟨more, rfl⟩ := hident name rfl
    exact lexNext_ident ht
  | op c => exact lexNext_op ht rest
  | lparen => rfl
  | rparen => rfl
  | comma => rfl

theorem separated_spaced (ts : List Token) : Separated (spaced ts) := by
  cases ts with
  | nil => exact Or.inl rfl
  | cons t ts => exact Or.inr ⟨t.render ++ spaced ts, rfl⟩

/-- **The tokenizer reads back what was written.** -/
theorem tokenizes_print {ts : List Token} (hclean : ∀ t ∈ ts, Clean t) (hcalled : Called ts) :
    Tokenizes (printTokens ts) ts := by
  have hspaced : ∀ us : List Token, (∀ t ∈ us, Clean t) → Called us →
      Tokenizes (spaced us) us ∧ Tokenizes (printTokens us) us := by
    intro us
    induction us with
    | nil => exact fun _ _ => ⟨.stop rfl, .stop rfl⟩
    | cons t us ih =>
      intro hclean hcalled
      have ht := hclean t List.mem_cons_self
      have hne : t ≠ .stop := fun h => by
        rw [h] at ht
        exact ht
      have hrest : Called us := by
        cases t with
        | ident name => exact hcalled.2
        | _ => exact hcalled
      have hlex : lexNext (t.render ++ spaced us) = .ok (t, spaced us) := by
        apply lexNext_render ht (separated_spaced us)
        rintro name rfl
        have hhead := hcalled.1
        cases us with
        | nil => cases hhead
        | cons u us =>
          cases hhead
          exact ⟨spaced us, rfl⟩
      have htail := (ih (fun u hu => hclean u (List.mem_cons_of_mem t hu)) hrest).1
      refine ⟨.token ?_ hne htail, .token hlex hne htail⟩
      show lexNext (' ' :: (t.render ++ spaced us)) = _
      rw [lexNext_space, hlex]
  exact (hspaced ts hclean hcalled).2

/-! ## trees -/

/-- the text of a literal -/
structure LiteralText where
  text : List Char
  nonempty : text ≠ []
  chars : ∀ c ∈ text, isNumberChar c = true

/-- a name that can stand in quotes -/
structure InputName where
  name : List Char
  unquoted : quote ∉ name

structure BinaryOperator where
  op : Char
  prec : Nat
  spec : precedence op = some prec

/-- a function of the table -/
structure Function where
  name : String
  info : FnInfo
  mem : (name, info) ∈ functionTable

/-- a call has a number of arguments that its function allows -/
inductive Expr where
  | literal (text : LiteralText)
  | input (name : InputName)
  | not (e : Expr)
  | negate (e : Expr)
  | binary (op : BinaryOperator) (l r : Expr)
  | call (f : Function) (n : Nat) (hmin : f.info.minArgs ≤ n) (hmax : n ≤ f.info.maxArgs)
      (args : Fin n → Expr)

namespace Expr

def level : Expr → Nat
  | .literal _ | .input _ | .call .. => 8
  | .not _ | .negate _ => 7
  | .binary op _ _ => op.prec

/-- parentheses, where an expression of a level would not be read whole -/
def wrap (b : Bool) (ts : List Token) : List Token :=
  if b then .lparen :: (ts ++ [.rparen]) else ts

def commas : List (List Token) → List Token
  | [] => []
  | [ts] => ts
  | ts :: us :: rest => ts ++ .comma :: commas (us :: rest)

def tokens : Expr → List Token
  | .literal text => [.number text.text]
  | .input name => [.input name.name]
  | .not e => .op '!' :: wrap (e.level < 7) e.tokens
  | .negate e => .op '-' :: wrap (e.level < 7) e.tokens
  | .binary op l r => wrap (l.level < op.prec) l.tokens ++
      .op op.op :: wrap (r.level < op.prec + 1) r.tokens
  | .call f _ _ _ args => .ident f.name.toList ::
      .lparen :: (commas (List.ofFn fun i => (args i).tokens) ++ [.rparen])

def print (e : Expr) : List Char := printTokens e.tokens

end Expr

section
variable {V : Type} [Zero V] (strtod : List Char → V)

/-- the nodes of a tree, with `-x` as `0 - x` -/
def Expr.toNode : Expr → Node V
  | .literal text => literalNode (strtod text.text)
  | .input name => inputNode name.name
  | .not e => operation .not [e.toNode]
  | .negate e => operation .sub [literalNode 0, e.toNode]
  | .binary op l r => operation (binaryKind op.op) [l.toNode, r.toNode]
  | .call f _ _ _ args => operation f.info.kind (List.ofFn fun i => (args i).toNode)

variable {strtod}

namespace Expr

theorem level_le (e : Expr) : e.level ≤ 8 := by
  cases e with
  | binary op l r =>
    have := precedence_le op.spec
    exact le_trans this (by decide)
  | _ => simp [level]

theorem findFunction_eq (f : Function) : findFunction f.name.toList = some f.info := by
  have hall : (functionTable.all fun entry =>
      findFunction entry.1.toList == some entry.2) = true := by
    decide +kernel
  exact beq_iff_eq.mp (List.all_eq_true.mp hall _ f.mem)

theorem derives_wrap {ts : List Token} {n m : Nat} {e : Node V} (hn : n ≤ 8) (hm : m ≤ 8)
    (h : Derives strtod (.level n) ts [e]) :
    Derives strtod (.level m) (wrap (decide (n < m)) ts) [e] := by
  by_cases hlt : n < m
  · rw [wrap, if_pos (decide_eq_true hlt)]
    exact (Derives.paren (h.down hn (Nat.zero_le n))).down (le_refl 8) hm
  · rw [wrap, if_neg (by rw [decide_eq_true_eq]; exact hlt)]
    exact h.down hn (by omega)

theorem derives_commas {l : List (List Token × Node V)}
    (h : ∀ x ∈ l, Derives strtod (.level 0) x.1 [x.2]) :
    Derives strtod .arguments (commas (l.map Prod.fst)) (l.map Prod.snd) := by
  have hlist : ∀ x l, (∀ y ∈ x :: l, Derives strtod (.level 0) y.1 [y.2]) →
      Derives strtod .argumentList (commas ((x :: l).map Prod.fst)) ((x :: l).map Prod.snd) := by
    intro x l
    induction l generalizing x with
    | nil => exact fun h => .last (h x List.mem_cons_self)
    | cons y l ih =>
      intro h
      exact .more (h x List.mem_cons_self) (ih y fun z hz => h z (List.mem_cons_of_mem x hz))
  cases l with
  | nil => exact .none
  | cons x l => exact .some (hlist x l h)

/-- **A written tree is derived from the grammar, at the level of its operator.** -/
theorem derives_tokens (e : Expr) :
    Derives strtod (.level e.level) e.tokens [e.toNode strtod] := by
  induction e with
  | literal text => exact .number
  | input name => exact .input
  | not e ih =>
    have hinner := derives_wrap (m := 7) e.level_le (by decide) ih
    exact .unary (show isUnary '!' = true by decide) hinner
  | negate e ih =>
    have hinner := derives_wrap (m := 7) e.level_le (by decide) ih
    exact .unary (show isUnary '-' = true by decide) hinner
  | binary op l r ihl ihr =>
    have hprec := precedence_le op.spec
    have hleft := derives_wrap (m := op.prec) l.level_le (by omega) ihl
    have hright := derives_wrap (m := op.prec + 1) r.level_le (by omega) ihr
    exact .binary op.spec hleft hright
  | call f n hmin hmax args ih =>
    have hall : ∀ x ∈ List.ofFn fun i => ((args i).tokens, (args i).toNode strtod),
        Derives strtod (.level 0) x.1 [x.2] := by
      intro x hx
      obtain ⟨i, rfl⟩ := (List.mem_ofFn' _ _).mp hx
      exact (ih i).down (args i).level_le (Nat.zero_le _)
    have hargs := derives_commas hall
    rw [List.map_ofFn, List.map_ofFn] at hargs
    exact .call (findFunction_eq f) hargs (by rw [List.length_ofFn]; exact hmin)
      (by rw [List.length_ofFn]; exact hmax)

/-! ## the tokens of a tree can be read back -/

/-- clean tokens, with a parenthesis after each name -/
def Writable (ts : List Token) : Prop := (∀ t ∈ ts, Clean t) ∧ Called ts

theorem Writable.append {ts us : List Token} (ht : Writable ts) (hu : Writable us) :
    Writable (ts ++ us) :=
  ⟨fun t h => (List.mem_append.mp h).elim (ht.1 t) (hu.1 t), ht.2.append hu.2⟩

theorem Writable.cons {t : Token} {ts : List Token} (ht : Clean t) (hno : ∀ name, t ≠ .ident name)
    (h : Writable ts) : Writable (t :: ts) := by
  refine ⟨fun u hu => ?_, ?_⟩
  · rcases List.mem_cons.mp hu with rfl | hu
    · exact ht
    · exact h.1 u hu
  · cases t with
    | ident name => exact absurd rfl (hno name)
    | _ => exact h.2

theorem writable_nil : Writable [] := ⟨fun _ h => absurd h List.not_mem_nil, trivial⟩

theorem Writable.wrap {ts : List Token} (h : Writable ts) (b : Bool) : Writable (wrap b ts) := by
  cases b with
  | false => exact h
  | true =>
    exact Writable.cons trivial nofun (h.append (Writable.cons trivial nofun writable_nil))

theorem writable_commas {l : List (List Token)} (h : ∀ ts ∈ l, Writable ts) :
    Writable (commas l) := by
  fun_induction commas l with
  | case1 => exact writable_nil
  | case2 ts => exact h ts List.mem_cons_self
  | case3 ts us rest ih =>
    exact (h ts List.mem_cons_self).append
      (Writable.cons trivial nofun (ih fun vs hvs => h vs (List.mem_cons_of_mem ts hvs)))

theorem mem_operators {op : Char} {prec : Nat} (h : precedence op = some prec) :
    op ∈ operators := by
  unfold precedence at h
  split at h <;> first
    | (cases h; decide)
    | cases h

theorem writable_tokens (e : Expr) : Writable e.tokens := by
  induction e with
  | literal text => exact Writable.cons ⟨text.nonempty, text.chars⟩ nofun writable_nil
  | input name => exact Writable.cons name.unquoted nofun writable_nil
  | not e ih => exact Writable.cons (show '!' ∈ operators by decide) nofun (ih.wrap _)
  | negate e ih => exact Writable.cons (show '-' ∈ operators by decide) nofun (ih.wrap _)
  | binary op l r ihl ihr =>
    exact (ihl.wrap _).append (Writable.cons (t := .op op.op) (mem_operators op.spec) nofun
      (ihr.wrap _))
  | call f n hmin hmax args ih =>
    have hinside : Writable (.lparen ::
        (commas (List.ofFn fun i => (args i).tokens) ++ [.rparen])) := by
      refine Writable.cons trivial nofun ((writable_commas fun ts hts => ?_).append
        (Writable.cons trivial nofun writable_nil))
      obtain ⟨i, rfl⟩ := (List.mem_ofFn' _ _).mp hts
      exact ih i
    refine ⟨fun t ht => ?_, rfl, hinside.2⟩
    rcases List.mem_cons.mp ht with rfl | ht
    · exact ⟨(f.name, f.info), f.mem, rfl⟩
    · exact hinside.1 t ht

theorem print_isExpression (e : Expr) : IsExpression strtod e.print (e.toNode strtod) :=
  ⟨e.tokens, tokenizes_print e.writable_tokens.1 e.writable_tokens.2,
    e.derives_tokens.down e.level_le (Nat.zero_le _)⟩

end Expr

/-- **The parser is the inverse of printing, and accepts its grammar only**: a written tree is taken
back, so is every text whose tokens are an expression, a blank text is accepted as no expression,
and every other text is refused and leaves none. -/
theorem parse_spec (strtod : List Char → V) :
    (∀ e : Expr, parse strtod e.print = ⟨true, some (e.toNode strtod), none⟩) ∧
    (∀ text n, IsExpression strtod text n → parse strtod text = ⟨true, some n, none⟩) ∧
    (∀ text, Blank text → parse strtod text = ⟨true, none, none⟩) ∧
    (∀ text, ¬ Blank text → (∀ n, ¬ IsExpression strtod text n) →
      ∃ e, parse strtod text = ⟨false, none, some e⟩) :=
  ⟨fun e => parse_of_expression e.print_isExpression, fun _ _ h => parse_of_expression h,
    fun _ h => parse_of_blank h, fun _ hblank h => parse_rejects hblank h⟩

end

/-- the empty text has no tokens, so it is no expression, and it is accepted -/
theorem parse_accepts_blank : (parse (fun _ => (0 : Nat)) []).accepted = true ∧
    ∀ n, ¬ IsExpression (fun _ => (0 : Nat)) [] n := by
  refine ⟨rfl, fun n h => ?_⟩
  have hblank : Blank [] := fun c hc => absurd hc List.not_mem_nil
  exact h.not_blank hblank

end DolTranslator.InputExpr
