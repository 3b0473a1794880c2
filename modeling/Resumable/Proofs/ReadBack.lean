import Resumable.Proofs.Forward

/-!
# Printed expressions are read back

An expression that was read is printed in such a way that the text is read as the same expression,
unless a sign runs into another one.

* `Expr.kinds` are the tokens of a printed expression; `Expr.spells_text` says that its text is read
  as these;
* `ReadsPostfixed`, `ReadsUnary`, `ReadsBinary` and `ReadsExpr` say that tokens are read as an
  expression by one level of the grammar, whatever follows that cannot go on with it; each level
  passes on what the tighter one reads;
* `Expr.Readable` are the expressions that can be read at all (`expression_readable`);
* `Expr.runsOn` are the three shapes whose text is read as something else.
-/

namespace Resumable

open List

/-! ## Tokens of expressions -/

/-- The token of a binary operator. -/
def BinaryOp.kind : BinaryOp → TokenKind
  | add => .plus
  | sub => .minus
  | mul => .star
  | div => .slash
  | rem => .percent
  | eq => .equalEqual
  | ne => .bangEqual
  | lt => .less
  | le => .lessEqual
  | gt => .greater
  | ge => .greaterEqual
  | and => .ampAmp
  | or => .pipePipe

/-- The token of an operator in front of its operand. -/
def UnaryOp.kind : UnaryOp → TokenKind
  | neg => .minus
  | not => .bang

/-- The token of an assignment, for the operators that can be joined to one. -/
def assignKind? : Option BinaryOp → Option TokenKind
  | none => some .equal
  | some .add => some .plusEqual
  | some .sub => some .minusEqual
  | some .mul => some .starEqual
  | some .div => some .slashEqual
  | some .rem => some .percentEqual
  | _ => none

/-- The token of an increment or decrement. -/
def stepKind (delta : Int64) : TokenKind := if delta = 1 then .plusPlus else .minusMinus

/-- The tokens of a constant. -/
def Literal.kinds : Literal → List TokenKind
  | .int v => if v < 0 then [.minus, .integer (-v)] else [.integer v]
  | .bool b => [.bool b]
  | .str s => [.string s]
  | .null => [.null]

namespace Expr

/-- The tokens of an expression at a place that asks for at least the precedence `least`. -/
def kindsAt (least : Nat) (e : Expr) (ks : List TokenKind) : List TokenKind :=
  if e.precedence < least then .leftParen :: (ks ++ [.rightParen]) else ks

mutual

/-- The tokens of a printed expression. -/
def kinds : Expr → List TokenKind
  | literal l => l.kinds
  | ident x => [.identifier x.name]
  | unary op e => op.kind :: e.kindsAt unaryPrecedence (kinds e)
  | binary op a b =>
    a.kindsAt op.precedence (kinds a) ++ op.kind :: b.kindsAt (op.precedence + 1) (kinds b)
  | assign x op e => .identifier x.name :: (assignKind? op).getD .equal :: kinds e
  | increment x delta old =>
    if old then [.identifier x.name, stepKind delta] else [stepKind delta, .identifier x.name]
  | call f args => .identifier f :: .leftParen :: (argKinds args ++ [.rightParen])
  | method e name args => e.kindsAt primaryPrecedence (kinds e) ++
      .dot :: .identifier name :: .leftParen :: (argKinds args ++ [.rightParen])

/-- The tokens of printed arguments. -/
def argKinds : List Expr → List TokenKind
  | [] => []
  | [e] => kinds e
  | e :: es => kinds e ++ .comma :: argKinds es

end

/-! ## Expressions that can be read -/

/-- Whether the expression is an integer constant. -/
def isInt : Expr → Bool
  | literal (.int _) => true
  | _ => false

mutual

/-- The expression is one that can be read: its names are free, no constant is the least number, the
sign of a constant belongs to it, and only the operators of arithmetic are joined to an assignment.
-/
def Readable : Expr → Prop
  | literal (.int v) => v ≠ Int64.minValue
  | literal _ => True
  | ident x => IsName x.name ∧ x.symbol = none
  | unary .neg e => e.Readable ∧ e.isInt = false
  | unary .not e => e.Readable
  | binary _ a b => a.Readable ∧ b.Readable
  | assign x op e => (IsName x.name ∧ x.symbol = none) ∧ (assignKind? op).isSome ∧ e.Readable
  | increment x delta _ => (IsName x.name ∧ x.symbol = none) ∧ (delta = 1 ∨ delta = -1)
  | call f args => IsName f ∧ ReadableAll args
  | method e name args => e.Readable ∧ IsName name ∧ ReadableAll args

/-- All of the expressions are ones that can be read. -/
def ReadableAll : List Expr → Prop
  | [] => True
  | e :: es => e.Readable ∧ ReadableAll es

end

/-- Whether the expression is an increment or decrement with the operator in front. -/
def isPrefixStep : Expr → Bool
  | increment _ _ old => !old
  | _ => false

/-- Whether a sign of the expression runs into what it is printed next to: a minus sign in front of
another minus sign or of a decrement, or a step in front of the receiver of a call. -/
def runsOn : Expr → Bool
  | unary .neg (unary .neg _) => true
  | unary .neg (increment _ delta old) => delta = -1 ∧ old = false
  | method e _ _ => e.isPrefixStep
  | _ => false

mutual

/-- No sign in the expression runs into what it is printed next to. -/
def Clear : Expr → Prop
  | unary op e => (unary op e).runsOn = false ∧ e.Clear
  | binary _ a b => a.Clear ∧ b.Clear
  | assign _ _ e => e.Clear
  | call _ args => ClearAll args
  | method e name args => (method e name args).runsOn = false ∧ e.Clear ∧ ClearAll args
  | _ => True

/-- No sign in the expressions runs into what it is printed next to. -/
def ClearAll : List Expr → Prop
  | [] => True
  | e :: es => e.Clear ∧ ClearAll es

end

end Expr

/-! ## Spellings of expressions -/

/-- What follows an expression does not belong to its last token. -/
def Parted (r : List Char) : Prop := ∀ d ∈ r.head?, d = ' ' ∨ d = ')' ∨ d = ',' ∨ d = '.'

/-- What may follow an expression goes on with no word and no number. -/
theorem Parted.apart {r : List Char} (h : Parted r) : Apart r := by
  intro d hd
  rcases h d hd with rfl | rfl | rfl | rfl <;> decide

/-- The text of a number starts with a digit, thus with no sign. -/
theorem toString_head (n : Nat) :
    ∃ c cs, (toString n).toList = c :: cs ∧ c ≠ '=' ∧ c ≠ '-' := by
  cases hds : Nat.toDigits 10 n with
  | nil => exact absurd hds Nat.toDigits_ne_nil
  | cons d ds =>
    have hdigit : d.isDigit = true := Text.isDigit_of_mem (hds ▸ mem_cons_self)
    refine ⟨d, ds, (Text.toList_toString n).trans hds, ?_, ?_⟩
    all_goals rintro rfl; exact absurd hdigit (by decide)

namespace Spells

variable {r : List Char} {ks : List TokenKind}

/-- An operator is printed with a space behind it. -/
theorem operator (op : BinaryOp) (h : Spells r ks) :
    Spells (op.spelling.toList ++ ' ' :: r) (op.kind :: ks) := by
  cases op
  all_goals exact .token (by decide) rfl (space h)

theorem assignment {op : Option BinaryOp} {kind : TokenKind} (hop : assignKind? op = some kind)
    (h : Spells r ks) :
    Spells (((op.map BinaryOp.spelling).getD "").toList ++ '=' :: ' ' :: r) (kind :: ks) := by
  unfold assignKind? at hop
  split at hop <;> cases hop
  all_goals exact .token (by decide) rfl (space h)

theorem increment (h : Spells r ks) : Spells ('+' :: '+' :: r) (.plusPlus :: ks) :=
  .token (by decide) rfl h

theorem decrement (h : Spells r ks) : Spells ('-' :: '-' :: r) (.minusMinus :: ks) :=
  .token (by decide) rfl h

/-- A constant with its sign. -/
theorem int {v : Int64} (hv : v ≠ Int64.minValue) (hr : Apart r) (h : Spells r ks) :
    Spells ((toString v.toInt).toList ++ r) ((Literal.int v).kinds ++ ks) := by
  have hpow : Text.int64Bound = 2 ^ 63 := rfl
  have hlow : -(2 ^ 63 : Int) ≤ v.toInt := Int64.le_toInt v
  have hhigh : v.toInt < 2 ^ 63 := Int64.toInt_lt v
  have hne : v.toInt ≠ -(2 ^ 63 : Int) := fun hmin => hv (Int64.toInt_inj.mp hmin)
  cases hn : v.toInt with
  | ofNat n =>
    rw [hn, Int.ofNat_eq_natCast] at hhigh
    have hbound : n < Text.int64Bound := by omega
    have hsign : ¬ v < 0 := by
      rw [Int64.lt_iff_toInt_lt, hn]
      exact Int.not_lt.mpr (Int.natCast_nonneg n)
    have hvalue : Int64.ofNat n = v := by
      apply Int64.toInt_inj.mp
      rw [Int64.toInt_ofNat_of_lt hbound, hn]
      rfl
    rw [Literal.kinds, if_neg hsign]
    have hnumber := number hbound hr h
    rwa [hvalue] at hnumber
  | negSucc n =>
    rw [hn] at hlow hne
    have hbound : n + 1 < Text.int64Bound := by omega
    have hsign : v < 0 := by
      rw [Int64.lt_iff_toInt_lt, hn]
      exact Int.negSucc_lt_zero n
    have hvalue : Int64.ofNat (n + 1) = -v := by
      apply Int64.toInt_inj.mp
      rw [Int64.toInt_ofNat_of_lt hbound, Int64.toInt_neg, hn,
        Int.bmod_eq_of_le (by omega) (by omega)]
      rfl
    have hnumber := number hbound hr h
    rw [hvalue] at hnumber
    rw [Literal.kinds, if_pos hsign]
    have htext : (toString (Int.negSucc n)).toList = '-' :: (toString (n + 1)).toList := by
      show ("-" ++ toString (n + 1)).toList = _
      rw [String.toList_append]
      rfl
    rw [htext]
    refine minus ?_ hnumber
    obtain ⟨c, cs, hcs, hequal, hminus⟩ := toString_head (n + 1)
    rw [hcs]
    rintro d ⟨⟩
    exact ⟨hminus, hequal⟩

end Spells

/-- A name starts with no sign. -/
theorem IsName.head {x : String} (hx : IsName x) :
    ∃ c cs, x.toList = c :: cs ∧ c ≠ '=' ∧ c ≠ '-' := by
  obtain ⟨c, cs, hcs, hc, -⟩ := hx.1
  refine ⟨c, cs, hcs, ?_, ?_⟩
  all_goals rintro rfl; exact absurd hc (by decide)

namespace Expr

variable {symbols : SymbolTable}

theorem text_free {x : Ident} (hx : x.symbol = none) : x.text symbols = x.name := by
  rw [Ident.text, hx]

/-- Whether the text of the expression starts with a minus sign. -/
def startsMinus : Expr → Bool
  | unary .neg _ => true
  | literal (.int v) => v < 0
  | increment _ delta old => delta = -1 ∧ old = false
  | _ => false

variable {e : Expr}

/-- A sign in front binds less tightly than a primary expression, except in a decrement. -/
theorem isPrefixStep_of_startsMinus (h : e.startsMinus = true)
    (hp : ¬ e.precedence < primaryPrecedence) : e.isPrefixStep = true := by
  match e with
  | unary .neg _ => exact absurd (by simp [precedence, unaryPrecedence, primaryPrecedence]) hp
  | literal (.int v) =>
    have hv : v < 0 := of_decide_eq_true h
    rw [precedence, if_pos hv] at hp
    exact absurd (by decide) hp
  | increment _ _ old =>
    obtain ⟨-, rfl⟩ := of_decide_eq_true h
    rfl

/-- Only a sign in front makes the text of an operand start with a minus sign, and none starts with
an equals sign. -/
theorem head_text (symbols : SymbolTable) (e : Expr) (he : e.Readable) (hc : e.Clear)
    (hp : unaryPrecedence ≤ e.precedence) :
    ∃ c cs, (e.text symbols).toList = c :: cs ∧ c ≠ '=' ∧ (c = '-' → e.startsMinus = true) := by
  match e with
  | literal (.int v) =>
    cases hn : v.toInt with
    | ofNat n =>
      obtain ⟨c, cs, hcs, hequal, hminus⟩ := toString_head n
      have htext : ((literal (.int v)).text symbols).toList = c :: cs := by
        simp only [text, Literal.text, hn]
        exact hcs
      exact ⟨c, cs, htext, hequal, fun h => absurd h hminus⟩
    | negSucc n =>
      have htext : ((literal (.int v)).text symbols).toList = '-' :: (toString (n + 1)).toList := by
        simp only [text, Literal.text, hn]
        show ("-" ++ toString (n + 1)).toList = _
        simp
      have hsign : v < 0 := by
        rw [Int64.lt_iff_toInt_lt, hn]
        exact Int.negSucc_lt_zero n
      exact ⟨'-', _, htext, by decide, fun _ => by simp [startsMinus, hsign]⟩
  | literal (.bool true) =>
    exact ⟨'t', ['r', 'u', 'e'], by simp [text, Literal.text], by decide, by decide⟩
  | literal (.bool false) =>
    exact ⟨'f', ['a', 'l', 's', 'e'], by simp [text, Literal.text], by decide, by decide⟩
  | literal .null =>
    exact ⟨'n', ['u', 'l', 'l'], by simp [text, Literal.text], by decide, by decide⟩
  | literal (.str s) =>
    have htext : ((literal (.str s)).text symbols).toList = '"' ::
        (s.toList.flatMap Text.escape ++ ['"']) := by
      simp [text, Literal.text, Text.quoted]
    exact ⟨'"', _, htext, by decide, fun h => absurd h (by decide)⟩
  | ident x =>
    obtain ⟨c, cs, hcs, hequal, hminus⟩ := he.1.head
    refine ⟨c, cs, ?_, hequal, fun h => absurd h hminus⟩
    rw [text, text_free he.2, hcs]
  | unary .neg e =>
    refine ⟨'-', (e.atLeast unaryPrecedence (e.text symbols)).toList, ?_, by decide, fun _ => rfl⟩
    simp [text, UnaryOp.spelling]
  | unary .not e =>
    refine ⟨'!', (e.atLeast unaryPrecedence (e.text symbols)).toList,
      ?_, by decide, fun h => absurd h (by decide)⟩
    simp [text, UnaryOp.spelling]
  | binary op a b =>
    have hop : op.precedence < unaryPrecedence := by cases op <;> decide
    exact absurd hp (Nat.not_le.mpr hop)
  | assign x op e => exact absurd hp (by simp [precedence, unaryPrecedence])
  | increment x delta old =>
    obtain ⟨c, cs, hcs, hequal, hminus⟩ := he.1.1.head
    rw [text, text_free he.1.2]
    cases old with
    | true =>
      rcases he.2 with rfl | rfl
      all_goals exact ⟨c, _, by simp [stepText, hcs]; rfl, hequal, fun h => absurd h hminus⟩
    | false =>
      rcases he.2 with rfl | rfl
      · exact ⟨'+', _, by simp [stepText]; rfl, by decide, fun h => absurd h (by decide)⟩
      · exact ⟨'-', _, by simp [stepText]; rfl, by decide, fun _ => rfl⟩
  | call f args =>
    obtain ⟨c, cs, hcs, hequal, hminus⟩ := he.1.head
    exact ⟨c, _, by simp [text, hcs]; rfl, hequal, fun h => absurd h hminus⟩
  | method e name args =>
    by_cases hlow : e.precedence < primaryPrecedence
    · exact ⟨'(', _, by simp [text, atLeast, hlow]; rfl, by decide, fun h => absurd h (by decide)⟩
    · -- the receiver stands first, and is no step with the operator in front
      have hrunsOn : e.isPrefixStep = false := hc.1
      obtain ⟨c, cs, hcs, hequal, hminus⟩ := head_text symbols e he.1 hc.2.1 (by
        rw [unaryPrecedence]; rw [primaryPrecedence] at hlow; omega)
      refine ⟨c, _, by simp [text, atLeast, hlow, hcs]; rfl, hequal, fun h => ?_⟩
      rw [isPrefixStep_of_startsMinus (hminus h) hlow] at hrunsOn
      cases hrunsOn

/-- The operand of a minus sign starts with no sign that could run into it. -/
theorem startsMinus_operand (hrunsOn : (unary .neg e).runsOn = false) (hint : e.isInt = false) :
    e.startsMinus = false := by
  match e with
  | unary .neg _ => cases hrunsOn
  | literal (.int _) => cases hint
  | increment _ _ _ => exact hrunsOn
  | unary .not _ | literal (.bool _) | literal (.str _) | literal .null | ident _ | binary _ _ _
  | assign _ _ _
  | call _ _ | method _ _ _ => rfl

/-- Parentheses put no sign in front of an operand. -/
theorem head_atLeast (symbols : SymbolTable) (he : e.Readable) (hc : e.Clear) (r : List Char) :
    ∀ d ∈ ((e.atLeast unaryPrecedence (e.text symbols)).toList ++ r).head?, d ≠ '=' ∧
      (d = '-' → e.startsMinus = true) := by
  by_cases hlow : e.precedence < unaryPrecedence
  · simp [atLeast, hlow]
  · obtain ⟨c, cs, hcs, hequal, hminus⟩ := head_text symbols e he hc (Nat.not_lt.mp hlow)
    rw [atLeast, if_neg hlow, hcs]
    rintro d ⟨⟩
    exact ⟨hequal, hminus⟩

/-- An expression at a place that may ask for parentheses. -/
theorem spells_atLeast (least : Nat) {r : List Char} {ks : List TokenKind}
    (h : ∀ r ks, Parted r → Spells r ks → Spells ((e.text symbols).toList ++ r) (e.kinds ++ ks))
    (hr : Parted r) (hs : Spells r ks) :
    Spells ((e.atLeast least (e.text symbols)).toList ++ r) (e.kindsAt least e.kinds ++ ks) := by
  by_cases hlow : e.precedence < least
  · have hclosed := (h (')' :: r) _ (by simp [Parted]) hs.rightParen).leftParen
    simpa [atLeast, kindsAt, hlow] using hclosed
  · rw [atLeast, if_neg hlow, kindsAt, if_neg hlow]
    exact h r ks hr hs

mutual

/-- The text of an expression is read as its tokens, in front of whatever cannot belong to its last
one. -/
theorem spells_text (e : Expr) (he : e.Readable) (hc : e.Clear) (r : List Char)
    (ks : List TokenKind) (hr : Parted r) (hs : Spells r ks) :
    Spells ((e.text symbols).toList ++ r) (e.kinds ++ ks) := by
  match e with
  | literal (.int v) =>
    have hint := Spells.int he hr.apart hs
    simpa only [text, Literal.text, kinds] using hint
  | literal (.bool true) =>
    have hword := Spells.word (w := "true".toList)
        ⟨'t', _, rfl, by decide, all_eq_true.mp rfl⟩ hr.apart hs
    exact hword
  | literal (.bool false) =>
    have hword := Spells.word (w := "false".toList)
        ⟨'f', _, rfl, by decide, all_eq_true.mp rfl⟩ hr.apart hs
    exact hword
  | literal .null =>
    have hword := Spells.word (w := "null".toList)
        ⟨'n', _, rfl, by decide, all_eq_true.mp rfl⟩ hr.apart hs
    exact hword
  | literal (.str s) => exact Spells.quoted s hs
  | ident x =>
    rw [text, text_free he.2]
    exact Spells.name he.1 hr.apart hs
  | unary .neg e =>
    have hoperand := spells_atLeast unaryPrecedence (spells_text e he.1 hc.2) hr hs
    have hhead := head_atLeast symbols he.1 hc.2 r
    have hminus := Spells.minus (fun d hd => ⟨fun h => by
      rw [startsMinus_operand hc.1 he.2] at hhead
      exact absurd ((hhead d hd).2 h) Bool.false_ne_true, (hhead d hd).1⟩) hoperand
    simpa [text, kinds, UnaryOp.spelling, UnaryOp.kind] using hminus
  | unary .not e =>
    have hoperand := spells_atLeast unaryPrecedence (spells_text e he hc.2) hr hs
    have hhead := head_atLeast symbols (e := e) he hc.2 r
    have hbang := Spells.unequaled (.inl rfl) rfl (fun d hd => (hhead d hd).1) hoperand
    simpa [text, kinds, UnaryOp.spelling, UnaryOp.kind] using hbang
  | binary op a b =>
    have hright := spells_atLeast (op.precedence + 1) (spells_text b he.2 hc.2) hr hs
    have hleft := spells_atLeast op.precedence (spells_text a he.1 hc.1) (r := ' ' :: _)
      (by simp [Parted]) (Spells.space (Spells.operator op hright))
    simpa [text, kinds] using hleft
  | assign x op e =>
    obtain ⟨kind, hkind⟩ := Option.isSome_iff_exists.mp he.2.1
    have hvalue := Spells.assignment hkind (spells_text e he.2.2 hc r ks hr hs)
    have hname := Spells.name he.1.1 (r := ' ' :: _) (by simp [Apart]; decide) (Spells.space hvalue)
    simpa [text, text_free he.1.2, kinds, hkind] using hname
  | increment x delta old =>
    cases old with
    | true =>
      rcases he.2 with rfl | rfl
      · have hname := Spells.name he.1.1 (r := '+' :: _) (by simp [Apart]; decide)
            (Spells.increment hs)
        simpa [text, text_free he.1.2, stepText, kinds, stepKind] using hname
      · have hname := Spells.name he.1.1 (r := '-' :: _) (by simp [Apart]; decide)
            (Spells.decrement hs)
        simpa [text, text_free he.1.2, stepText, kinds, stepKind] using hname
    | false =>
      have hname := Spells.name he.1.1 hr.apart hs
      rcases he.2 with rfl | rfl
      · simpa [text, text_free he.1.2, stepText, kinds, stepKind] using hname.increment
      · simpa [text, text_free he.1.2, stepText, kinds, stepKind] using hname.decrement
  | call f args =>
    have hargs := spells_args args he.2 hc (')' :: r) _ (by simp [Parted]) hs.rightParen
    have hname := Spells.name he.1 (r := '(' :: _) (by simp [Apart]; decide) hargs.leftParen
    simpa [text, kinds] using hname
  | method e name args =>
    have hargs := spells_args args he.2.2 hc.2.2 (')' :: r) _ (by simp [Parted]) hs.rightParen
    have hname := Spells.name he.2.1 (r := '(' :: _) (by simp [Apart]; decide) hargs.leftParen
    have hreceiver := spells_atLeast primaryPrecedence (spells_text e he.1 hc.2.1) (r := '.' :: _)
      (by simp [Parted]) hname.dot
    simpa [text, kinds] using hreceiver

/-- The text of arguments is read as their tokens. -/
theorem spells_args (es : List Expr) (he : ReadableAll es) (hc : ClearAll es) (r : List Char)
    (ks : List TokenKind) (hr : Parted r) (hs : Spells r ks) :
    Spells ((argsText symbols es).toList ++ r) (argKinds es ++ ks) := by
  match es with
  | [] => exact hs
  | [e] => exact spells_text e he.1 hc.1 r ks hr hs
  | e :: e' :: es =>
    have hrest := spells_args (e' :: es) he.2 hc.2 r ks hr hs
    have hfirst := spells_text e he.1 hc.1 (',' :: _) _ (by simp [Parted])
        (Spells.comma (Spells.space hrest))
    simpa [argsText, argKinds] using hfirst

end

end Expr

/-! ## Readers -/

/-- The reader succeeds with this value and these tokens left. -/
def Reading.Gets {α : Type} {n : Nat} (x : Reading α n) (a : α) (r : List Token) : Prop :=
  ∃ lt, x = .ok a r lt

namespace Reading

variable {α β : Type} {n : Nat} {a : α} {b : β} {r r' : List Token}

theorem gets_ok (lt : r.length < n) : (ok a r lt).Gets a r := ⟨lt, rfl⟩

theorem Gets.up {ts : List Token} {x : Reading α ts.length} (hx : x.Gets a r) (h : ts.length < n) :
    (x.up h).Gets a r := by
  obtain ⟨lt, rfl⟩ := hx
  exact gets_ok _

theorem Gets.andThen {x : Reading α n} {f : α → (r : List Token) → r.length < n → Reading β n}
    (hx : x.Gets a r) (hf : ∀ lt, (f a r lt).Gets b r') : (x.andThen f).Gets b r' := by
  obtain ⟨lt, rfl⟩ := hx
  exact hf lt

theorem Gets.map {x : Reading α n} (hx : x.Gets a r) (f : α → β) : (x.map f).Gets (f a) r :=
  hx.andThen fun _ => gets_ok _

end Reading

open Reading

namespace Parser

variable {delta : Int64} {es : List Expr} {t : Token} {kind : TokenKind}
variable {eof : Token} {n : Nat}

theorem expect_gets (ht : t.kind = kind) (expected : String) (r : List Token) :
    (expect eof kind expected (t :: r)).Gets () r := by
  rw [expect, if_pos ht]
  exact gets_ok _

theorem expectName_gets {name : String} (ht : t.kind = .identifier name) (expected : String)
    (r : List Token) : (expectName eof expected (t :: r)).Gets name r := by
  simp only [expectName, ht]
  exact gets_ok _

theorem skip?_eq {r : List Token} (ht : t.kind = kind) (lt : (t :: r).length < n) :
    skip? kind (t :: r) lt = some ⟨r, length_lt_cons t r, length_lt_of_cons_lt lt⟩ := if_pos ht

theorem skip?_ne {r : List Token} (ht : t.kind ≠ kind) (lt : (t :: r).length < n) :
    skip? kind (t :: r) lt = none := if_neg ht

theorem literal?_identifier (name : String) : literal? (.identifier name) = none := rfl

theorem literal?_leftParen : literal? .leftParen = none := rfl

/-! ### Levels -/

/-- The tokens cannot go on with an operand in front of them. -/
def Ends (vs : List Token) : Prop :=
  currentKind vs ≠ .leftParen ∧ currentKind vs ≠ .dot ∧ stepOf? (currentKind vs) = none

/-- The tokens cannot go on with an expression in front of them. -/
def Closes (vs : List Token) : Prop :=
  Ends vs ∧ binaryOp? (currentKind vs) = none ∧ assignOp? (currentKind vs) = none

/-- The token is no operator that stands in front of an operand. -/
def Leads (kind : TokenKind) : Prop := kind ≠ .bang ∧ kind ≠ .minus ∧ stepOf? kind = none

/-- Tokens of these kinds are read as the operand, and what follows it is looked at next. -/
structure ReadsPostfixed (ks : List TokenKind) (e : Expr) : Prop where
  leads : ∃ k ks', ks = k :: ks' ∧ Leads k
  reads : ∀ (eof : Token) (us vs : List Token), us.map Token.kind = ks →
    currentKind vs ≠ .leftParen →
    ∀ b r, (∀ (n : Nat) (lt : vs.length < n), (postfixedRest eof e vs lt).Gets b r) →
      (postfixed eof (us ++ vs)).Gets b r

/-- Tokens of these kinds are read as the operand with what stands in front of it. -/
def ReadsUnary (ks : List TokenKind) (e : Expr) : Prop :=
  ∀ (eof : Token) (us vs : List Token), us.map Token.kind = ks → Ends vs →
    (unary eof (us ++ vs)).Gets e vs

/-- Tokens of these kinds are read as the left operand of what follows, if that binds no more
tightly than `p`. -/
def ReadsBinary (p : Nat) (ks : List TokenKind) (e : Expr) : Prop :=
  ∀ (eof : Token) (least : Nat) (us vs : List Token), least ≤ p → us.map Token.kind = ks → Ends vs →
    (∀ op, binaryOp? (currentKind vs) = some op → op.precedence ≤ p) →
    ∀ b r, (∀ (n : Nat) (lt : vs.length < n), (binaryRest eof least e vs lt).Gets b r) →
      (binary eof least (us ++ vs)).Gets b r

/-- Tokens of these kinds are read as the expression. -/
def ReadsExpr (ks : List TokenKind) (e : Expr) : Prop :=
  ∀ (eof : Token) (us vs : List Token), us.map Token.kind = ks → Closes vs →
    (expression eof (us ++ vs)).Gets e vs

/-- Tokens of these kinds between parentheses are read as the arguments. -/
def ReadsArgs (ks : List TokenKind) (es : List Expr) : Prop :=
  ∀ (eof : Token) (us vs : List Token), us.map Token.kind = .leftParen :: (ks ++ [.rightParen]) →
    (arguments eof (us ++ vs)).Gets es vs

/-- Where nothing goes on with the operand, it is what has been read. -/
theorem postfixedRest_ends {e : Expr} {vs : List Token} (hvs : Ends vs) (lt : vs.length < n) :
    (postfixedRest eof e vs lt).Gets e vs := by
  cases vs with
  | nil =>
    rw [postfixedRest]
    exact gets_ok _
  | cons t =>
    obtain ⟨-, hdot, hstep⟩ := hvs
    rw [postfixedRest.eq_def]
    dsimp only
    split
    · next hkind => exact absurd hkind hdot
    · have hnone : stepOf? t.kind = none := hstep
      simp only [hnone]
      exact gets_ok _

/-- Operators that bind less tightly than is asked for are left to others. -/
theorem binaryRest_ends {e : Expr} {least : Nat} {vs : List Token}
    (hvs : ∀ op, binaryOp? (currentKind vs) = some op → op.precedence < least)
    (lt : vs.length < n) : (binaryRest eof least e vs lt).Gets e vs := by
  cases vs with
  | nil =>
    rw [binaryRest]
    exact gets_ok _
  | cons =>
    rw [binaryRest.eq_def]
    dsimp only
    split
    · exact gets_ok _
    · next op hop =>
      rw [if_pos (hvs op hop)]
      exact gets_ok _

variable {ks : List TokenKind} {e : Expr} {p : Nat}

/-- An operand without an operator in front of it. -/
theorem ReadsPostfixed.unary (h : ReadsPostfixed ks e) : ReadsUnary ks e := by
  intro eof us vs hus hvs
  obtain ⟨k, ks', rfl, hbang, hminus, hstep⟩ := h.leads
  have hreads := h.reads eof us vs hus hvs.1 e vs fun _ lt => postfixedRest_ends hvs lt
  obtain ⟨t, us, rfl, rfl, -⟩ := map_eq_cons_iff.mp hus
  rw [cons_append] at hreads ⊢
  rw [Parser.unary.eq_def]
  dsimp only
  split
  · next hkind => exact absurd hkind hbang
  · next hkind => exact absurd hkind hminus
  · rw [hstep]
    exact hreads

/-- An operand that no operator follows yet. -/
theorem ReadsUnary.binary (h : ReadsUnary ks e) (p : Nat) : ReadsBinary p ks e := by
  intro eof least us vs _ hus hvs _ b r hrest
  rw [Parser.binary]
  exact (h eof us vs hus hvs).andThen fun lt => hrest _ lt

theorem ReadsBinary.mono {q : Nat} (h : ReadsBinary q ks e) (hpq : p ≤ q) : ReadsBinary p ks e :=
  fun eof least us vs hleast hus hvs hop =>
    h eof least us vs (hleast.trans hpq) hus hvs fun op hkind => (hop op hkind).trans hpq

/-- Operands with operators between them, where no assignment follows. -/
theorem ReadsBinary.expr (h : ReadsBinary p ks e) : ReadsExpr ks e := by
  intro eof us vs hus hvs
  obtain ⟨hends, hbinary, hassign⟩ := hvs
  have hnone : ∀ op, binaryOp? (currentKind vs) ≠ some op := by simp [hbinary]
  have hreads := h eof 0 us vs (Nat.zero_le p) hus hends (fun op hop => absurd hop (hnone op)) e vs
      fun _ lt =>
    binaryRest_ends (fun op hop => absurd hop (hnone op)) lt
  rw [expression]
  refine hreads.andThen fun lt => ?_
  cases vs with
  | nil => exact gets_ok _
  | cons t =>
    have hkind : assignOp? t.kind = none := hassign
    simp only [hkind]
    exact gets_ok _

/-- An expression ends at the parenthesis that closes it. -/
theorem closes_rightParen (ht : t.kind = .rightParen) (vs : List Token) : Closes (t :: vs) := by
  simp [Closes, Ends, currentKind, ht, stepOf?, binaryOp?, assignOp?]

/-- An expression ends where the next one starts. -/
theorem closes_comma (ht : t.kind = .comma) (vs : List Token) : Closes (t :: vs) := by
  simp [Closes, Ends, currentKind, ht, stepOf?, binaryOp?, assignOp?]

/-- An expression between parentheses. -/
theorem ReadsExpr.paren (h : ReadsExpr ks e) :
    ReadsPostfixed (.leftParen :: (ks ++ [.rightParen])) e := by
  refine ⟨⟨_, _, rfl, by simp, by simp, rfl⟩, ?_⟩
  intro eof us vs hus _ b r hrest
  obtain ⟨t, us, rfl, ht, hus⟩ := map_eq_cons_iff.mp hus
  obtain ⟨us, us', rfl, hinside, hclose⟩ := map_eq_append_iff.mp hus
  obtain ⟨t', rfl, ht'⟩ := map_eq_singleton_iff.mp hclose
  have hinner := h eof us (t' :: vs) hinside (closes_rightParen ht' vs)
  rw [postfixed]
  have hprimary : (primary eof (t :: (us ++ t' :: vs))).Gets e vs := by
    rw [primary.eq_def]
    simp only [ht, literal?_leftParen]
    exact (hinner.up _).andThen fun lt => ((expect_gets ht' _ vs).up lt).map fun _ => e
  have happend : t :: (us ++ [t']) ++ vs = t :: (us ++ t' :: vs) := by simp
  rw [happend]
  exact hprimary.andThen fun lt => hrest _ lt

/-! ### Operands -/

/-- A constant without a sign. -/
theorem reads_literal {l : Literal} (hl : literal? kind = some l) :
    ReadsPostfixed [kind] (.literal l) := by
  refine ⟨⟨kind, [], rfl, ?_⟩, ?_⟩
  · cases kind <;> cases hl <;> exact ⟨by simp, by simp, rfl⟩
  · intro eof us vs hus _ b r hrest
    obtain ⟨t, rfl, rfl⟩ := map_eq_singleton_iff.mp hus
    have hprimary : (primary eof (t :: vs)).Gets (.literal l) vs := by
      rw [primary.eq_def]
      simp only [hl]
      exact gets_ok _
    rw [postfixed]
    exact hprimary.andThen fun lt => hrest _ lt

theorem primary_ident {name : String} (ht : t.kind = .identifier name) (vs : List Token)
    (hvs : currentKind vs ≠ .leftParen) :
    (primary eof (t :: vs)).Gets (.ident (.free name)) vs := by
  rw [primary.eq_def]
  simp only [ht, literal?_identifier, if_neg hvs]
  exact gets_ok _

/-- A variable, where no arguments follow it. -/
theorem reads_ident (name : String) : ReadsPostfixed [.identifier name] (.ident (.free name)) := by
  refine ⟨⟨_, _, rfl, by simp, by simp, rfl⟩, ?_⟩
  intro eof us vs hus hvs b r hrest
  obtain ⟨t, rfl, ht⟩ := map_eq_singleton_iff.mp hus
  rw [postfixed]
  exact (primary_ident ht vs hvs).andThen fun lt => hrest _ lt

theorem stepOf?_stepKind (hdelta : delta = 1 ∨ delta = -1) :
    stepOf? (stepKind delta) = some delta := by
  rcases hdelta with rfl | rfl
  all_goals decide

/-- A variable with a step behind it. -/
theorem ReadsPostfixed.step {x : Ident} (h : ReadsPostfixed ks (.ident x))
    (hstep : stepOf? kind = some delta) :
    ReadsPostfixed (ks ++ [kind]) (.increment x delta true) := by
  obtain ⟨k, ks', rfl, hleads⟩ := h.leads
  refine ⟨⟨k, _, rfl, hleads⟩, ?_⟩
  intro eof us vs hus _ b r hrest
  obtain ⟨us, us', rfl, htarget, hus'⟩ := map_eq_append_iff.mp hus
  obtain ⟨t, rfl, rfl⟩ := map_eq_singleton_iff.mp hus'
  rw [List.append_assoc]
  refine h.reads eof us (t :: vs) htarget ?_ b r fun n lt => ?_
  · intro hkind
    rw [show t.kind = .leftParen from hkind] at hstep
    cases hstep
  · rw [postfixedRest.eq_def]
    dsimp only
    split
    · next hkind =>
      rw [hkind] at hstep
      cases hstep
    · simp only [hstep]
      exact hrest _ _

/-- A call of a function. -/
theorem ReadsArgs.call (h : ReadsArgs ks es) (f : String) :
    ReadsPostfixed (.identifier f :: .leftParen :: (ks ++ [.rightParen])) (.call f es) := by
  refine ⟨⟨_, _, rfl, by simp, by simp, rfl⟩, ?_⟩
  intro eof us vs hus _ b r hrest
  obtain ⟨t, us, rfl, ht, hus⟩ := map_eq_cons_iff.mp hus
  have hopen : currentKind (us ++ vs) = .leftParen := by
    obtain ⟨t', us, rfl, ht', -⟩ := map_eq_cons_iff.mp hus
    exact ht'
  have hprimary : (primary eof (t :: (us ++ vs))).Gets (.call f es) vs := by
    rw [primary.eq_def]
    simp only [ht, literal?_identifier, if_pos hopen]
    exact ((h eof us vs hus).up _).map _
  rw [postfixed]
  exact hprimary.andThen fun lt => hrest _ lt

/-- A call on a receiver. -/
theorem ReadsPostfixed.method {ka : List TokenKind} (h : ReadsPostfixed ks e) (ha : ReadsArgs ka es)
    (name : String) :
    ReadsPostfixed (ks ++ .dot :: .identifier name :: .leftParen :: (ka ++ [.rightParen]))
      (.method e name es) := by
  obtain ⟨k, ks', rfl, hleads⟩ := h.leads
  refine ⟨⟨k, _, rfl, hleads⟩, ?_⟩
  intro eof us vs hus _ b r hrest
  obtain ⟨us, us', rfl, hreceiver, hus'⟩ := map_eq_append_iff.mp hus
  obtain ⟨t, us', rfl, ht, hus'⟩ := map_eq_cons_iff.mp hus'
  obtain ⟨t', us', rfl, ht', hargs⟩ := map_eq_cons_iff.mp hus'
  rw [List.append_assoc]
  refine h.reads eof us (t :: t' :: (us' ++ vs)) hreceiver ?_ b r fun n lt => ?_
  · intro hkind
    rw [show t.kind = .leftParen from hkind] at ht
    cases ht
  · rw [postfixedRest.eq_def]
    simp only [ht]
    exact ((expectName_gets ht' _ _).andThen fun lt => ((ha eof us' vs hargs).up lt).andThen
      fun lt => hrest _ lt).up _

/-! ### Operators -/

theorem ReadsUnary.not (h : ReadsUnary ks e) : ReadsUnary (.bang :: ks) (.unary .not e) := by
  intro eof us vs hus hvs
  obtain ⟨t, us, rfl, ht, hus⟩ := map_eq_cons_iff.mp hus
  rw [cons_append, Parser.unary.eq_def]
  simp only [ht]
  exact ((h eof us vs hus hvs).up _).map _

/-- A minus sign becomes part of a constant behind it. -/
theorem ReadsUnary.negate (h : ReadsUnary ks e) : ReadsUnary (.minus :: ks) (negate e) := by
  intro eof us vs hus hvs
  obtain ⟨t, us, rfl, ht, hus⟩ := map_eq_cons_iff.mp hus
  rw [cons_append, Parser.unary.eq_def]
  simp only [ht]
  exact ((h eof us vs hus hvs).up _).map _

/-- A variable with a step in front of it. -/
theorem reads_prefixStep (name : String) (hstep : stepOf? kind = some delta) :
    ReadsUnary [kind, .identifier name] (.increment (.free name) delta false) := by
  intro eof us vs hus hvs
  obtain ⟨t, us, rfl, rfl, hname⟩ := map_eq_cons_iff.mp hus
  obtain ⟨t', rfl, ht'⟩ := map_eq_singleton_iff.mp hname
  rw [cons_append, Parser.unary.eq_def]
  dsimp only
  -- a step is neither of the two operators
  split
  · next hkind =>
    rw [hkind] at hstep
    cases hstep
  · next hkind =>
    rw [hkind] at hstep
    cases hstep
  · simp only [hstep]
    exact ((expectName_gets ht' _ vs).up _).map _

theorem binaryOp?_kind (op : BinaryOp) : binaryOp? op.kind = some op := by
  cases op <;> rfl

theorem kind_ends (op : BinaryOp) : op.kind ≠ .leftParen ∧ op.kind ≠ .dot ∧
    stepOf? op.kind = none := by
  cases op <;> decide

/-- Two operands: the left one may bind as tightly as the operator, the right one binds more
tightly. -/
theorem ReadsBinary.binary {kb : List TokenKind} {b : Expr} {op : BinaryOp}
    (ha : ReadsBinary op.precedence ks e) (hb : ReadsBinary (op.precedence + 1) kb b) :
    ReadsBinary op.precedence (ks ++ op.kind :: kb) (.binary op e b) := by
  intro eof least us vs hleast hus hvs hop c r hrest
  obtain ⟨us, us', rfl, hleft, hus'⟩ := map_eq_append_iff.mp hus
  obtain ⟨t, us', rfl, ht, hright⟩ := map_eq_cons_iff.mp hus'
  have hkind : binaryOp? t.kind = some op := by rw [ht, binaryOp?_kind]
  rw [List.append_assoc]
  refine ha eof least us (t :: (us' ++ vs)) hleast hleft ?_ ?_ c r fun n lt => ?_
  · rw [Ends, currentKind, ht]
    exact kind_ends op
  · intro op' hop'
    cases hkind.symm.trans hop'
    exact Nat.le_refl _
  · rw [binaryRest.eq_def]
    simp only [hkind, if_neg (Nat.not_lt.mpr hleast)]
    -- what follows binds no more tightly than this operator, so the right operand ends there
    have hreads := hb eof _ us' vs (Nat.le_refl _) hright hvs
        (fun op' hop' => (hop op' hop').trans (Nat.le_succ _)) b vs
      fun _ lt => binaryRest_ends (fun op' hop' => Nat.lt_succ_of_le (hop op' hop')) lt
    exact (hreads.andThen fun lt => hrest _ lt).up _

variable {op : Option BinaryOp}

theorem assignOp?_of_kind (h : assignKind? op = some kind) : assignOp? kind = some op := by
  unfold assignKind? at h
  split at h <;> cases h <;> rfl

/-- A variable, also between parentheses, and what is assigned to it. -/
theorem ReadsBinary.assign {kx : List TokenKind} {x : Ident} (hx : ReadsBinary p kx (.ident x))
    (h : ReadsExpr ks e) (hop : assignOp? kind = some op) :
    ReadsExpr (kx ++ kind :: ks) (.assign x op e) := by
  intro eof us vs hus hvs
  obtain ⟨us, us', rfl, htarget, hus'⟩ := map_eq_append_iff.mp hus
  obtain ⟨t, us', rfl, rfl, hvalue⟩ := map_eq_cons_iff.mp hus'
  -- the target ends at the assignment, which is no other operator
  have hends : Ends (t :: (us' ++ vs)) ∧ binaryOp? t.kind = none := by
    rw [Ends, currentKind]
    unfold assignOp? at hop
    split at hop <;> next hkind =>
      first | rw [hkind]; exact ⟨⟨by decide, by decide, rfl⟩, rfl⟩ | cases hop
  have hnone : ∀ op', binaryOp? (currentKind (t :: (us' ++ vs))) ≠ some op' := by
    simp [currentKind, hends.2]
  have hreads := hx eof 0 us (t :: (us' ++ vs)) (Nat.zero_le p) htarget hends.1
    (fun op' hop' => absurd hop' (hnone op')) (.ident x) (t :: (us' ++ vs)) fun _ lt =>
      binaryRest_ends (fun op' hop' => absurd hop' (hnone op')) lt
  rw [List.append_assoc, expression]
  refine hreads.andThen fun lt => ?_
  simp only [hop]
  exact ((h eof us' vs hvalue hvs).up _).map _

/-! ### Arguments -/

/-- The tokens start, and not with a parenthesis that closes. -/
def Begins (ks : List TokenKind) : Prop := ∃ k ∈ ks.head?, k ≠ .rightParen

theorem Begins.append (h : Begins ks) (ls : List TokenKind) : Begins (ks ++ ls) := by
  obtain ⟨k, hk, hne⟩ := h
  exact ⟨k, by simp [Option.mem_def.mp hk], hne⟩

/-- Tokens of these kinds are read as the expressions, up to a parenthesis. -/
def ReadsExprs (ks : List TokenKind) (es : List Expr) : Prop :=
  ∀ (eof : Token) (us vs : List Token), us.map Token.kind = ks → currentKind vs = .rightParen →
    (expressions eof (us ++ vs)).Gets es vs

/-- One expression up to the parenthesis. -/
theorem ReadsExpr.single (h : ReadsExpr ks e) : ReadsExprs ks [e] := by
  intro eof us vs hus hvs
  have hclose : Closes vs := by simp [Closes, Ends, hvs, stepOf?, binaryOp?, assignOp?]
  rw [expressions]
  refine (h eof us vs hus hclose).andThen fun lt => ?_
  cases vs with
  | nil => cases hvs
  | cons t =>
    have hkind : t.kind ≠ .comma := fun h => nomatch h.symm.trans hvs
    rw [skip?_ne hkind]
    exact gets_ok _

/-- An expression, a comma and further ones. -/
theorem ReadsExprs.cons {ke : List TokenKind} (he : ReadsExpr ke e) (h : ReadsExprs ks es) :
    ReadsExprs (ke ++ .comma :: ks) (e :: es) := by
  intro eof us vs hus hvs
  obtain ⟨us, us', rfl, hfirst, hus'⟩ := map_eq_append_iff.mp hus
  obtain ⟨t, us', rfl, ht, hrest⟩ := map_eq_cons_iff.mp hus'
  rw [List.append_assoc, expressions]
  refine (he eof us (t :: (us' ++ vs)) hfirst (closes_comma ht _)).andThen fun lt => ?_
  rw [skip?_eq ht]
  exact ((h eof us' vs hrest hvs).up _).map (e :: ·)

theorem reads_noArgs : ReadsArgs [] [] := by
  intro eof us vs hus
  obtain ⟨t, us, rfl, ht, hus⟩ := map_eq_cons_iff.mp hus
  obtain ⟨t', rfl, ht'⟩ := map_eq_singleton_iff.mp hus
  rw [arguments]
  refine (expect_gets ht _ (t' :: vs)).andThen fun lt => ?_
  rw [skip?_eq ht']
  exact gets_ok _

/-- What starts with no parenthesis that closes is read as arguments. -/
theorem ReadsExprs.args (h : ReadsExprs ks es) (hks : Begins ks) : ReadsArgs ks es := by
  intro eof us vs hus
  obtain ⟨t, us, rfl, ht, hus⟩ := map_eq_cons_iff.mp hus
  obtain ⟨us, us', rfl, hinside, hclose⟩ := map_eq_append_iff.mp hus
  obtain ⟨t', rfl, ht'⟩ := map_eq_singleton_iff.mp hclose
  have happend : t :: (us ++ [t']) ++ vs = t :: (us ++ t' :: vs) := by simp
  have hreads := h eof us (t' :: vs) hinside ht'
  rw [happend, arguments]
  refine (expect_gets ht _ (us ++ t' :: vs)).andThen fun lt => ?_
  -- the arguments start with a token, which is not the parenthesis at their end
  cases us with
  | nil =>
    cases hinside
    obtain ⟨k, hk, -⟩ := hks
    cases hk
  | cons u =>
    have hu : u.kind ≠ .rightParen := by
      obtain ⟨k, hk, hne⟩ := hks
      cases hinside
      cases hk
      exact hne
    rw [cons_append] at hreads
    simp only [cons_append]
    rw [skip?_ne hu]
    exact (hreads.up _).andThen fun lt => ((expect_gets ht' _ vs).up lt).map _

end Parser

open Resumable.Parser

namespace Expr

/-- The tokens of the expression are read as it, at every level that its precedence allows. -/
structure Reads (e : Expr) : Prop where
  postfixed : primaryPrecedence ≤ e.precedence → e.isPrefixStep = false → ReadsPostfixed e.kinds e
  unary : unaryPrecedence ≤ e.precedence → ReadsUnary e.kinds e
  binary : 0 < e.precedence → ReadsBinary e.precedence e.kinds e
  expr : ReadsExpr e.kinds e

namespace Reads

variable {e : Expr}

/-- What the tightest level reads is read by all. -/
theorem of_postfixed (h : ReadsPostfixed e.kinds e) : e.Reads :=
  ⟨fun _ _ => h, fun _ => h.unary, fun _ => h.unary.binary _, (h.unary.binary 0).expr⟩

/-- An operator in front of its operand keeps it from the tightest level. -/
theorem of_unary (h : ReadsUnary e.kinds e)
    (hnot : e.precedence < primaryPrecedence ∨ e.isPrefixStep = true) : e.Reads := by
  refine ⟨fun hp hstep => ?_, fun _ => h, fun _ => h.binary _, (h.binary 0).expr⟩
  rcases hnot with hlow | hyes
  · exact absurd hp (Nat.not_le.mpr hlow)
  · rw [hstep] at hyes
    cases hyes

theorem of_binary (h : ReadsBinary e.precedence e.kinds e) (hlow : e.precedence < unaryPrecedence) :
    e.Reads :=
  ⟨fun hp => absurd hp (Nat.not_le.mpr (hlow.trans (by decide))),
    fun hp => absurd hp (Nat.not_le.mpr hlow), fun _ => h, h.expr⟩

/-- An assignment is read by the loosest level only. -/
theorem of_expr (h : ReadsExpr e.kinds e) (hlow : e.precedence = 0) : e.Reads := by
  refine ⟨fun hp => ?_, fun hp => ?_, fun hp => ?_, h⟩
  all_goals rw [hlow] at hp; exact absurd hp (by decide)

/-! ### Places that may ask for parentheses -/

/-- Where a primary expression is asked for, all others stand between parentheses. -/
theorem atPrimary (h : e.Reads) (hstep : e.isPrefixStep = false) :
    ReadsPostfixed (e.kindsAt primaryPrecedence e.kinds) e := by
  by_cases hlow : e.precedence < primaryPrecedence
  · rw [kindsAt, if_pos hlow]
    exact h.expr.paren
  · rw [kindsAt, if_neg hlow]
    exact h.postfixed (Nat.not_lt.mp hlow) hstep

theorem atUnary (h : e.Reads) : ReadsUnary (e.kindsAt unaryPrecedence e.kinds) e := by
  by_cases hlow : e.precedence < unaryPrecedence
  · rw [kindsAt, if_pos hlow]
    exact h.expr.paren.unary
  · rw [kindsAt, if_neg hlow]
    exact h.unary (Nat.not_lt.mp hlow)

theorem atBinary (h : e.Reads) {p : Nat} (hp : 0 < p) : ReadsBinary p (e.kindsAt p e.kinds) e := by
  by_cases hlow : e.precedence < p
  · rw [kindsAt, if_pos hlow]
    exact h.expr.paren.unary.binary p
  · rw [kindsAt, if_neg hlow]
    have hle := Nat.not_lt.mp hlow
    exact (h.binary (hp.trans_le hle)).mono hle

end Reads

theorem begins_kindsAt {e : Expr} (h : Begins e.kinds) (least : Nat) :
    Begins (e.kindsAt least e.kinds) := by
  rw [Expr.kindsAt]
  split
  · exact ⟨.leftParen, rfl, by simp⟩
  · exact h

/-- The text of no expression starts with a parenthesis that closes. -/
theorem begins_kinds (e : Expr) : Begins e.kinds := by
  match e with
  | literal (.int v) =>
    rw [kinds, Literal.kinds]
    split
    · exact ⟨.minus, rfl, by simp⟩
    · exact ⟨.integer v, rfl, by simp⟩
  | literal (.bool b) => exact ⟨.bool b, rfl, by simp⟩
  | literal (.str s) => exact ⟨.string s, rfl, by simp⟩
  | literal .null => exact ⟨.null, rfl, by simp⟩
  | ident x | assign x _ _ | increment x _ true => exact ⟨.identifier x.name, rfl, by simp⟩
  | call f _ => exact ⟨.identifier f, rfl, by simp⟩
  | unary .neg _ => exact ⟨.minus, rfl, by simp⟩
  | unary .not _ => exact ⟨.bang, rfl, by simp⟩
  | increment _ delta false =>
    refine ⟨stepKind delta, rfl, ?_⟩
    rw [stepKind]
    split <;> simp
  | binary op a b =>
    rw [kinds]
    exact (begins_kindsAt (begins_kinds a) _).append _
  | method e name args =>
    rw [kinds]
    exact (begins_kindsAt (begins_kinds e) _).append _

theorem begins_argKinds (e : Expr) (es : List Expr) : Begins (argKinds (e :: es)) := by
  cases es with
  | nil => exact e.begins_kinds
  | cons => exact e.begins_kinds.append _

theorem eq_free {x : Ident} (hx : x.symbol = none) : x = .free x.name := by
  cases x
  cases hx
  rfl

mutual

/-- The tokens of an expression that can be read are read as it. -/
theorem reads (e : Expr) (he : e.Readable) (hc : e.Clear) : e.Reads := by
  match e with
  | literal (.int v) =>
    -- a constant below zero is read as a sign and a constant, which become one again
    by_cases hv : v < 0
    · have hkinds : (literal (.int v)).kinds = [.minus, .integer (-v)] := by
        rw [kinds, Literal.kinds, if_pos hv]
      have hnegate : negate (.literal (.int (-v))) = literal (.int v) := by simp [negate, Expr.int]
      refine .of_unary ?_ (.inl (by rw [precedence, if_pos hv]; decide))
      rw [hkinds, ← hnegate]
      exact (reads_literal rfl).unary.negate
    · refine .of_postfixed ?_
      rw [kinds, Literal.kinds, if_neg hv]
      exact reads_literal rfl
  | literal (.bool _) | literal (.str _) | literal .null => exact .of_postfixed (reads_literal rfl)
  | ident x =>
    rw [eq_free he.2]
    exact .of_postfixed (reads_ident _)
  | unary .neg e =>
    have hnegate : negate e = unary .neg e := by
      unfold negate
      split
      · cases he.2
      · rfl
    refine .of_unary ?_ (.inl (by simp [precedence, unaryPrecedence, primaryPrecedence]))
    rw [← hnegate]
    have hreads := (reads e he.1 hc.2).atUnary.negate
    rw [hnegate] at hreads ⊢
    exact hreads
  | unary .not e =>
    exact .of_unary (reads e he hc.2).atUnary.not
      (.inl (by simp [precedence, unaryPrecedence, primaryPrecedence]))
  | binary op a b =>
    have hop : 0 < op.precedence ∧ op.precedence < unaryPrecedence := by cases op <;> decide
    have hleft := (reads a he.1 hc.1).atBinary hop.1
    have hright := (reads b he.2 hc.2).atBinary (Nat.succ_pos op.precedence)
    exact .of_binary (hleft.binary hright) hop.2
  | assign x op e =>
    obtain ⟨kind, hkind⟩ := Option.isSome_iff_exists.mp he.2.1
    have hvalue := ((reads_ident x.name).unary.binary 0).assign (reads e he.2.2 hc).expr
        (assignOp?_of_kind hkind)
    rw [eq_free he.1.2]
    refine .of_expr ?_ rfl
    rw [kinds, hkind]
    exact hvalue
  | increment x delta true =>
    rw [eq_free he.1.2]
    exact .of_postfixed ((reads_ident _).step (stepOf?_stepKind he.2))
  | increment x delta false =>
    rw [eq_free he.1.2]
    exact .of_unary (reads_prefixStep _ (stepOf?_stepKind he.2)) (.inr rfl)
  | call f args => exact .of_postfixed ((readsArgs args he.2 hc).call f)
  | method e name args =>
    have hreceiver := (reads e he.1 hc.2.1).atPrimary hc.1
    exact .of_postfixed (hreceiver.method (readsArgs args he.2.2 hc.2.2) name)

/-- The tokens of arguments that can be read are read as them. -/
theorem readsArgs (es : List Expr) (he : ReadableAll es) (hc : ClearAll es) :
    ReadsArgs (argKinds es) es := by
  match es with
  | [] => exact reads_noArgs
  | e :: es =>
    have hreads := readsExprs (e :: es) (by simp) he hc
    exact hreads.args (begins_argKinds e es)

theorem readsExprs (es : List Expr) (hne : es ≠ []) (he : ReadableAll es) (hc : ClearAll es) :
    ReadsExprs (argKinds es) es := by
  match es with
  | [] => exact absurd rfl hne
  | [e] => exact (reads e he.1 hc.1).expr.single
  | e :: e' :: es =>
    exact .cons (reads e he.1 hc.1).expr (readsExprs (e' :: es) (by simp) he.2 hc.2)

end

end Expr

/-! ## What is read can be read -/

namespace Parser

variable {eof : Token} {n : Nat} {kind : TokenKind} {ts : List Token}

theorem literal?_readable {l : Literal} (hkind : kind.Worded) (h : literal? kind = some l) :
    (Expr.literal l).Readable := by
  cases kind <;> cases h
  case integer =>
    -- a number without a sign is not the least one
    rintro rfl
    have hsign : 0 ≤ Int64.minValue.toInt := hkind
    exact absurd hsign (by decide)
  all_goals trivial

/-- A minus sign keeps what can be read: no constant becomes the least number. -/
theorem negate_readable {e : Expr} (he : e.Readable) : (negate e).Readable := by
  unfold negate
  split
  · next v =>
    intro hmin
    have hv : v = Int64.minValue := by
      rw [← Int64.neg_neg (a := v), hmin]
      decide
    exact he hv
  · next hnot =>
    refine ⟨he, ?_⟩
    match e with
    | .literal (.int v) => exact absurd rfl (hnot v)
    | .literal (.bool _) | .literal (.str _) | .literal .null | .ident _ | .unary _ _
    | .binary _ _ _ | .assign _ _ _
    | .increment _ _ _ | .call _ _ | .method _ _ _ => rfl

theorem stepOf?_delta {delta : Int64} (h : stepOf? kind = some delta) : delta = 1 ∨ delta = -1 := by
  unfold stepOf? at h
  split at h <;> cases h
  · exact .inl rfl
  · exact .inr rfl

theorem assignKind?_isSome {op : Option BinaryOp} (h : assignOp? kind = some op) :
    (assignKind? op).isSome = true := by
  unfold assignOp? at h
  split at h <;> cases h <;> rfl

theorem kind_of_binaryOp? {op : BinaryOp} (h : binaryOp? kind = some op) : kind = op.kind := by
  unfold binaryOp? at h
  split at h <;> cases h <;> rfl

/-- The tokens are ones that a text can hold. -/
def Worded (ks : List TokenKind) : Prop := ∀ k ∈ ks, k.Worded

/-- No expression is read from the parenthesis behind the arguments. -/
theorem ReadsExprs.begins {es : List Expr} {ks : List TokenKind} {r : List Token}
    {lt : ts.length < n} (h : ReadsExprs ks es) (hks : Used ts ks r)
    (hskip : skip? .rightParen ts lt = none) : Begins ks := by
  obtain ⟨us, rfl, rfl, -⟩ := hks
  cases us with
  | nil =>
    -- an expression would have been read from no tokens at all
    obtain ⟨hless, -⟩ := h ⟨.eof, ⟨"", 1, 1, 0⟩, ""⟩ [] [⟨.rightParen, ⟨"", 1, 1, 0⟩, ""⟩] rfl rfl
    exact absurd hless (Nat.lt_irrefl _)
  | cons t => exact ⟨t.kind, rfl, fun hkind => nomatch (skip?_eq hkind lt).symm.trans hskip⟩

mutual

/-- What a reader of expressions reads is read from tokens of the same kinds wherever they stand,
and it can be read if a text holds them. -/
theorem expression_uses (ts : List Token) :
    (expression eof ts).Uses ts fun ks e _ => (Worded ks → e.Readable) ∧ ReadsExpr ks e := by
  rw [expression]
  refine (binary_uses 0 ts).andThen fun ks e r lt hks h => ?_
  obtain ⟨he, ⟨p, -, hreads⟩, -⟩ := h
  split
  · exact ⟨ks, hks, he, hreads.expr⟩
  · next t r lt =>
    split
    · exact ⟨ks, hks, he, hreads.expr⟩
    · next op hop =>
      have hnext := hks.next (ne_eof hop rfl)
      have lt' := length_lt_of_cons_lt lt
      dsimp only
      split
      · refine .map (((expression_uses r).after hnext
          fun ks' value q _ h => ⟨fun hw => ?_, ?_⟩).up _)
        · simp only [Worded, forall_mem_append] at hw
          exact ⟨he hw.1.1, assignKind?_isSome hop, h.1 hw.2⟩
        · simpa using hreads.assign h.2 hop
      · exact ⟨_, hnext⟩
termination_by (ts.length, 5)

/-- An operand that ends where operators bind less tightly than is asked for. -/
theorem binary_uses (least : Nat) (ts : List Token) :
    (binary eof least ts).Uses ts fun ks e r => (Worded ks → e.Readable) ∧
    (∃ p, least ≤ p ∧ ReadsBinary p ks e) ∧
      ∀ op, binaryOp? (currentKind r) = some op → op.precedence < least := by
  rw [binary]
  refine (unary_uses ts).andThen fun ks e r lt hks ⟨he, hreads⟩ => ?_
  -- an operand without operators may be followed by any
  have hless (op : BinaryOp) : op.precedence ≤ max least Expr.unaryPrecedence := by
    have hop : op.precedence ≤ Expr.unaryPrecedence := by cases op <;> decide
    exact hop.trans (Nat.le_max_right ..)
  exact binaryRest_uses r lt hks (Nat.le_max_left ..) he (hreads.binary _) fun op _ => hless op
termination_by (ts.length, 4)

/-- The operand grows to the left, as long as operators bind tightly enough. -/
theorem binaryRest_uses {n least p : Nat} {ts₀ : List Token} {ks : List TokenKind} {e : Expr}
    (ts : List Token) (lt : ts.length < n) (hks : Used ts₀ ks ts) (hp : least ≤ p)
    (he : Worded ks → e.Readable) (hreads : ReadsBinary p ks e)
    (hless : ∀ op, binaryOp? (currentKind ts) = some op → op.precedence ≤ p) :
    (binaryRest eof least e ts lt).Uses ts₀ fun ks e r => (Worded ks → e.Readable) ∧
      (∃ p, least ≤ p ∧ ReadsBinary p ks e) ∧ ∀ op, binaryOp? (currentKind r) = some op →
      op.precedence < least := by
  rw [binaryRest.eq_def]
  cases ts with
  | nil => exact ⟨ks, hks, he, ⟨p, hp, hreads⟩, nofun⟩
  | cons t r =>
    dsimp only
    split
    · next hnone => exact ⟨ks, hks, he, ⟨p, hp, hreads⟩, fun op hop => nomatch hnone.symm.trans hop⟩
    · next op hop =>
      split
      · next hlow =>
        refine ⟨ks, hks, he, ⟨p, hp, hreads⟩, fun op' hop' => ?_⟩
        cases hop.symm.trans hop'
        exact hlow
      · next hlow =>
        refine Uses.up (((binary_uses _ r).behind (hks.next (ne_eof hop rfl))).andThen ?_) _
        rintro _ b r' lt' hkb ⟨kb, rfl, -, hb, ⟨q, hq, hright⟩, hstop⟩
        have hless' := lt'.trans (length_lt_cons t r)
        have hjoined := (hreads.mono (hless op hop)).binary (hright.mono hq)
        refine binaryRest_uses r' lt' hkb (Nat.not_lt.mp hlow) (fun hw => ?_) ?_ fun op' hop' =>
          Nat.le_of_lt_succ (hstop op' hop')
        · simp only [Worded, forall_mem_append] at hw
          exact ⟨he hw.1.1, hb hw.2⟩
        · simpa [kind_of_binaryOp? hop] using hjoined
termination_by (ts.length, 3)

theorem unary_uses (ts : List Token) :
    (unary eof ts).Uses ts fun ks e _ => (Worded ks → e.Readable) ∧ ReadsUnary ks e := by
  have hplain : (postfixed eof ts).Uses ts fun ks e _ => (Worded ks → e.Readable) ∧
      ReadsUnary ks e :=
    (postfixed_uses ts).after (.nil ts) fun _ _ _ _ h => ⟨h.1, h.2.unary⟩
  rw [unary.eq_def]
  cases ts with
  | nil => exact hplain
  | cons t r =>
    dsimp only
    split
    · next ht =>
      refine .map (((unary_uses r).after (.cons (by simp [ht]) r) fun ks e q _ h => ⟨fun hw => ?_,
        ht ▸ h.2.not⟩).up _)
      exact h.1 (forall_mem_cons.mp hw).2
    · next ht =>
      refine .map (((unary_uses r).after (.cons (by simp [ht]) r) fun ks e q _ h => ⟨fun hw => ?_,
        ht ▸ h.2.negate⟩).up _)
      exact negate_readable (h.1 (forall_mem_cons.mp hw).2)
    · split
      · next delta hstep =>
        refine .map (((expectName_uses _).after (.cons (ne_eof hstep rfl) r)
          fun ks name q _ h => ?_).up _)
        subst h
        exact ⟨fun hw => ⟨⟨hw _ (mem_cons_of_mem _ mem_cons_self), rfl⟩, stepOf?_delta hstep⟩,
          reads_prefixStep name hstep⟩
      · exact hplain
termination_by (ts.length, 3)

theorem postfixed_uses (ts : List Token) :
    (postfixed eof ts).Uses ts fun ks e _ => (Worded ks → e.Readable) ∧ ReadsPostfixed ks e := by
  rw [postfixed]
  exact (primary_uses ts).andThen fun ks e r lt hks h => postfixedRest_uses r lt hks h.1 h.2
termination_by (ts.length, 2)

/-- The operand grows with every call and step behind it. -/
theorem postfixedRest_uses {n : Nat} {ts₀ : List Token} {ks : List TokenKind} {e : Expr}
    (ts : List Token) (lt : ts.length < n) (hks : Used ts₀ ks ts) (he : Worded ks → e.Readable)
    (hreads : ReadsPostfixed ks e) :
    (postfixedRest eof e ts lt).Uses ts₀ fun ks e _ => (Worded ks → e.Readable) ∧
      ReadsPostfixed ks e := by
  rw [postfixedRest.eq_def]
  cases ts with
  | nil => exact ⟨ks, hks, he, hreads⟩
  | cons t r =>
    dsimp only
    split
    · next ht =>
      refine Uses.up (((expectName_uses _).behind (hks.next (by simp [ht]))).andThen ?_) _
      rintro _ name r' lt' hkn ⟨_, rfl, -, rfl⟩
      have hless := lt'.trans (length_lt_cons t r)
      refine (((arguments_uses r').behind hkn).up lt').andThen ?_
      rintro _ args r'' lt'' hka ⟨_, rfl, -, ka, rfl, hargs, hreadsArgs⟩
      have hless' := lt''.trans (length_lt_cons t r)
      refine postfixedRest_uses r'' lt'' hka (fun hw => ?_) ?_
      · simp only [Worded, forall_mem_append, forall_mem_cons] at hw
        exact ⟨he hw.1.1.1, hw.1.2.1, hargs hw.2.2.1⟩
      · simpa [ht] using hreads.method hreadsArgs name
    · split
      · next delta x hstep =>
        refine postfixedRest_uses r (length_lt_of_cons_lt lt) (hks.next (ne_eof hstep rfl))
          (fun hw => ?_) (hreads.step hstep)
        exact ⟨he (forall_mem_append.mp hw).1, stepOf?_delta hstep⟩
      · exact ⟨ks, hks, he, hreads⟩
termination_by (ts.length, 1)

theorem primary_uses (ts : List Token) :
    (primary eof ts).Uses ts fun ks e _ => (Worded ks → e.Readable) ∧ ReadsPostfixed ks e := by
  rw [primary.eq_def]
  cases ts with
  | nil => exact .refl _
  | cons t r =>
    dsimp only
    split
    · next l hl =>
      exact ⟨_, .cons (ne_eof hl rfl) r, fun hw => literal?_readable (hw _ mem_cons_self) hl,
        reads_literal hl⟩
    · split
      · next name ht =>
        have hused : Used (t :: r) [.identifier name] r := ht ▸ .cons (by simp [ht]) r
        split
        · refine .map (((arguments_uses r).after hused ?_).up _)
          rintro _ es q - ⟨ka, rfl, hargs, hreads⟩
          refine ⟨fun hw => ?_, hreads.call name⟩
          simp only [Worded, forall_mem_append, forall_mem_cons] at hw
          exact ⟨hw.1.1, hargs hw.2.2.1⟩
        · exact ⟨_, hused, fun hw => ⟨hw _ mem_cons_self, rfl⟩, reads_ident name⟩
      · next ht =>
        have hused : Used (t :: r) [.leftParen] r := ht ▸ .cons (by simp [ht]) r
        refine (((expression_uses r).behind hused).up _).andThen ?_
        rintro _ e r' lt hks ⟨ks, rfl, -, he, hreads⟩
        refine last_uses hks lt (by decide) _ fun _ => ⟨fun hw => ?_, hreads.paren⟩
        exact he fun k hk => hw k (mem_append_left _ (mem_cons_of_mem _ hk))
      · exact .refl _
termination_by (ts.length, 1)

theorem arguments_uses (ts : List Token) : (arguments eof ts).Uses ts fun ks es _ =>
    ∃ ka, ks = .leftParen :: (ka ++ [.rightParen]) ∧ (Worded ka → Expr.ReadableAll es) ∧
      ReadsArgs ka es := by
  rw [arguments]
  refine (expect_uses (by decide) _).andThen ?_
  rintro _ _ r lt hks rfl
  split
  · next r' _ lt' heq =>
      exact ⟨_, hks.append (skip?_used heq (by decide)), [], rfl, fun _ => trivial, reads_noArgs⟩
  · next hskip =>
    refine (((expressions_uses r).behind hks).up lt).andThen ?_
    rintro _ es r' lt' hks ⟨ka, rfl, hka, hes, hreads⟩
    exact last_uses hks lt' (by decide) _ fun _ =>
      ⟨ka, rfl, hes, hreads.args (hreads.begins hka hskip)⟩
termination_by (ts.length, 0)

theorem expressions_uses (ts : List Token) :
    (expressions eof ts).Uses ts fun ks es _ => (Worded ks → Expr.ReadableAll es) ∧
      ReadsExprs ks es := by
  rw [expressions]
  refine (expression_uses ts).andThen fun ks e r lt hks ⟨he, hreads⟩ => ?_
  split
  · next r' _ lt' heq =>
    refine .map (((expressions_uses r').after (hks.append (skip?_used heq (by decide)))
      fun ks' es q _ h => ⟨fun hw => ?_, ?_⟩).up lt')
    · simp only [Worded, forall_mem_append] at hw
      exact ⟨he hw.1.1, h.1 hw.2⟩
    · simpa using h.2.cons hreads
  · exact ⟨ks, hks, fun hw => ⟨he hw, trivial⟩, hreads.single⟩
termination_by (ts.length, 6)

end

/-- An expression that was read from tokens of a text can be read. -/
theorem expression_readable {e : Expr} {rest : List Token} {lt : rest.length < ts.length}
    (hts : ∀ t ∈ ts, t.kind.Worded) (h : expression eof ts = .ok e rest lt) : e.Readable := by
  have huses : (expression eof ts).Uses ts _ := expression_uses ts
  rw [h] at huses
  obtain ⟨_, ⟨us, rfl, rfl, -⟩, he, -⟩ := huses
  refine he (forall_mem_map.mpr fun t ht => hts t (mem_append_left _ ht))

end Parser

namespace Expr

/-- A text is read, to its end, as the expression. -/
def ReadFrom (source : String) (e : Expr) : Prop :=
  ∀ file, ∃ tokens, tokenize source file = .ok tokens ∧
    ∃ lt, Parser.expression (Parser.input tokens).2 (Parser.input tokens).1 = .ok e [] lt

theorem input_of_eof (us : List Token) {t : Token} (ht : t.isEof = true) :
    Parser.input (us ++ [t]) = (us, t) := by
  simp [Parser.input, ht]

variable {e : Expr}

/-- A text that spells tokens which are read as the expression is read as it. -/
theorem readFrom_of_spells {source : String} (ks : List TokenKind) (hs : Spells source.toList ks)
    (he : ReadsExpr ks e) : e.ReadFrom source := by
  intro file
  obtain ⟨us, t, htokens, ht, hkinds⟩ := hs.tokenize file
  refine ⟨us ++ [t], htokens, ?_⟩
  rw [input_of_eof us ht]
  have hread := he t us [] hkinds
      (by simp [Closes, Ends, currentKind, stepOf?, binaryOp?, assignOp?])
  rwa [List.append_nil] at hread

/-- A text is read as one expression. -/
theorem ReadFrom.unique {source : String} {e' : Expr} (h : e.ReadFrom source)
    (h' : e'.ReadFrom source) : e = e' := by
  obtain ⟨tokens, htokens, lt, hread⟩ := h ""
  obtain ⟨tokens', htokens', lt', hread'⟩ := h' ""
  cases htokens.symm.trans htokens'
  cases hread.symm.trans hread'
  rfl

/-- The text of an expression that can be read, and in which no sign runs on, is read as the
expression. -/
theorem readFrom_text (he : e.Readable) (hc : e.Clear) (symbols : SymbolTable) :
    e.ReadFrom (e.text symbols) := by
  have hspells : Spells ((e.text symbols).toList ++ []) (e.kinds ++ []) :=
    e.spells_text he hc [] [] nofun .nil
  rw [List.append_nil, List.append_nil] at hspells
  exact readFrom_of_spells _ hspells (e.reads he hc).expr

/-- Every expression that was read from a text, whatever followed it there, is printed as a text
that is read, to its end, as the same expression, provided that no sign in it runs into what it is
printed next to. -/
theorem printed_reads_back {source file : String} {tokens ts : List Token} {eof : Token} {e : Expr}
    {rest : List Token} {lt : rest.length < ts.length} (htokens : tokenize source file = .ok tokens)
    (hts : ts ⊆ tokens) (hread : Parser.expression eof ts = .ok e rest lt) (hclear : e.Clear)
    (symbols : SymbolTable) : e.ReadFrom (e.text symbols) := by
  have hworded : ∀ t ∈ ts, t.kind.Worded := fun t ht => tokenize_worded htokens t (hts ht)
  exact readFrom_text (expression_readable hworded hread) hclear symbols

/-- The difference of a variable and of a difference between parentheses with a negative constant.
-/
def nestedDifference : Expr :=
  .binary .sub (.ident (.free "a")) (.binary .sub (.ident (.free "b")) (.literal (.int (-1))))

theorem isName_a : IsName "a" := ⟨⟨'a', [], rfl, by decide, nofun⟩, by decide⟩

theorem isName_b : IsName "b" := ⟨⟨'b', [], rfl, by decide, nofun⟩, by decide⟩

theorem nestedDifference_clear : nestedDifference.Clear := ⟨trivial, trivial, trivial⟩

theorem nestedDifference_readFrom : nestedDifference.ReadFrom "a - (b - -1)" := by
  have hone : (-1 : Int64) ≠ Int64.minValue := by decide
  have hreadable : nestedDifference.Readable := ⟨⟨isName_a, rfl⟩, ⟨isName_b, rfl⟩, hone⟩
  have htext : nestedDifference.text .empty = "a - (b - -1)" := by decide
  rw [← htext]
  exact readFrom_text hreadable nestedDifference_clear .empty

theorem printed_reads_back_nestedDifference : ∃ tokens lt,
    tokenize "a - (b - -1)" "" = .ok tokens ∧ (Parser.input tokens).1 ⊆ tokens ∧
      Parser.expression (Parser.input tokens).2 (Parser.input tokens).1 =
        .ok nestedDifference [] lt ∧
      nestedDifference.Clear ∧ nestedDifference.ReadFrom (nestedDifference.text .empty) := by
  obtain ⟨tokens, htokens, lt, hread⟩ := nestedDifference_readFrom ""
  have hsub : (Parser.input tokens).1 ⊆ tokens := by
    unfold Parser.input
    split
    · split
      · exact dropLast_subset tokens
      · exact List.Subset.refl tokens
    · exact nil_subset tokens
  exact ⟨tokens, lt, htokens, hsub, hread, nestedDifference_clear,
    printed_reads_back htokens hsub hread nestedDifference_clear .empty⟩

/-- A minus sign in front of a minus sign, which is read from `-(-a)`. -/
def doubleMinus : Expr := .unary .neg (.unary .neg (.ident (.free "a")))

/-- Two minus signs run into each other: what is printed for `-(-a)` is read as a decrement. -/
theorem doubleMinus_not_readFrom_text : doubleMinus.ReadFrom "-(-a)" ∧
    (Expr.increment (.free "a") (-1) false).ReadFrom (doubleMinus.text .empty) ∧
      ¬ doubleMinus.ReadFrom (doubleMinus.text .empty) := by
  have hname : ∀ {r ks}, Apart r → Spells r ks → Spells ('a' :: r) (.identifier "a" :: ks) :=
    fun hr h =>
    Spells.name isName_a hr h
  have hsource : doubleMinus.ReadFrom "-(-a)" := by
    refine readFrom_of_spells [.minus, .leftParen, .minus, .identifier "a", .rightParen] ?_ ?_
    · have hchars : "-(-a)".toList = ['-', '(', '-', 'a', ')'] := rfl
      rw [hchars]
      exact .minus (by simp)
        (.leftParen (.minus (by simp) (hname (by simp [Apart]; decide) (.rightParen .nil))))
    · have hinner : ReadsUnary [.minus, .identifier "a"] (.unary .neg (.ident (.free "a"))) :=
        (reads_ident "a").unary.negate
      have houter : ReadsUnary [.minus, .leftParen, .minus, .identifier "a",
          .rightParen] doubleMinus :=
        (hinner.binary 0).expr.paren.unary.negate
      exact (houter.binary 0).expr
  have hprinted : (Expr.increment (.free "a") (-1) false).ReadFrom (doubleMinus.text .empty) := by
    refine readFrom_of_spells [.minusMinus, .identifier "a"] ?_ ?_
    · exact .decrement (hname nofun .nil)
    · exact ((reads_prefixStep "a" rfl).binary 0).expr
  exact ⟨hsource, hprinted, fun h => nomatch h.unique hprinted⟩

end Expr

end Resumable
