import Mathlib.Data.List.TakeWhile
import Resumable.Render.Expr
import Resumable.Token.Lexer

/-!
# Spellings of tokens

Which tokens a text is read as, piece by piece and without regard to places.

* `Spells cs ks`: the characters `cs` are read as tokens of the kinds `ks`. What follows a token
  decides where it ends, so the rules are stated with what follows; `Spells.tokenize` goes on to the
  tokens of a text;
* `IsName` are the words that are identifiers, and `tokenize_worded` says that only those are read
  as such.
-/

namespace Resumable

open List

variable {c : Char} {cs r : List Char} {spelled taken : Nat} {file source : String}
  {kind : TokenKind}

/-! ## Characters -/

/-- A word starts with a letter, an underscore or a dollar sign. -/
theorem isWordStart_iff : isWordStart c = true ↔
    65 ≤ c.toNat ∧ c.toNat ≤ 90 ∨ 97 ≤ c.toNat ∧ c.toNat ≤ 122 ∨ c.toNat = 95 ∨ c.toNat = 36 := by
  rw [isWordStart]
  delta Char.isAlpha Char.isUpper Char.isLower
  simp only [Bool.or_eq_true, Bool.and_eq_true, decide_eq_true_eq, beq_iff_eq,
    ← Char.toNat_inj, or_assoc]
  exact Iff.rfl

theorem isBlank_of_isWordStart (h : isWordStart c = true) : Text.isBlank c = false := by
  rw [isWordStart_iff] at h
  simp only [Text.isBlank, Text.blankRanges, any_cons, any_nil, Bool.or_false, Bool.or_eq_false_iff,
    Bool.and_eq_false_iff, decide_eq_false_iff_not]
  omega

theorem isBlank_of_isDigit (h : c.isDigit = true) : Text.isBlank c = false := by
  obtain ⟨hlow, hhigh⟩ := Char.isDigit_iff_toNat.mp h
  simp only [Text.isBlank, Text.blankRanges, any_cons, any_nil, Bool.or_false, Bool.or_eq_false_iff,
    Bool.and_eq_false_iff, decide_eq_false_iff_not]
  simp only [Char.reduceToNat] at hlow hhigh
  omega

theorem isWordStart_of_isDigit (h : c.isDigit = true) : isWordStart c = false := by
  obtain ⟨hlow, hhigh⟩ := Char.isDigit_iff_toNat.mp h
  simp only [Char.reduceToNat] at hlow hhigh
  rw [← Bool.not_eq_true, isWordStart_iff]
  omega

/-- What follows a word or a number does not belong to it. -/
def Apart (r : List Char) : Prop := ∀ d ∈ r.head?, isWordChar d = false

theorem Apart.numberChar (h : Apart r) : ∀ d ∈ r.head?, isNumberChar d = false := by
  intro d hd
  have hword := h d hd
  simp only [isWordChar, Char.isAlphanum, Bool.or_eq_false_iff] at hword
  rw [isNumberChar, hword.1.1.2, hword.1.2]
  rfl

theorem Apart.isAlpha (h : Apart r) : ∀ d ∈ r.head?, d.isAlpha = false := by
  intro d hd
  have hword := h d hd
  simp only [isWordChar, Char.isAlphanum, Bool.or_eq_false_iff] at hword
  exact hword.1.1.1

theorem takeWhile_append_of_head {p : Char → Bool} (hcs : ∀ c ∈ cs, p c)
    (hr : ∀ d ∈ r.head?, p d = false) : (cs ++ r).takeWhile p = cs ∧ (cs ++ r).dropWhile p = r := by
  have hstop : r.takeWhile p = [] ∧ r.dropWhile p = r := by
    cases r with
    | nil => exact ⟨rfl, rfl⟩
    | cons d =>
      have hd : p d = false := hr d rfl
      simp [hd]
  rw [takeWhile_append_of_pos hcs, dropWhile_append_of_pos hcs, hstop.1, hstop.2, List.append_nil]
  exact ⟨rfl, rfl⟩

/-- The digits and underscores of a number in front of what does not belong to it. -/
theorem numberPiece_append {body : List Char} (hbody : ∀ d ∈ body, isNumberChar d = true)
    (hr : Apart r) (hvalue : Text.digitsValue ((c :: body).filter Char.isDigit) < Text.int64Bound) :
    numberPiece c (body ++ r) = .token
      (.integer (Int64.ofNat (Text.digitsValue ((c :: body).filter Char.isDigit))))
      body.length body.length := by
  obtain ⟨htake, hdrop⟩ := takeWhile_append_of_head hbody hr.numberChar
  have hsuffix : ¬ (r.head? = some 'L' ∨ r.head? = some 'l') := by
    rintro (hL | hl)
    · exact absurd (hr 'L' hL) (by decide)
    · exact absurd (hr 'l' hl) (by decide)
  have hletters : r.head?.any Char.isAlpha = false := by
    cases hhead : r.head? with
    | none => rfl
    | some c => exact hr.isAlpha c hhead
  rw [numberPiece]
  simp only [htake, hdrop, if_neg hsuffix, drop_zero, hletters, Bool.false_eq_true, if_false,
    if_pos hvalue, Nat.add_zero]

/-- A character of a text that stands for itself. -/
theorem textEnd_cons (hquote : c ≠ '"') (hslash : c ≠ '\\') (hline : ¬ (c = '\n' ∨ c = '\r'))
    (cs : List Char) : textEnd (c :: cs) = (textEnd cs).push c 1 := by
  rw [textEnd.eq_def]
  split
  · next h => cases h
  · next h => exact absurd (List.cons.inj h).1 hquote
  · next h => exact absurd (List.cons.inj h).1 hslash
  · next h => exact absurd (List.cons.inj h).1 hslash
  · next h =>
    cases h
    rw [if_neg hline]

theorem textEnd_escape (c : Char) (cs : List Char) :
    textEnd (Text.escape c ++ cs) = (textEnd cs).push c (Text.escape c).length := by
  unfold Text.escape
  split
  all_goals try rfl
  next hquote hslash hfeed htab hreturn =>
    exact textEnd_cons hquote hslash (not_or.mpr ⟨hfeed, hreturn⟩) cs

/-- What stands between the quotes of a text is read as the text. -/
theorem textEnd_escaped (cs r : List Char) :
    textEnd (cs.flatMap Text.escape ++ '"' :: r) = .closed cs
      ((cs.flatMap Text.escape).length + 1) := by
  induction cs with
  | nil => rw [flatMap_nil, nil_append, textEnd]; rfl
  | cons c cs ih =>
    rw [flatMap_cons, List.append_assoc, textEnd_escape, ih, length_append, TextEnd.push]
    congr 1
    omega

/-- A text between quotes is one piece, whatever follows it. -/
theorem piece_quoted (s : String) (r : List Char) :
    piece '"' (s.toList.flatMap Text.escape ++ ['"'] ++ r) =
    .token (.string s) (s.toList.flatMap Text.escape ++ ['"']).length
      (s.toList.flatMap Text.escape ++ ['"']).length := by
  rw [List.append_assoc, singleton_append]
  show textPiece _ = _
  rw [textPiece, textEnd_escaped]
  simp only [String.ofList_toList, length_append, length_singleton]

/-! ## Texts -/

/-- The characters are read as tokens of these kinds. -/
inductive Spells : List Char → List TokenKind → Prop where
  | nil : Spells [] []
  | blank {c r ks} (hc : Text.isBlank c = true) (h : Spells r ks) : Spells (c :: r) ks
  | token {c r kind spelled taken ks} (hc : Text.isBlank c = false)
    (hpiece : piece c r = .token kind spelled taken)
      (h : Spells (r.drop taken) ks) : Spells (c :: r) (kind :: ks)

namespace Cursor

theorem skipBlanks_blank (hc : Text.isBlank c = true) (p : Position) (r : List Char) :
    skipBlanks ⟨p, c :: r⟩ = skipBlanks ⟨p.after c, r⟩ := by
  simp [skipBlanks, hc, Position.afterAll]

theorem skipBlanks_other (hc : Text.isBlank c = false) (p : Position) (r : List Char) :
    skipBlanks ⟨p, c :: r⟩ = ⟨p, c :: r⟩ := by
  simp [skipBlanks, hc, Position.afterAll]

theorem next_congr {a b : Cursor} (h : a.skipBlanks = b.skipBlanks) (file : String) :
    a.next file = b.next file := by
  rw [next.eq_def, next.eq_def file b, h]

theorem tokens_congr {a b : Cursor} (h : a.next file = b.next file) :
    a.tokens file = b.tokens file := by
  rw [tokens.eq_def, tokens.eq_def file b, h]

theorem next_token (hc : Text.isBlank c = false)
    (hpiece : piece c r = .token kind spelled taken) (file : String) (p : Position) :
    ∃ t p', next file ⟨p, c :: r⟩ = (.ok t, ⟨p', r.drop taken⟩) ∧ t.kind = kind := by
  rw [next.eq_def, skipBlanks_other hc]
  simp only [hpiece]
  exact ⟨_, _, rfl, rfl⟩

theorem next_nil (file : String) (p : Position) :
    next file ⟨p, []⟩ = (.ok ⟨.eof, p.within file, ""⟩, ⟨p, []⟩) := by
  rw [next.eq_def]
  rfl

theorem tokens_of_next {c c' : Cursor} {t : Token} (h : c.next file = (.ok t, c')) :
    c.tokens file = if t.isEof then .ok [t] else (c'.tokens file).map (t :: ·) := by
  rw [tokens.eq_def]
  split
  · next heq => cases h.symm.trans heq
  · next heq =>
    cases h.symm.trans heq
    by_cases ht : t.isEof = true
    · simp [ht]
    · simp [ht]

end Cursor

/-! ## Kinds of tokens -/

/-- The characters form a word. -/
def IsWord (w : List Char) : Prop :=
  ∃ c cs, w = c :: cs ∧ isWordStart c = true ∧ ∀ d ∈ cs, isWordChar d = true

/-- The name is a word without a meaning of its own. -/
def IsName (name : String) : Prop := IsWord name.toList ∧ wordKind name = .identifier name

/-- The token is one that a text can hold: an identifier is a name, and an integer has no sign. -/
def TokenKind.Worded : TokenKind → Prop
  | .identifier name => IsName name
  | .integer v => 0 ≤ v.toInt
  | _ => True

theorem wordKind_cases (w : String) : wordKind w = .identifier w ∨ (∃ b, wordKind w = .bool b) ∨
    wordKind w = .null ∨ ∃ k, wordKind w = .keyword k := by
  unfold wordKind
  split
  · exact .inr (.inl ⟨_, rfl⟩)
  · split
    · exact .inr (.inl ⟨_, rfl⟩)
    · split
      · exact .inr (.inr (.inl rfl))
      · split
        · exact .inr (.inr (.inr ⟨_, rfl⟩))
        · exact .inl rfl

theorem pairKind?_worded {d : Char} (h : pairKind? c d = some kind) :
    kind ≠ .eof ∧ kind.Worded := by
  unfold pairKind? at h
  split at h <;> cases h <;> exact ⟨nofun, trivial⟩

theorem singleKind?_worded (h : singleKind? c = some kind) : kind ≠ .eof ∧ kind.Worded := by
  unfold singleKind? at h
  split at h <;> cases h <;> exact ⟨nofun, trivial⟩

theorem numberPiece_worded (h : numberPiece c r = .token kind spelled taken) :
    kind ≠ .eof ∧ kind.Worded := by
  unfold numberPiece at h
  extract_lets body r' suffix r'' at h
  split at h
  · cases h
  · split at h
    · next hvalue =>
      cases h
      refine ⟨nofun, ?_⟩
      show 0 ≤ (Int64.ofNat _).toInt
      rw [Int64.toInt_ofNat_of_lt hvalue]
      exact Int.natCast_nonneg _
    · cases h

theorem markPiece_worded (h : markPiece c r = .token kind spelled taken) :
    kind ≠ .eof ∧ kind.Worded := by
  unfold markPiece at h
  split at h
  · next hpair =>
    cases h
    obtain ⟨d, -, hd⟩ := Option.bind_eq_some_iff.mp hpair
    exact pairKind?_worded hd
  · split at h
    · next hsingle =>
      cases h
      exact singleKind?_worded hsingle
    · cases h

/-- A piece that is a token has characters, so it is not the end; and it is one that a text can
hold. -/
theorem piece_worded (h : piece c r = .token kind spelled taken) : kind ≠ .eof ∧ kind.Worded := by
  unfold piece at h
  split at h
  · next hstart =>
    cases h
    have hname : IsWord (String.ofList (c :: r.takeWhile isWordChar)).toList := by
      rw [String.toList_ofList]
      exact ⟨c, _, rfl, hstart, fun d hd => mem_takeWhile_imp hd⟩
    rcases wordKind_cases (String.ofList (c :: r.takeWhile isWordChar))
      with hkind | ⟨b, hkind⟩ | hkind | ⟨k, hkind⟩
    · rw [hkind]
      exact ⟨nofun, hname, hkind⟩
    · rw [hkind]
      exact ⟨nofun, trivial⟩
    · rw [hkind]
      exact ⟨nofun, trivial⟩
    · rw [hkind]
      exact ⟨nofun, trivial⟩
  · split at h
    · exact numberPiece_worded h
    · split at h
      · unfold textPiece at h
        split at h
        · cases h
          exact ⟨nofun, trivial⟩
        · cases h
        · cases h
      · split at h
        · cases h
        · split at h
          · split at h
            · cases h
            · cases h
          · exact markPiece_worded h

theorem Cursor.next_worded {c c' : Cursor} {t : Token} (h : c.next file = (.ok t, c')) :
    t.kind.Worded := by
  fun_induction Cursor.next file c with
  | case1 =>
    cases h
    trivial
  | case2 c x r hr taken hp ih => exact ih h
  | case3 c x r hr kind spelled taken hp =>
    cases h
    exact (piece_worded hp).2
  | case4 => cases h

/-- What holds of every token that is read holds of all tokens of a text. -/
theorem Cursor.forall_tokens {P : Token → Prop}
    (hnext : ∀ {c c' : Cursor} {t}, c.next file = (.ok t, c') → P t) {c : Cursor} {ts : List Token}
    (h : c.tokens file = .ok ts) : ∀ t ∈ ts, P t := by
  fun_induction Cursor.tokens file c generalizing ts with
  | case1 => cases h
  | case2 c t c' ht hnot ih =>
    cases hrest : c'.tokens file with
    | error =>
      rw [hrest] at h
      cases h
    | ok =>
      rw [hrest] at h
      cases h
      exact forall_mem_cons.mpr ⟨hnext ht, ih hrest⟩
  | case3 c t c' ht =>
    cases h
    exact forall_mem_singleton.mpr (hnext ht)

/-- The tokens of a text are those that a text can hold. -/
theorem tokenize_worded {ts : List Token} (h : tokenize source file = .ok ts) :
    ∀ t ∈ ts, t.kind.Worded :=
  Cursor.forall_tokens Cursor.next_worded h

/-! ## Rules for texts -/

variable {ks : List TokenKind}

/-- The tokens of characters, with the end behind them. -/
theorem Spells.tokens (h : Spells cs ks) (file : String) (p : Position) :
    ∃ us t, Cursor.tokens file ⟨p, cs⟩ = .ok (us ++ [t]) ∧ t.isEof = true ∧
      us.map Token.kind = ks := by
  induction h generalizing p with
  | nil => exact ⟨[], _, Cursor.tokens_of_next (Cursor.next_nil file p), rfl, rfl⟩
  | @blank c r ks hc h ih =>
    obtain ⟨us, t, htokens, ht, hkinds⟩ := ih (p.after c)
    have hsame := Cursor.next_congr (Cursor.skipBlanks_blank hc p r) file
    exact ⟨us, t, (Cursor.tokens_congr hsame).trans htokens, ht, hkinds⟩
  | @token c r kind spelled taken ks hc hpiece h ih =>
    obtain ⟨t, p', hnext, hkind⟩ := Cursor.next_token hc hpiece file p
    obtain ⟨us, eof, htokens, heof, hkinds⟩ := ih p'
    have hnot : t.isEof = false := by
      rw [Token.isEof, hkind]
      exact beq_eq_false_iff_ne.mpr (piece_worded hpiece).1
    refine ⟨t :: us, eof, ?_, heof, by rw [map_cons, hkind, hkinds]⟩
    rw [Cursor.tokens_of_next hnext, hnot, htokens]
    rfl

/-- What is read of a text that is spelled so. -/
theorem Spells.tokenize (h : Spells source.toList ks) (file : String) :
    ∃ us t, Resumable.tokenize source file = .ok (us ++ [t]) ∧ t.isEof = true ∧
      us.map Token.kind = ks :=
  h.tokens file .start

namespace Spells

variable {r w : List Char} {ks : List TokenKind}

theorem space (h : Spells r ks) : Spells (' ' :: r) ks := .blank (by decide) h

/-- A token that takes all characters in front of the rest. -/
theorem ahead (hc : Text.isBlank c = false)
    (hpiece : piece c (cs ++ r) = .token kind spelled cs.length) (h : Spells r ks) :
    Spells (c :: cs ++ r) (kind :: ks) := by
  rw [cons_append]
  refine .token hc hpiece ?_
  rwa [drop_left]

/-- A word in front of what does not belong to it. -/
theorem word (hw : IsWord w) (hr : Apart r) (h : Spells r ks) :
    Spells (w ++ r) (wordKind (String.ofList w) :: ks) := by
  obtain ⟨c, cs, rfl, hc, hcs⟩ := hw
  have htake : (cs ++ r).takeWhile isWordChar = cs := (takeWhile_append_of_head hcs hr).1
  have hpiece : piece c (cs ++ r) = .token
      (wordKind (String.ofList (c :: cs))) cs.length cs.length := by
    rw [piece, if_pos hc]
    simp only [htake]
  exact ahead (isBlank_of_isWordStart hc) hpiece h

theorem name {x : String} (hx : IsName x) (hr : Apart r) (h : Spells r ks) :
    Spells (x.toList ++ r) (.identifier x :: ks) := by
  have hword := word hx.1 hr h
  rwa [String.ofList_toList, hx.2] at hword

/-- A run of digits in front of what does not belong to it. -/
theorem number {n : Nat} (hn : n < Text.int64Bound) (hr : Apart r) (h : Spells r ks) :
    Spells ((toString n).toList ++ r) (.integer (Int64.ofNat n) :: ks) := by
  have hall : ∀ c ∈ Nat.toDigits 10 n, c.isDigit = true := fun c => Text.isDigit_of_mem
  have hvalue := Text.digitsValue_toDigits n
  rw [← filter_eq_self.mpr hall] at hvalue
  rw [Text.toList_toString]
  cases hds : Nat.toDigits 10 n with
  | nil => exact absurd hds Nat.toDigits_ne_nil
  | cons d ds =>
    rw [hds] at hall hvalue
    obtain ⟨hd, hall⟩ := forall_mem_cons.mp hall
    have hpiece : piece d (ds ++ r) = .token (.integer (Int64.ofNat n)) ds.length ds.length := by
      rw [piece, if_neg (by rw [isWordStart_of_isDigit hd]; decide), if_pos hd, ← hvalue]
      exact numberPiece_append (fun c hc => by rw [isNumberChar, hall c hc, Bool.true_or]) hr
        (by rwa [hvalue])
    exact ahead (isBlank_of_isDigit hd) hpiece h

/-- A text between quotes. -/
theorem quoted (s : String) (h : Spells r ks) :
    Spells ((Text.quoted s).toList ++ r) (.string s :: ks) := by
  rw [Text.quoted, String.toList_ofList]
  exact ahead (by decide) (piece_quoted s r) h

/-! ### Marks -/

/-- A mark that is read alone, whatever follows it. -/
theorem mark (hc : Text.isBlank c = false) (hlast : piece c [] = .token kind 0 0)
    (hmore : ∀ d r, piece c (d :: r) = .token kind 0 0) (h : Spells r ks) :
    Spells (c :: r) (kind :: ks) := by
  have hpiece : piece c r = .token kind 0 0 := by
    cases r with
    | nil => exact hlast
    | cons d r => exact hmore d r
  exact .token hc hpiece h

theorem leftParen (h : Spells r ks) : Spells ('(' :: r) (.leftParen :: ks) :=
  mark (by decide) rfl (fun _ _ => rfl) h

theorem rightParen (h : Spells r ks) : Spells (')' :: r) (.rightParen :: ks) :=
  mark (by decide) rfl (fun _ _ => rfl) h

theorem comma (h : Spells r ks) : Spells (',' :: r) (.comma :: ks) :=
  mark (by decide) rfl (fun _ _ => rfl) h

theorem dot (h : Spells r ks) : Spells ('.' :: r) (.dot :: ks) :=
  mark (by decide) rfl (fun _ _ => rfl) h

/-- A mark that forms no pair with what follows it. -/
theorem unpaired (hc : Text.isBlank c = false) (hpiece : piece c r = markPiece c r)
    (hkind : singleKind? c = some kind) (hr : ∀ d ∈ r.head?, pairKind? c d = none)
    (h : Spells r ks) : Spells (c :: r) (kind :: ks) := by
  have hpair : r.head?.bind (pairKind? c) = none := Option.bind_eq_none_iff.mpr hr
  have hmark : piece c r = .token kind 0 0 := by rw [hpiece, markPiece, hpair, hkind]
  exact .token hc hmark h

/-- A minus sign, unless it is doubled or followed by an equals sign. -/
theorem minus (hr : ∀ d ∈ r.head?, d ≠ '-' ∧ d ≠ '=') (h : Spells r ks) :
    Spells ('-' :: r) (.minus :: ks) := by
  refine unpaired (by decide) rfl rfl (fun d hd => ?_) h
  obtain ⟨hminus, hequal⟩ := hr d hd
  unfold pairKind?
  split <;> simp_all

/-- A mark that forms a pair with an equals sign only. -/
theorem unequaled (hc : c = '!' ∨ c = '<' ∨ c = '>') (hkind : singleKind? c = some kind)
    (hr : ∀ d ∈ r.head?, d ≠ '=') (h : Spells r ks) : Spells (c :: r) (kind :: ks) := by
  have hpair : ∀ d ∈ r.head?, pairKind? c d = none := fun d hd => by
    have hequal := hr d hd
    unfold pairKind?
    split <;> simp_all
  rcases hc with rfl | rfl | rfl <;> exact unpaired (by decide) rfl hkind hpair h

end Spells

end Resumable
