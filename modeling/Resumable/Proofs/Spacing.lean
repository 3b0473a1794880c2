import Resumable.Proofs.Tiling

/-!
# Layout does not matter

Tokens that are written one behind the other with blanks between them are read as the same tokens.

* `StandsAlone kind word`: the word is read as one token of that kind, whatever blanks follow it;
* `Cursor.next_standsAlone`: what a token of a source is spelled with stands alone;
* `respaced` writes words with chosen gaps between them.
-/

namespace Resumable

open List

variable {c : Char} {r r' : List Char} {spelled taken : Nat} {file : String} {kind : TokenKind}

/-! ## Words that stand alone -/

/-- Nothing follows, or a blank. -/
def Spaced (r : List Char) : Prop := ∀ d ∈ r.head?, Text.isBlank d = true

theorem Spaced.apart (h : Spaced r) : Apart r := by
  intro d hd
  have hword : isWordChar d = (isWordStart d || d.isDigit) := by
    simp only [isWordChar, isWordStart, Char.isAlphanum]
    ac_rfl
  rw [hword, Bool.or_eq_false_iff]
  constructor
  · exact Bool.eq_false_iff.mpr fun hstart =>
      absurd (h d hd) (by rw [isBlank_of_isWordStart hstart]; decide)
  · exact Bool.eq_false_iff.mpr fun hdigit =>
      absurd (h d hd) (by rw [isBlank_of_isDigit hdigit]; decide)

/-- The word is read as one token of that kind, whatever blanks follow it. -/
def StandsAlone (kind : TokenKind) (word : List Char) : Prop :=
  ∃ c w, word = c :: w ∧ Text.isBlank c = false ∧ ∀ r, Spaced r →
    piece c (w ++ r) = .token kind w.length w.length

theorem numberPiece_alone (h : numberPiece c r = .token kind spelled taken) (hr' : Spaced r') :
    spelled ≤ r.length ∧ numberPiece c (r.take spelled ++ r') = .token kind spelled spelled := by
  unfold numberPiece at h
  extract_lets body rest suffix more letters value at h
  split at h
  · cases h
  · split at h
    · next hvalue =>
      cases h
      have hr : r = body ++ rest := takeWhile_append_dropWhile.symm
      rw [hr, take_left]
      exact ⟨by simp, numberPiece_append (fun d hd => mem_takeWhile_imp hd) hr'.apart hvalue⟩
    · cases h

/-- The end of a text does not depend on what follows it. -/
theorem textEnd_alone {value : List Char} (h : textEnd r = .closed value taken) (r' : List Char) :
    taken ≤ r.length ∧ textEnd (r.take taken ++ r') = .closed value taken := by
  have hpush : ∀ {e : TextEnd} {d n value taken}, e.push d n = .closed value taken →
      ∃ value' taken', e = .closed value' taken' ∧ value = d :: value' ∧ taken = taken' + n := by
    intro e d n value taken he
    cases e <;> cases he
    exact ⟨_, _, rfl, rfl, rfl⟩
  fun_induction textEnd r generalizing value taken with
  | case1 | case3 | case5 | case6 => cases h
  | case2 =>
    cases h
    exact ⟨Nat.le_add_left .., rfl⟩
  | case4 d r x hx ih =>
    obtain ⟨value, taken, hend, rfl, rfl⟩ := hpush h
    obtain ⟨hle, heq⟩ := ih hend
    refine ⟨by simpa using hle, ?_⟩
    rw [take_succ_cons, take_succ_cons, cons_append, cons_append, textEnd, hx]
    simp only [heq, TextEnd.push]
  | case7 d r hquote hlone hescape hline ih =>
    obtain ⟨value, taken, hend, rfl, rfl⟩ := hpush h
    obtain ⟨hle, heq⟩ := ih hend
    have hslash : d ≠ '\\' := by
      rintro rfl
      cases r with
      | nil => exact hlone rfl rfl
      | cons e r => exact hescape e r rfl rfl
    refine ⟨by simpa using hle, ?_⟩
    rw [take_succ_cons, cons_append, textEnd_cons hquote hslash hline, heq]
    rfl

theorem pairKind?_blank {d : Char} (hd : Text.isBlank d = true) (c : Char) :
    pairKind? c d = none := by
  unfold pairKind?
  split
  all_goals first | rfl | cases hd

theorem markPiece_alone (h : markPiece c r = .token kind spelled taken) (hr' : Spaced r') :
    spelled ≤ r.length ∧ markPiece c (r.take spelled ++ r') = .token kind spelled spelled := by
  unfold markPiece at h
  split at h
  · next kind' hpair =>
    cases h
    obtain ⟨d, hd, hkind⟩ := Option.bind_eq_some_iff.mp hpair
    obtain ⟨r, rfl⟩ := head?_eq_some_iff.mp hd
    refine ⟨Nat.le_add_left .., ?_⟩
    simp [markPiece, hkind]
  · split at h
    · next kind' hsingle =>
      cases h
      have hnone : r'.head?.bind (pairKind? c) = none := by
        cases hhead : r'.head? with
        | none => rfl
        | some d => exact pairKind?_blank (hr' d hhead) c
      refine ⟨Nat.zero_le _, ?_⟩
      simp only [take_zero, nil_append, markPiece, hnone, hsingle]
    · cases h

/-- What a token is spelled with stands alone. -/
theorem standsAlone_of_piece (hc : Text.isBlank c = false)
    (h : piece c r = .token kind spelled taken) : StandsAlone kind (c :: r.take spelled) := by
  refine ⟨c, r.take spelled, rfl, hc, fun r' hr' => ?_⟩
  suffices hpiece : spelled ≤ r.length ∧ piece c (r.take spelled ++ r') =
      .token kind spelled spelled by
    rw [length_take, Nat.min_eq_left hpiece.1]
    exact hpiece.2
  unfold piece at h ⊢
  split at h
  · next hstart =>
    cases h
    have hword := (prefix_iff_eq_take.mp (r.takeWhile_prefix isWordChar)).symm
    have hall : ∀ d ∈ r.takeWhile isWordChar, isWordChar d = true :=
      fun d hd => mem_takeWhile_imp hd
    have htake := (takeWhile_append_of_head hall hr'.apart).1
    rw [hword, if_pos hstart, htake]
    exact ⟨(r.takeWhile_sublist _).length_le, rfl⟩
  · next hstart =>
    rw [if_neg hstart]
    split at h
    · next hdigit =>
      rw [if_pos hdigit]
      exact numberPiece_alone h hr'
    · next hdigit =>
      rw [if_neg hdigit]
      split at h
      · next hquote =>
        rw [if_pos hquote]
        unfold textPiece at h
        split at h
        · next value n hend =>
          cases h
          obtain ⟨hle, heq⟩ := textEnd_alone hend r'
          exact ⟨hle, by rw [textPiece, heq]⟩
        · cases h
        · cases h
      · next hquote =>
        rw [if_neg hquote]
        split at h
        · cases h
        · next hline =>
          split at h
          · split at h <;> cases h
          · next hblock =>
            have hmark := markPiece_alone h hr'
            refine ⟨hmark.1, ?_⟩
            -- the next character is the old one, or a blank: no comment starts
            have hhead : ∀ d, (d = '/' ∨ d = '*') → (r.take spelled ++ r').head? = some d →
                r.head? = some d := by
              intro d hd hhead
              cases spelled with
              | zero => 
                rcases hd with rfl | rfl
                · exact absurd (hr' _ hhead) (by decide)
                · exact absurd (hr' _ hhead) (by decide)
              | succ =>
                cases r with
                | nil => exact absurd hmark.1 (by simp)
                | cons => exact hhead
            rw [if_neg fun h => hline ⟨h.1, hhead _ (.inl rfl) h.2⟩,
              if_neg fun h => hblock ⟨h.1, hhead _ (.inr rfl) h.2⟩]
            exact hmark.2

/-! ## Texts with other gaps -/

namespace Cursor

theorem skipBlanks_blanks {bs : List Char} (hbs : ∀ b ∈ bs, Text.isBlank b = true) (p : Position)
    (r : List Char) : skipBlanks ⟨p, bs ++ r⟩ = skipBlanks ⟨p.afterAll bs, r⟩ := by
  induction bs generalizing p with
  | nil => rfl
  | cons b bs ih =>
    obtain ⟨hb, hbs⟩ := forall_mem_cons.mp hbs
    exact (skipBlanks_blank hb p _).trans (ih hbs _)

theorem next_standsAlone {c c' : Cursor} {t : Token} (h : c.next file = (.ok t, c')) :
    (t.kind = .eof → t.lexeme = "") ∧ (t.kind ≠ .eof → StandsAlone t.kind t.lexeme.toList) := by
  fun_induction next file c with
  | case1 =>
    cases h
    exact ⟨fun _ => rfl, fun h => absurd rfl h⟩
  | case2 c x r hr taken hpiece ih => exact ih h
  | case3 c x r hr kind spelled taken hpiece =>
    cases h
    have hx : Text.isBlank x = false := by
      have hhead := head?_dropWhile_not Text.isBlank c.rest
      rwa [show c.rest.dropWhile Text.isBlank = x :: r from hr] at hhead
    rw [String.toList_ofList]
    exact ⟨fun h => absurd h (piece_worded hpiece).1, fun _ => standsAlone_of_piece hx hpiece⟩
  | case4 => cases h

/-- A word that stands alone is read as its token, up to the gap behind it. -/
theorem next_word {word : List Char} (h : StandsAlone kind word) (hr : Spaced r) (file : String)
    (p : Position) :
    ∃ place p', next file ⟨p, word ++ r⟩ = (.ok ⟨kind, place, String.ofList word⟩, ⟨p', r⟩) := by
  obtain ⟨c, w, rfl, hc, hpiece⟩ := h
  rw [next.eq_def, cons_append, skipBlanks_other hc]
  simp only [hpiece r hr, take_left, advance, drop_succ_cons, drop_left]
  exact ⟨_, _, rfl⟩

end Cursor

/-- The words one behind the other, with the gap that is chosen for the number of words behind it.
-/
def respaced (gap : Nat → String) : List String → String
  | [] => ""
  | [w] => w
  | w :: ws => w ++ gap ws.length ++ respaced gap ws

/-- What a token is, apart from its place. -/
def Token.content (t : Token) : TokenKind × String := (t.kind, t.lexeme)

section

variable {gap : Nat → String} (hgap : ∀ n, gap n ≠ "" ∧ ∀ b ∈ (gap n).toList, Text.isBlank b = true)
include hgap

/-- Behind the first word stand its gap and the other words. -/
theorem respaced_cons (w : String) (ws : List String) :
    ∃ bs, (∀ b ∈ bs, Text.isBlank b = true) ∧ Spaced (bs ++ (respaced gap ws).toList) ∧
      (respaced gap (w :: ws)).toList = w.toList ++ (bs ++ (respaced gap ws).toList) := by
  cases ws with
  | nil => exact ⟨[], nofun, nofun, by simp [respaced]⟩
  | cons v ws =>
    obtain ⟨hne, hblank⟩ := hgap (v :: ws).length
    refine ⟨(gap (v :: ws).length).toList, hblank, ?_, by simp [respaced]⟩
    cases hchars : (gap (v :: ws).length).toList with
    | nil => exact absurd (String.toList_eq_nil_iff.mp hchars) hne
    | cons b =>
      rintro d ⟨⟩
      exact hblank b (hchars ▸ mem_cons_self)

theorem tokens_respaced (file : String) (ts : List Token)
    (hts : ∀ t ∈ ts, t.kind ≠ .eof ∧ StandsAlone t.kind t.lexeme.toList) (p : Position) : ∃ us eof,
      Cursor.tokens file ⟨p, (respaced gap (ts.map Token.lexeme)).toList⟩ = .ok (us ++ [eof]) ∧
      us.map Token.content = ts.map Token.content ∧ eof.content = (.eof, "") := by
  induction ts generalizing p with
  | nil => exact ⟨[], _, Cursor.tokens_of_next (Cursor.next_nil file p), rfl, rfl⟩
  | cons t ts ih =>
    obtain ⟨⟨hkind, halone⟩, hts⟩ := forall_mem_cons.mp hts
    obtain ⟨bs, hbs, hspaced, htext⟩ := respaced_cons hgap t.lexeme (ts.map Token.lexeme)
    obtain ⟨place, p', hnext⟩ := Cursor.next_word halone hspaced file p
    have hblanks := Cursor.skipBlanks_blanks hbs p' (respaced gap (ts.map Token.lexeme)).toList
    have hskip := Cursor.tokens_congr (Cursor.next_congr hblanks file)
    obtain ⟨us, eof, htokens, hcontent, heof⟩ := ih hts (p'.afterAll bs)
    refine ⟨⟨t.kind, place, t.lexeme⟩ :: us, eof, ?_, by simp [Token.content, hcontent], heof⟩
    rw [map_cons, htext, Cursor.tokens_of_next hnext, hskip, htokens, String.ofList_toList,
      if_neg (by simpa [Token.isEof] using hkind)]
    rfl

/-- **Layout does not matter.** The spellings of the tokens of a source, with any blanks between
them, are read as tokens of the same kinds and spellings, and the end behind them. -/
theorem tokenize_respaced {source : String} {ts : List Token} (h : tokenize source file = .ok ts)
    (file' : String) :
    ∃ us, tokenize (respaced gap (ts.dropLast.map Token.lexeme)) file' = .ok us ∧
      us.map Token.content = ts.map Token.content := by
  have hstart : (Cursor.ofString source).position = Position.start.afterAll [] := rfl
  obtain ⟨ts, eof, rfl, heof, -, hothers⟩ := (Cursor.tokens_tiled h hstart).tiles.ends
  have hall := Cursor.forall_tokens Cursor.next_standsAlone h
  obtain ⟨us, eof', htokens, hcontent, heof'⟩ := tokens_respaced hgap file' ts
    (fun t ht => ⟨hothers t ht, (hall t (mem_append_left _ ht)).2 (hothers t ht)⟩) .start
  have hend : eof.content = (.eof, "") := by
    rw [Token.content, heof, (hall eof mem_concat_self).1 heof]
  refine ⟨us ++ [eof'], ?_, by simp [hcontent, heof', hend]⟩
  rw [dropLast_concat]
  exact htokens

end

theorem tokenize_signed : tokenize "-1L" "f" =
    .ok [⟨.minus, ⟨"f", 1, 1, 0⟩, "-"⟩, ⟨.integer 1, ⟨"f", 1, 2, 1⟩, "1"⟩,
      ⟨.eof, ⟨"f", 1, 4, 3⟩, ""⟩] := by
  have hsign : Cursor.next "f" (Cursor.ofString "-1L") =
      (.ok ⟨.minus, ⟨"f", 1, 1, 0⟩, "-"⟩, ⟨⟨1, 2, 1⟩, ['1', 'L']⟩) := by
    rw [Cursor.next.eq_def]
    rfl
  rw [tokenize, Cursor.tokens_of_next hsign, tokens_marked]
  rfl

theorem tokenize_respaced_signed : ∃ us, tokenize "- 1" "g" = .ok us ∧
    us.map Token.content = [(.minus, "-"), (.integer 1, "1"), (.eof, "")] := by
  have hgap (n : Nat) : (fun _ : Nat => " ") n ≠ "" ∧ ∀ b ∈ ((fun _ : Nat => " ") n).toList,
      Text.isBlank b = true :=
    ⟨by simp, by simp; decide⟩
  exact tokenize_respaced hgap tokenize_signed "g"

end Resumable
