import Mathlib.Data.List.Induction
import Resumable.Proofs.Spelling

/-!
# Tokens tile the source

Every character of a source belongs to the spelling of one token, or to what may stand between
tokens.

* `Skipped gap rest`: blanks and complete comments stand in front of `rest`;
* `Tiled` follows the reading of a source token by token: what was read before, what was left, and
  the tokens;
* `Tiles` says it of the tokens of a source by their offsets, lines and columns;
* `tokenize_literal`: a printed text is one token, which is the whole source.
-/

namespace Resumable

open List

/-! ## Places -/

namespace Position

theorem afterAll_append (p : Position) (a b : List Char) :
    p.afterAll (a ++ b) = (p.afterAll a).afterAll b :=
  foldl_append

/-- The characters since the last line end. -/
def lineSoFar (cs : List Char) : List Char := cs.reverse.takeWhile (· != '\n')

/-- A place is counted in characters from the start: the line by the line ends, the column from the
last of them. -/
theorem afterAll_start (cs : List Char) :
    start.afterAll cs = ⟨1 + cs.count '\n', 1 + (lineSoFar cs).length, cs.length⟩ := by
  induction cs using List.reverseRecOn with
  | nil => rfl
  | append_singleton cs c ih =>
    rw [afterAll_append, ih]
    by_cases hc : c = '\n'
    · subst hc
      simp [afterAll, after, lineSoFar, Nat.add_assoc]
    · simp [afterAll, after, lineSoFar, hc, Nat.add_comm]

end Position

/-- The place behind some characters of a source. -/
def placeBehind (file : String) (cs : List Char) : Location :=
  (Position.start.afterAll cs).within file

theorem offset_placeBehind (file : String) (cs : List Char) :
    (placeBehind file cs).offset = cs.length := by
  rw [placeBehind, Position.afterAll_start]
  rfl

/-! ## Between tokens -/

/-- What may stand in front of `rest`: blanks and complete comments. A line comment ends with its
line, or with the source; a block comment ends with the first `*/` behind its start. -/
inductive Skipped : List Char → List Char → Prop where
  | nil {rest} : Skipped [] rest
  | blank {c gap rest} (hc : Text.isBlank c = true) (h : Skipped gap rest) : Skipped (c :: gap) rest
  | line {body gap rest} (hbody : '\n' ∉ body) (h : Skipped gap rest) :
      Skipped (['/', '/'] ++ body ++ ['\n'] ++ gap) rest
  | lastLine {body} (hbody : '\n' ∉ body) : Skipped (['/', '/'] ++ body) []
  | block {body gap rest} (hbody : ¬ ['*', '/'] <:+: body ++ ['*']) (h : Skipped gap rest) :
      Skipped (['/', '*'] ++ body ++ ['*', '/'] ++ gap) rest

theorem Skipped.blanks {bs gap rest : List Char} (hbs : ∀ c ∈ bs, Text.isBlank c = true)
    (h : Skipped gap rest) : Skipped (bs ++ gap) rest := by
  induction bs with
  | nil => exact h
  | cons c bs ih =>
    obtain ⟨hc, hbs⟩ := forall_mem_cons.mp hbs
    exact .blank hc (ih hbs)

/-- A line ends behind its line end, or with the source. -/
theorem lineEnd_cases (r : List Char) : ∃ body, '\n' ∉ body ∧
    (r.take (lineEnd r) = body ++ ['\n'] ∨ r.take (lineEnd r) = body ∧
      r.drop (lineEnd r) = []) := by
  induction r with
  | nil => exact ⟨[], not_mem_nil, .inr ⟨rfl, rfl⟩⟩
  | cons c r ih =>
    rw [lineEnd]
    split
    · next hc =>
      subst hc
      exact ⟨[], not_mem_nil, .inl rfl⟩
    · next hc =>
      obtain ⟨body, hbody, htake⟩ := ih
      refine ⟨c :: body, by simp [Ne.symm hc, hbody], ?_⟩
      rcases htake with htake | ⟨htake, hdrop⟩
      · exact .inl (by simp [htake])
      · exact .inr ⟨by simp [htake], by simpa using hdrop⟩

/-- A block comment ends behind the first `*/`. -/
theorem commentEnd?_eq_some {r : List Char} {n : Nat} (h : commentEnd? r = some n) :
    ∃ body, r.take n = body ++ ['*', '/'] ∧ ¬ ['*', '/'] <:+: body ++ ['*'] := by
  fun_induction commentEnd? r generalizing n with
  | case1 =>
    cases h
    exact ⟨[], rfl, by decide⟩
  | case2 c r hopen ih =>
    obtain ⟨k, hk, rfl⟩ := Option.map_eq_some_iff.mp h
    obtain ⟨body, htake, hbody⟩ := ih hk
    refine ⟨c :: body, by simp [htake], ?_⟩
    rw [cons_append, infix_cons_iff, not_or]
    refine ⟨fun hstart => ?_, hbody⟩
    obtain ⟨rfl, hnext⟩ := cons_prefix_cons.mp hstart
    -- a `/` at the start of what follows would have ended the comment
    obtain ⟨more, hmore⟩ : ∃ more, body ++ ['*', '/'] = '/' :: more := by
      cases body with
      | nil => exact absurd (cons_prefix_cons.mp hnext).1 (by decide)
      | cons =>
        obtain rfl := (cons_prefix_cons.mp hnext).1
        exact ⟨_, rfl⟩
    cases r with
    | nil => simp at htake
    | cons d r =>
      cases k with
      | zero => simp at htake
      | succ =>
        rw [take_succ_cons, hmore] at htake
        obtain ⟨rfl, -⟩ := List.cons.inj htake
        exact hopen r rfl rfl
  | case3 => cases h

/-- A comment that was read is complete. -/
theorem skipped_comment {x : Char} {r gap rest : List Char} {taken : Nat}
    (hpiece : piece x r = .comment taken) (hdrop : r.drop taken = gap ++ rest)
    (h : Skipped gap rest) : Skipped (x :: r.take taken ++ gap) rest := by
  have hnumber : ∀ c r, numberPiece c r ≠ .comment taken := by
    intro c r h
    unfold numberPiece at h
    extract_lets body r' suffix r'' at h
    split at h
    · cases h
    · split at h <;> cases h
  have htext : ∀ r, textPiece r ≠ .comment taken := by
    intro r h
    unfold textPiece at h
    split at h <;> cases h
  have hmark : ∀ c r, markPiece c r ≠ .comment taken := by
    intro c r h
    unfold markPiece at h
    split at h
    · cases h
    · split at h <;> cases h
  unfold piece at hpiece
  split at hpiece
  · cases hpiece
  · split at hpiece
    · exact absurd hpiece (hnumber _ _)
    · split at hpiece
      · exact absurd hpiece (htext _)
      · split at hpiece
        · next hline =>
          cases hpiece
          obtain ⟨rfl, hhead⟩ := hline
          obtain ⟨r, rfl⟩ := head?_eq_some_iff.mp hhead
          simp only [drop_succ_cons, drop_zero, Nat.add_comm 1, take_succ_cons] at hdrop ⊢
          obtain ⟨body, hbody, htake | ⟨htake, hnil⟩⟩ := lineEnd_cases r
          · rw [htake]
            exact .line hbody h
          · obtain ⟨rfl, rfl⟩ := append_eq_nil_iff.mp (hdrop.symm.trans hnil)
            rw [htake, List.append_nil]
            exact .lastLine hbody
        · split at hpiece
          · next hblock =>
            obtain ⟨rfl, hhead⟩ := hblock
            obtain ⟨r, rfl⟩ := head?_eq_some_iff.mp hhead
            split at hpiece
            · next n hn =>
              cases hpiece
              obtain ⟨body, htake, hbody⟩ := commentEnd?_eq_some hn
              simp only [drop_succ_cons, drop_zero, Nat.add_comm 1, take_succ_cons] at htake ⊢
              rw [htake]
              exact .block hbody h
            · cases hpiece
          · exact absurd hpiece (hmark _ _)

/-- What may follow the spelling of a token that it belongs to: the mark of length of an integer. -/
def IsMark (kind : TokenKind) (mark : List Char) : Prop :=
  mark = [] ∨ (∃ v, kind = .integer v) ∧ (mark = ['L'] ∨ mark = ['l'])

/-- A token takes its spelling and a mark. -/
theorem isMark_of_piece {x : Char} {r : List Char} {kind : TokenKind} {spelled taken : Nat}
    (hpiece : piece x r = .token kind spelled taken) :
    ∃ mark, IsMark kind mark ∧ r.take taken = r.take spelled ++ mark := by
  have hplain : spelled = taken → ∃ mark, IsMark kind mark ∧
      r.take taken = r.take spelled ++ mark := by
    rintro rfl
    exact ⟨[], .inl rfl, (List.append_nil _).symm⟩
  unfold piece at hpiece
  split at hpiece
  · cases hpiece
    exact hplain rfl
  · split at hpiece
    · unfold numberPiece at hpiece
      extract_lets body r' suffix r'' at hpiece
      split at hpiece
      · cases hpiece
      · split at hpiece
        · cases hpiece
          refine ⟨r'.take suffix, ?_, ?_⟩
          · by_cases hmark : r'.head? = some 'L' ∨ r'.head? = some 'l'
            · have hsuffix : suffix = 1 := if_pos hmark
              rw [hsuffix, take_one]
              rcases hmark with hmark | hmark
              · exact .inr ⟨⟨_, rfl⟩, .inl (by rw [hmark]; rfl)⟩
              · exact .inr ⟨⟨_, rfl⟩, .inr (by rw [hmark]; rfl)⟩
            · have hsuffix : suffix = 0 := if_neg hmark
              rw [hsuffix]
              exact .inl rfl
          · have hr : r = body ++ r' := takeWhile_append_dropWhile.symm
            rw [hr, take_left, take_append, Nat.add_sub_cancel_left,
              take_of_length_le (Nat.le_add_right _ _)]
        · cases hpiece
    · split at hpiece
      · unfold textPiece at hpiece
        split at hpiece
        · cases hpiece
          exact hplain rfl
        · cases hpiece
        · cases hpiece
      · split at hpiece
        · cases hpiece
        · split at hpiece
          · split at hpiece <;> cases hpiece
          · unfold markPiece at hpiece
            split at hpiece
            · cases hpiece
              exact hplain rfl
            · split at hpiece
              · cases hpiece
                exact hplain rfl
              · cases hpiece

/-! ## Reading token by token -/

/-- `Tiled file before rest ts`: where `before` has been read, the tokens of `rest` are `ts`. -/
inductive Tiled (file : String) : List Char → List Char → List Token → Prop where
  | eof {before gap} (hgap : Skipped gap []) :
    Tiled file before gap [⟨.eof, placeBehind file (before ++ gap), ""⟩]
  | token {before gap kind word mark rest ts} (hgap : Skipped gap (word ++ mark ++ rest))
    (hkind : kind ≠ .eof)
      (hword : word ≠ []) (hmark : IsMark kind mark)
      (hrest : Tiled file (before ++ gap ++ word ++ mark) rest ts) :
      Tiled file before (gap ++ word ++ mark ++ rest)
        (⟨kind, placeBehind file (before ++ gap), String.ofList word⟩ :: ts)

namespace Cursor

theorem rest_eq_skipBlanks (c : Cursor) :
    c.rest = c.rest.takeWhile Text.isBlank ++ c.skipBlanks.rest :=
  takeWhile_append_dropWhile.symm

theorem skipped_blanks (c : Cursor) {gap rest : List Char} (h : Skipped gap rest) :
    Skipped (c.rest.takeWhile Text.isBlank ++ gap) rest :=
  .blanks (fun _ hb => mem_takeWhile_imp hb) h

/-- The cursor behind the blanks and the next `n` characters has read just these. -/
theorem advance_skipBlanks (c : Cursor) (n : Nat) :
    c.rest = c.rest.takeWhile Text.isBlank ++ c.skipBlanks.rest.take n ++
      (c.skipBlanks.advance n).rest ∧
      (c.skipBlanks.advance n).position =
        c.position.afterAll (c.rest.takeWhile Text.isBlank ++ c.skipBlanks.rest.take n) := by
  refine ⟨?_, (Position.afterAll_append ..).symm⟩
  rw [List.append_assoc, advance, take_append_drop]
  exact c.rest_eq_skipBlanks

/-- **Reading one token**: the end behind a last gap, or a spelling behind a gap, with a mark behind
it. -/
theorem next_tiled {file : String} {c c' : Cursor} {t : Token} (h : c.next file = (.ok t, c')) :
    (Skipped c.rest [] ∧ t = ⟨.eof, (c.position.afterAll c.rest).within file, ""⟩) ∨
      ∃ gap kind word mark, Skipped gap (word ++ mark ++ c'.rest) ∧
      c.rest = gap ++ word ++ mark ++ c'.rest ∧
        word ≠ [] ∧ kind ≠ .eof ∧ IsMark kind mark ∧
        t = ⟨kind, (c.position.afterAll gap).within file, String.ofList word⟩ ∧
        c'.position = c.position.afterAll (gap ++ word ++ mark) := by
  fun_induction next file c with
  | case1 c hr =>
    cases h
    have hall := c.rest_eq_skipBlanks
    rw [hr, List.append_nil] at hall
    refine .inl ⟨?_, ?_⟩
    · rw [hall, ← List.append_nil (c.rest.takeWhile _)]
      exact c.skipped_blanks .nil
    · conv => rhs; rw [hall]
      rfl
  | case2 c x r hr taken hpiece ih =>
    obtain ⟨hrest, hposition⟩ := c.advance_skipBlanks (taken + 1)
    rw [hr, take_succ_cons] at hrest hposition
    have hdrop : r.drop taken = (c.skipBlanks.advance (taken + 1)).rest := by
      rw [advance, hr]
      rfl
    have hskip : ∀ {gap rest}, (c.skipBlanks.advance (taken + 1)).rest = gap ++ rest →
        Skipped gap rest →
        Skipped (c.rest.takeWhile Text.isBlank ++ x :: r.take taken ++ gap) rest := by
      intro gap rest heq hgap
      rw [List.append_assoc]
      exact c.skipped_blanks (skipped_comment hpiece (hdrop.trans heq) hgap)
    rcases ih h with ⟨hgap, rfl⟩ | ⟨gap, kind, word, mark, hgap, heq, hword, hkind, hmark,
      rfl, hstop⟩
    · refine .inl ⟨?_, ?_⟩
      · rw [hrest]
        exact hskip (List.append_nil _).symm hgap
      · rw [hposition, ← Position.afterAll_append, ← hrest]
    · refine .inr ⟨_, kind, word, mark, hskip (by rw [heq]; simp) hgap, ?_, hword, hkind,
        hmark, ?_, ?_⟩
      · conv => lhs; rw [hrest, heq]
        simp
      · rw [hposition, ← Position.afterAll_append]
      · rw [hstop, hposition, ← Position.afterAll_append]
        simp
  | case3 c x r hr kind spelled taken hpiece =>
    cases h
    obtain ⟨hrest, hposition⟩ := c.advance_skipBlanks (taken + 1)
    obtain ⟨mark, hmark, htake⟩ := isMark_of_piece hpiece
    rw [hr, take_succ_cons, htake] at hrest hposition
    refine .inr ⟨_, kind, x :: r.take spelled, mark, ?_, ?_, cons_ne_nil _ _,
      (piece_worded hpiece).1, hmark,
        rfl, ?_⟩
    · rw [← List.append_nil (c.rest.takeWhile _)]
      exact c.skipped_blanks .nil
    · simpa using hrest
    · simpa using hposition
  | case4 => cases h

theorem tokens_tiled {file : String} {c : Cursor} {ts : List Token} {before : List Char}
    (h : c.tokens file = .ok ts) (hposition : c.position = Position.start.afterAll before) :
    Tiled file before c.rest ts := by
  fun_induction tokens file c generalizing ts before with
  | case1 => cases h
  | case2 c t c' hnext heof ih =>
    obtain ⟨us, hus, rfl⟩ : ∃ us, c'.tokens file = .ok us ∧ t :: us = ts := by
      cases htokens : c'.tokens file with
      | error =>
        rw [htokens] at h
        cases h
      | ok us =>
        rw [htokens] at h
        cases h
        exact ⟨us, rfl, rfl⟩
    rcases next_tiled hnext with ⟨-, rfl⟩ | ⟨gap, kind, word, mark, hgap, heq, hword, hkind, hmark,
      rfl, hstop⟩
    · cases heof
    · rw [heq, hposition, ← Position.afterAll_append]
      refine .token hgap hkind hword hmark (ih hus ?_)
      rw [hstop, hposition, ← Position.afterAll_append]
      simp only [List.append_assoc]
  | case3 c t c' hnext heof =>
    cases h
    rcases next_tiled hnext with ⟨hgap, rfl⟩ | ⟨gap, kind, word, mark, -, -, -, hkind, -, rfl, -⟩
    · rw [hposition, ← Position.afterAll_append]
      exact .eof hgap
    · exact absurd (by simpa [Token.isEof] using heof) hkind

end Cursor

/-! ## Tokens of a source -/

/-- The characters of a source from one offset to another. -/
def between (source : List Char) (i j : Nat) : List Char := (source.take j).drop i

theorem between_append (a b c : List Char) :
    between (a ++ b ++ c) a.length (a ++ b).length = b := by
  rw [between, take_left, drop_left]

/-- What stands from one offset on is the start of what stands up to any offset behind it. -/
theorem between_split {source mark rest : List Char} {i j : Nat}
    (hdrop : source.drop i = mark ++ rest) (hj : i + mark.length ≤ j) :
    between source i j = mark ++ between source (i + mark.length) j := by
  have hrest : source.drop (i + mark.length) = rest := by
    rw [← drop_drop, hdrop, drop_left]
  rw [between, between, drop_take, drop_take, hdrop, hrest, take_append,
    take_of_length_le (by omega), Nat.sub_sub]

/-- The tokens tile the source from the offset `n` on. -/
structure Tiles (file : String) (source : List Char) (n : Nat) (ts : List Token) : Prop where
  /-- the last token, and only that, is the end of the source -/
  ends : ∃ us eof, ts = us ++ [eof] ∧ eof.kind = .eof ∧ eof.location.offset = source.length ∧
    ∀ t ∈ us, t.kind ≠ .eof
  /-- tokens are spelled by the characters from their offsets on -/
  spelled : ∀ t ∈ ts, n ≤ t.location.offset ∧ t.lexeme.toList <+: source.drop t.location.offset
  /-- tokens come one after the other and do not overlap -/
  apart : ts.Pairwise fun t u =>
    t.location.offset < u.location.offset ∧ t.location.offset + t.lexeme.length ≤ u.location.offset
  /-- nothing but a gap stands in front of the first token -/
  front : ∀ t ∈ ts.head?, Skipped (between source n t.location.offset)
    (source.drop t.location.offset)
  /-- nothing but a gap stands between two tokens, behind the mark of an integer -/
  gaps : ∀ t u, [t, u] <:+: ts → ∃ mark gap, IsMark t.kind mark ∧
    Skipped gap (source.drop u.location.offset) ∧
    between source (t.location.offset + t.lexeme.length) u.location.offset = mark ++ gap
  /-- lines and columns count from 1: lines by their ends, columns from the last of these -/
  located : ∀ t ∈ ts, t.location = ⟨file, 1 + (source.take t.location.offset).count '\n',
    1 + (Position.lineSoFar (source.take t.location.offset)).length, t.location.offset⟩

theorem located_placeBehind (file : String) (cs rest : List Char) :
    placeBehind file cs = ⟨file, 1 + ((cs ++ rest).take cs.length).count '\n',
      1 + (Position.lineSoFar ((cs ++ rest).take cs.length)).length, cs.length⟩ := by
  rw [take_left, placeBehind, Position.afterAll_start]
  rfl

/-- **What is read token by token tiles the source.** The induction follows the reading. -/
theorem Tiled.tiles {file : String} {before rest : List Char} {ts : List Token}
    (h : Tiled file before rest ts) : Tiles file (before ++ rest) before.length ts := by
  induction h with
  | @eof before gap hgap =>
    have hoffset := offset_placeBehind file (before ++ gap)
    refine ⟨⟨[], _, rfl, rfl, hoffset, nofun⟩, ?_, pairwise_singleton .., ?_, ?_, ?_⟩
    · rintro t (_ | ⟨_, ⟨⟩⟩)
      exact ⟨by simp [hoffset], nil_prefix⟩
    · rintro t ⟨⟩
      have hall := between_append before gap []
      rw [List.append_nil] at hall
      simpa only [hoffset, hall, drop_length] using hgap
    · intro t u hpair
      simpa using hpair.length_le
    · rintro t (_ | ⟨_, ⟨⟩⟩)
      have hplace := located_placeBehind file (before ++ gap) []
      rw [List.append_nil] at hplace
      simpa only [hoffset] using hplace
  | @token before gap kind word mark rest ts hgap hkind hword hmark hrest ih =>
    have hoffset := offset_placeBehind file (before ++ gap)
    have hlexeme : (String.ofList word).length = word.length := String.length_ofList
    have hpos : 0 < word.length := length_pos_iff.mpr hword
    have hsource : before ++ gap ++ (word ++ mark ++ rest) = before ++
        (gap ++ word ++ mark ++ rest) := by simp
    have hdrop : (before ++ (gap ++ word ++ mark ++ rest)).drop (before ++ gap).length = word ++
        mark ++ rest := by
      rw [← hsource, drop_left]
    rw [show before ++ gap ++ word ++ mark ++ rest = before ++
      (gap ++ word ++ mark ++ rest) by simp] at ih
    have hbehind : ∀ u ∈ ts, (before ++ gap).length + word.length + mark.length ≤
        u.location.offset := by
      intro u hu
      have hle := (ih.spelled u hu).1
      rwa [length_append, length_append] at hle
    obtain ⟨us, eof, hts, heof, hend, hothers⟩ := ih.ends
    refine ⟨⟨_ :: us, eof, by rw [hts]; rfl, heof, hend, forall_mem_cons.mpr ⟨hkind, hothers⟩⟩, ?_,
      ?_, ?_, ?_, ?_⟩
    · refine forall_mem_cons.mpr ⟨⟨?_, ?_⟩, fun u hu => ⟨?_, (ih.spelled u hu).2⟩⟩
      · simp [hoffset]
      · rw [hoffset, hdrop, String.toList_ofList, List.append_assoc]
        exact prefix_append ..
      · have hle := hbehind u hu
        rw [length_append] at hle
        omega
    · refine pairwise_cons.mpr ⟨fun u hu => ?_, ih.apart⟩
      have hle := hbehind u hu
      simp only [hoffset, hlexeme]
      omega
    · rintro t ⟨⟩
      have hgapEq := between_append before gap (word ++ mark ++ rest)
      rw [hsource] at hgapEq
      simpa only [hoffset, hdrop, hgapEq] using hgap
    · intro t u hpair
      rcases infix_cons_iff.mp hpair with hstart | hpair
      · -- the gap in front of the next token is what follows the mark
        obtain ⟨rfl, hnext⟩ := cons_prefix_cons.mp hstart
        obtain ⟨vs, rfl⟩ : ∃ vs, ts = u :: vs := by
          obtain ⟨vs, rfl⟩ := hnext
          exact ⟨vs, rfl⟩
        have hdrop' : (before ++ (gap ++ word ++ mark ++ rest)).drop
            ((before ++ gap).length + word.length) =
            mark ++ rest := by
          rw [← drop_drop, hdrop, List.append_assoc, drop_left]
        refine ⟨mark, _, hmark, ih.front u rfl, ?_⟩
        simp only [hoffset, hlexeme]
        have hlength : (before ++ gap ++ word ++ mark).length = (before ++ gap).length +
            word.length + mark.length := by
          rw [length_append, length_append]
        rw [between_split hdrop' (hbehind u mem_cons_self), hlength]
      · exact ih.gaps t u hpair
    · refine forall_mem_cons.mpr ⟨?_, ih.located⟩
      have hplace := located_placeBehind file (before ++ gap) (word ++ mark ++ rest)
      rw [hsource] at hplace
      simpa only [hoffset] using hplace

/-- **Tokens tile the source.** Of every source that can be read, the last token and no other is its
end, tokens are spelled by its characters one behind the other, only blanks, complete comments and
marks of integers stand between them, and lines and columns are those of their offsets. -/
theorem tokenize_tiles {source file : String} {ts : List Token}
    (h : tokenize source file = .ok ts) : Tiles file source.toList 0 ts := by
  have hstart : (Cursor.ofString source).position = Position.start.afterAll [] := rfl
  exact (Cursor.tokens_tiled h hstart).tiles

/-- An integer with its mark, where the source ends. -/
theorem tokens_marked (p : Position) : Cursor.tokens "f" ⟨p, ['1', 'L']⟩ =
    .ok [⟨.integer 1, p.within "f", "1"⟩, ⟨.eof, (p.afterAll ['1', 'L']).within "f", ""⟩] := by
  have hnumber : Cursor.next "f" ⟨p, ['1', 'L']⟩ =
      (.ok ⟨.integer 1, p.within "f", "1"⟩, ⟨p.afterAll ['1', 'L'], []⟩) := by
    rw [Cursor.next.eq_def]
    rfl
  rw [Cursor.tokens_of_next hnumber, Cursor.tokens_of_next (Cursor.next_nil ..)]
  rfl

theorem tokenize_commented :
    tokenize "/**/1L" "f" = .ok [⟨.integer 1, ⟨"f", 1, 5, 4⟩, "1"⟩,
      ⟨.eof, ⟨"f", 1, 7, 6⟩, ""⟩] := by
  have hcomment : Cursor.next "f" (Cursor.ofString "/**/1L") = Cursor.next "f"
      ⟨⟨1, 5, 4⟩, ['1', 'L']⟩ := by
    rw [Cursor.next.eq_def]
    rfl
  rw [tokenize, Cursor.tokens_congr hcomment]
  exact tokens_marked _

theorem tokenize_tiles_commented : Tiles "f" "/**/1L".toList 0
    [⟨.integer 1, ⟨"f", 1, 5, 4⟩, "1"⟩, ⟨.eof, ⟨"f", 1, 7, 6⟩, ""⟩] :=
  tokenize_tiles tokenize_commented

/-! ## Printed texts -/

theorem Position.afterAll_line {cs : List Char} (h : '\n' ∉ cs) :
    start.afterAll cs = ⟨1, 1 + cs.length, cs.length⟩ := by
  have hline : lineSoFar cs = cs.reverse := takeWhile_eq_self_iff.mpr fun c hc => by
    rw [mem_reverse] at hc
    exact bne_iff_ne.mpr (ne_of_mem_of_not_mem hc h)
  rw [afterAll_start, count_eq_zero.mpr h, hline, length_reverse]

/-- A printed text stands on one line: its line ends are escaped. -/
theorem Text.feed_not_mem_quoted (s : String) : '\n' ∉ (quoted s).toList := by
  have hescape : ∀ c, '\n' ∉ escape c := by
    intro c
    unfold escape
    split
    all_goals simp_all [eq_comm]
  simp [quoted, hescape]

/-- **Printed texts are read back**, whatever characters they have. What is printed for a text is
one token, which holds that text and is spelled by all that was printed; then the source ends, still
on its first line. -/
theorem tokenize_literal (s file : String) :
    tokenize (Literal.str s).text file = .ok [⟨.string s, ⟨file, 1, 1, 0⟩, (Literal.str s).text⟩,
      ⟨.eof, ⟨file, 1, 1 + (Literal.str s).text.length, (Literal.str s).text.length⟩, ""⟩] := by
  have hnext : Cursor.next file (.ofString (Literal.str s).text) =
      (.ok ⟨.string s, ⟨file, 1, 1, 0⟩, (Literal.str s).text⟩,
        ⟨Position.start.afterAll (Text.quoted s).toList, []⟩) := by
    have hpiece := piece_quoted s []
    rw [List.append_nil] at hpiece
    rw [Cursor.ofString, Literal.text, Text.quoted, String.toList_ofList, cons_append,
      Cursor.next.eq_def, Cursor.skipBlanks_other (by decide)]
    simp only [hpiece, take_length, Cursor.advance, take_succ_cons, drop_succ_cons, drop_length]
    rfl
  rw [tokenize, Cursor.tokens_of_next hnext, Cursor.tokens_of_next (Cursor.next_nil ..),
    Position.afterAll_line (Text.feed_not_mem_quoted s)]
  rfl

end Resumable
