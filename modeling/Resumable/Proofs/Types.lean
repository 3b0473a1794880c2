import Resumable.Proofs.ReadBack

/-!
# Types

* `scanType?_eq`: looking ahead over a type stops where reading the type does, and finds none where
  reading fails;
* `TypeRef.kinds` are the tokens of a printed type; `TypeRef.spells_text` says that its text is read
  as these, and `Parser.typeRef_reads` that these are read as the type.
-/

namespace Resumable

open List

/-! ## Looking ahead -/

/-- The tokens behind what was read, if reading succeeded. -/
def Reading.stop? {α : Type} {n : Nat} : Reading α n → Option (List Token)
  | .ok _ r _ => some r
  | .error _ _ _ => none

namespace Reading

variable {α β : Type} {n : Nat}

theorem stop?_up {ts : List Token} (x : Reading α ts.length) (h : ts.length < n) :
    (x.up h).stop? = x.stop? := by
  cases x with
  | ok | error => rfl

theorem stop?_map (x : Reading α n) (f : α → β) : (x.map f).stop? = x.stop? := by
  cases x with
  | ok | error => rfl

theorem stop?_eq_some {x : Reading α n} {r : List Token} : x.stop? = some r ↔ ∃ a, x.Gets a r := by
  cases x with
  | ok a r' lt =>
    constructor
    · rintro ⟨⟩
      exact ⟨a, gets_ok lt⟩
    · rintro ⟨_, _, ⟨⟩⟩
      rfl
  | error => exact ⟨nofun, nofun⟩

end Reading

namespace Parser

variable {eof : Token}

theorem stop?_expect (kind : TokenKind) (expected : String) {n : Nat} (ts : List Token)
    (lt : ts.length < n) :
    (expect eof kind expected ts).stop? = (skip? kind ts lt).map Subtype.val := by
  cases ts with
  | nil => rfl
  | cons t r =>
    by_cases ht : t.kind = kind
    · rw [expect, if_pos ht, skip?_eq ht]
      rfl
    · rw [expect, if_neg ht, skip?_ne ht]
      rfl

mutual

/-- Looking ahead over a type stops where reading it does. -/
theorem scanType?_eq (ts : List Token) :
    (scanType? ts).map Subtype.val = (typeRef eof ts).stop? := by
  rw [scanType?.eq_def, typeRef]
  cases ts with
  | nil => rfl
  | cons t r =>
    cases hkind : t.kind with
    | identifier =>
      simp only [expectName, hkind, Reading.andThen]
      cases hskip : skip? .less r (length_lt_cons t r) with
      | none => rfl
      | some args =>
        obtain ⟨r', hr', lt⟩ := args
        dsimp only
        rw [Reading.stop?_map, Reading.stop?_up, ← scanTypeArgs?_eq r', Option.map_map]
        rfl
    | _ =>
      simp only [expectName, hkind]
      rfl
termination_by (ts.length, 0)

theorem scanTypeArgs?_eq (ts : List Token) :
    (scanTypeArgs? ts).map Subtype.val = (typeArgs eof ts).stop? := by
  have hfirst := scanType?_eq ts
  rw [scanTypeArgs?, typeArgs]
  cases hread : typeRef eof ts with
  | error =>
    rw [hread] at hfirst
    rw [Option.map_eq_none_iff.mp hfirst]
    rfl
  | ok t r lt =>
    rw [hread] at hfirst
    obtain ⟨⟨_, _⟩, hscan, rfl⟩ := Option.map_eq_some_iff.mp hfirst
    simp only [hscan, Reading.andThen]
    cases hskip : skip? .comma _ lt with
    | none =>
      dsimp only
      rw [Reading.stop?_map, Reading.stop?_up, stop?_expect _ _ _ lt, Option.map_map]
      exact congrArg (Option.map · _) (funext fun ⟨_, _, _⟩ => rfl)
    | some more =>
      obtain ⟨r', _, lt'⟩ := more
      dsimp only
      rw [Reading.stop?_map, Reading.stop?_up, ← scanTypeArgs?_eq r', Option.map_map]
      rfl
termination_by (ts.length, 1)

end

/-- The place behind the type at the place `p` of the tokens, as looking ahead finds it. -/
def typeEnd? (ts : List Token) (p : Nat) : Option Nat :=
  (scanType? (ts.drop p)).map fun r => ts.length - r.1.length

/-- What is left behind a type is what stands behind some place of the tokens. -/
theorem typeRef_gets_drop {ts r : List Token} {p : Nat} {t : TypeRef}
    (h : (typeRef eof (ts.drop p)).Gets t r) : r = ts.drop (ts.length - r.length) := by
  obtain ⟨lt, hread⟩ := h
  have hgives : (typeRef eof (ts.drop p)).Gives (ts.drop p) _ := typeRef_gives _
  rw [hread] at hgives
  obtain ⟨_, us, hused, -⟩ := hgives.1
  have hsuffix : r <:+ ts.drop p := ⟨us, hused.symm⟩
  exact suffix_iff_eq_drop.mp (hsuffix.trans (drop_suffix p ts))

theorem typeEnd?_eq (eof : Token) (ts : List Token) (p : Nat) :
    typeEnd? ts p = (typeRef eof (ts.drop p)).stop?.map fun r => ts.length - r.length := by
  rw [← scanType?_eq, Option.map_map]
  rfl

theorem expectName_gets_of_isName {ts : List Token} (h : isName (currentKind ts) = true) :
    ∃ name, ∀ expected, (expectName eof expected ts).Gets name (ts.drop 1) := by
  unfold isName at h
  split at h
  · next name hname =>
    cases ts with
    | nil => cases hname
    | cons t r => exact ⟨name, fun expected => expectName_gets hname expected r⟩
  · cases h

/-- A type that looking ahead finds is read. -/
theorem typeRef_gets_of_scanType? {ts r : List Token} {lt : r.length < ts.length}
    (h : scanType? ts = some ⟨r, lt⟩) : ∃ t, (typeRef eof ts).Gets t r := by
  rw [← Reading.stop?_eq_some, ← scanType?_eq, h]
  rfl

/-- **Looking ahead over a type agrees with reading it.** At every place of any tokens, a type is
found ahead if and only if one is read, and reading stops at the place that was found. So where a
declaration or the head of a loop over an iterable is found ahead, its type and its name are read.
-/
theorem lookahead_agrees (tokens : List Token) (p : Nat) : let (ts, eof) := input tokens
    ((∃ q, typeEnd? ts p = some q) ↔ ∃ t r, (typeRef eof (ts.drop p)).Gets t r) ∧
      (∀ q t r, typeEnd? ts p = some q → (typeRef eof (ts.drop p)).Gets t r → q ≤ ts.length ∧
        r = ts.drop q) ∧
      (atDeclaration (ts.drop p) = true → ∃ t name r, (typeRef eof (ts.drop p)).Gets t r ∧
        ∀ expected, (expectName eof expected r).Gets name (r.drop 1)) ∧
      (atForEach (ts.drop p) = true → ∃ t name r, (typeRef eof (ts.drop p)).Gets t r ∧
        (∀ expected, (expectName eof expected r).Gets name (r.drop 1)) ∧
        currentKind (r.drop 1) = .colon) := by
  generalize input tokens = i
  obtain ⟨ts, eof⟩ := i
  refine ⟨⟨?_, ?_⟩, ?_, fun h => ?_, fun h => ?_⟩
  · rintro ⟨q, hq⟩
    obtain ⟨r, hr, -⟩ := Option.map_eq_some_iff.mp ((typeEnd?_eq eof ts p).symm.trans hq)
    obtain ⟨t, ht⟩ := Reading.stop?_eq_some.mp hr
    exact ⟨t, r, ht⟩
  · rintro ⟨t, r, h⟩
    rw [typeEnd?_eq eof, Reading.stop?_eq_some.mpr ⟨t, h⟩]
    exact ⟨_, rfl⟩
  · intro q t r hq h
    rw [typeEnd?_eq eof, Reading.stop?_eq_some.mpr ⟨t, h⟩] at hq
    cases hq
    exact ⟨Nat.sub_le .., typeRef_gets_drop h⟩
  · unfold atDeclaration at h
    split at h
    · next r _ hscan =>
      obtain ⟨t, ht⟩ := typeRef_gets_of_scanType? hscan
      obtain ⟨name, hname⟩ := expectName_gets_of_isName h
      exact ⟨t, name, r, ht, hname⟩
    · cases h
  · unfold atForEach at h
    split at h
    · next r _ hscan =>
      obtain ⟨hisName, hcolon⟩ := Bool.and_eq_true_iff.mp h
      obtain ⟨t, ht⟩ := typeRef_gets_of_scanType? hscan
      obtain ⟨name, hname⟩ := expectName_gets_of_isName hisName
      exact ⟨t, name, r, ht, hname, eq_of_beq hcolon⟩
    · cases h

end Parser

/-! ## Printed types -/

namespace TypeRef

mutual

/-- The names in a type, at every depth. -/
def names : TypeRef → List String
  | ⟨name, args⟩ => name :: argNames args

/-- The names in type arguments. -/
def argNames : List TypeRef → List String
  | [] => []
  | a :: as => names a ++ argNames as

end

mutual

/-- The tokens of a printed type. -/
def kinds : TypeRef → List TokenKind
  | ⟨name, []⟩ => [.identifier name]
  | ⟨name, a :: as⟩ => .identifier name :: .less :: (kinds a ++ moreKinds as)

/-- The tokens of the arguments after the first one, and the bracket that closes them. -/
def moreKinds : List TypeRef → List TokenKind
  | [] => [.greater]
  | a :: as => .comma :: (kinds a ++ moreKinds as)

end

/-- What follows a type does not belong to its last token. -/
def Ends (r : List Char) : Prop := ∀ d ∈ r.head?, d = ',' ∨ d = '>'

theorem Ends.apart {r : List Char} (h : Ends r) : Apart r := by
  intro d hd
  rcases h d hd with rfl | rfl <;> decide

theorem Ends.ne_equal {r : List Char} (h : Ends r) : ∀ d ∈ r.head?, d ≠ '=' := by
  intro d hd
  rcases h d hd with rfl | rfl <;> decide

theorem head_text (t : TypeRef) (ht : ∀ x ∈ t.names, IsName x) (r : List Char) :
    ∀ d ∈ (t.text.toList ++ r).head?, d ≠ '=' := by
  obtain ⟨name, args⟩ := t
  obtain ⟨c, cs, hname, hc, -⟩ := (ht name (by simp [names])).head
  intro d hd
  cases args with
  | nil => simp_all [text]
  | cons => simp_all [text]

mutual

/-- The text of a type is read as its tokens. -/
theorem spells_text (t : TypeRef) (ht : ∀ x ∈ t.names, IsName x) (r : List Char)
    (ks : List TokenKind) (hr : Ends r) (hs : Spells r ks) :
    Spells (t.text.toList ++ r) (t.kinds ++ ks) := by
  match t with
  | ⟨name, []⟩ => exact .name (ht name (by simp [names])) hr.apart hs
  | ⟨name, a :: as⟩ =>
    simp only [names, argNames, forall_mem_cons, forall_mem_append] at ht
    obtain ⟨hname, ha, has⟩ := ht
    have hmore := spells_more as has r ks hr.ne_equal hs
    have hfirst := spells_text a ha _ _ hmore.1 hmore.2
    have hless := Spells.unequaled (.inr (.inl rfl)) rfl (head_text a ha _) hfirst
    have hall := Spells.name hname (by simp [Apart]; decide) hless
    simpa [text, kinds] using hall

theorem spells_more (as : List TypeRef) (has : ∀ x ∈ argNames as, IsName x) (r : List Char)
    (ks : List TokenKind) (hr : ∀ d ∈ r.head?, d ≠ '=') (hs : Spells r ks) :
    Ends ((argsText as).toList ++ '>' :: r) ∧ Spells ((argsText as).toList ++ '>' :: r)
      (moreKinds as ++ ks) := by
  match as with
  | [] => exact ⟨by simp [Ends, argsText], .unequaled (.inr (.inr rfl)) rfl hr hs⟩
  | a :: as =>
    simp only [argNames, forall_mem_append] at has
    have hmore := spells_more as has.2 r ks hr hs
    have hfirst := spells_text a has.1 _ _ hmore.1 hmore.2
    refine ⟨by simp [Ends, argsText], ?_⟩
    simpa [argsText, moreKinds] using hfirst.space.comma

end

end TypeRef

namespace Parser

open Reading

mutual

theorem typeRef_reads (t : TypeRef) (eof : Token) (us vs : List Token)
    (hus : us.map Token.kind = t.kinds) (hvs : currentKind vs ≠ .less) :
    (typeRef eof (us ++ vs)).Gets t vs := by
  match t with
  | ⟨name, []⟩ =>
    obtain ⟨u, us, rfl, hu, hnil⟩ := map_eq_cons_iff.mp hus
    cases map_eq_nil_iff.mp hnil
    rw [singleton_append, typeRef]
    refine (expectName_gets hu _ _).andThen fun lt => ?_
    cases vs with
    | nil => exact gets_ok lt
    | cons v vs =>
      rw [skip?_ne hvs lt]
      exact gets_ok lt
  | ⟨name, a :: as⟩ =>
    obtain ⟨u, us, rfl, hu, hus⟩ := map_eq_cons_iff.mp hus
    obtain ⟨u', us, rfl, hu', hus⟩ := map_eq_cons_iff.mp hus
    rw [cons_append, cons_append, typeRef]
    refine (expectName_gets hu _ _).andThen fun lt => ?_
    rw [skip?_eq hu' lt]
    exact ((typeArgs_reads a as eof us vs hus).up _).map _
termination_by sizeOf t

theorem typeArgs_reads (a : TypeRef) (as : List TypeRef) (eof : Token) (us vs : List Token)
    (hus : us.map Token.kind = a.kinds ++ TypeRef.moreKinds as) :
    (typeArgs eof (us ++ vs)).Gets (a :: as) vs := by
  obtain ⟨fs, ms, rfl, hfs, hms⟩ := map_eq_append_iff.mp hus
  cases as with
  | nil =>
    obtain ⟨m, ms, rfl, hm, hnil⟩ := map_eq_cons_iff.mp hms
    cases map_eq_nil_iff.mp hnil
    rw [List.append_assoc, cons_append, nil_append, typeArgs]
    refine (typeRef_reads a eof fs (m :: vs) hfs (by simp [currentKind, hm])).andThen fun lt => ?_
    rw [skip?_ne (by simp [hm]) lt]
    exact ((expect_gets hm _ vs).up lt).map _
  | cons b as =>
    obtain ⟨m, ms, rfl, hm, hms⟩ := map_eq_cons_iff.mp hms
    rw [List.append_assoc, cons_append, typeArgs]
    refine (typeRef_reads a eof fs (m :: (ms ++ vs)) hfs (by simp [currentKind, hm])).andThen
      fun lt => ?_
    rw [skip?_eq hm lt]
    exact ((typeArgs_reads b as eof ms vs hms).up _).map _
termination_by sizeOf a + sizeOf as + 1

end

end Parser

namespace TypeRef

/-- A text is read, to its end, as the type. -/
def ReadFrom (source : String) (t : TypeRef) : Prop :=
  ∀ file, ∃ tokens, tokenize source file = .ok tokens ∧
    ∃ lt, Parser.typeRef (Parser.input tokens).2 (Parser.input tokens).1 = .ok t [] lt

/-- **Printed types are read back**, however deep and wide they are: the text of a type whose names
are identifiers is read, to its end, as the type. -/
theorem printed_type_reads_back (t : TypeRef) (ht : ∀ x ∈ t.names, IsName x) :
    t.ReadFrom t.text := by
  intro file
  have hspells : Spells (t.text.toList ++ []) (t.kinds ++ []) := t.spells_text ht [] [] nofun .nil
  rw [List.append_nil, List.append_nil] at hspells
  obtain ⟨us, e, htokens, he, hkinds⟩ := hspells.tokenize file
  refine ⟨us ++ [e], htokens, ?_⟩
  rw [Expr.input_of_eof us he]
  have hread := Parser.typeRef_reads t e us [] hkinds nofun
  rwa [List.append_nil] at hread

/-- The type `a<b, a<a<b>>>`. -/
def nestedType : TypeRef := ⟨"a", [⟨"b", []⟩, ⟨"a", [⟨"a", [⟨"b", []⟩]⟩]⟩]⟩

theorem printed_type_reads_back_nested : nestedType.text = "a<b, a<a<b>>>" ∧
    (∀ x ∈ nestedType.names, IsName x) ∧ nestedType.ReadFrom nestedType.text := by
  have hnames : ∀ x ∈ nestedType.names, IsName x := by
    simp [nestedType, names, argNames, Expr.isName_a, Expr.isName_b]
  exact ⟨by decide +kernel, hnames, printed_type_reads_back nestedType hnames⟩

end TypeRef

end Resumable
