import Resumable.Proofs.ReadBack

/-!
# Operators and precedences

Operands that are joined by binary operators are read as the one tree that the precedences
prescribe.

* an `Operand` is read to its end as a constant, a variable, a call or an expression between
  parentheses;
* `Operation` is a tree of operators over operands, `Operation.sequence` its operands and operators
  from left to right;
* `Operation.Ordered`: a left child binds at least as tightly as its parent, a right child more
  tightly;
* `Operation.join` builds the ordered tree of a sequence.
-/

namespace Resumable

open List

open Reading

/-! ## Operands -/

/-- Tokens that are read to their end as an operand are read as that operand wherever they stand. -/
theorem Parser.reads_primary {eof : Token} {us : List Token} {e : Expr}
    (h : (primary eof us).Gets e []) : ReadsPostfixed (us.map Token.kind) e := by
  obtain ⟨lt, h⟩ := h
  have huses : (primary eof us).Uses us _ := primary_uses us
  rw [h] at huses
  obtain ⟨_, ⟨vs, hvs, rfl, -⟩, -, hreads⟩ := huses
  rwa [hvs, List.append_nil]

/-! ## Trees of operators -/

/-- Tokens that are read to their end as a constant, a variable, a call or an expression between
parentheses. -/
structure Operand where
  eof : Token
  tokens : List Token
  expr : Expr
  reads : (Parser.primary eof tokens).Gets expr []

/-- A token that is a binary operator. -/
structure Operator where
  token : Token
  op : BinaryOp
  is : Parser.binaryOp? token.kind = some op

/-- A tree of operators over operands. -/
inductive Operation where
  | operand (o : Operand)
  | node (l : Operation) (t : Operator) (r : Operation)

/-- The tokens of operands that are joined by operators. -/
def joined (first : Operand) (rest : List (Operator × Operand)) : List Token :=
  first.tokens ++ rest.flatMap fun (t, o) => t.token :: o.tokens

namespace Operation

/-- The expression of a tree. -/
def expr : Operation → Expr
  | operand o => o.expr
  | node l t r => .binary t.op l.expr r.expr

/-- The operands and operators of a tree from left to right. -/
def sequence : Operation → Operand × List (Operator × Operand)
  | operand o => (o, [])
  | node l t r => (l.sequence.1, l.sequence.2 ++ (t, r.sequence.1) :: r.sequence.2)

/-- A tree that is an operator binds at least as tightly as `p`. -/
def AtLeast (p : Nat) : Operation → Prop
  | operand _ => True
  | node _ t _ => p ≤ t.op.precedence

/-- A left child binds at least as tightly as its parent, a right child more tightly. -/
def Ordered : Operation → Prop
  | operand _ => True
  | node l t r => l.Ordered ∧ r.Ordered ∧ l.AtLeast t.op.precedence ∧
      r.AtLeast (t.op.precedence + 1)

/-- A tree with one more operator and operand behind it. -/
def push (t : Operator) (o : Operand) : Operation → Operation
  | operand x => node (operand x) t (operand o)
  | node l u r => if u.op.precedence < t.op.precedence then node l u (r.push t o) else node
      (node l u r) t (operand o)

/-- A tree with operators and operands behind it. -/
def join (tree : Operation) (rest : List (Operator × Operand)) : Operation :=
  rest.foldl (fun tree (t, o) => tree.push t o) tree

variable {t : Operator} {o : Operand} {tree : Operation} {p : Nat}

theorem AtLeast.mono {p' : Nat} (h : tree.AtLeast p) (hp : p' ≤ p) : tree.AtLeast p' := by
  cases tree with
  | operand => trivial
  | node => exact hp.trans h

theorem atLeast_zero (tree : Operation) : tree.AtLeast 0 := by
  cases tree with
  | operand => trivial
  | node => exact Nat.zero_le _

theorem push_of_atLeast (h : tree.AtLeast t.op.precedence) :
    tree.push t o = node tree t (operand o) := by
  cases tree with
  | operand => rfl
  | node => rw [push, if_neg (Nat.not_lt.mpr h)]

theorem AtLeast.push (h : tree.AtLeast p) (ht : p ≤ t.op.precedence) :
    (tree.push t o).AtLeast p := by
  cases tree with
  | operand => exact ht
  | node =>
    rw [Operation.push]
    split
    · exact h
    · exact ht

theorem Ordered.push (h : tree.Ordered) : (tree.push t o).Ordered := by
  induction tree with
  | operand => exact ⟨trivial, trivial, trivial, trivial⟩
  | node l u r _ ihr =>
    obtain ⟨hl, hr, hleft, hright⟩ := h
    rw [Operation.push]
    split
    · next hlt => exact ⟨hl, ihr hr, hleft, hright.push hlt⟩
    · next hge => exact ⟨⟨hl, hr, hleft, hright⟩, trivial, Nat.not_lt.mp hge, trivial⟩

theorem Ordered.join (h : tree.Ordered) (rest : List (Operator × Operand)) :
    (tree.join rest).Ordered := by
  induction rest generalizing tree with
  | nil => exact h
  | cons x rest ih => exact ih h.push

theorem sequence_push : (tree.push t o).sequence =
    (tree.sequence.1, tree.sequence.2 ++ [(t, o)]) := by
  induction tree with
  | operand => rfl
  | node l u r _ ihr =>
    rw [push]
    split
    · simp [sequence, ihr]
    · simp [sequence]

theorem sequence_join (rest : List (Operator × Operand)) :
    (tree.join rest).sequence = (tree.sequence.1, tree.sequence.2 ++ rest) := by
  induction rest generalizing tree with
  | nil => simp [join]
  | cons x rest ih => exact ih.trans (by simp [sequence_push])

/-- The operators in an ordered tree bind at least as tightly as its root. -/
theorem Ordered.le_of_mem (h : tree.Ordered) (hp : tree.AtLeast p) :
    ∀ x ∈ tree.sequence.2, p ≤ x.1.op.precedence := by
  induction tree generalizing p with
  | operand => exact nofun
  | node l u r ihl ihr =>
    obtain ⟨hl, hr, hleft, hright⟩ := h
    have hroot : p ≤ u.op.precedence := hp
    intro x hx
    rcases mem_append.mp hx with hx | hx
    · exact ihl hl (hleft.mono hroot) x hx
    · rcases mem_cons.mp hx with rfl | hx
      · exact hroot
      · exact ihr hr (hright.mono (Nat.le_succ_of_le hroot)) x hx

/-- Operators that bind more tightly than the root go into the right child. -/
theorem join_node {l r : Operation} {rest : List (Operator × Operand)}
    (h : ∀ x ∈ rest, t.op.precedence < x.1.op.precedence) :
    (node l t r).join rest = node l t (r.join rest) := by
  induction rest generalizing r with
  | nil => rfl
  | cons x rest ih =>
    obtain ⟨hx, hrest⟩ := forall_mem_cons.mp h
    have hpush : (node l t r).push x.1 x.2 = node l t (r.push x.1 x.2) := if_pos hx
    exact (congrArg (join · rest) hpush).trans (ih hrest)

/-- An ordered tree is the one that its sequence is joined to. -/
theorem Ordered.join_sequence (h : tree.Ordered) :
    (operand tree.sequence.1).join tree.sequence.2 = tree := by
  induction tree with
  | operand => rfl
  | node l u r ihl ihr =>
    obtain ⟨hl, hr, hleft, hright⟩ := h
    have hmore := hr.le_of_mem hright
    calc (operand l.sequence.1).join (l.sequence.2 ++ (u, r.sequence.1) :: r.sequence.2)
        = (((operand l.sequence.1).join l.sequence.2).push u r.sequence.1).join r.sequence.2 :=
          foldl_append
      _ = (node l u (operand r.sequence.1)).join r.sequence.2 := by
        rw [ihl hl, push_of_atLeast hleft]
      _ = node l u ((operand r.sequence.1).join r.sequence.2) := join_node hmore
      _ = node l u r := by rw [ihr hr]

/-- An ordered tree is read from its operands and operators. -/
theorem Ordered.reads (h : tree.Ordered) (hp : tree.AtLeast p) :
    Parser.ReadsBinary p ((joined tree.sequence.1 tree.sequence.2).map Token.kind) tree.expr := by
  induction tree generalizing p with
  | operand o =>
    have hkinds : joined o [] = o.tokens := List.append_nil _
    rw [sequence, hkinds]
    exact (Parser.reads_primary o.reads).unary.binary p
  | node l u r ihl ihr =>
    obtain ⟨hl, hr, hleft, hright⟩ := h
    have hnode := (ihl hl hleft).binary (ihr hr hright)
    have hkinds : (joined l.sequence.1 l.sequence.2).map Token.kind ++
        u.op.kind :: (joined r.sequence.1 r.sequence.2).map Token.kind =
          (joined (node l u r).sequence.1 (node l u r).sequence.2).map Token.kind := by
      simp [joined, sequence, ← Parser.kind_of_binaryOp? u.is]
    rw [← hkinds]
    exact hnode.mono hp

end Operation

/-- **Precedences decide.** Operands that are joined by binary operators are read to their end, as
the ordered tree of these operands and operators, of which there is just one. -/
theorem expression_joined (eof : Token) (first : Operand) (rest : List (Operator × Operand))
    {vs : List Token} (hvs : Parser.Closes vs) :
    ∃ tree : Operation, tree.Ordered ∧ tree.sequence = (first, rest) ∧
      (Parser.expression eof (joined first rest ++ vs)).Gets tree.expr vs ∧
      ∀ other : Operation, other.Ordered → other.sequence = (first, rest) → other = tree := by
  have hsequence : ((Operation.operand first).join rest).sequence = (first, rest) :=
    Operation.sequence_join rest
  have hfirst : (Operation.operand first).Ordered := trivial
  have hordered := hfirst.join rest
  refine ⟨(Operation.operand first).join rest, hordered, hsequence, ?_,
    fun other hother hsame => ?_⟩
  · have hreads := (hordered.reads (Operation.atLeast_zero _)).expr
    rw [hsequence] at hreads
    exact hreads eof _ vs rfl hvs
  · rw [← hother.join_sequence, hsame]

/-- A constant in no place. -/
def constant (v : Int64) : Operand where
  eof := ⟨.eof, ⟨"", 1, 1, 0⟩, ""⟩
  tokens := [⟨.integer v, ⟨"", 1, 1, 0⟩, ""⟩]
  expr := .int v
  reads := by
    have hliteral : Parser.literal? (.integer v) = some (.int v) := rfl
    rw [Parser.primary.eq_def]
    simp only [hliteral]
    exact gets_ok _

/-- An operator in no place. -/
def BinaryOp.operator (op : BinaryOp) : Operator :=
  ⟨⟨op.kind, ⟨"", 1, 1, 0⟩, ""⟩, op, Parser.binaryOp?_kind op⟩

theorem expression_joined_difference :
    (Parser.expression (constant 1).eof (joined (constant 1) [(BinaryOp.sub.operator, constant 2),
      (BinaryOp.mul.operator, constant 3), (BinaryOp.sub.operator, constant 4)] ++ [])).Gets
        (.binary .sub (.binary .sub (.int 1) (.binary .mul (.int 2) (.int 3))) (.int 4)) [] := by
  have hvs : Parser.Closes [] := ⟨⟨nofun, nofun, rfl⟩, rfl, rfl⟩
  obtain ⟨tree, -, -, hreads, hunique⟩ := expression_joined (constant 1).eof (constant 1)
    [(BinaryOp.sub.operator, constant 2), (BinaryOp.mul.operator, constant 3),
      (BinaryOp.sub.operator, constant 4)] hvs
  have htree := hunique (.node (.node (.operand (constant 1)) BinaryOp.sub.operator
    (.node (.operand (constant 2)) BinaryOp.mul.operator (.operand (constant 3))))
      BinaryOp.sub.operator
    (.operand (constant 4))) (by simp [Operation.Ordered, Operation.AtLeast]; decide) rfl
  rwa [← htree] at hreads

end Resumable
