import RemoteQuery.Wire.Query

/-!
# Rewritten operands

What is taken off an operand are conversions, and what is put in its place is a constant. So a rewritten
operand keeps what passes from a conversion to what it converts. The two operands are rewritten together, but
only one of them can be a conversion while the other is a constant, so it does not matter which is the left
one.
-/

namespace RemoteQuery

namespace Operand

theorem conversion_of_peel? {t u : Term} (h : peel? t = some u) :
    ∃ operand ty, t = .unary .convert operand ty ∧
      (u = operand ∨ ∃ op via, (op = .typeAs ∨ op = .convert) ∧ operand = .unary op u via) := by
  obtain ⟨operand, ty, ht, hcases⟩ := peel?_cases h
  refine ⟨operand, ty, ht, ?_⟩
  rcases hcases with ⟨op, hop, hboxed, -⟩ | ⟨hoperand, -⟩ | ⟨via, htoggled, -⟩
  · exact Or.inr ⟨op, .object, hop, hboxed⟩
  · exact Or.inl hoperand.symm
  · exact Or.inr ⟨.convert, via, Or.inr rfl, htoggled⟩

structure Inherited (P : Term → Prop) : Prop where
  operand : ∀ op t ty, P (.unary op t ty) → P t
  constant : ∀ value ty, P (.constant value ty)

section Inherited

variable {P Q : Term → Prop}

theorem Inherited.peel? (hP : Inherited P) {t u : Term} (h : peel? t = some u) (ht : P t) : P u := by
  obtain ⟨operand, ty, rfl, rfl | ⟨op, via, -, rfl⟩⟩ := conversion_of_peel? h
  · exact hP.operand _ _ _ ht
  · exact hP.operand _ _ _ (hP.operand _ _ _ ht)

theorem Inherited.strip (hP : Inherited P) {t : Term} (ht : P t) : P (strip t) := by
  cases h : Operand.peel? t with
  | none =>
    rw [strip_of_peel?_eq_none h]
    exact ht
  | some u =>
    have := nodes_lt_of_peel? h
    rw [strip_of_peel? h]
    exact hP.strip (hP.peel? h ht)
termination_by t.nodes

theorem Inherited.compareSymbols? (hP : Inherited P) (hQ : Inherited Q) {converted constant t u : Term}
    (h : compareSymbols? converted constant = some (t, u)) (hc : P converted) : P t ∧ Q u := by
  unfold Operand.compareSymbols? at h
  split at h
  · obtain ⟨v, hv, he⟩ := Option.map_eq_some_iff.1 h
    cases he
    obtain ⟨-, value, given, rfl⟩ := exists_constant_of_symbol? hv
    exact ⟨hP.operand _ _ _ hc, hQ.constant value given⟩
  · cases h

theorem Inherited.normalise (hP : Inherited P) (hQ : Inherited Q) (op : BinaryOp) {left right : Term}
    (hl : P left) (hr : Q right) : P (normalise op left right).1 ∧ Q (normalise op left right).2 := by
  have hl' := hP.strip hl
  have hr' := hQ.strip hr
  rw [Operand.normalise]
  split
  · cases h : Operand.compareSymbols? (Operand.strip left) (Operand.strip right) with
    | some pair => exact hP.compareSymbols? hQ h hl'
    | none =>
      cases h' : Operand.compareSymbols? (Operand.strip right) (Operand.strip left) with
      | some pair => exact (hQ.compareSymbols? hP h' hr').symm
      | none => exact ⟨hl', hr'⟩
  · exact ⟨hl', hr'⟩

end Inherited

theorem compareSymbols?_swap {t u : Term} {pair : Term × Term} (h : compareSymbols? t u = some pair) :
    compareSymbols? u t = none := by
  -- A constant is no conversion, so the operands cannot change their parts.
  unfold compareSymbols? at h
  split at h
  · obtain ⟨v, hv, -⟩ := Option.map_eq_some_iff.1 h
    obtain ⟨⟨value, given, rfl⟩, -⟩ := exists_constant_of_symbol? hv
    rfl
  · cases h

theorem normalise_swap (op : BinaryOp) (left right : Term) :
    normalise op right left = (normalise op left right).swap := by
  rw [normalise, normalise]
  split
  · cases h : compareSymbols? (strip left) (strip right) with
    | some pair =>
      rw [compareSymbols?_swap h]
      rfl
    | none => cases compareSymbols? (strip right) (strip left) <;> rfl
  · rfl

end Operand

def operationText (token left right : String) : String :=
  "(" ++ left ++ " " ++ token ++ " " ++ right ++ ")"

theorem Dialect.text_binary_eq_ok_iff {d : Dialect} {root : Option String} {op : BinaryOp} {token : String}
    (hop : op.token? = some token) {left right : Term} {ty : Ty} {text : String} :
    d.text root (.binary op left right ty) = .ok text ↔
      ∃ l r, d.text root (Operand.normalise op left right).1 = .ok l ∧
        d.text root (Operand.normalise op left right).2 = .ok r ∧ operationText token l r = text := by
  rw [Dialect.text, Dialect.text, Dialect.text, render, hop]
  dsimp only
  cases d.render root (Operand.normalise op left right).1 with
  | error why => simp [Except.map, bind, Except.bind]
  | ok l =>
    cases d.render root (Operand.normalise op left right).2 with
    | error why => simp [Except.map, bind, Except.bind]
    | ok r => simp [Except.map, bind, Except.bind, pure, Except.pure, Rendered.map₂, operationText]

end RemoteQuery
