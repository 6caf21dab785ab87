import RemoteQuery.Proofs.Wire.EnumComparison

/-!
# The order of operands

A binary operation has a text in one order of its operands exactly when it has one in the other, and its
operands are written alike in both. This includes an integer that is written as a symbol because of what is
on the other side.
-/

namespace RemoteQuery.Dialect

variable {d : Dialect} {root : Option String} {op : BinaryOp} {token : String} {left right : Term}

theorem exists_text_exchanged (hop : op.token? = some token) {ty : Ty} {text : String}
    (h : d.text root (.binary op left right ty) = .ok text) (ty' : Ty) :
    ∃ l r, text = operationText token l r ∧
      d.text root (.binary op right left ty') = .ok (operationText token r l) := by
  obtain ⟨l, r, hl, hr, htext⟩ := (text_binary_eq_ok_iff hop).1 h
  refine ⟨l, r, htext.symm, (text_binary_eq_ok_iff hop).2 ⟨r, l, ?_, ?_, rfl⟩⟩
  · rw [Operand.normalise_swap]
    exact hr
  · rw [Operand.normalise_swap]
    exact hl

theorem text_binary_exchanged (hop : op.token? = some token) (d : Dialect) (root : Option String)
    (left right : Term) (ty ty' : Ty) :
    ((∃ text, d.text root (.binary op left right ty) = .ok text) ↔
        ∃ text, d.text root (.binary op right left ty') = .ok text) ∧
      ∀ text, d.text root (.binary op left right ty) = .ok text →
        ∃ l r, text = operationText token l r ∧
          d.text root (.binary op right left ty') = .ok (operationText token r l) := by
  refine ⟨⟨fun h => ?_, fun h => ?_⟩, fun text h => exists_text_exchanged hop h ty'⟩
  · obtain ⟨text, h⟩ := h
    obtain ⟨l, r, -, hother⟩ := exists_text_exchanged hop h ty'
    exact ⟨_, hother⟩
  · obtain ⟨text, h⟩ := h
    obtain ⟨l, r, -, hother⟩ := exists_text_exchanged hop h ty
    exact ⟨_, hother⟩

theorem text_binary_exchanged_carColour :
    BinaryOp.token? .notEqual = some "ne" ∧
      ∃ l r, "('Blue' ne colour)" = operationText "ne" l r ∧
        camelCased.text (some "x") (.binary .notEqual
            ((carColour true).converted (.nullable (.scalar .int32))) (Operand.integerOperand .int32 1 false true)
            (.scalar .boolean)) = .ok (operationText "ne" r l) := by
  have htext : camelCased.text (some "x") (.binary .notEqual (Operand.integerOperand .int32 1 false true)
      ((carColour true).converted (.nullable (.scalar .int32))) (.scalar .boolean)) =
        .ok "('Blue' ne colour)" := by decide +kernel
  exact ⟨rfl, (text_binary_exchanged rfl camelCased (some "x") _ _ _ _).2 _ htext⟩

end RemoteQuery.Dialect
