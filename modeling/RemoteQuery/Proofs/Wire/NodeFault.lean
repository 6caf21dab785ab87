import RemoteQuery.Proofs.Text.Template
import RemoteQuery.Proofs.Wire.Preference

/-!
# Faults of nodes

What keeps a node from being written is seen on the node itself: its operator, its mapping and the number
of its operands, the form of its call. Operands are rewritten, a root receiver and a key are not written
at all, but this adds no fault: a term without a text fails with the fault of one of its nodes.
-/

namespace RemoteQuery.Dialect

variable {d : Dialect} {root : Option String} {t : Term}

/-- What keeps the node from being written, whatever its children are. The form of a call comes first:
a lookup needs a string constant for its key, and no mapping takes its place. -/
def nodeFault? (d : Dialect) (t : Term) : Option Fault :=
  match t with
  | .binary op _ _ _ => if op.token?.isSome then none else some (operatorFault op)
  | .unary .negate _ _ => some (.unsupported "Unary" "arithmetic negation has no wire form")
  | .member target m =>
    match d.mappings.resolve? m.signature with
    | some mapping => mapping.fault? target.toList.length
    | none => if target.isSome then none else some (.unmapped m.signature)
  | .call target method args =>
    match CallForm.of method (target.toList ++ args) with
    | .membership _ _ => none
    | .lookup _ key _ =>
      if (key.constant?.bind Literal.string?).isSome then none else some (lookupFault method key)
    | .mapped =>
      match d.mappings.resolve? method.mappedSignature with
      | some mapping => mapping.fault? (target.toList ++ args).length
      | none => some (.unmapped method.mappedSignature)
  | .lambda params _ => if params.length = 1 then none else some (parametersFault params)
  | .construct .. | .listInit .. =>
    some (.unsupported t.kind "construction is only valid as a projection root")
  | _ => none

theorem transparent_nodeFault? (d : Dialect) {P : Option Fault → Prop} (h : P none) :
    Transparent fun u => P (d.nodeFault? u) where
  conversion op operand ty hop := by
    rcases hop with rfl | rfl
    · exact h
    · exact h
  constant _ _ := h
  param _ := h

inductive Agrees (fault? : Option Fault) : Except Fault Rule → Prop
  | error {why : Fault} (h : fault? = some why) : Agrees fault? (.error why)
  | ok {rule : Rule} (h : ∀ texts, texts.length = rule.parts.length →
      ∀ why, rule.write texts = .error why ↔ fault? = some why) : Agrees fault? (.ok rule)

theorem agrees_total (parts : List (Option String × Term)) (prefersLocal : Bool)
    (f : List String → String) :
    Agrees none (.ok ⟨parts, prefersLocal, fun texts => .ok (f texts)⟩) :=
  .ok fun texts _ why => by simp

theorem agrees_mapped (mapping : Mapping) (root : Option String) (ts : List Term) :
    Agrees (mapping.fault? ts.length) (.ok (.mapped mapping root ts)) := by
  refine .ok fun texts hlen why => ?_
  have hcount : texts.length = ts.length := hlen.trans (List.length_map _)
  rw [← hcount]
  exact Mapping.fill_eq_error_iff

theorem agrees_call (target : Option Term) (method : Method) (args : List Term) :
    Agrees (d.nodeFault? (.call target method args)) (d.rule root (.call target method args)) := by
  rw [rule, nodeFault?]
  cases CallForm.of method (target.toList ++ args) with
  | membership set value => exact agrees_total ..
  | lookup dictionary key safe =>
    dsimp only
    cases key.constant?.bind Literal.string? with
    | none => exact .error rfl
    | some name => cases isRoot root dictionary <;> exact agrees_total ..
  | mapped =>
    dsimp only
    cases d.mappings.resolve? method.mappedSignature with
    | none => exact .error rfl
    | some mapping => exact agrees_mapped ..

theorem agrees_member (target : Option Term) (m : Member) :
    Agrees (d.nodeFault? (.member target m)) (d.rule root (.member target m)) := by
  unfold rule
  rw [nodeFault?]
  dsimp only
  cases d.mappings.resolve? m.signature with
  | some mapping => exact agrees_mapped ..
  | none =>
    cases target with
    | none => exact .error rfl
    | some target =>
      dsimp only
      cases isRoot root target <;> exact agrees_total ..

theorem rule_agrees (d : Dialect) (root : Option String) (t : Term) :
    Agrees (d.nodeFault? t) (d.rule root t) := by
  cases t with
  | binary op left right ty =>
    rw [rule, nodeFault?]
    cases op.token? with
    | none => exact .error rfl
    | some token => exact agrees_total ..
  | unary op operand ty =>
    cases op with
    | not | typeAs => rw [rule]; exact agrees_total ..
    | negate => rw [rule]; exact .error rfl
    | convert =>
      rw [rule]
      cases isSilentConversion operand.ty ty with
      | true => exact agrees_total ..
      | false => cases isRoot root operand <;> exact agrees_total ..
  | member target m => exact agrees_member target m
  | constant value ty => rw [rule]; exact agrees_total ..
  | call target method args => exact agrees_call target method args
  | typeTest target tested =>
    rw [rule]
    cases isRoot root target <;> exact agrees_total ..
  | lambda params body =>
    rcases params with _ | ⟨p, _ | ⟨q, rest⟩⟩
    · unfold rule; exact .error rfl
    · rw [rule]; exact agrees_total ..
    · unfold rule; exact .error rfl
  | conditional test onTrue onFalse ty => rw [rule]; exact agrees_total ..
  | param p => rw [rule]; exact agrees_total ..
  | array elements ty => rw [rule]; exact agrees_total ..
  | construct names args ty => rw [rule]; exact .error rfl
  | listInit rows ty => rw [rule]; exact .error rfl

theorem nodeFault?_of_rule {why : Fault} (h : d.rule root t = .error why) :
    d.nodeFault? t = some why := by
  have ha := d.rule_agrees root t
  rw [h] at ha
  cases ha with
  | error hf => exact hf

theorem write_eq_error_iff {rule : Rule} (h : d.rule root t = .ok rule) {texts : List String}
    (hlen : texts.length = rule.parts.length) {why : Fault} :
    rule.write texts = .error why ↔ d.nodeFault? t = some why := by
  have ha := d.rule_agrees root t
  rw [h] at ha
  cases ha with
  | ok hf => exact hf texts hlen why

theorem not_every_of_render_eq_error {root : Option String} {t : Term} {why : Fault}
    (h : d.render root t = .error why) : ¬ t.Every fun u => d.nodeFault? u ≠ some why := by
  intro hall
  obtain ⟨hself, hchildren⟩ := Term.every_iff.1 hall
  rw [render_eq_rule] at h
  cases hrule : d.rule root t with
  | error found =>
    have he : found = why := by simpa [hrule, bind, Except.bind] using h
    exact hself (he ▸ nodeFault?_of_rule hrule)
  | ok rule =>
    have hrun : rule.run d.render = .error why := by simpa [hrule, bind, Except.bind] using h
    have hreads := (reads_of_rule hrule).2
    have hpassed : Transparent fun u => d.nodeFault? u ≠ some why :=
      d.transparent_nodeFault? (P := (· ≠ some why)) nofun
    have hparts := (every_parts hpassed hreads).2 hchildren
    rcases Rule.run_eq_error hrun with ⟨part, hpart, hr⟩ | ⟨texts, hlen, hw⟩
    · have hu := List.mem_map_of_mem (f := (·.2)) hpart
      have := nodes_lt_of_reads hreads hu
      exact not_every_of_render_eq_error hr (hparts part.2 hu)
    · exact hself ((write_eq_error_iff hrule hlen).1 hw)
termination_by t.nodes

theorem exists_nodeFault?_of_render_eq_error {why : Fault} (h : d.render root t = .error why) :
    ∃ p u, t.at? p = some u ∧ d.nodeFault? u = some why := by
  simpa [Term.Every] using not_every_of_render_eq_error h

end RemoteQuery.Dialect
