import RemoteQuery.Proofs.Term.Position
import RemoteQuery.Proofs.Wire.Operand
import RemoteQuery.Proofs.Wire.Rule

/-!
# Mappings that prefer the client

The text of a term prefers the client exactly when one of its nodes is written by a mapping that
does. The operands of a binary operation are rewritten before they are written, and a root receiver
or a key is not written at all, but none of these steps hides or adds a node that a mapping writes.
-/

namespace RemoteQuery

structure Transparent (P : Term → Prop) : Prop where
  conversion : ∀ op operand ty, op = .typeAs ∨ op = .convert → P (.unary op operand ty)
  constant : ∀ value ty, P (.constant value ty)
  param : ∀ q, P (.param q)

namespace Operand

variable {P : Term → Prop}

theorem every_conversion (hP : Transparent P) {op : UnaryOp} (hop : op = .typeAs ∨ op = .convert)
    {operand : Term} {ty : Ty} : (Term.unary op operand ty).Every P ↔ operand.Every P := by
  rw [Term.every_iff]
  simp [Term.children, hP.conversion op operand ty hop]

theorem every_constant (hP : Transparent P) (value : Literal) (ty : Ty) :
    (Term.constant value ty).Every P := by
  rw [Term.every_iff]
  simp [Term.children, hP.constant]

theorem every_of_peel? (hP : Transparent P) {t u : Term} (h : peel? t = some u) :
    u.Every P ↔ t.Every P := by
  obtain ⟨operand, ty, rfl, rfl | ⟨op, via, hop, rfl⟩⟩ := conversion_of_peel? h
  · rw [every_conversion hP (Or.inr rfl)]
  · rw [every_conversion hP (Or.inr rfl), every_conversion hP hop]

theorem every_strip (hP : Transparent P) (t : Term) : (strip t).Every P ↔ t.Every P := by
  cases h : peel? t with
  | none => rw [strip_of_peel?_eq_none h]
  | some u =>
    have := nodes_lt_of_peel? h
    rw [strip_of_peel? h, every_strip hP u, every_of_peel? hP h]
termination_by t.nodes

theorem every_of_symbol? (hP : Transparent P) {ty target : Ty} {constant t : Term}
    (h : symbol? ty target constant = some t) : t.Every P ∧ constant.Every P := by
  obtain ⟨⟨value, given, rfl⟩, value', given', rfl⟩ := exists_constant_of_symbol? h
  exact ⟨every_constant hP value' given', every_constant hP value given⟩

theorem every_of_compareSymbols? (hP : Transparent P) {converted constant t u : Term}
    (h : compareSymbols? converted constant = some (t, u)) :
    t.Every P ∧ u.Every P ↔ converted.Every P ∧ constant.Every P := by
  unfold compareSymbols? at h
  split at h
  · rename_i operand target
    obtain ⟨v, hv, he⟩ := Option.map_eq_some_iff.1 h
    cases he
    obtain ⟨hu, hc⟩ := every_of_symbol? hP hv
    rw [every_conversion hP (Or.inr rfl)]
    exact and_congr_right fun _ => iff_of_true hu hc
  · cases h

theorem every_normalise (hP : Transparent P) (op : BinaryOp) (left right : Term) :
    (normalise op left right).1.Every P ∧ (normalise op left right).2.Every P ↔
      left.Every P ∧ right.Every P := by
  rw [← every_strip hP left, ← every_strip hP right, normalise]
  split
  · cases h : compareSymbols? (strip left) (strip right) with
    | some pair => exact every_of_compareSymbols? hP h
    | none =>
      cases h' : compareSymbols? (strip right) (strip left) with
      | some pair =>
        rw [and_comm, and_comm (a := (strip left).Every P)]
        exact every_of_compareSymbols? hP h'
      | none => exact Iff.rfl
  · exact Iff.rfl

end Operand

namespace Dialect

variable {d : Dialect} {root : Option String} {t : Term} {rule : Rule}

def prefersClient (d : Dialect) : Term → Bool
  | .member _ m => (d.mappings.resolve? m.signature).any (·.prefersLocal)
  | .call target method args =>
    match CallForm.of method (target.toList ++ args) with
    | .mapped => (d.mappings.resolve? method.mappedSignature).any (·.prefersLocal)
    | _ => false
  | _ => false

theorem transparent_prefersClient (d : Dialect) :
    Transparent fun u => d.prefersClient u = false :=
  ⟨fun _ _ _ _ => rfl, fun _ _ => rfl, fun _ => rfl⟩

/-- How the terms that a node's rule writes first come from its children: as a binary operation's
normalised operands, or as some of the children, of which only parameters and constants are left
out. -/
inductive Reads (t : Term) (parts : List Term) : Prop
  | operands {op : BinaryOp} {left right : Term} {ty : Ty} (ht : t = .binary op left right ty)
    (hp : parts = [(Operand.normalise op left right).1, (Operand.normalise op left right).2])
  | children (hsub : ∀ u ∈ parts, u ∈ t.children)
    (hall : ∀ c ∈ t.children, c ∈ parts ∨ (∃ q, c = .param q) ∨ ∃ value ty, c = .constant value ty)

theorem Reads.all (t : Term) : Reads t t.children := .children (fun _ h => h) fun _ h => Or.inl h

theorem eq_param_of_isRoot {receiver : Term} (h : isRoot root receiver = true) :
    ∃ q : Param, receiver = .param q ∧ root = some q.name := by
  cases root with
  | none => cases h
  | some name =>
    obtain ⟨q, rfl, rfl⟩ := Term.isParamNamed_iff.1 h
    exact ⟨q, rfl, rfl⟩

theorem reads_of_isRoot {receiver : Term} (h : isRoot root receiver = true)
    (ht : t.children = [receiver]) : Reads t [] := by
  obtain ⟨q, rfl, -⟩ := eq_param_of_isRoot h
  exact .children (by simp) fun c hc => Or.inr (Or.inl ⟨q, by simpa [ht] using hc⟩)

theorem reads_of_map (root : Option String) {ts : List Term} (h : Reads t ts) :
    Reads t ((ts.map fun u => (root, u)).map (·.2)) := by
  rw [List.map_map]
  exact (List.map_id ts).symm ▸ h

theorem eq_constant_of_bind {key : Term} {name : String}
    (h : key.constant?.bind Literal.string? = some name) :
    ∃ value ty, key = .constant value ty := by
  obtain ⟨value, hv, -⟩ := Option.bind_eq_some_iff.1 h
  unfold Term.constant? at hv
  split at hv
  · exact ⟨_, _, rfl⟩
  · cases hv

theorem reads_of_rule_call {target : Option Term} {method : Method} {args : List Term}
    (h : d.rule root (.call target method args) = .ok rule) :
    rule.prefersLocal = d.prefersClient (.call target method args) ∧
      Reads (.call target method args) (rule.parts.map (·.2)) := by
  rw [Dialect.rule] at h
  rw [prefersClient]
  cases hf : CallForm.of method (target.toList ++ args) with
  | membership set value =>
    have hc : (Term.call target method args).children = [set, value] :=
      CallForm.operands_of_membership hf
    rw [hf] at h
    cases h
    exact ⟨rfl, .children (by simp [Rule.two, hc]) (by simp [Rule.two, hc])⟩
  | lookup dictionary key safe =>
    have hc : (Term.call target method args).children = [dictionary, key] :=
      CallForm.operands_of_lookup hf
    rw [hf] at h
    dsimp only at h
    cases hk : key.constant?.bind Literal.string? with
    | none => rw [hk] at h; cases h
    | some name =>
      obtain ⟨value, ty, rfl⟩ := eq_constant_of_bind hk
      rw [hk] at h
      dsimp only at h
      split at h
      · rename_i hr
        obtain ⟨q, rfl, -⟩ := eq_param_of_isRoot hr
        cases h
        exact ⟨rfl, .children (by simp [Rule.fixed]) (by simp [hc])⟩
      · cases h
        exact ⟨rfl, .children (by simp [Rule.one, hc]) (by simp [Rule.one, hc])⟩
  | mapped =>
    rw [hf] at h
    dsimp only at h
    cases hm : d.mappings.resolve? method.mappedSignature with
    | none => rw [hm] at h; cases h
    | some mapping =>
      rw [hm] at h
      cases h
      exact ⟨rfl, reads_of_map root (.all _)⟩

theorem reads_of_rule (h : d.rule root t = .ok rule) :
    rule.prefersLocal = d.prefersClient t ∧ Reads t (rule.parts.map (·.2)) := by
  cases t with
  | binary op left right ty =>
    rw [Dialect.rule] at h
    split at h
    · cases h
    · cases h
      exact ⟨rfl, .operands rfl rfl⟩
  | unary op operand ty =>
    cases op with
    | not | typeAs =>
      rw [Dialect.rule] at h
      cases h
      exact ⟨rfl, .all _⟩
    | negate => rw [Dialect.rule] at h; cases h
    | convert =>
      rw [Dialect.rule] at h
      split at h
      · cases h
        exact ⟨rfl, .all _⟩
      · split at h
        · rename_i hr
          cases h
          exact ⟨rfl, reads_of_isRoot hr rfl⟩
        · cases h
          exact ⟨rfl, .all _⟩
  | member target m =>
    unfold Dialect.rule at h
    rw [prefersClient]
    cases hm : d.mappings.resolve? m.signature with
    | some mapping =>
      simp only [hm] at h
      cases h
      exact ⟨rfl, reads_of_map root (.all _)⟩
    | none =>
      simp only [hm] at h
      split at h
      · cases h
      · split at h
        · rename_i hr
          cases h
          exact ⟨rfl, reads_of_isRoot hr rfl⟩
        · cases h
          exact ⟨rfl, .all _⟩
  | constant value ty =>
    rw [Dialect.rule] at h
    cases h
    exact ⟨rfl, .all _⟩
  | call target method args => exact reads_of_rule_call h
  | typeTest target tested =>
    rw [Dialect.rule] at h
    split at h
    · rename_i hr
      cases h
      exact ⟨rfl, reads_of_isRoot hr rfl⟩
    · cases h
      exact ⟨rfl, .all _⟩
  | lambda params body =>
    cases params with
    | nil =>
      unfold Dialect.rule at h
      cases h
    | cons p rest =>
      cases rest with
      | nil =>
        rw [Dialect.rule] at h
        cases h
        exact ⟨rfl, .all _⟩
      | cons q rest =>
        unfold Dialect.rule at h
        cases h
  | conditional test onTrue onFalse ty =>
    rw [Dialect.rule] at h
    cases h
    exact ⟨rfl, .all _⟩
  | param p =>
    rw [Dialect.rule] at h
    cases h
    exact ⟨rfl, .all _⟩
  | array elements ty =>
    rw [Dialect.rule] at h
    cases h
    exact ⟨rfl, reads_of_map root (.all _)⟩
  | construct names args ty => rw [Dialect.rule] at h; cases h
  | listInit rows ty => rw [Dialect.rule] at h; cases h

theorem every_parts {P : Term → Prop} (hP : Transparent P) {parts : List Term}
    (h : Reads t parts) : (∀ u ∈ parts, u.Every P) ↔ ∀ c ∈ t.children, c.Every P := by
  cases h with
  | operands ht hp =>
    subst ht hp
    simpa [Term.children] using Operand.every_normalise hP _ _ _
  | children hsub hall =>
    refine ⟨fun h c hc => ?_, fun h u hu => h u (hsub u hu)⟩
    rcases hall c hc with hc | ⟨q, rfl⟩ | ⟨value, ty, rfl⟩
    · exact h c hc
    · exact (Term.every_iff.2 ⟨hP.param q, by simp [Term.children]⟩)
    · exact Operand.every_constant hP value ty

theorem nodes_lt_of_reads {parts : List Term} (h : Reads t parts) {u : Term} (hu : u ∈ parts) :
    u.nodes < t.nodes := by
  cases h with
  | operands ht hp =>
    subst ht hp
    rcases List.mem_cons.1 hu with rfl | hu
    · exact Operand.nodes_fst_normalise_lt _ _ _ _
    · obtain rfl := List.mem_singleton.1 hu
      exact Operand.nodes_snd_normalise_lt _ _ _ _
  | children hsub _ => exact Term.nodes_lt_of_mem_children (hsub u hu)

theorem prefersLocal_eq_false_iff {root : Option String} {t : Term} {r : Rendered}
    (h : d.render root t = .ok r) :
    r.prefersLocal = false ↔ t.Every fun u => d.prefersClient u = false := by
  obtain ⟨rule, hrule, rs, hrs, -, hp⟩ := render_eq_ok h
  obtain ⟨hself, hreads⟩ := reads_of_rule hrule
  obtain ⟨hparts, hrendered⟩ := Rule.mem_of_mapM_eq_ok hrs
  -- the parts need not be children, as operands are normalised, but they have fewer nodes
  have ih : (∀ s ∈ rs, s.prefersLocal = false) ↔
      ∀ u ∈ rule.parts.map (·.2), u.Every fun v => d.prefersClient v = false := by
    constructor
    · intro hall u hu
      obtain ⟨part, hpart, rfl⟩ := List.mem_map.1 hu
      obtain ⟨s, hs, hr⟩ := hparts part hpart
      have := nodes_lt_of_reads hreads hu
      exact (prefersLocal_eq_false_iff hr).1 (hall s hs)
    · intro hall s hs
      obtain ⟨part, hpart, hr⟩ := hrendered s hs
      have hu := List.mem_map_of_mem (f := (·.2)) hpart
      have := nodes_lt_of_reads hreads hu
      exact (prefersLocal_eq_false_iff hr).2 (hall part.2 hu)
  rw [hp, Bool.or_eq_false_iff, List.any_eq_false, Term.every_iff, hself,
    ← every_parts d.transparent_prefersClient hreads, ← ih]
  simp only [Bool.not_eq_true]
termination_by t.nodes

end Dialect
end RemoteQuery
