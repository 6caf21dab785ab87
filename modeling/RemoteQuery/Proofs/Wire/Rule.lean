import RemoteQuery.Wire.Render

/-!
# The writing rule of a node

Every kind of node is written by one rule: which terms are written first, each under its own root,
and how their texts make up the text of the node. A term has a text exactly when its node has a rule,
all parts of the rule have texts and the rule puts them together. Rendering is the repeated use of
these rules.
-/

namespace RemoteQuery

/-- The parts that are written first, from left to right, whether the node itself prefers the
client, and how the node is written from the texts of its parts. -/
structure Rule where
  parts : List (Option String × Term)
  prefersLocal : Bool
  write : List String → Except Fault String

namespace Rule

def fixed (text : String) : Rule := ⟨[], false, fun _ => .ok text⟩

def one (root : Option String) (t : Term) (f : String → String) : Rule :=
  ⟨[(root, t)], false, fun texts => .ok (f (texts.getD 0 ""))⟩

def two (root : Option String) (t u : Term) (f : String → String → String) : Rule :=
  ⟨[(root, t), (root, u)], false, fun texts => .ok (f (texts.getD 0 "") (texts.getD 1 ""))⟩

def listed (root : Option String) (ts : List Term) (f : List String → String) : Rule :=
  ⟨ts.map (root, ·), false, fun texts => .ok (f texts)⟩

def mapped (mapping : Mapping) (root : Option String) (ts : List Term) : Rule :=
  ⟨ts.map (root, ·), mapping.prefersLocal, fun texts => (mapping.fill texts).mapError .template⟩

def run (rule : Rule) (render : Option String → Term → Except Fault Rendered) :
    Except Fault Rendered := do
  let rs ← rule.parts.mapM fun part => render part.1 part.2
  let text ← rule.write (rs.map (·.text))
  return ⟨text, rule.prefersLocal || rs.any (·.prefersLocal)⟩

variable (render : Option String → Term → Except Fault Rendered) (root : Option String)

theorem mapM_cons_eq_ok {α β : Type} {f : α → Except Fault β} {a : α} {l : List α} {rs : List β}
    (h : (a :: l).mapM f = .ok rs) :
    ∃ r rest, f a = .ok r ∧ l.mapM f = .ok rest ∧ rs = r :: rest := by
  rw [List.mapM_cons] at h
  cases ha : f a with
  | error fault => simp [ha, bind, Except.bind] at h
  | ok r =>
    cases hl : l.mapM f with
    | error fault => simp [ha, hl, bind, Except.bind] at h
    | ok rest =>
      have he : r :: rest = rs := by
        simpa [ha, hl, bind, Except.bind, pure, Except.pure] using h
      exact ⟨r, rest, rfl, rfl, he.symm⟩

theorem mem_of_mapM_eq_ok {α β : Type} {f : α → Except Fault β} {l : List α} {rs : List β}
    (h : l.mapM f = .ok rs) :
    (∀ a ∈ l, ∃ r ∈ rs, f a = .ok r) ∧ ∀ r ∈ rs, ∃ a ∈ l, f a = .ok r := by
  induction l generalizing rs with
  | nil =>
    cases h
    simp
  | cons a l ih =>
    obtain ⟨r, rest, ha, hl, rfl⟩ := mapM_cons_eq_ok h
    obtain ⟨hl₁, hl₂⟩ := ih hl
    refine ⟨fun b hb => ?_, fun r' hr' => ?_⟩
    · rcases List.mem_cons.1 hb with rfl | hb
      · exact ⟨r, List.mem_cons_self, ha⟩
      · obtain ⟨r', hr', hf⟩ := hl₁ b hb
        exact ⟨r', List.mem_cons_of_mem _ hr', hf⟩
    · rcases List.mem_cons.1 hr' with rfl | hr'
      · exact ⟨a, List.mem_cons_self, ha⟩
      · obtain ⟨b, hb, hf⟩ := hl₂ r' hr'
        exact ⟨b, List.mem_cons_of_mem _ hb, hf⟩

theorem length_of_mapM_eq_ok {α β : Type} {f : α → Except Fault β} {l : List α} {rs : List β}
    (h : l.mapM f = .ok rs) : rs.length = l.length := by
  induction l generalizing rs with
  | nil =>
    cases h
    rfl
  | cons a l ih =>
    obtain ⟨r, rest, -, hl, rfl⟩ := mapM_cons_eq_ok h
    rw [List.length_cons, List.length_cons, ih hl]

theorem run_eq_ok {rule : Rule} {render : Option String → Term → Except Fault Rendered}
    {r : Rendered} (h : rule.run render = .ok r) :
    ∃ rs, (rule.parts.mapM fun part => render part.1 part.2) = .ok rs ∧
      rule.write (rs.map (·.text)) = .ok r.text ∧
      r.prefersLocal = (rule.prefersLocal || rs.any (·.prefersLocal)) := by
  rw [run] at h
  cases hrs : rule.parts.mapM fun part => render part.1 part.2 with
  | error fault => simp [hrs, bind, Except.bind] at h
  | ok rs =>
    cases hw : rule.write (rs.map (·.text)) with
    | error fault => simp [hrs, hw, bind, Except.bind] at h
    | ok text =>
      simp only [hrs, hw, bind, Except.bind, pure, Except.pure] at h
      cases h
      exact ⟨rs, rfl, hw, rfl⟩

theorem exists_of_mapM_eq_error {α β : Type} {f : α → Except Fault β} {l : List α} {fault : Fault}
    (h : l.mapM f = .error fault) : ∃ a ∈ l, f a = .error fault := by
  induction l with
  | nil => cases h
  | cons a l ih =>
    rw [List.mapM_cons] at h
    cases ha : f a with
    | error found =>
      have he : found = fault := by simpa [ha, bind, Except.bind] using h
      exact ⟨a, List.mem_cons_self, by rw [ha, he]⟩
    | ok r =>
      have hl : l.mapM f = .error fault := by
        cases hr : l.mapM f with
        | error found => simpa [ha, hr, bind, Except.bind] using h
        | ok rest => simp [ha, hr, bind, Except.bind, pure, Except.pure] at h
      obtain ⟨b, hb, hf⟩ := ih hl
      exact ⟨b, List.mem_cons_of_mem a hb, hf⟩

theorem run_eq_error {rule : Rule} {render : Option String → Term → Except Fault Rendered}
    {f : Fault} (h : rule.run render = .error f) :
    (∃ part ∈ rule.parts, render part.1 part.2 = .error f) ∨
      ∃ texts, texts.length = rule.parts.length ∧ rule.write texts = .error f := by
  rw [run] at h
  cases hrs : rule.parts.mapM fun part => render part.1 part.2 with
  | error found =>
    have he : found = f := by simpa [hrs, bind, Except.bind] using h
    exact Or.inl (exists_of_mapM_eq_error (he ▸ hrs))
  | ok rs =>
    cases hw : rule.write (rs.map (·.text)) with
    | error found =>
      have he : found = f := by simpa [hrs, hw, bind, Except.bind] using h
      refine Or.inr ⟨rs.map (·.text), ?_, he ▸ hw⟩
      rw [List.length_map, length_of_mapM_eq_ok hrs]
    | ok text => simp [hrs, hw, bind, Except.bind, pure, Except.pure] at h

theorem run_one (t : Term) (f : String → String) :
    (one root t f).run render = (do return (← render root t).map f) := by
  simp only [run, one, List.mapM_cons, List.mapM_nil, bind, Except.bind, pure, Except.pure]
  cases render root t with
  | error fault => rfl
  | ok r => simp [Rendered.map]

theorem run_two (t u : Term) (f : String → String → String) :
    (two root t u f).run render = (do return .map₂ f (← render root t) (← render root u)) := by
  simp only [run, two, List.mapM_cons, List.mapM_nil, bind, Except.bind, pure, Except.pure]
  cases render root t with
  | error fault => rfl
  | ok r =>
    cases render root u with
    | error fault => rfl
    | ok s => simp [Rendered.map₂]

theorem mapM_parts (ts : List Term) :
    (ts.map fun t => (root, t)).mapM (fun part => render part.1 part.2) =
      ts.mapM fun t => render root t := by
  rw [List.mapM_map]
  rfl

theorem run_listed (ts : List Term) (f : List String → String) :
    (listed root ts f).run render = (do return .ofList f (← ts.mapM fun t => render root t)) := by
  simp only [run, listed, mapM_parts, bind, Except.bind, pure, Except.pure, Bool.false_or]
  rfl

theorem run_mapped (mapping : Mapping) (ts : List Term) :
    (mapped mapping root ts).run render =
      (do mapping.write (← ts.mapM fun t => render root t)) := by
  simp only [run, mapped, mapM_parts, bind, Except.bind, pure, Except.pure]
  cases ts.mapM fun t => render root t with
  | error fault => rfl
  | ok rs =>
    simp only [Mapping.write]
    cases mapping.fill (rs.map (·.text)) <;> rfl

end Rule

namespace Dialect

def rule (d : Dialect) (root : Option String) (t : Term) : Except Fault Rule :=
  match t with
  | .binary op left right _ =>
    match op.token? with
    | none => .error (operatorFault op)
    | some token => .ok (.two root (Operand.normalise op left right).1
        (Operand.normalise op left right).2 fun l r => "(" ++ l ++ " " ++ token ++ " " ++ r ++ ")")
  | .unary .not operand _ => .ok (.one root operand fun s => "not (" ++ stripOuterParens s ++ ")")
  | .unary .negate _ _ => .error (.unsupported "Unary" "arithmetic negation has no wire form")
  | .unary .typeAs operand ty =>
    .ok (.one root operand fun s => "(" ++ s ++ " as " ++ ty.wireName ++ ")")
  | .unary .convert operand ty =>
    if isSilentConversion operand.ty ty then .ok (.one root operand fun s => s)
    else if isRoot root operand then .ok (.fixed ("cast(" ++ ty.wireName ++ ")"))
    else .ok (.one root operand fun s => "cast(" ++ s ++ "," ++ ty.wireName ++ ")")
  | .member target m =>
    match d.mappings.resolve? m.signature with
    | some mapping => .ok (.mapped mapping root target.toList)
    | none =>
      match target with
      | none => .error (.unmapped m.signature)
      | some target =>
        if isRoot root target then .ok (.fixed (d.naming.apply m.name))
        else .ok (.one root target fun s => s ++ "." ++ d.naming.apply m.name)
  | .constant value ty => .ok (.fixed (constantText value ty))
  | .call target method args =>
    match CallForm.of method (target.toList ++ args) with
    | .membership set value => .ok (.two root value set fun v s => v ++ " in " ++ s)
    | .lookup dictionary key safe =>
      match key.constant?.bind Literal.string? with
      | none => .error (lookupFault method key)
      | some name =>
        if isRoot root dictionary then .ok (.fixed (lookupText none name safe))
        else .ok (.one root dictionary fun s => lookupText (some s) name safe)
    | .mapped =>
      match d.mappings.resolve? method.mappedSignature with
      | none => .error (.unmapped method.mappedSignature)
      | some mapping => .ok (.mapped mapping root (target.toList ++ args))
  | .typeTest target tested =>
    if isRoot root target then .ok (.fixed ("isof(" ++ tested.wireName ++ ")"))
    else .ok (.one root target fun s => "isof(" ++ s ++ "," ++ tested.wireName ++ ")")
  | .lambda [p] body => .ok (.one (rootUnder root p) body fun s => p.name ++ ":" ++ s)
  | .lambda params _ => .error (parametersFault params)
  | .conditional test onTrue onFalse _ =>
    .ok (.listed root [test, onTrue, onFalse] fun texts => "iif(" ++ ",".intercalate texts ++ ")")
  | .param p => .ok (.fixed (if root = some p.name then "this" else p.name))
  | .array elements _ =>
    .ok (.listed root elements fun texts => "[" ++ ",".intercalate texts ++ "]")
  | .construct .. | .listInit .. =>
    .error (.unsupported t.kind "construction is only valid as a projection root")

theorem render_eq_rule (d : Dialect) (root : Option String) (t : Term) :
    d.render root t = (do (← d.rule root t).run d.render) := by
  cases t with
  | binary op left right ty =>
    rw [render, rule]
    cases op.token? with
    | none => rfl
    | some token => exact (Rule.run_two ..).symm
  | unary op operand ty =>
    cases op with
    | not | typeAs =>
      rw [render, rule]
      exact (Rule.run_one ..).symm
    | negate => rw [render, rule]; rfl
    | convert =>
      rw [render, rule]
      split
      · refine Eq.trans ?_ (Rule.run_one d.render root operand fun s => s).symm
        cases d.render root operand <;> rfl
      · split
        · rfl
        · exact (Rule.run_one ..).symm
  | member target m =>
    cases target with
    | none =>
      rw [render, rule]
      cases d.mappings.resolve? m.signature with
      | none => rfl
      | some mapping => exact (Rule.run_mapped d.render root mapping []).symm
    | some target =>
      rw [render, rule]
      cases d.mappings.resolve? m.signature with
      | none =>
        dsimp only
        split
        · rfl
        · exact (Rule.run_one ..).symm
      | some mapping =>
        refine Eq.trans ?_ (Rule.run_mapped d.render root mapping [target]).symm
        simp only [List.mapM_cons, List.mapM_nil, bind, Except.bind, pure, Except.pure]
        cases d.render root target <;> rfl
  | constant value ty => rw [render, rule]; rfl
  | call target method args =>
    rw [render, rule]
    cases CallForm.of method (target.toList ++ args) with
    | membership set value => exact (Rule.run_two ..).symm
    | lookup dictionary key safe =>
      dsimp only
      cases key.constant?.bind Literal.string? with
      | none => rfl
      | some name =>
        dsimp only
        split
        · rfl
        · exact (Rule.run_one ..).symm
    | mapped =>
      dsimp only
      cases d.mappings.resolve? method.mappedSignature with
      | none => rfl
      | some mapping => exact (Rule.run_mapped ..).symm
  | typeTest target tested =>
    rw [render, rule]
    split
    · rfl
    · exact (Rule.run_one ..).symm
  | lambda params body =>
    cases params with
    | nil =>
      unfold render rule
      rfl
    | cons p rest =>
      cases rest with
      | nil =>
        rw [render, rule]
        exact (Rule.run_one ..).symm
      | cons q rest =>
        unfold render rule
        rfl
  | conditional test onTrue onFalse ty =>
    rw [render, rule]
    refine Eq.trans ?_ (Rule.run_listed ..).symm
    simp only [List.mapM_cons, List.mapM_nil, bind, Except.bind, pure, Except.pure]
    cases d.render root test with
    | error fault => rfl
    | ok a =>
      cases d.render root onTrue with
      | error fault => rfl
      | ok b => cases d.render root onFalse <;> rfl
  | param p => rw [render, rule]; rfl
  | array elements ty =>
    rw [render, rule]
    exact (Rule.run_listed ..).symm
  | construct names args ty => rw [render, rule]; rfl
  | listInit rows ty => rw [render, rule]; rfl

theorem render_eq_ok {d : Dialect} {root : Option String} {t : Term} {r : Rendered}
    (h : d.render root t = .ok r) :
    ∃ rule, d.rule root t = .ok rule ∧
      ∃ rs, (rule.parts.mapM fun part => d.render part.1 part.2) = .ok rs ∧
        rule.write (rs.map (·.text)) = .ok r.text ∧
        r.prefersLocal = (rule.prefersLocal || rs.any (·.prefersLocal)) := by
  rw [render_eq_rule] at h
  cases hrule : d.rule root t with
  | error fault => simp [hrule, bind, Except.bind] at h
  | ok rule =>
    simp only [hrule, bind, Except.bind] at h
    exact ⟨rule, rfl, Rule.run_eq_ok h⟩

end Dialect
end RemoteQuery
