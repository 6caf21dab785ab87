import RemoteQuery.Proofs.Wire.Exchange
import RemoteQuery.Proofs.Wire.FilledOperand

/-!
# Two names in one place

A parameter and a member of the root, or a parameter and the root, are put into the hole of a context.
Every node on the way writes the two fillings by one rule, but for the root, which is left out before
a member, in a lookup, in a cast and in a type test. So the texts of the whole are related as the texts
of the two are, for a relation that holds on in all places of a text and across what is left out.
-/

namespace RemoteQuery

namespace CallForm

theorem of_pair (method : Method) (t v : Term) : of method [t, v] =
    if method.name = "Contains" ∧ t.ty.isSequence then .membership t v
    else if method.name = "get_Item" ∧ t.ty.isDictionary then .lookup t v false
    else if method.name = "GetValueOrDefault" ∧ t.ty.isDictionary then .lookup t v true
    else .mapped := rfl

theorem of_pair_congr (method : Method) {t u v w : Term} (h : t.ty = u.ty) :
    (of method [t, v] = .mapped ∧ of method [u, w] = .mapped) ∨
    (of method [t, v] = .membership t v ∧ of method [u, w] = .membership u w) ∨
    ∃ safe, of method [t, v] = .lookup t v safe ∧ of method [u, w] = .lookup u w safe := by
  rw [of_pair, of_pair, h]
  by_cases hm : method.name = "Contains" ∧ u.ty.isSequence = true
  · rw [if_pos hm, if_pos hm]
    exact Or.inr (Or.inl ⟨rfl, rfl⟩)
  · rw [if_neg hm, if_neg hm]
    by_cases hl : method.name = "get_Item" ∧ u.ty.isDictionary = true
    · rw [if_pos hl, if_pos hl]
      exact Or.inr (Or.inr ⟨false, rfl, rfl⟩)
    · rw [if_neg hl, if_neg hl]
      by_cases hs : method.name = "GetValueOrDefault" ∧ u.ty.isDictionary = true
      · rw [if_pos hs, if_pos hs]
        exact Or.inr (Or.inr ⟨true, rfl, rfl⟩)
      · rw [if_neg hs, if_neg hs]
        exact Or.inl ⟨rfl, rfl⟩

theorem of_eq_mapped_of_length_ne {method : Method} {operands : List Term}
    (h : operands.length ≠ 2) : of method operands = .mapped := by
  match operands, h with
  | [], _ | [_], _ | _ :: _ :: _ :: _, _ => rfl

end CallForm

namespace Dialect

variable {d : Dialect} {root : String} {ρ : String → String → Prop} {a b : Term}

def WritesOperand (d : Dialect) (method : Method) (operands : List Term) (index : Nat) : Prop :=
  CallForm.of method operands = .mapped →
    ∀ mapping, d.mappings.resolve? method.mappedSignature = some mapping → mapping.Writes index

/-- Every mapping on the way to the hole writes what the hole is in. -/
def Shown (d : Dialect) (t : Term) : Context → Prop
  | .hole => True
  | .receiver c m =>
    (∀ mapping, d.mappings.resolve? m.signature = some mapping → mapping.Writes 0) ∧ d.Shown t c
  | .target c m args => d.WritesOperand m (c.fill t :: args) 0 ∧ d.Shown t c
  | .argument target m before c after =>
    d.WritesOperand m (target.toList ++ before ++ c.fill t :: after)
      (target.toList ++ before).length ∧ d.Shown t c
  | .left _ c _ _ | .right _ _ c _ | .unary _ c _ | .tested c _ | .body _ c | .test c _ _ _
  | .onTrue _ c _ _ | .onFalse _ _ c _ | .element _ c _ _ => d.Shown t c

/-- Two names of one type whose texts are related, the first of which is not the root. Where the
second is the root and left out, what is written is related as well. -/
structure Swap (d : Dialect) (root : String) (ρ : String → String → Prop) (a b : Term) : Prop where
  ty : a.ty = b.ty
  first : a.IsName
  second : b.IsName
  notRoot : isRoot (some root) a = false
  carries : Rule.Carries ρ d.render (some root) a b
  omitted : isRoot (some root) b = true → ∀ r, d.render (some root) a = .ok r → ∀ name : String,
    ρ (r.text ++ "." ++ name) name ∧
      ρ ("cast(" ++ r.text ++ "," ++ name ++ ")") ("cast(" ++ name ++ ")") ∧
      ρ ("isof(" ++ r.text ++ "," ++ name ++ ")") ("isof(" ++ name ++ ")")

theorem eq_hole_of_isRoot {c : Context} {t : Term} (h : isRoot (some root) (c.fill t) = true) :
    c = .hole := by
  cases c with
  | hole => rfl
  | _ => cases h

theorem Swap.isRoot_fill (h : Swap d root ρ a b) (c : Context) :
    isRoot (some root) (c.fill a) = false := by
  cases hr : isRoot (some root) (c.fill a) with
  | false => rfl
  | true =>
    obtain rfl := eq_hole_of_isRoot hr
    exact hr.symm.trans h.notRoot

theorem carries_of_rule {root : Option String} {t u : Term} {rule rule' : Rule}
    (ht : d.rule root t = .ok rule) (hu : d.rule root u = .ok rule')
    (h : Rule.Follows ρ d.render rule rule') : Rule.Carries ρ d.render root t u := by
  intro r hr
  rw [render_eq_rule, ht] at hr
  rw [render_eq_rule, hu]
  exact h r hr

theorem carries_of_error {root : Option String} {t u : Term} {fault : Fault}
    (ht : d.rule root t = .error fault) : Rule.Carries ρ d.render root t u := by
  intro r hr
  rw [render_eq_rule, ht] at hr
  cases hr

theorem carries_listed (hρ : Stable ρ) {root : Option String} {t u : Term} {pre post : String}
    (before after : List Term) (hc : Rule.Carries ρ d.render root a b)
    (ht : d.rule root t = .ok (.listed root (before ++ a :: after) fun texts =>
      pre ++ ",".intercalate texts ++ post))
    (hu : d.rule root u = .ok (.listed root (before ++ b :: after) fun texts =>
      pre ++ ",".intercalate texts ++ post)) :
    Rule.Carries ρ d.render root t u :=
  carries_of_rule ht hu
    (Rule.follows_listed hc fun bs as _ _ hrel => hρ.enumerated hrel pre post bs as)

theorem Swap.carries_omitting (h : Swap d root ρ a b) (text : String) (f : String → String)
    {c : Context} {t u : Term}
    (ht : d.rule (some root) t = if isRoot (some root) (c.fill a) then .ok (.fixed text)
      else .ok (.one (some root) (c.fill a) f))
    (hu : d.rule (some root) u = if isRoot (some root) (c.fill b) then .ok (.fixed text)
      else .ok (.one (some root) (c.fill b) f))
    (hc : Rule.Carries ρ d.render (some root) (c.fill a) (c.fill b))
    (hf : ∀ s s', ρ s s' → ρ (f s) (f s'))
    (ho : isRoot (some root) b = true → ∀ r, d.render (some root) a = .ok r → ρ (f r.text) text) :
    Rule.Carries ρ d.render (some root) t u := by
  -- A node that leaves out the root: its rule when the part is the root, and otherwise.
  rw [h.isRoot_fill c, if_neg (by simp)] at ht
  cases hr : isRoot (some root) (c.fill b) with
  | false =>
    rw [hr, if_neg (by simp)] at hu
    exact carries_of_rule ht hu (Rule.follows_one hc hf)
  | true =>
    obtain rfl := eq_hole_of_isRoot hr
    rw [hr, if_pos rfl] at hu
    refine carries_of_rule ht hu ?_
    intro r hrun
    rw [Rule.run_one] at hrun
    cases hra : d.render (some root) (Context.hole.fill a) with
    | error fault => rw [hra] at hrun; cases hrun
    | ok s =>
      rw [hra] at hrun
      cases hrun
      exact ⟨_, rfl, ho hr s hra⟩

theorem Swap.carries_this (h : Swap d root ρ a b) (hr : isRoot (some root) b = true) {r : Rendered}
    (ha : d.render (some root) a = .ok r) : ρ r.text "this" := by
  obtain ⟨q, rfl, hq⟩ := eq_param_of_isRoot hr
  obtain ⟨s, hs, hrel⟩ := h.carries r ha
  rw [render, if_pos hq] at hs
  cases hs
  exact hrel

def callRule (d : Dialect) (root : Option String) (method : Method) (operands : List Term) :
    Except Fault Rule :=
  match CallForm.of method operands with
  | .membership set value => .ok (.two root value set fun v s => v ++ " in " ++ s)
  | .lookup dictionary key safe =>
    match key.constant?.bind Literal.string? with
    | none => .error (lookupFault method key)
    | some name =>
      if isRoot root dictionary then .ok (.fixed (lookupText none name safe))
      else .ok (.one root dictionary fun s => lookupText (some s) name safe)
  | .mapped =>
    match d.mappings.resolve? method.mappedSignature with
    | none => .error (.unmapped method.mappedSignature)
    | some mapping => .ok (.mapped mapping root operands)

theorem rule_call (root : Option String) (target : Option Term) (method : Method)
    (args : List Term) : d.rule root (.call target method args) =
      d.callRule root method (target.toList ++ args) := by
  rw [rule]
  rfl

section Call

variable {t u : Term} {c : Context} {method : Method}

theorem carries_mapped (hρ : Stable ρ) (before after : List Term)
    (hc : Rule.Carries ρ d.render (some root) (c.fill a) (c.fill b))
    (ht : d.rule (some root) t = d.callRule (some root) method (before ++ c.fill a :: after))
    (hu : d.rule (some root) u = d.callRule (some root) method (before ++ c.fill b :: after))
    (hw : d.WritesOperand method (before ++ c.fill a :: after) before.length)
    (hfa : CallForm.of method (before ++ c.fill a :: after) = .mapped)
    (hfb : CallForm.of method (before ++ c.fill b :: after) = .mapped) :
    Rule.Carries ρ d.render (some root) t u := by
  rw [callRule, hfa] at ht
  rw [callRule, hfb] at hu
  cases hm : d.mappings.resolve? method.mappedSignature with
  | none =>
    rw [hm] at ht
    exact carries_of_error ht
  | some mapping =>
    rw [hm] at ht hu
    exact carries_of_rule ht hu (Rule.follows_mapped hρ hc (hw hfa mapping hm))

theorem Swap.carries_lookup (hρ : Stable ρ) (h : Swap d root ρ a b) {key : Term} {safe : Bool}
    (hc : Rule.Carries ρ d.render (some root) (c.fill a) (c.fill b))
    (ht : d.rule (some root) t = d.callRule (some root) method [c.fill a, key])
    (hu : d.rule (some root) u = d.callRule (some root) method [c.fill b, key])
    (hfa : CallForm.of method [c.fill a, key] = .lookup (c.fill a) key safe)
    (hfb : CallForm.of method [c.fill b, key] = .lookup (c.fill b) key safe) :
    Rule.Carries ρ d.render (some root) t u := by
  rw [callRule, hfa] at ht
  rw [callRule, hfb] at hu
  dsimp only at ht hu
  cases hk : key.constant?.bind Literal.string? with
  | none =>
    rw [hk] at ht
    exact carries_of_error ht
  | some name =>
    rw [hk] at ht hu
    refine h.carries_omitting (lookupText none name safe)
      (fun s => lookupText (some s) name safe) ht hu hc ?_ ?_
    · intro s s' hrel
      simp only [lookupText]
      split
      · exact hρ.append (hρ.append hrel ".") name
      · exact hρ.append (hρ.append (hρ.append hrel "[") (quote name)) "]"
    · intro hr r ha
      simp only [lookupText]
      split
      · exact (h.omitted hr r ha name).1
      · exact hρ.append (hρ.append (hρ.append (h.carries_this hr ha) "[") (quote name)) "]"

theorem Swap.carries_pair_left (hρ : Stable ρ) (h : Swap d root ρ a b) {v : Term}
    (hc : Rule.Carries ρ d.render (some root) (c.fill a) (c.fill b))
    (ht : d.rule (some root) t = d.callRule (some root) method [c.fill a, v])
    (hu : d.rule (some root) u = d.callRule (some root) method [c.fill b, v])
    (hw : d.WritesOperand method [c.fill a, v] 0) :
    Rule.Carries ρ d.render (some root) t u := by
  rcases CallForm.of_pair_congr method (v := v) (w := v) (c.ty_fill h.ty) with
    ⟨hfa, hfb⟩ | ⟨hfa, hfb⟩ | ⟨safe, hfa, hfb⟩
  · exact carries_mapped hρ [] [v] hc ht hu hw hfa hfb
  · rw [callRule, hfa] at ht
    rw [callRule, hfb] at hu
    exact carries_of_rule ht hu (Rule.follows_two_right hc fun s s' w hrel => hρ.prepend hrel _)
  · exact h.carries_lookup hρ hc ht hu hfa hfb

theorem Swap.carries_pair_right (hρ : Stable ρ) (h : Swap d root ρ a b) {v : Term}
    (hc : Rule.Carries ρ d.render (some root) (c.fill a) (c.fill b))
    (ht : d.rule (some root) t = d.callRule (some root) method [v, c.fill a])
    (hu : d.rule (some root) u = d.callRule (some root) method [v, c.fill b])
    (hw : d.WritesOperand method [v, c.fill a] 1) :
    Rule.Carries ρ d.render (some root) t u := by
  -- A name is no key, so there is no lookup with the hole in the key.
  rcases CallForm.of_pair_congr method (v := c.fill a) (w := c.fill b) (Eq.refl v.ty) with
    ⟨hfa, hfb⟩ | ⟨hfa, hfb⟩ | ⟨safe, hfa, hfb⟩
  · exact carries_mapped hρ [v] [] hc ht hu hw hfa hfb
  · rw [callRule, hfa] at ht
    rw [callRule, hfb] at hu
    exact carries_of_rule ht hu
      (Rule.follows_two_left hc fun s s' w hrel => hρ.append (hρ.append hrel " in ") w)
  · have hkey : (c.fill a).constant?.bind Literal.string? = none := by
      cases hk : (c.fill a).constant?.bind Literal.string? with
      | none => rfl
      | some name =>
        obtain ⟨value, ty, he⟩ := eq_constant_of_bind hk
        exact absurd he (Context.fill_ne_constant h.first c value ty)
    rw [callRule, hfa] at ht
    dsimp only at ht
    rw [hkey] at ht
    exact carries_of_error ht

theorem Swap.carries_call (hρ : Stable ρ) (h : Swap d root ρ a b) {before after : List Term}
    (hc : Rule.Carries ρ d.render (some root) (c.fill a) (c.fill b))
    (ht : d.rule (some root) t = d.callRule (some root) method (before ++ c.fill a :: after))
    (hu : d.rule (some root) u = d.callRule (some root) method (before ++ c.fill b :: after))
    (hw : d.WritesOperand method (before ++ c.fill a :: after) before.length) :
    Rule.Carries ρ d.render (some root) t u := by
  by_cases hlen : before.length + after.length = 1
  · rcases Nat.eq_zero_or_pos before.length with hb | hb
    · obtain rfl := List.length_eq_zero_iff.1 hb
      obtain ⟨v, rfl⟩ := List.length_eq_one_iff.1 ((Nat.zero_add _).symm.trans hlen)
      exact h.carries_pair_left hρ hc ht hu hw
    · have ha : after.length = 0 := by omega
      obtain rfl := List.length_eq_zero_iff.1 ha
      obtain ⟨v, rfl⟩ := List.length_eq_one_iff.1 hlen
      exact h.carries_pair_right hρ hc ht hu hw
  · have hmapped : ∀ v, CallForm.of method (before ++ v :: after) = .mapped := by
      intro v
      apply CallForm.of_eq_mapped_of_length_ne
      rw [List.length_append, List.length_cons]
      omega
    exact carries_mapped hρ before after hc ht hu hw (hmapped _) (hmapped _)

end Call

section Node

variable {c : Context}

theorem Swap.carries_left (hρ : Stable ρ) (h : Swap d root ρ a b) {op : BinaryOp} {t : Term} {ty : Ty}
    (hc : ∀ {c'}, c.Peels c' → Rule.Carries ρ d.render (some root) (c'.fill a) (c'.fill b)) :
    Rule.Carries ρ d.render (some root) (.binary op (c.fill a) t ty) (.binary op (c.fill b) t ty) := by
  obtain ⟨c', t', hpeels, ha, hb⟩ := Operand.normalise_fill_left h.ty h.first h.second op c t
  cases hop : op.token? with
  | none => exact carries_of_error (by rw [rule, hop])
  | some token =>
    refine carries_of_rule (by rw [rule, hop]) (by rw [rule, hop]) ?_
    rw [ha, hb]
    refine Rule.follows_two_left (hc hpeels) fun s s' w hrel => ?_
    exact hρ.append (hρ.append (hρ.followed hrel "(" " " token " ") w) ")"

theorem Swap.carries_right (hρ : Stable ρ) (h : Swap d root ρ a b) {op : BinaryOp} {t : Term}
    {ty : Ty}
    (hc : ∀ {c'}, c.Peels c' → Rule.Carries ρ d.render (some root) (c'.fill a) (c'.fill b)) :
    Rule.Carries ρ d.render (some root) (.binary op t (c.fill a) ty) (.binary op t (c.fill b) ty) := by
  obtain ⟨t', c', hpeels, ha, hb⟩ := Operand.normalise_fill_right h.ty h.first h.second op t c
  cases hop : op.token? with
  | none => exact carries_of_error (by rw [rule, hop])
  | some token =>
    refine carries_of_rule (by rw [rule, hop]) (by rw [rule, hop]) ?_
    rw [ha, hb]
    exact Rule.follows_two_right (hc hpeels) fun s s' w hrel => hρ.append (hρ.prepend hrel _) _

variable (hc : Rule.Carries ρ d.render (some root) (c.fill a) (c.fill b))

include hc

theorem Swap.carries_unary (hρ : Stable ρ) (h : Swap d root ρ a b) (op : UnaryOp) (ty : Ty) :
    Rule.Carries ρ d.render (some root) (.unary op (c.fill a) ty) (.unary op (c.fill b) ty) := by
  have hty := c.ty_fill h.ty
  cases op with
  | not =>
    exact carries_of_rule (by rw [rule]) (by rw [rule])
      (Rule.follows_one hc fun s s' hrel => hρ.negated hrel)
  | negate => exact carries_of_error (by rw [rule])
  | typeAs =>
    exact carries_of_rule (by rw [rule]) (by rw [rule])
      (Rule.follows_one hc fun s s' hrel => hρ.followed hrel "(" " as " ty.wireName ")")
  | convert =>
    cases hsilent : isSilentConversion (c.fill b).ty ty with
    | true =>
      refine carries_of_rule (by rw [rule, hty, if_pos hsilent]) (by rw [rule, if_pos hsilent]) ?_
      exact Rule.follows_one hc fun s s' hrel => hrel
    | false =>
      refine h.carries_omitting ("cast(" ++ ty.wireName ++ ")")
        (fun s => "cast(" ++ s ++ "," ++ ty.wireName ++ ")")
        (by rw [rule, hty, hsilent, if_neg (by simp)]) (by rw [rule, hsilent, if_neg (by simp)])
        hc ?_ ?_
      · exact fun s s' hrel => hρ.followed hrel "cast(" "," ty.wireName ")"
      · exact fun hr r ha => (h.omitted hr r ha ty.wireName).2.1

theorem Swap.carries_receiver (hρ : Stable ρ) (h : Swap d root ρ a b) {m : Member}
    (hm : ∀ mapping, d.mappings.resolve? m.signature = some mapping → mapping.Writes 0) :
    Rule.Carries ρ d.render (some root) (.member (some (c.fill a)) m)
      (.member (some (c.fill b)) m) := by
  cases hmap : d.mappings.resolve? m.signature with
  | some mapping =>
    have hrule : ∀ t, d.rule (some root) (.member (some t) m) =
        .ok (.mapped mapping (some root) ([] ++ t :: [])) := by
      intro t
      rw [rule, hmap]
      rfl
    exact carries_of_rule (hrule _) (hrule _) (Rule.follows_mapped hρ hc (hm mapping hmap))
  | none =>
    refine h.carries_omitting (d.naming.apply m.name) (fun s => s ++ "." ++ d.naming.apply m.name)
      (by rw [rule, hmap]) (by rw [rule, hmap]) hc ?_ ?_
    · exact fun s s' hrel => hρ.append (hρ.append hrel _) _
    · exact fun hr r ha => (h.omitted hr r ha _).1

theorem Swap.carries_tested (hρ : Stable ρ) (h : Swap d root ρ a b) (ty : Ty) :
    Rule.Carries ρ d.render (some root) (.typeTest (c.fill a) ty) (.typeTest (c.fill b) ty) := by
  refine h.carries_omitting ("isof(" ++ ty.wireName ++ ")")
    (fun s => "isof(" ++ s ++ "," ++ ty.wireName ++ ")") (by rw [rule]) (by rw [rule]) hc ?_ ?_
  · exact fun s s' hrel => hρ.followed hrel "isof(" "," ty.wireName ")"
  · exact fun hr r ha => (h.omitted hr r ha ty.wireName).2.2

theorem carries_body (hρ : Stable ρ) {params : List Param} (hp : Term.binds params root = false) :
    Rule.Carries ρ d.render (some root) (.lambda params (c.fill a)) (.lambda params (c.fill b)) := by
  -- The parameter does not hide the root, so the root of the body is the root outside.
  rcases params with _ | ⟨p, _ | ⟨q, params⟩⟩
  · have hrule : d.rule (some root) (.lambda [] (c.fill a)) = .error (parametersFault []) := by
      unfold rule
      rfl
    exact carries_of_error hrule
  · have hne : p.name ≠ root := by simpa [Term.binds] using hp
    have hroot : rootUnder (some root) p = some root := by
      rw [rootUnder, if_neg]
      exact fun he => hne (Option.some.inj he).symm
    refine carries_of_rule (by rw [rule]) (by rw [rule]) ?_
    rw [hroot]
    exact Rule.follows_one hc fun s s' hrel => hρ.prepend hrel _
  · have hrule : d.rule (some root) (.lambda (p :: q :: params) (c.fill a)) =
        .error (parametersFault (p :: q :: params)) := by
      unfold rule
      rfl
    exact carries_of_error hrule

end Node

theorem Swap.carries_peeled (hρ : Stable ρ) (h : Swap d root ρ a b) (c : Context)
    (hv : c.Visible root) (hs : d.Shown a c) {c' : Context} (hpeels : c.Peels c') :
    Rule.Carries ρ d.render (some root) (c'.fill a) (c'.fill b) := by
  -- Whatever the hole is in, the two fillings are written alike up to the related texts. What a
  -- comparison writes of an operand is a context below it, so the induction is on all of these.
  induction c generalizing c' with
  | hole =>
    cases hpeels
    exact h.carries
  | left op c t ty ih =>
    cases hpeels
    exact h.carries_left hρ fun hc => ih hv hs hc
  | right op t c ty ih =>
    cases hpeels
    exact h.carries_right hρ fun hc => ih hv hs hc
  | unary op c ty ih =>
    cases hpeels with
    | refl _ => exact h.carries_unary (ih hv hs (.refl c)) hρ op ty
    | unary _ _ hc => exact ih hv hs hc
  | receiver c m ih =>
    cases hpeels
    exact h.carries_receiver (ih hv hs.2 (.refl c)) hρ hs.1
  | target c m args ih =>
    cases hpeels
    have hrule : ∀ t, d.rule (some root) (.call (some t) m args) =
        d.callRule (some root) m ([] ++ t :: args) := fun t => rule_call (some root) (some t) m args
    exact h.carries_call hρ (ih hv hs.2 (.refl c)) (hrule _) (hrule _) hs.1
  | argument target m before c after ih =>
    cases hpeels
    refine h.carries_call hρ (ih hv hs.2 (.refl c)) ?_ ?_ hs.1
    · rw [Context.fill, rule_call, List.append_assoc]
    · rw [Context.fill, rule_call, List.append_assoc]
  | tested c ty ih =>
    cases hpeels
    exact h.carries_tested (ih hv hs (.refl c)) hρ ty
  | body params c ih =>
    cases hpeels
    exact carries_body (ih hv.2 hs (.refl c)) hρ hv.1
  | test c t u ty ih =>
    cases hpeels
    exact carries_listed hρ [] [t, u] (ih hv hs (.refl c)) (by rw [Context.fill, rule]; rfl)
      (by rw [Context.fill, rule]; rfl)
  | onTrue t c u ty ih =>
    cases hpeels
    exact carries_listed hρ [t] [u] (ih hv hs (.refl c)) (by rw [Context.fill, rule]; rfl)
      (by rw [Context.fill, rule]; rfl)
  | onFalse t u c ty ih =>
    cases hpeels
    exact carries_listed hρ [t, u] [] (ih hv hs (.refl c)) (by rw [Context.fill, rule]; rfl)
      (by rw [Context.fill, rule]; rfl)
  | element before c after ty ih =>
    cases hpeels
    exact carries_listed hρ before after (ih hv hs (.refl c)) (by rw [Context.fill, rule])
      (by rw [Context.fill, rule])

end Dialect
end RemoteQuery
