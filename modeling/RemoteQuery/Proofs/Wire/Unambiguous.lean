import RemoteQuery.Proofs.Text.Brackets
import RemoteQuery.Proofs.Wire.Reader
import RemoteQuery.Wire.Query

/-!
# Plain terms are determined by their texts

A term is plain when it is made of operations with a token, negations, conditionals, lists, membership
tests over a path or a list, paths from the root and simple constants. The text of a plain term can be
read back, also where it lost its enclosing parentheses, so two plain terms with one text are the same
but for what is not written: static types, the declaring types of members and the descriptors of
methods.
-/

namespace RemoteQuery

namespace Term

/-- The node without what is not written of it. -/
def untypedNode : Term → Term
  | .binary op left right _ => .binary op left right .object
  | .unary .not operand _ => .unary .not operand .object
  | .member target m => .member target ⟨"", m.name, .object⟩
  | .constant value _ => .constant value .object
  | .call target m args => .call target ⟨"", m.name, [], .object⟩ args
  | .conditional test onTrue onFalse _ => .conditional test onTrue onFalse .object
  | .param p => .param ⟨p.name, .object⟩
  | .array elements _ => .array elements .object
  | t => t

def untyped (t : Term) : Term :=
  (t.withChildren (t.children.attach.map fun c => untyped c.1)).untypedNode
termination_by sizeOf t
decreasing_by exact sizeOf_lt_of_mem_children c.2

theorem untyped_eq (t : Term) : t.untyped = (t.withChildren (t.children.map untyped)).untypedNode := by
  rw [untyped]; simp

end Term

def Literal.isSimple : Literal → Bool
  | .null | .bool _ | .int _ | .string _ => true
  | _ => false

namespace Dialect

inductive IsSet (d : Dialect) (root : String) : Term → Prop
  | array (elements : List Term) (ty : Ty) : IsSet d root (.array elements ty)
  | path {t : Term} {names : List String} (h : d.RootPath root t names) : IsSet d root t

inductive Plain (d : Dialect) (root : String) : Term → Prop
  | binary {op : BinaryOp} {left right : Term} {ty : Ty} (hop : op.token?.isSome = true)
    (hl : Plain d root left) (hr : Plain d root right) : Plain d root (.binary op left right ty)
  | not {operand : Term} {ty : Ty} (h : Plain d root operand) :
    Plain d root (.unary .not operand ty)
  | conditional {test onTrue onFalse : Term} {ty : Ty} (ht : Plain d root test)
    (hl : Plain d root onTrue) (hr : Plain d root onFalse) :
    Plain d root (.conditional test onTrue onFalse ty)
  | array {elements : List Term} {ty : Ty} (h : ∀ e ∈ elements, Plain d root e) :
    Plain d root (.array elements ty)
  | contains {m : Method} {set value : Term} (hm : m.name = "Contains")
    (hty : set.ty.isSequence = true) (hform : d.IsSet root set) (hs : Plain d root set)
    (hv : Plain d root value) : Plain d root (.call none m [set, value])
  | path {t : Term} {names : List String} (h : d.RootPath root t names) (hne : names ≠ [])
    (hn : ∀ n ∈ names, Reader.IsReadable n) : Plain d root t
  | constant {value : Literal} {ty : Ty} (hv : value.isSimple = true)
    (hty : ty.underlyingEnum? = none) : Plain d root (.constant value ty)

open Reader Brackets

variable {d : Dialect} {root : String} {t u : Term} {cs : List Char}

/-- The characters are the text of the term, and they can be read back. They keep the nesting of
parentheses, also without an enclosing pair. A term that is no call is read as a stem, and only
operations, negations and calls may end with a parenthesis. -/
structure Spelled (d : Dialect) (root : String) (t : Term) (cs : List Char) : Prop where
  rendered : d.render (some root) t = .ok (.plain (String.ofList cs))
  neutral : Neutral cs
  bare : Neutral (strip cs)
  stem : (∀ target m args, t ≠ .call target m args) → Takes (stem root) Breaks cs t.untyped
  leads : Leads root cs t.untyped
  operation : Takes (operation root) Closes (strip cs) t.untyped
  tail : d.IsSet root t → ∃ c, cs.getLast? = some c ∧ c ≠ ')'

theorem Spelled.of_stem (hr : d.render (some root) t = .ok (.plain (String.ofList cs)))
    (hn : Neutral cs) (hs : strip cs = cs) (hstem : Takes (Reader.stem root) Breaks cs t.untyped)
    (ht : d.IsSet root t → ∃ c, cs.getLast? = some c ∧ c ≠ ')') : d.Spelled root t cs where
  rendered := hr
  neutral := hn
  bare := hs.symm ▸ hn
  stem _ := hstem
  leads := leads_of_stem hstem
  operation := by
    rw [hs]
    exact takes_operation_of_phrase (leads_of_stem hstem).phrase
  tail := ht

theorem Plain.ne_convert (h : d.Plain root t) (operand : Term) (ty : Ty) :
    t ≠ .unary .convert operand ty := by
  rintro rfl
  cases h with
  | path h _ _ => cases h

theorem normalise_eq {op : BinaryOp} (hl : ∀ operand ty, t ≠ .unary .convert operand ty)
    (hr : ∀ operand ty, u ≠ .unary .convert operand ty) : Operand.normalise op t u = (t, u) := by
  have hpeel : ∀ {v : Term}, (∀ operand ty, v ≠ .unary .convert operand ty) →
      Operand.strip v = v := by
    intro v hv
    apply Operand.strip_of_peel?_eq_none
    unfold Operand.peel?
    split
    · exact absurd rfl (hv _ _)
    · rfl
  have hsymbols : ∀ {v w : Term}, (∀ operand ty, v ≠ .unary .convert operand ty) →
      Operand.compareSymbols? v w = none := by
    intro v w hv
    unfold Operand.compareSymbols?
    split
    · exact absurd rfl (hv _ _)
    · rfl
  simp [Operand.normalise, hpeel hl, hpeel hr, hsymbols hl, hsymbols hr]

theorem neutral_of_forall_isWordChar (h : ∀ c ∈ cs, isWordChar c = true) : Neutral cs := by
  apply neutral_of_forall_not_isMark
  intro c hc hm
  have hw := h c hc
  rcases hm with rfl | rfl | rfl <;> cases hw

theorem not_isSet_binary {op : BinaryOp} {ty : Ty} : ¬ d.IsSet root (.binary op t u ty) := by
  intro h
  cases h with
  | path h => cases h

theorem Spelled.binary {op : BinaryOp} {token : String} {ls rs : List Char}
    (hop : op.token? = some token) (hn : Operand.normalise op t u = (t, u))
    (ht : d.Spelled root t ls) (hu : d.Spelled root u rs) (ty : Ty) :
    d.Spelled root (.binary op t u ty)
      ('(' :: (ls ++ (' ' :: token.toList ++ ' ' :: rs)) ++ [')']) := by
  have hneutral : Neutral (ls ++ (' ' :: token.toList ++ ' ' :: rs)) :=
    ht.neutral.append ((neutral_cons (by decide)
      (neutral_of_forall_isWordChar (isWordChar_of_mem_token hop))).append
        (neutral_cons (by decide) hu.neutral))
  have huntyped : (Term.binary op t u ty).untyped = .binary op t.untyped u.untyped .object := by
    rw [Term.untyped_eq]
    rfl
  have hoperation := takes_operation_binary hop ht.leads.phrase hu.leads.phrase
  rw [← huntyped] at hoperation
  have hstem := takes_stem_enclosed hoperation
  have hstrip := strip_parenthesised hneutral
  have htext : "(" ++ String.ofList ls ++ " " ++ token ++ " " ++ String.ofList rs ++ ")" =
      String.ofList ('(' :: (ls ++ (' ' :: token.toList ++ ' ' :: rs)) ++ [')']) := by
    rw [← String.toList_inj]
    simp
  exact {
    rendered := by
      rw [Dialect.render, hop]
      dsimp only
      rw [hn]
      dsimp only
      rw [ht.rendered, hu.rendered, ← htext]
      rfl
    neutral := hneutral.parenthesised
    bare := by rwa [hstrip]
    stem := fun _ => hstem
    leads := leads_of_stem hstem
    operation := by rwa [hstrip]
    tail := fun h => absurd h not_isSet_binary }

theorem Spelled.not (ht : d.Spelled root t cs) (ty : Ty) :
    d.Spelled root (.unary .not t ty) ("not (".toList ++ (strip cs ++ [')'])) := by
  have huntyped : (Term.unary .not t ty).untyped = .unary .not t.untyped .object := by
    rw [Term.untyped_eq]
    rfl
  have hnot : Neutral "not ".toList := neutral_of_all (by decide)
  have hneutral : Neutral ("not (".toList ++ (strip cs ++ [')'])) :=
    hnot.append ht.bare.parenthesised
  have htext : "not (" ++ stripOuterParens (String.ofList cs) ++ ")" =
      String.ofList ("not (".toList ++ (strip cs ++ [')'])) := by
    rw [← String.toList_inj]
    simp [stripOuterParens]
  refine .of_stem ?_ hneutral (strip_eq_self (Or.inl (by simp))) ?_ ?_
  · rw [Dialect.render, ht.rendered, ← htext]
    rfl
  · rw [huntyped]
    exact takes_stem_not ht.operation
  · intro h
    cases h with
    | path h => cases h

theorem neutral_intercalate {css : List (List Char)} (h : ∀ cs ∈ css, Neutral cs) :
    Neutral ([','].intercalate css) := by
  induction css with
  | nil => exact neutral_nil
  | cons cs css ih =>
    have hrest := ih fun ds hd => h ds (List.mem_cons_of_mem cs hd)
    cases css with
    | nil => simpa using h cs List.mem_cons_self
    | cons ds css =>
      rw [List.intercalate_cons_cons]
      exact ((h cs List.mem_cons_self).append (neutral_cons (by decide) neutral_nil)).append hrest

variable {ts : List Term} {css : List (List Char)}

theorem mapM_render_eq_ok (h : List.Forall₂ (d.Spelled root) ts css) :
    (ts.mapM fun t => d.render (some root) t) =
      .ok ((css.map String.ofList).map .plain) := by
  induction h with
  | nil => rfl
  | cons h _ ih =>
    rw [List.mapM_cons, h.rendered, ih]
    rfl

theorem ofList_plain (f : List String → String) (texts : List String) :
    Rendered.ofList f (texts.map .plain) = .plain (f texts) := by
  simp [Rendered.ofList, Rendered.plain, Function.comp_def]

theorem toList_intercalate_ofList (css : List (List Char)) :
    (",".intercalate (css.map String.ofList)).toList = [','].intercalate css := by
  rw [String.toList_intercalate, List.map_map]
  congr 1
  exact (List.map_congr_left fun cs _ => String.toList_ofList).trans (List.map_id css)

theorem forall₂_takes (h : List.Forall₂ (d.Spelled root) ts css) :
    List.Forall₂ (fun cs t => Takes (phrase root) Ends cs t) css (ts.map Term.untyped) := by
  induction h with
  | nil => exact .nil
  | cons h _ ih => exact .cons h.leads.phrase ih

theorem neutral_of_forall₂ (h : List.Forall₂ (d.Spelled root) ts css) :
    Neutral ([','].intercalate css) := by
  apply neutral_intercalate
  induction h with
  | nil => simp
  | cons h _ ih => exact List.forall_mem_cons.2 ⟨h.neutral, ih⟩

theorem Spelled.array (h : List.Forall₂ (d.Spelled root) ts css) (ty : Ty) :
    d.Spelled root (.array ts ty) ('[' :: [','].intercalate css ++ [']']) := by
  have huntyped : (Term.array ts ty).untyped = .array (ts.map Term.untyped) .object := by
    rw [Term.untyped_eq]
    rfl
  refine .of_stem ?_ ?_ (strip_eq_self (Or.inl (by simp))) ?_ ?_
  · have htext : "[" ++ ",".intercalate (css.map String.ofList) ++ "]" =
        String.ofList ('[' :: [','].intercalate css ++ [']']) := by
      rw [← String.toList_inj, String.toList_append, String.toList_append,
        toList_intercalate_ofList]
      simp
    rw [Dialect.render, mapM_render_eq_ok h, ← htext]
    exact congrArg Except.ok (ofList_plain _ _)
  · exact neutral_cons (by decide)
      ((neutral_of_forall₂ h).append (neutral_cons (by decide) neutral_nil))
  · rw [huntyped]
    exact takes_stem_array (forall₂_takes h)
  · exact fun _ => ⟨']', List.getLast?_concat, by decide⟩

theorem Spelled.conditional {l r : Term} {as bs rs : List Char} (ht : d.Spelled root t as)
    (hl : d.Spelled root l bs) (hr : d.Spelled root r rs) (ty : Ty) :
    d.Spelled root (.conditional t l r ty)
      ("iif(".toList ++ ([','].intercalate [as, bs, rs] ++ [')'])) := by
  have h : List.Forall₂ (d.Spelled root) [t, l, r] [as, bs, rs] := .cons ht (.cons hl (.cons hr .nil))
  have huntyped : (Term.conditional t l r ty).untyped =
      .conditional t.untyped l.untyped r.untyped .object := by
    rw [Term.untyped_eq]
    rfl
  refine .of_stem ?_ ?_ (strip_eq_self (Or.inl (by simp))) ?_ ?_
  · have htext : "iif(" ++ ",".intercalate ([as, bs, rs].map String.ofList) ++ ")" =
        String.ofList ("iif(".toList ++ ([','].intercalate [as, bs, rs] ++ [')'])) := by
      rw [← String.toList_inj, String.toList_append, String.toList_append,
        toList_intercalate_ofList]
      simp
    rw [Dialect.render, ht.rendered, hl.rendered, hr.rendered, ← htext]
    exact congrArg Except.ok (ofList_plain _ ([as, bs, rs].map String.ofList))
  · have hiif : Neutral "iif".toList := neutral_of_all (by decide)
    exact hiif.append (neutral_of_forall₂ h).parenthesised
  · rw [huntyped]
    exact takes_stem_conditional (forall₂_takes h)
  · intro h
    cases h with
    | path h => cases h

theorem IsSet.ne_call (h : d.IsSet root t) (target : Option Term) (m : Method) (args : List Term) :
    t ≠ .call target m args := by
  rintro rfl
  cases h with
  | path h => cases h

theorem Spelled.contains {m : Method} {vs : List Char} (hm : m.name = "Contains")
    (hty : u.ty.isSequence = true) (hform : d.IsSet root u) (ht : d.Spelled root t vs)
    (hu : d.Spelled root u cs) :
    d.Spelled root (.call none m [u, t]) (vs ++ " in ".toList ++ cs) := by
  -- The set follows the value, so the whole ends as the set does: not with a parenthesis.
  have huntyped : (Term.call none m [u, t]).untyped = .membership u.untyped t.untyped := by
    rw [Term.untyped_eq, Term.membership, ← hm]
    rfl
  have hneutral : Neutral (vs ++ " in ".toList ++ cs) :=
    (ht.neutral.append (neutral_of_all (by decide))).append hu.neutral
  obtain ⟨c, hlast, hc⟩ := hu.tail hform
  have hstrip : strip (vs ++ " in ".toList ++ cs) = vs ++ " in ".toList ++ cs := by
    apply strip_eq_self
    right
    rw [List.getLast?_append, hlast, Option.some_or]
    simpa using hc
  have hleads := ht.leads.membership (hu.stem hform.ne_call)
  rw [← huntyped] at hleads
  have htext : String.ofList vs ++ " in " ++ String.ofList cs =
      String.ofList (vs ++ " in ".toList ++ cs) := by
    rw [← String.toList_inj]
    simp
  exact {
    rendered := by
      have hcall : CallForm.of m [u, t] = .membership u t := by
        simp [CallForm.of, hm, hty]
      rw [render_eq_rule, Dialect.rule, Option.toList_none, List.nil_append, hcall]
      dsimp only
      refine (Rule.run_two ..).trans ?_
      rw [ht.rendered, hu.rendered, ← htext]
      rfl
    neutral := hneutral
    bare := by rwa [hstrip]
    stem := fun h => absurd rfl (h none m [u, t])
    leads := hleads
    operation := by
      rw [hstrip]
      exact takes_operation_of_phrase hleads.phrase
    tail := fun h => absurd rfl (h.ne_call none m [u, t]) }

theorem exists_getLast?_of_word (h : ∀ c ∈ cs, isWordChar c = true) (hne : cs ≠ []) :
    ∃ c, cs.getLast? = some c ∧ c ≠ ')' := by
  refine ⟨cs.getLast hne, List.getLast?_eq_some_getLast hne, ?_⟩
  intro hc
  have hw := h _ (List.getLast_mem hne)
  rw [hc] at hw
  cases hw

theorem RootPath.untyped_eq {names : List String} (h : d.RootPath root t names) :
    t.untyped = path root names := by
  induction h with
  | root hq =>
    rw [Term.untyped_eq, path, ← hq]
    rfl
  | member _ _ ih =>
    rw [path, List.foldl_append, ← path, ← ih, Term.untyped_eq]
    rfl

theorem Spelled.path {names : List String} (hd : d.naming = .verbatim)
    (h : d.RootPath root t names) (hne : names ≠ []) (hn : ∀ n ∈ names, IsReadable n) :
    d.Spelled root t (dotted names).toList := by
  have hword := isWordChar_of_mem_dotted fun n hm => (hn n hm).1
  obtain ⟨b, cs, hcs, -⟩ := exists_start_of_dotted hne fun n hm => (hn n hm).1
  obtain ⟨c, hlast, hc⟩ := exists_getLast?_of_word hword (by simp [hcs])
  have hverbatim : names.map d.naming.apply = names := by
    rw [hd]
    exact List.map_id names
  have hwritten : writtenNames names = names := by
    obtain ⟨n, ns, rfl⟩ := List.exists_cons_of_ne_nil hne
    rfl
  refine .of_stem ?_ (neutral_of_forall_isWordChar hword)
    (strip_eq_self (Or.inr (by simpa [hlast] using hc))) ?_ fun _ => ⟨c, hlast, hc⟩
  · rw [h.render_eq, hverbatim, hwritten, String.ofList_toList]
  · rw [h.untyped_eq]
    exact takes_stem_dotted hne hn

theorem isWordChar_of_mem_ofInt (i : Int) : ∀ c ∈ Digits.ofInt i, isWordChar c = true := by
  have hdigits : ∀ c ∈ Digits.ofNat i.natAbs, isWordChar c = true := by
    intro c hc
    have hd := Digits.isDigit_of_mem_ofNat hc
    simp [isWordChar, isNameChar, Char.isAlphanum, hd]
  rw [Digits.ofInt]
  split
  · exact List.forall_mem_cons.2 ⟨by decide, hdigits⟩
  · exact hdigits

theorem Spelled.constant {value : Literal} {ty : Ty} (hv : value.isSimple = true)
    (hty : ty.underlyingEnum? = none) :
    d.Spelled root (.constant value ty) value.text.toList := by
  have huntyped : (Term.constant value ty).untyped = .constant value .object := by
    rw [Term.untyped_eq]
    rfl
  have hrender : d.render (some root) (.constant value ty) =
      .ok (.plain (String.ofList value.text.toList)) := by
    have htext : constantText value ty = value.text := by
      unfold constantText
      rw [hty]
      cases value <;> rfl
    rw [Dialect.render, htext, String.ofList_toList]
  have hset : ¬ d.IsSet root (.constant value ty) := by
    intro h
    cases h with
    | path h => cases h
  have hword : (∀ c ∈ value.text.toList, isWordChar c = true) →
      literal? value.text.toList = some value →
      d.Spelled root (.constant value ty) value.text.toList := by
    intro hw hl
    have hne : value.text.toList ≠ [] := by
      intro he
      rw [he] at hl
      cases hl
    obtain ⟨c, hlast, hc⟩ := exists_getLast?_of_word hw hne
    refine .of_stem hrender (neutral_of_forall_isWordChar hw)
      (strip_eq_self (Or.inr (by simpa [hlast] using hc))) ?_ fun h => absurd h hset
    rw [huntyped]
    exact takes_stem_literal hw hl
  cases value with
  | null => exact hword (List.all_eq_true.1 (by decide)) rfl
  | bool b => cases b <;> exact hword (List.all_eq_true.1 (by decide)) rfl
  | int i =>
    have htext : (Literal.int i).text.toList = Digits.ofInt i.toInt := String.toList_ofList
    exact hword (by rw [htext]; exact isWordChar_of_mem_ofInt i.toInt) (by rw [htext]; exact literal?_ofInt i)
  | string s =>
    have htext : (Literal.string s).text.toList = Quoted.chars s.toList := String.toList_ofList
    rw [htext] at hrender ⊢
    refine .of_stem hrender (neutral_quoted _) (strip_eq_self (Or.inl (by simp [Quoted.chars]))) ?_
      fun h => absurd h hset
    have hstem : Takes (Reader.stem root) Breaks (Quoted.chars s.toList)
        (.constant (.string (String.ofList s.toList)) .object) := takes_stem_quoted s.toList
    rw [huntyped]
    rwa [String.ofList_toList] at hstem
  | _ => cases hv

theorem exists_forall₂_spelled {elements : List Term}
    (h : ∀ e ∈ elements, ∃ cs, d.Spelled root e cs) :
    ∃ css, List.Forall₂ (d.Spelled root) elements css := by
  induction elements with
  | nil => exact ⟨[], .nil⟩
  | cons e elements ih =>
    obtain ⟨cs, hcs⟩ := h e List.mem_cons_self
    obtain ⟨css, hcss⟩ := ih fun e he => h e (List.mem_cons_of_mem _ he)
    exact ⟨cs :: css, .cons hcs hcss⟩

theorem Plain.exists_spelled (hd : d.naming = .verbatim) (h : d.Plain root t) :
    ∃ cs, d.Spelled root t cs := by
  induction h with
  | binary hop hl hr ihl ihr =>
    obtain ⟨token, hop⟩ := Option.isSome_iff_exists.1 hop
    obtain ⟨ls, hls⟩ := ihl
    obtain ⟨rs, hrs⟩ := ihr
    exact ⟨_, hls.binary hop (normalise_eq hl.ne_convert hr.ne_convert) hrs _⟩
  | not _ ih =>
    obtain ⟨cs, hcs⟩ := ih
    exact ⟨_, hcs.not _⟩
  | conditional _ _ _ iht ihl ihr =>
    obtain ⟨as, has⟩ := iht
    obtain ⟨bs, hbs⟩ := ihl
    obtain ⟨rs, hrs⟩ := ihr
    exact ⟨_, has.conditional hbs hrs _⟩
  | array _ ih =>
    obtain ⟨css, hcss⟩ := exists_forall₂_spelled ih
    exact ⟨_, .array hcss _⟩
  | contains hm hty hform _ _ ihs ihv =>
    obtain ⟨cs, hcs⟩ := ihs
    obtain ⟨vs, hvs⟩ := ihv
    exact ⟨_, .contains hm hty hform hvs hcs⟩
  | path h hne hn => exact ⟨_, .path hd h hne hn⟩
  | constant hv hty => exact ⟨_, .constant hv hty⟩

theorem Spelled.text_eq (h : d.Spelled root t cs) : d.text (some root) t = .ok (String.ofList cs) := by
  rw [Dialect.text, h.rendered]
  rfl

theorem Spelled.predicate_eq (h : d.Spelled root t cs) {p : Param} (hp : p.name = root) :
    d.predicate (.lambda [p] t) =
      .ok (String.ofList (if d.dropsOuterParens then strip cs else cs)) := by
  have hbody : d.bodyText (.lambda [p] t) = .ok (String.ofList cs) := by
    rw [← h.text_eq, ← hp]
    rfl
  rw [predicate, hbody]
  cases d.dropsOuterParens with
  | true =>
    have hs : stripOuterParens (String.ofList cs) = String.ofList (strip cs) := by
      rw [stripOuterParens, String.toList_ofList]
    exact congrArg Except.ok hs
  | false => rfl

theorem eq_of_takes {read : Nat → List Char → Option (Term × List Char)}
    {follows : List Char → Prop} (hnil : follows []) (ht : Takes read follows cs t)
    (hu : Takes read follows cs u) : t = u := by
  obtain ⟨n, hn, hm⟩ := (ht.and hu).exists
  have h := (hn [] hnil).symm.trans (hm [] hnil)
  exact (Prod.mk.inj (Option.some.inj h)).1

/-- Plain terms have texts, and neither the text nor the predicate of two of them is the same unless
they differ in nothing but what is not written. -/
theorem plain_determined_by_text (hd : d.naming = .verbatim) (ht : d.Plain root t)
    (hu : d.Plain root u) :
    (∃ text, d.text (some root) t = .ok text) ∧
    (d.text (some root) t = d.text (some root) u → t.untyped = u.untyped) ∧
    ∀ p q : Param, p.name = root → q.name = root →
      d.predicate (.lambda [p] t) = d.predicate (.lambda [q] u) → t.untyped = u.untyped := by
  obtain ⟨cs, hcs⟩ := ht.exists_spelled hd
  obtain ⟨ds, hds⟩ := hu.exists_spelled hd
  have hends : Ends [] := Closes.ends (by simp [Closes])
  have hwhole : cs = ds → t.untyped = u.untyped := by
    rintro rfl
    exact eq_of_takes hends hcs.leads.phrase hds.leads.phrase
  have hbare : strip cs = strip ds → t.untyped = u.untyped := by
    intro h
    exact eq_of_takes (by simp [Closes]) hcs.operation (h ▸ hds.operation)
  refine ⟨⟨_, hcs.text_eq⟩, ?_, ?_⟩
  · intro h
    rw [hcs.text_eq, hds.text_eq] at h
    exact hwhole (String.ofList_injective (Except.ok.inj h))
  · intro p q hp hq h
    rw [hcs.predicate_eq hp, hds.predicate_eq hq] at h
    have hchars := String.ofList_injective (Except.ok.inj h)
    split at hchars
    · exact hbare hchars
    · exact hwhole hchars

def nameNotListed (owner : String) (ty : Ty) : Term :=
  let name : Term := .member (some (.param ⟨"x", ty⟩)) ⟨owner, "Name", ty⟩
  .unary .not (.call none ⟨owner, "Contains", [], ty⟩
    [.array [.constant (.string "it's") (.scalar .string), name] (.sequence ty), name]) ty

theorem plain_nameNotListed (owner : String) (ty : Ty) :
    verbatim.Plain "x" (nameNotListed owner ty) := by
  have hroot : verbatim.RootPath "x" (.param ⟨"x", ty⟩) [] := .root rfl
  have hname : verbatim.Plain "x" (.member (some (.param ⟨"x", ty⟩)) ⟨owner, "Name", ty⟩) :=
    .path (hroot.member rfl) (by simp) (by simpa [IsReadable] using by decide)
  refine .not (.contains rfl rfl (.array _ _) (.array ?_) hname)
  intro e he
  rcases List.mem_pair.1 he with rfl | rfl
  · exact .constant rfl rfl
  · exact hname

theorem plain_determined_by_text_nameNotListed :
    verbatim.naming = .verbatim ∧ verbatim.Plain "x" (nameNotListed "Person" (.scalar .string)) ∧
      verbatim.Plain "x" (nameNotListed "Record" .object) ∧
      (∃ text, verbatim.text (some "x") (nameNotListed "Person" (.scalar .string)) = .ok text) ∧
      (verbatim.text (some "x") (nameNotListed "Person" (.scalar .string)) =
          verbatim.text (some "x") (nameNotListed "Record" .object) →
        (nameNotListed "Person" (.scalar .string)).untyped =
          (nameNotListed "Record" .object).untyped) ∧
      ∀ p q : Param, p.name = "x" → q.name = "x" →
        verbatim.predicate (.lambda [p] (nameNotListed "Person" (.scalar .string))) =
          verbatim.predicate (.lambda [q] (nameNotListed "Record" .object)) →
        (nameNotListed "Person" (.scalar .string)).untyped =
          (nameNotListed "Record" .object).untyped := by
  have ht := plain_nameNotListed "Person" (.scalar .string)
  have hu := plain_nameNotListed "Record" .object
  exact ⟨rfl, ht, hu, plain_determined_by_text rfl ht hu⟩

end Dialect
end RemoteQuery
