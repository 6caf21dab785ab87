import RemoteQuery.Proofs.Literal.Nested
import RemoteQuery.Proofs.Text.Enclosing
import RemoteQuery.Proofs.Wire.Renaming

/-!
# Texts of terms are well nested

What a node writes around the texts of its parts opens and closes its own brackets, if the names it
writes have none in them and the templates of the mappings are well nested themselves. So the text of
every term is well nested. If no name has a comma in it either, and no template has one outside of
brackets, the text is one item of a list.
-/

namespace RemoteQuery

open Nesting

variable {listed : Bool}

namespace Nesting

/-- The characters of the name neither open nor close anything, nor do they part the items of a list. -/
def InertName (listed : Bool) (name : String) : Prop := ∀ c ∈ name.toList, isInert listed c = true

theorem InertName.wellNested {name : String} (h : InertName listed name) :
    WellNested listed name.toList :=
  wellNested_of_isInert h

theorem isInert_of_code {c : Char} (h : c.toNat = 0 ∨ 97 ≤ c.toNat) : isInert listed c = true := by
  have hne : ∀ m : Char, m.toNat ≠ 0 ∧ m.toNat < 97 → c ≠ m := by
    rintro m hm rfl
    omega
  exact isInert_iff.2 ⟨hne _ (by decide), hne _ (by decide), hne _ (by decide), hne _ (by decide),
    hne _ (by decide), fun _ => hne _ (by decide)⟩

end Nesting

theorem LetterCase.eq_or_isInert_of_mem_lower {b c : Char} (h : b ∈ lower c) :
    b = c ∨ isInert listed b = true := by
  rw [lower] at h
  split at h
  · right
    rcases List.mem_pair.1 h with rfl | rfl <;> exact isInert_of_code (by decide)
  · split at h
    · rename_i r hr
      right
      have hshift : ∀ r ∈ runs, 97 ≤ (r.first : Int) + r.shift := by decide +kernel
      have hfirst : r.first ≤ c.toNat := by
        have hmaps := List.find?_some hr
        simp only [Run.maps, Bool.and_eq_true, decide_eq_true_iff] at hmaps
        exact hmaps.1.1
      have hletter := hshift r (List.mem_of_find?_eq_some hr)
      have hofNat : ∀ n : Nat, (Char.ofNat n).toNat = 0 ∨ (Char.ofNat n).toNat = n := by
        intro n
        by_cases hvalid : n.isValidChar
        · exact Or.inr (congrArg Char.toNat (dif_pos hvalid))
        · exact Or.inl (congrArg Char.toNat (dif_neg hvalid))
      rw [List.mem_singleton.1 h]
      apply isInert_of_code
      have hcode := hofNat (c.toNat + r.shift).toNat
      omega
    · exact Or.inl (List.mem_singleton.1 h)

theorem Naming.inertName_apply {naming : Naming} {name : String} (h : InertName listed name) :
    InertName listed (naming.apply name) := by
  cases naming with
  | verbatim => exact h
  | camelCase =>
    intro b hb
    rw [apply, LetterCase.lowerFirst] at hb
    split at hb
    · cases hb
    · rename_i c cs hn
      rw [String.toList_ofList] at hb
      have hname : ∀ c' ∈ c :: cs, isInert listed c' = true := hn ▸ h
      rcases List.mem_append.1 hb with hb | hb
      · rcases LetterCase.eq_or_isInert_of_mem_lower hb with rfl | hk
        · exact hname b List.mem_cons_self
        · exact hk
      · exact hname b (List.mem_cons_of_mem c hb)

theorem inertName_of_isIdentifier {name : String} (h : isIdentifier name = true) :
    InertName listed name := by
  obtain ⟨c, cs, hn, hc, hcs⟩ := isIdentifier_iff.1 h
  intro b hb
  apply isInert_of_isWordChar
  rw [hn] at hb
  rw [Reader.isWordChar, Bool.or_eq_true, Bool.or_eq_true]
  rcases List.mem_cons.1 hb with rfl | hb
  · exact Or.inl (Or.inl (isNameChar_of_isNameStart hc))
  · exact Or.inl (Or.inl (hcs b hb))

namespace Ty

def declaredNames : Ty → List String
  | .nullable inner => inner.declaredNames
  | .sequence element | .query element => element.declaredNames
  | .enum e => [e.name]
  | .entity name externalName _ => [externalName.getD name]
  | _ => []

theorem wellNested_wireName : ∀ {t : Ty}, (∀ name ∈ t.declaredNames, InertName listed name) →
    WellNested listed t.wireName.toList
  | .scalar s, _ => by cases s <;> exact wellNested_of_all _ rfl
  | .nullable inner, h => by
    simpa [wireName] using (wellNested_wireName (t := inner) h).append (wellNested_of_all ['?'] rfl)
  | .enum e, h => (h e.name List.mem_cons_self).wellNested
  | .entity name externalName _, h => (h (externalName.getD name) List.mem_cons_self).wellNested
  | .sequence element, h | .query element, h => by
    simpa [wireName] using (wellNested_of_all "Collection".toList rfl).append
      (wellNested_wireName (t := element) h).parenthesised
  | .dictionary .., _ | .function .., _ | .typeLiteral, _ => by
    rw [wireName]
    exact wellNested_of_all _ rfl
  | .tuple items, _ => by
    have hcount : WellNested listed (Digits.ofNat items.length) :=
      wellNested_word fun c hc => Reader.isWordChar_of_isDigit (Digits.isDigit_of_mem_ofNat hc)
    have htext : (wireName (.tuple items)).toList = "Tuple".toList ++ Digits.ofNat items.length := by
      rw [wireName, String.toList_append]
      exact congrArg _ String.toList_ofList
    rw [htext]
    exact (wellNested_of_all _ rfl).append hcount

end Ty

namespace Template

/-- An argument is filled in outside of quotes; being well nested itself, it changes nothing. -/
def stepSegment? (listed : Bool) (s : Place) : Segment → Option Place
  | .text c => step? listed s c
  | .argument _ => if s.quoted then none else some s
  | .broken _ => none

def WellNested (listed : Bool) (template : String) : Prop :=
  (segments template).foldlM (stepSegment? listed) start = some start

instance (listed : Bool) (template : String) : Decidable (WellNested listed template) :=
  inferInstanceAs (Decidable (_ = _))

variable {template : String} {args : List String} {segs : List Segment} {s s' : Place} {cs : List Char}

theorem scan?_of_fillSegments (hargs : ∀ arg ∈ args, Nesting.WellNested listed arg.toList)
    (hsegs : segs.foldlM (stepSegment? listed) s = some s')
    (h : fillSegments template args segs = .ok cs) : scan? listed s cs = some s' := by
  induction segs generalizing s cs with
  | nil =>
    cases h
    exact hsegs
  | cons seg segs ih =>
    rw [List.foldlM_cons, Option.bind_eq_bind, Option.bind_eq_some_iff] at hsegs
    obtain ⟨t, hseg, hsegs⟩ := hsegs
    cases seg with
    | text c =>
      rw [fillSegments] at h
      cases hrest : fillSegments template args segs with
      | error why => simp [hrest, Except.map] at h
      | ok rest =>
        rw [hrest] at h
        cases h
        rw [scan?_cons, show step? listed s c = some t from hseg]
        exact ih hsegs hrest
    | argument index =>
      rw [fillSegments] at h
      cases harg : args[index]? with
      | none => simp [harg] at h
      | some arg =>
        cases hrest : fillSegments template args segs with
        | error why => simp [harg, hrest, Except.map] at h
        | ok rest =>
          simp only [harg, hrest, Except.map] at h
          cases h
          obtain ⟨quoted, awaited⟩ := s
          cases quoted with
          | true => cases hseg
          | false =>
            cases hseg
            have hin := hargs arg (List.mem_of_getElem? harg)
            rw [scan?_append, hin.scan?_eq fun _ hl => hl]
            exact ih hsegs hrest
    | broken position => cases hseg

theorem stepSegment?_weaken {seg : Segment} (h : stepSegment? listed s seg = some s') :
    stepSegment? true s seg = some s' := by
  cases seg with
  | text c =>
    have hstep := step?_within (r := []) (fun _ _ => rfl) h
    rwa [List.append_nil, List.append_nil] at hstep
  | argument index => exact h
  | broken position => cases h

theorem WellNested.weaken (h : WellNested listed template) : WellNested true template := by
  have hrun : ∀ {segs : List Segment} {s s' : Place}, segs.foldlM (stepSegment? listed) s = some s' →
      segs.foldlM (stepSegment? true) s = some s' := by
    intro segs
    induction segs with
    | nil => exact fun h => h
    | cons seg segs ih =>
      intro s s' hs
      rw [List.foldlM_cons, Option.bind_eq_bind, Option.bind_eq_some_iff] at hs ⊢
      obtain ⟨t, hseg, hsegs⟩ := hs
      exact ⟨t, stepSegment?_weaken hseg, ih hsegs⟩
  exact hrun h

theorem wellNested_fill (ht : WellNested listed template)
    (hargs : ∀ arg ∈ args, Nesting.WellNested listed arg.toList) {text : String}
    (h : fill template args = .ok text) : Nesting.WellNested listed text.toList := by
  rw [fill] at h
  cases hcs : fillSegments template args (segments template) with
  | error why => simp [hcs, Except.map] at h
  | ok cs =>
    rw [hcs] at h
    cases h
    rw [String.toList_ofList]
    exact scan?_of_fillSegments hargs ht hcs

end Template

namespace MappingTable

def WellNested (listed : Bool) (table : MappingTable) : Prop :=
  ∀ m ∈ table.entries, Template.WellNested listed m.template

theorem mem_of_mem_register {table : MappingTable} {m e : Mapping}
    (h : e ∈ (table.register m).entries) : e = m ∨ e ∈ table.entries := by
  rw [register] at h
  split at h
  · obtain ⟨f, hf, rfl⟩ := List.mem_map.1 h
    split
    · exact Or.inl rfl
    · exact Or.inr hf
  · rcases List.mem_append.1 h with h | h
    · exact Or.inr h
    · exact Or.inl (List.mem_singleton.1 h)

theorem wellNested_ofList {ms : List Mapping} (h : ∀ m ∈ ms, Template.WellNested listed m.template) :
    (ofList ms).WellNested listed := by
  have hfold : ∀ {table : MappingTable}, table.WellNested listed →
      (ms.foldl register table).WellNested listed := by
    induction ms with
    | nil => exact fun ht => ht
    | cons m ms ih =>
      obtain ⟨hm, hms⟩ := List.forall_mem_cons.1 h
      intro table ht
      refine ih hms fun e he => ?_
      rcases mem_of_mem_register he with rfl | he
      · exact hm
      · exact ht e he
  exact hfold (by simp [WellNested, empty])

theorem WellNested.weaken {table : MappingTable} (h : table.WellNested listed) : table.WellNested true :=
  fun m hm => (h m hm).weaken

theorem wellNested_standard : standard.WellNested false := by
  have htemplates : (standardStrings ++ standardDates ++ standardNumbers ++ standardSequences ++
      standardObjects).all (fun m => Template.WellNested false m.template) = true := by
    decide +kernel
  exact wellNested_ofList fun m hm => of_decide_eq_true (List.all_eq_true.1 htemplates m hm)

end MappingTable

namespace Term

def spelledNames : Term → List String
  | .member _ m => [m.name]
  | .unary _ _ ty => ty.declaredNames
  | .typeTest _ tested => tested.declaredNames
  | t => t.ownNames

/-- No name in the term has a bracket or a quote in it, nor a comma if it may not be listed. -/
def InertNames (listed : Bool) (t : Term) : Prop :=
  t.Every fun u => ∀ name ∈ u.spelledNames, InertName listed name

end Term

namespace Nesting

variable {cs ds : List Char}

theorem WellNested.called (h : WellNested true cs) (word : List Char)
    (hw : word.all (isInert listed) = true) : WellNested listed (word ++ '(' :: (cs ++ [')'])) :=
  (wellNested_of_all word hw).append h.parenthesised

theorem WellNested.listedWith (hc : WellNested true cs) (hd : WellNested true ds) :
    WellNested true (cs ++ ',' :: ds) :=
  hc.append ((wellNested_of_all [','] rfl).append hd)

end Nesting

theorem wellNested_constantText (value : Literal) (ty : Ty) :
    WellNested listed (constantText value ty).toList := by
  unfold constantText
  split
  · exact wellNested_quote _
  · exact Literal.wellNested_text listed _

theorem wellNested_lookupText {receiver : Option String} {key : String} {safe : Bool}
    (h : ∀ s ∈ receiver, WellNested listed s.toList) :
    WellNested listed (lookupText receiver key safe).toList := by
  have hreceiver : WellNested listed (receiver.getD "this").toList := by
    cases receiver with
    | none => exact wellNested_of_all _ rfl
    | some s => exact h s rfl
  unfold lookupText
  split
  · rename_i hkey
    have hname : WellNested listed key.toList :=
      (inertName_of_isIdentifier (Bool.and_eq_true_iff.1 hkey).2).wellNested
    cases receiver with
    | none => exact hname
    | some s =>
      simpa using (hreceiver.append (wellNested_of_all ['.'] rfl)).append hname
  · have hkey : WellNested true (quote key).toList := wellNested_quote key
    simpa using hreceiver.append hkey.squared

theorem Operand.inherited_every {P : Term → Prop} (hP : ∀ value ty, P (.constant value ty)) :
    Inherited fun t => t.Every P where
  operand op t ty h := (Term.every_iff.1 h).2 t (by simp [Term.children])
  constant value ty := Term.every_iff.2 ⟨hP value ty, by simp [Term.children]⟩

theorem Dialect.Reads.every {P : Term → Prop} (hP : ∀ value ty, P (.constant value ty)) {t : Term}
    {parts : List Term} (h : t.Every P) (hreads : Reads t parts) : ∀ u ∈ parts, u.Every P := by
  have hchildren := (Term.every_iff.1 h).2
  cases hreads with
  | operands ht hp =>
    rename_i op left right ty
    subst ht hp
    have hinherited := Operand.inherited_every hP
    simpa using hinherited.normalise hinherited op (hchildren left (by simp [Term.children]))
      (hchildren right (by simp [Term.children]))
  | children hsub _ => exact fun u hu => hchildren u (hsub u hu)

namespace Rule

def KeepsNested (listed : Bool) (rule : Rule) : Prop :=
  ∀ texts text, (∀ s ∈ texts, WellNested listed s.toList) → rule.write texts = .ok text →
    WellNested listed text.toList

variable {root : Option String} {t u : Term} {ts : List Term}

theorem wellNested_getD {texts : List String} (h : ∀ s ∈ texts, WellNested listed s.toList) (i : Nat) :
    WellNested listed (texts.getD i "").toList := by
  rw [List.getD_eq_getElem?_getD]
  cases hi : texts[i]? with
  | none => exact wellNested_nil
  | some s => exact h s (List.mem_of_getElem? hi)

theorem keepsNested_fixed {text : String} (h : WellNested listed text.toList) :
    (fixed text).KeepsNested listed := by
  intro texts _ _ hw
  cases hw
  exact h

theorem keepsNested_one {f : String → String}
    (h : ∀ s, WellNested listed s.toList → WellNested listed (f s).toList) :
    (one root t f).KeepsNested listed := by
  intro texts _ htexts hw
  cases hw
  exact h _ (wellNested_getD htexts 0)

theorem keepsNested_two {f : String → String → String}
    (h : ∀ r s, WellNested listed r.toList → WellNested listed s.toList → WellNested listed (f r s).toList) :
    (two root t u f).KeepsNested listed := by
  intro texts _ htexts hw
  cases hw
  exact h _ _ (wellNested_getD htexts 0) (wellNested_getD htexts 1)

theorem keepsNested_listed {f : String → String}
    (h : ∀ s, WellNested true s.toList → WellNested listed (f s).toList) :
    (Rule.listed root ts fun texts => f (",".intercalate texts)).KeepsNested listed := by
  intro texts _ htexts hw
  cases hw
  apply h
  rw [String.toList_intercalate]
  refine wellNested_intercalate fun cs hcs => ?_
  obtain ⟨s, hs, rfl⟩ := List.mem_map.1 hcs
  exact (htexts s hs).weaken

theorem keepsNested_mapped {mapping : Mapping} (h : Template.WellNested listed mapping.template) :
    (mapped mapping root ts).KeepsNested listed := by
  intro texts text htexts hw
  change (mapping.fill texts).mapError Fault.template = .ok text at hw
  cases hfill : mapping.fill texts with
  | error why => simp [hfill, Except.mapError] at hw
  | ok filled =>
    rw [hfill] at hw
    cases hw
    exact Template.wellNested_fill h htexts hfill

end Rule

namespace Dialect

variable {d : Dialect} {root : Option String} {t : Term} {rule : Rule}

theorem wellNested_of_resolve? (hd : d.mappings.WellNested listed) {s : Signature} {m : Mapping}
    (h : d.mappings.resolve? s = some m) : Template.WellNested listed m.template :=
  hd m (List.mem_of_find?_eq_some h)

theorem keepsNested_unary {op : UnaryOp} {operand : Term} {ty : Ty}
    (hnames : ∀ name ∈ ty.declaredNames, InertName listed name)
    (h : d.rule root (.unary op operand ty) = .ok rule) : rule.KeepsNested listed := by
  have hty : WellNested true ty.wireName.toList := (Ty.wellNested_wireName hnames).weaken
  cases op with
  | not =>
    rw [Dialect.rule] at h
    cases h
    refine Rule.keepsNested_one fun s hs => ?_
    simpa [stripOuterParens] using hs.strip.called "not ".toList rfl
  | typeAs =>
    rw [Dialect.rule] at h
    cases h
    refine Rule.keepsNested_one fun s hs => ?_
    have hin := (hs.weaken.append (wellNested_of_all " as ".toList rfl)).append hty
    simpa using hin.parenthesised
  | negate => rw [Dialect.rule] at h; cases h
  | convert =>
    rw [Dialect.rule] at h
    split at h
    · cases h
      exact Rule.keepsNested_one fun _ hs => hs
    · split at h
      · cases h
        refine Rule.keepsNested_fixed ?_
        simpa using hty.called "cast".toList rfl
      · cases h
        refine Rule.keepsNested_one fun s hs => ?_
        simpa using (hs.weaken.listedWith hty).called "cast".toList rfl

theorem keepsNested_call (hd : d.mappings.WellNested listed) {target : Option Term} {method : Method}
    {args : List Term} (h : d.rule root (.call target method args) = .ok rule) :
    rule.KeepsNested listed := by
  rw [Dialect.rule] at h
  cases hf : CallForm.of method (target.toList ++ args) with
  | membership set value =>
    rw [hf] at h
    cases h
    refine Rule.keepsNested_two fun r s hr hs => ?_
    simpa using (hr.append (wellNested_of_all " in ".toList rfl)).append hs
  | lookup dictionary key safe =>
    rw [hf] at h
    dsimp only at h
    cases hk : key.constant?.bind Literal.string? with
    | none => rw [hk] at h; cases h
    | some name =>
      rw [hk] at h
      dsimp only at h
      split at h
      · cases h
        exact Rule.keepsNested_fixed (wellNested_lookupText (by simp))
      · cases h
        refine Rule.keepsNested_one fun s hs => wellNested_lookupText ?_
        simpa using hs
  | mapped =>
    rw [hf] at h
    dsimp only at h
    cases hm : d.mappings.resolve? method.mappedSignature with
    | none => rw [hm] at h; cases h
    | some mapping =>
      rw [hm] at h
      cases h
      exact Rule.keepsNested_mapped (wellNested_of_resolve? hd hm)

theorem keepsNested_rule (hd : d.mappings.WellNested listed)
    (hnames : ∀ name ∈ t.spelledNames, InertName listed name) (h : d.rule root t = .ok rule) :
    rule.KeepsNested listed := by
  cases t with
  | binary op left right ty =>
    rw [Dialect.rule] at h
    split at h
    · cases h
    · rename_i token htoken
      cases h
      refine Rule.keepsNested_two fun r s hr hs => ?_
      have hmiddle : WellNested true (" " ++ token ++ " ").toList := by
        cases op <;> cases htoken <;> exact wellNested_of_all _ rfl
      simpa using ((hr.weaken.append hmiddle).append hs.weaken).parenthesised
  | unary op operand ty => exact keepsNested_unary hnames h
  | member target m =>
    have hname : WellNested listed (d.naming.apply m.name).toList :=
      (Naming.inertName_apply (hnames m.name List.mem_cons_self)).wellNested
    unfold Dialect.rule at h
    cases hm : d.mappings.resolve? m.signature with
    | some mapping =>
      simp only [hm] at h
      cases h
      exact Rule.keepsNested_mapped (wellNested_of_resolve? hd hm)
    | none =>
      simp only [hm] at h
      split at h
      · cases h
      · split at h
        · cases h
          exact Rule.keepsNested_fixed hname
        · cases h
          refine Rule.keepsNested_one fun s hs => ?_
          simpa using (hs.append (wellNested_of_all ['.'] rfl)).append hname
  | constant value ty =>
    rw [Dialect.rule] at h
    cases h
    exact Rule.keepsNested_fixed (wellNested_constantText value ty)
  | call target method args => exact keepsNested_call hd h
  | typeTest target tested =>
    have hty : WellNested true tested.wireName.toList := (Ty.wellNested_wireName hnames).weaken
    rw [Dialect.rule] at h
    split at h
    · cases h
      refine Rule.keepsNested_fixed ?_
      simpa using hty.called "isof".toList rfl
    · cases h
      refine Rule.keepsNested_one fun s hs => ?_
      simpa using (hs.weaken.listedWith hty).called "isof".toList rfl
  | lambda params body =>
    cases params with
    | nil =>
      unfold Dialect.rule at h
      cases h
    | cons p rest =>
      cases rest with
      | nil =>
        rw [Dialect.rule] at h
        cases h
        refine Rule.keepsNested_one fun s hs => ?_
        have hname := (hnames p.name List.mem_cons_self).wellNested
        simpa using (hname.append (wellNested_of_all [':'] rfl)).append hs
      | cons q rest =>
        unfold Dialect.rule at h
        cases h
  | conditional test onTrue onFalse ty =>
    rw [Dialect.rule] at h
    cases h
    refine Rule.keepsNested_listed (f := fun s => "iif(" ++ s ++ ")") fun s hs => ?_
    simpa using hs.called "iif".toList rfl
  | param p =>
    rw [Dialect.rule] at h
    cases h
    refine Rule.keepsNested_fixed ?_
    split
    · exact wellNested_of_all _ rfl
    · exact (hnames p.name List.mem_cons_self).wellNested
  | array elements ty =>
    rw [Dialect.rule] at h
    cases h
    refine Rule.keepsNested_listed (f := fun s => "[" ++ s ++ "]") fun s hs => ?_
    simpa using hs.squared
  | construct names args ty => rw [Dialect.rule] at h; cases h
  | listInit rows ty => rw [Dialect.rule] at h; cases h

theorem wellNested_render (hd : d.mappings.WellNested listed) {root : Option String} {t : Term}
    (ht : t.InertNames listed) {r : Rendered} (h : d.render root t = .ok r) :
    WellNested listed r.text.toList := by
  obtain ⟨rule, hrule, rs, hrs, hwrite, -⟩ := render_eq_ok h
  have hreads := (reads_of_rule hrule).2
  refine keepsNested_rule hd (Term.every_iff.1 ht).1 hrule _ _ ?_ hwrite
  intro text htext
  obtain ⟨s, hs, rfl⟩ := List.mem_map.1 htext
  obtain ⟨part, hpart, hr⟩ := (Rule.mem_of_mapM_eq_ok hrs).2 s hs
  have hu := List.mem_map_of_mem (f := (·.2)) hpart
  -- the part need not be a child, as operands are normalised, but it has fewer nodes
  have := nodes_lt_of_reads hreads hu
  exact wellNested_render hd (Reads.every (fun _ _ => nofun) ht hreads part.2 hu) hr
termination_by t.nodes

end Dialect
end RemoteQuery
