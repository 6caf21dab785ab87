import RemoteQuery.Proofs.Wire.Nested

/-!
# Fields of a projection

A projection writes its fields with commas between them, and each field as a text and a name. A list
with constant keys gives them as the names, as they are. Where the keys are identifiers and the values
spell no comma outside of brackets and quotes, the fields can be cut apart and the keys are seen from
the text. A key that is no identifier can spell more fields than there are.
-/

namespace RemoteQuery

open Nesting

namespace Term

def rowOf (part : String × Term) : List Term := [.constant (.string part.1) (.scalar .string), part.2]

theorem rowPart?_rowOf {part : String × Term} (h : part.2.isNullConstant = false) :
    rowPart? (rowOf part) = some part := by
  simp [rowOf, rowPart?, h, constant?, Literal.string?]

theorem isNullConstant_of_rowPart? {row : List Term} {part : String × Term}
    (h : rowPart? row = some part) : part.2.isNullConstant = false := by
  unfold rowPart? at h
  split at h
  · split at h
    · cases h
    · rename_i hnull
      obtain ⟨name, -, rfl⟩ := Option.map_eq_some_iff.1 h
      exact Bool.eq_false_iff.2 hnull
  · cases h

theorem length_of_parts? {rows : List (List Term)} {ty : Ty} {parts : List (String × Term)}
    (h : (listInit rows ty).parts? = some parts) : parts.length = rows.length := by
  rw [parts?_listInit] at h
  induction rows generalizing parts with
  | nil =>
    cases h
    rfl
  | cons row rows ih =>
    rw [List.mapM_cons] at h
    obtain ⟨part, -, h⟩ := Option.bind_eq_some_iff.1 h
    obtain ⟨rest, hrest, h⟩ := Option.bind_eq_some_iff.1 h
    obtain rfl := Option.some.inj h
    rw [List.length_cons, List.length_cons, ih hrest]

theorem parts?_map_rowOf {parts : List (String × Term)}
    (h : ∀ part ∈ parts, part.2.isNullConstant = false) (ty : Ty) :
    (listInit (parts.map rowOf) ty).parts? = some parts := by
  have hrows := mapM_eq_some_map (f := rowPart? ∘ rowOf) (g := id) fun part hp => rowPart?_rowOf (h part hp)
  rw [List.map_id] at hrows
  rw [parts?_listInit, List.mapM_map]
  exact hrows

theorem isNullConstant_of_mem_parts? {rows : List (List Term)} {ty : Ty} {parts : List (String × Term)}
    (h : (listInit rows ty).parts? = some parts) {part : String × Term} (hp : part ∈ parts) :
    part.2.isNullConstant = false := by
  obtain ⟨row, -, hr⟩ := mem_of_mapM_eq_some h hp
  exact isNullConstant_of_rowPart? hr

end Term

theorem field_inj {text text' name name' : String} (hn : isIdentifier name = true)
    (hn' : isIdentifier name' = true) (h : text ++ " as " ++ name = text' ++ " as " ++ name') :
    text = text' ∧ name = name' := by
  have hname : ∀ {name : String}, isIdentifier name = true →
      ∀ c ∈ name.toList.reverse, isNameChar c = true := by
    intro name hn c hc
    obtain ⟨b, bs, hb, hstart, hrest⟩ := isIdentifier_iff.1 hn
    rw [List.mem_reverse, hb] at hc
    rcases List.mem_cons.1 hc with rfl | hc
    · exact isNameChar_of_isNameStart hstart
    · exact hrest c hc
  have hreverse : name.toList.reverse ++ ' ' :: ("sa ".toList ++ text.toList.reverse) =
      name'.toList.reverse ++ ' ' :: ("sa ".toList ++ text'.toList.reverse) := by
    have hlist := congrArg (·.toList.reverse) h
    simpa using hlist
  obtain ⟨he, hrest⟩ := run_append_inj (hname hn) (hname hn') (stops_cons (by decide) _)
    (stops_cons (by decide) _) hreverse
  have htext := List.append_cancel_left (List.cons.inj hrest).2
  exact ⟨String.toList_inj.1 (List.reverse_injective htext),
    String.toList_inj.1 (List.reverse_injective he)⟩

namespace Dialect

variable {d : Dialect} {root root' : Option String} {parts parts' : List (String × Term)}

def fields (d : Dialect) (root : Option String) (parts : List (String × Term)) :
    Except Fault (List String) :=
  parts.mapM fun part => d.namedText root part.1 part.2

theorem projectionOf_of_parts? {body : Term} (h : body.parts? = some parts) :
    d.projectionOf root body = (d.fields root parts).map (",".intercalate ·) := by
  rw [projectionOf, h]
  rfl

theorem namedText_eq_ok_iff {name field : String} {t : Term} : d.namedText root name t = .ok field ↔
    ∃ text, d.text root t = .ok text ∧ field = text ++ " as " ++ name := by
  rw [namedText]
  cases d.text root t <;> simp [bind, Except.bind, pure, Except.pure, eq_comm]

theorem keys_of_fields (hk : ∀ part ∈ parts, isIdentifier part.1 = true)
    (hk' : ∀ part ∈ parts', isIdentifier part.1 = true) {fields : List String}
    (h : d.fields root parts = .ok fields) (h' : d.fields root' parts' = .ok fields) :
    parts.map Prod.fst = parts'.map Prod.fst := by
  induction parts generalizing parts' fields with
  | nil =>
    cases h
    have hlength := Rule.length_of_mapM_eq_ok h'
    rw [List.eq_nil_of_length_eq_zero hlength.symm]
  | cons part parts ih =>
    obtain ⟨hfirst, hrest⟩ := List.forall_mem_cons.1 hk
    obtain ⟨field, fields, hfield, hfields, rfl⟩ := Rule.mapM_cons_eq_ok h
    cases parts' with
    | nil => cases h'
    | cons part' parts' =>
      obtain ⟨hfirst', hrest'⟩ := List.forall_mem_cons.1 hk'
      obtain ⟨field', fields', hfield', hfields', he⟩ := Rule.mapM_cons_eq_ok h'
      obtain ⟨rfl, rfl⟩ := List.cons.inj he
      obtain ⟨text, -, htext⟩ := namedText_eq_ok_iff.1 hfield
      obtain ⟨text', -, htext'⟩ := namedText_eq_ok_iff.1 hfield'
      have hkey := (field_inj hfirst hfirst' (htext.symm.trans htext')).2
      rw [List.map_cons, List.map_cons, hkey, ih hrest hrest' hfields hfields']

theorem wellNested_of_mem_fields (hd : d.mappings.WellNested false)
    (hk : ∀ part ∈ parts, isIdentifier part.1 = true ∧ part.2.InertNames false) {fields : List String}
    (h : d.fields root parts = .ok fields) :
    ∀ field ∈ fields, WellNested false field.toList ∧ field.toList ≠ [] := by
  intro field hfield
  obtain ⟨part, hpart, hf⟩ := (Rule.mem_of_mapM_eq_ok h).2 field hfield
  obtain ⟨hname, hinert⟩ := hk part hpart
  obtain ⟨text, htext, rfl⟩ := namedText_eq_ok_iff.1 hf
  obtain ⟨r, hr, rfl⟩ := text_eq_ok.1 htext
  have hvalue := wellNested_render hd hinert hr
  have hkey : WellNested false part.1.toList := (inertName_of_isIdentifier hname).wellNested
  refine ⟨?_, by simp⟩
  simpa using (hvalue.append (wellNested_of_all " as ".toList rfl)).append hkey

theorem fields_inj (hd : d.mappings.WellNested false)
    (hk : ∀ part ∈ parts, isIdentifier part.1 = true ∧ part.2.InertNames false)
    (hk' : ∀ part ∈ parts', isIdentifier part.1 = true ∧ part.2.InertNames false)
    {fields fields' : List String} (h : d.fields root parts = .ok fields)
    (h' : d.fields root' parts' = .ok fields')
    (he : ",".intercalate fields = ",".intercalate fields') : fields = fields' := by
  have hitems := wellNested_of_mem_fields hd hk h
  have hitems' := wellNested_of_mem_fields hd hk' h'
  have hlist := congrArg String.toList he
  rw [String.toList_intercalate, String.toList_intercalate] at hlist
  have hmap := intercalate_inj (by simpa using hitems) (by simpa using hitems') hlist
  exact (List.map_inj_right fun _ _ => String.toList_inj.1).1 hmap

def merged (first : String × Term) (field : String) (parts : List (String × Term)) :
    List (String × Term) :=
  (first.1 ++ "," ++ field, first.2) :: parts

theorem fields_merged {first second : String × Term} {texts : List String}
    (h : d.fields root (first :: second :: parts) = .ok texts) :
    ∃ field texts', d.fields root (merged first field parts) = .ok texts' ∧
      ",".intercalate texts' = ",".intercalate texts := by
  obtain ⟨one, others, hone, hothers, rfl⟩ := Rule.mapM_cons_eq_ok h
  obtain ⟨two, rest, -, hrest, rfl⟩ := Rule.mapM_cons_eq_ok hothers
  obtain ⟨text, htext, rfl⟩ := namedText_eq_ok_iff.1 hone
  have hmerged : d.namedText root (first.1 ++ "," ++ two) first.2 =
      .ok (text ++ " as " ++ first.1 ++ "," ++ two) :=
    namedText_eq_ok_iff.2 ⟨text, htext, by simp only [String.append_assoc]⟩
  refine ⟨two, (text ++ " as " ++ first.1 ++ "," ++ two) :: rest, ?_, ?_⟩
  · rw [fields, merged, List.mapM_cons, hmerged, hrest]
    rfl
  · rw [String.intercalate_cons_append, String.intercalate_cons_cons]

theorem fields_of_projection {p : Param} {body : Term} (hp : body.parts? = some parts) {text : String}
    (h : d.projection (.lambda [p] body) = .ok text) :
    ∃ texts, d.fields (some p.name) parts = .ok texts ∧ ",".intercalate texts = text := by
  have hbody : d.projectionOf (some p.name) body = .ok text := h
  rw [projectionOf_of_parts? hp] at hbody
  cases hf : d.fields (some p.name) parts with
  | error why => simp [hf, Except.map] at hbody
  | ok texts => exact ⟨texts, rfl, by simpa [hf, Except.map] using hbody⟩

/-- Keyed lists with the same text have the same keys in the same order, if the keys are identifiers and
neither the names in the values nor the mappings spell brackets or commas. Without the condition on the
keys there is, for each keyed list with more than one row, one with a row fewer and the same text. -/
theorem keys_seen_from_projection (hd : d.mappings.WellNested false) :
    (∀ {root root' : Param} {rows rows' : List (List Term)} {ty ty' : Ty}
        {parts parts' : List (String × Term)} {text : String},
        (Term.listInit rows ty).parts? = some parts →
        (Term.listInit rows' ty').parts? = some parts' →
        (∀ part ∈ parts, isIdentifier part.1 = true ∧ part.2.InertNames false) →
        (∀ part ∈ parts', isIdentifier part.1 = true ∧ part.2.InertNames false) →
        d.projection (.lambda [root] (.listInit rows ty)) = .ok text →
        d.projection (.lambda [root'] (.listInit rows' ty')) = .ok text →
        rows.length = rows'.length ∧ parts.map Prod.fst = parts'.map Prod.fst) ∧
      ∀ {root : Param} {rows : List (List Term)} {ty : Ty} {parts : List (String × Term)} {text : String},
        (Term.listInit rows ty).parts? = some parts → 1 < rows.length →
        d.projection (.lambda [root] (.listInit rows ty)) = .ok text →
        ∃ rows' parts', (Term.listInit rows' ty).parts? = some parts' ∧
          rows'.length + 1 = rows.length ∧
          d.projection (.lambda [root] (.listInit rows' ty)) = .ok text := by
  constructor
  · intro root root' rows rows' ty ty' parts parts' text hp hp' hk hk' h h'
    obtain ⟨texts, hfields, rfl⟩ := fields_of_projection hp h
    obtain ⟨texts', hfields', he⟩ := fields_of_projection hp' h'
    obtain rfl := fields_inj hd hk hk' hfields hfields' he.symm
    have hkeys := keys_of_fields (fun part hm => (hk part hm).1) (fun part hm => (hk' part hm).1)
      hfields hfields'
    refine ⟨?_, hkeys⟩
    rw [← Term.length_of_parts? hp, ← Term.length_of_parts? hp', ← List.length_map Prod.fst, hkeys,
      List.length_map]
  · intro root rows ty parts text hp hlength h
    rw [← Term.length_of_parts? hp] at hlength
    obtain ⟨first, second, others, rfl⟩ : ∃ first second others, parts = first :: second :: others := by
      match parts, hlength with
      | first :: second :: others, _ => exact ⟨first, second, others, rfl⟩
    obtain ⟨texts, hfields, rfl⟩ := fields_of_projection hp h
    obtain ⟨field, texts', hmerged, he⟩ := fields_merged hfields
    have hnull : ∀ part ∈ merged first field others, part.2.isNullConstant = false := by
      have hfirst := Term.isNullConstant_of_mem_parts? hp (List.mem_cons_self (a := first))
      intro part hm
      rcases List.mem_cons.1 hm with rfl | hm
      · exact hfirst
      · exact Term.isNullConstant_of_mem_parts? hp (List.mem_cons_of_mem _ (List.mem_cons_of_mem _ hm))
    have hparts := Term.parts?_map_rowOf hnull ty
    refine ⟨_, _, hparts, ?_, ?_⟩
    · rw [← Term.length_of_parts? hp, List.length_map]
      rfl
    · show d.projectionOf _ _ = _
      rw [projectionOf_of_parts? hparts, hmerged, ← he]
      rfl

def labelled (product : String) (labels : List (String × String)) : List (String × Term) :=
  labels.map fun label => (label.1, .member (some (.param ⟨product, .object⟩))
    ⟨"Product", label.2, .object⟩)

def labelledList (product : String) (labels : List (String × String)) : Term :=
  .listInit ((labelled product labels).map Term.rowOf) .object

theorem inertNames_labelled (product : String) (hp : isIdentifier product = true)
    {labels : List (String × String)}
    (hl : ∀ label ∈ labels, isIdentifier label.1 = true ∧ isIdentifier label.2 = true) :
    ∀ part ∈ labelled product labels, isIdentifier part.1 = true ∧ part.2.InertNames false := by
  intro part hpart
  obtain ⟨label, hlabel, rfl⟩ := List.mem_map.1 hpart
  obtain ⟨hkey, hname⟩ := hl label hlabel
  have hroot : (Term.param ⟨product, .object⟩).InertNames false := by
    refine Term.every_iff.2 ⟨?_, nofun⟩
    simpa [Term.spelledNames, Term.ownNames] using inertName_of_isIdentifier hp
  refine ⟨hkey, Term.every_iff.2 ⟨?_, ?_⟩⟩
  · simpa [Term.spelledNames] using inertName_of_isIdentifier hname
  · intro c hc
    obtain rfl := List.mem_singleton.1 hc
    exact hroot

theorem keys_seen_from_projection_labelled :
    camelCased.mappings.WellNested false ∧
      (∀ part ∈ labelled "x" [("label", "Name"), ("cost", "Price")],
        isIdentifier part.1 = true ∧ part.2.InertNames false) ∧
      camelCased.projection (.lambda [⟨"x", .object⟩]
        (labelledList "x" [("label", "Name"), ("cost", "Price")])) = .ok "name as label,price as cost" ∧
      camelCased.projection (.lambda [⟨"y", .object⟩]
        (labelledList "y" [("label", "Name"), ("cost", "Price")])) = .ok "name as label,price as cost" ∧
      (labelled "x" [("label", "Name"), ("cost", "Price")]).map Prod.fst =
        (labelled "y" [("label", "Name"), ("cost", "Price")]).map Prod.fst ∧
      ∃ rows parts, (Term.listInit rows .object).parts? = some parts ∧ rows.length + 1 = 2 ∧
        camelCased.projection (.lambda [⟨"x", .object⟩] (.listInit rows .object)) =
          .ok "name as label,price as cost" := by
  have hd : camelCased.mappings.WellNested false := nofun
  have hlabels : ∀ label ∈ [("label", "Name"), ("cost", "Price")],
      isIdentifier label.1 = true ∧ isIdentifier label.2 = true := by
    decide
  have hx := inertNames_labelled "x" (by decide) hlabels
  have hy := inertNames_labelled "y" (by decide) hlabels
  have htext : camelCased.projection (.lambda [⟨"x", .object⟩]
      (labelledList "x" [("label", "Name"), ("cost", "Price")])) = .ok "name as label,price as cost" := by
    decide +kernel
  have htext' : camelCased.projection (.lambda [⟨"y", .object⟩]
      (labelledList "y" [("label", "Name"), ("cost", "Price")])) = .ok "name as label,price as cost" := by
    decide +kernel
  obtain ⟨hseen, hforged⟩ := keys_seen_from_projection hd
  exact ⟨hd, hx, htext, htext', (hseen rfl rfl hx hy htext htext').2, hforged rfl (by decide) htext⟩

/-- One key spells a second field. -/
theorem label_forges_field :
    camelCased.projection (.lambda [⟨"x", .object⟩]
        (labelledList "x" [("A", "Name"), ("B", "Name")])) = .ok "name as A,name as B" ∧
      camelCased.projection (.lambda [⟨"x", .object⟩]
        (labelledList "x" [("A,name as B", "Name")])) = .ok "name as A,name as B" := by
  constructor <;> decide +kernel

end Dialect
end RemoteQuery
