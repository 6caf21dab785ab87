import Mathlib.Data.List.Permutation
import RemoteQuery.Proofs.Split.Graft
import RemoteQuery.Proofs.Split.Simulation
import RemoteQuery.Proofs.Term.Inlining

/-!
# Restoring a selector from its split

Putting the server's values in place of the client's reads gives the selector's body back, node for
node. Only two kinds of positions hold something else: a cut holds a value with the text of the
subterm that stood there, converted where the types differ, and a captured root holds the value whose
text is that of the root.
-/

namespace RemoteQuery

namespace Slots

variable {slots : Slots} {text : String} {slot : Slot}

def value (slots : Slots) (text : String) : Term := ((slots.slot? text).map (·.term)).getD default

def valueAs (slots : Slots) (text : String) (ty : Ty) : Term :=
  if (slots.value text).ty = ty then slots.value text else (slots.value text).converted ty

theorem value_eq (h : slots.slot? text = some slot) : slots.value text = slot.term := by
  rw [value, h]
  rfl

theorem ty_valueAs (slots : Slots) (text : String) (ty : Ty) : (slots.valueAs text ty).ty = ty := by
  rw [valueAs]
  split
  · assumption
  · exact Term.ty_converted _ ty

theorem read?_item (slots : Slots) (tuple : Param) (text : String) (ty : Ty) :
    (slots.item tuple text ty).read? tuple.name =
      some ⟨"Tuple", Ty.itemName (slots.indexOf text), ty⟩ := by
  simp [item, Term.read?]

theorem itemNamed?_indexOf (h : slots.slot? text = some slot) :
    Term.itemNamed? (slots.map (·.term)) (Ty.itemName (slots.indexOf text)) =
      some (slots.value text) := by
  rw [Term.itemNamed?_itemName, List.getElem?_map, getElem?_indexOf h, value_eq h]
  rfl

theorem inline_itemAs (h : slots.slot? text = some slot) (tuple : Param) (ty : Ty) :
    (slots.itemAs tuple text ty).inline tuple.name (slots.map (·.term)) = slots.valueAs text ty := by
  have hi : ∀ ty, (slots.item tuple text ty).inline tuple.name (slots.map (·.term)) =
      slots.value text := fun ty =>
    Term.inline_of_read? (read?_item slots tuple text ty) (itemNamed?_indexOf h)
  rw [itemAs, valueAs, typeOf_eq h, value_eq h]
  split
  · rw [hi, value_eq h]
  · rw [Term.converted, Term.inline_eq]
    simp [Term.read?, Term.hides, Term.children, Term.withChildren, Term.converted, hi, value_eq h]

theorem item_ne_param (slots : Slots) (tuple : Param) (text : String) (ty : Ty) (q : Param) :
    slots.item tuple text ty ≠ .param q := by
  simp [item]

theorem itemAs_ne_param (slots : Slots) (tuple : Param) (text : String) (ty : Ty) (q : Param) :
    slots.itemAs tuple text ty ≠ .param q := by
  rw [itemAs]
  split <;> simp [item, Term.converted]

end Slots

namespace Splitter

variable {s : Splitter} {slots : Slots} {tuple : Param} {t : Term}

theorem eq_param_of_remainder {q : Param} (h : s.remainder slots tuple t = .param q) :
    t = .param q := by
  rw [remainder_eq_graft] at h
  exact eq_param_of_graft (Slots.itemAs_ne_param _ _) (Slots.item_ne_param _ _ _ _) h

theorem inline_remainder (ht : tuple.name ∉ t.names)
    (hs : ∀ leaf ∈ s.leaves t, ∃ slot, slots.slot? leaf.text = some slot) :
    (s.remainder slots tuple t).inline tuple.name (slots.map (·.term)) =
      s.graft slots.valueAs (slots.value rootText) t := by
  induction t using Term.inductionOn with
  | step t ih =>
    rw [remainder_eq, graft_eq]
    rw [leaves_eq] at hs
    have hpl := s.placed t
    generalize hplace : s.place t = pl at hpl hs
    cases hpl with
    | free _ => exact Term.inline_of_not_mem_names ht _
    | captured _ _ =>
      -- substitution does not rename, but the tuple's name is fresh also below the lambda
      obtain ⟨slot, hr⟩ := hs ⟨rootText, .param s.root⟩ (List.mem_singleton.2 rfl)
      exact Term.inline_replace (Slots.read?_item ..) (Slots.itemNamed?_indexOf hr) _ ht
    | leaf _ _ _ _ =>
      obtain ⟨slot, hr⟩ := hs _ (List.mem_singleton.2 rfl)
      exact Slots.inline_itemAs hr tuple t.ty
    | faulty _ hl _ | deferred _ hl _ _ _ =>
      dsimp only
      rw [Term.inline_withChildren (by simp) (Term.hides_eq_false_of_lambda?_eq_none hl _),
        List.map_map]
      · refine congrArg t.withChildren (List.map_congr_left fun c hc => ih c hc ?_ ?_)
        · exact fun h => ht (Term.names_subset_of_mem_children hc h)
        · exact fun leaf hleaf => hs leaf (List.mem_flatMap.2 ⟨c, hc, hleaf⟩)
      · exact Term.name_ne_of_param_mem_map ht fun _ _ _ => eq_param_of_remainder

theorem inline_clientBody (s : Splitter) (body : Term) :
    (s.clientBody body).inline (s.tuple body).name ((s.slots body).map (·.term)) =
      s.graft (s.slots body).valueAs ((s.slots body).value rootText) body :=
  inline_remainder (s.tuple_name_not_mem_names body) fun _ h => Slots.exists_slot?_ofList h

/-- The whole is the body, but for the cuts and the captured roots. No cut is below another or in a
nested lambda. A cut holds a value with the text and the type of the subterm that stood there; a
captured root holds the value with the text of the root. Every other node is kept with as many
children, and no position is added. -/
structure Restores (s : Splitter) (slots : Slots) (body whole : Term) : Prop where
  disjoint : ∀ p q, s.IsCut body p → s.IsCut body q → p <+: q → p = q
  outside : ∀ p, s.IsCut body p → ¬ body.UnderLambda p
  cut : ∀ p e, s.IsCut body p → body.at? p = some e → ∃ slot ∈ slots, ∃ u, whole.at? p = some u ∧
    (u = slot.term ∨ u = slot.term.converted e.ty) ∧ u.ty = e.ty ∧
    s.dialect.text (some s.root.name) slot.term = .ok slot.text ∧
    s.dialect.text (some s.root.name) e = .ok slot.text
  captured : ∀ p, s.CapturedAt body p → ∃ slot ∈ slots, slot.text = rootText ∧
    whole.at? p = some slot.term
  kept : ∀ p e, body.at? p = some e → ¬ s.InCut body p → ¬ s.CapturedAt body p →
    ∃ u, whole.at? p = some u ∧ e.SameNode u
  none_added : ∀ p u, whole.at? p = some u →
    (∃ e, body.at? p = some e) ∨ s.InCut body p ∨ ∃ q, q <+: p ∧ s.CapturedAt body q

theorem restores_graft (s : Splitter) (body : Term) :
    s.Restores (s.slots body) body
      (s.graft (s.slots body).valueAs ((s.slots body).value rootText) body) where
  disjoint _ _ hp hq h := hp.prefix_eq hq h
  outside _ hp := hp.not_underLambda
  cut p e hp he := by
    obtain ⟨e', text, he', hl⟩ := hp.at?
    obtain rfl : e = e' := Option.some.inj (he.symm.trans he')
    obtain ⟨slot, hs⟩ := Slots.exists_slot?_ofList (mem_leaves_of_isCut hp he hl)
    have hmem : slot ∈ s.slots body := Slots.mem_of_slot? hs
    have hv : (s.slots body).value text = slot.term := Slots.value_eq hs
    refine ⟨slot, hmem, _, at?_graft_of_isCut hp he hl, ?_, Slots.ty_valueAs _ _ _,
      text_of_mem_slots hmem, ?_⟩
    · rw [Slots.valueAs, hv]
      split
      · exact Or.inl rfl
      · exact Or.inr rfl
    · obtain ⟨r, hr, ht, -⟩ := render_of_place_leaf hl
      rw [render] at hr
      rw [Dialect.text, hr, Slots.text_of_slot? hs, ← ht]
      rfl
  captured p hp := by
    obtain ⟨slot, hs⟩ := Slots.exists_slot?_ofList (mem_leaves_of_capturedAt hp)
    refine ⟨slot, Slots.mem_of_slot? hs, Slots.text_of_slot? hs, ?_⟩
    rw [at?_graft_of_capturedAt hp]
    exact congrArg some (Slots.value_eq hs)
  kept _ _ he hcut hcap := at?_graft_of_kept he hcut hcap
  none_added _ _ hu := at?_of_at?_graft hu

/-- Inlining the server's values in the client's lambda restores the selector's body. -/
theorem inline_client_restores_body {s : Splitter} {body : Term} {result : Split}
    (h : s.dialect.split s.clientUse (.lambda [s.root] body) = .ok result) (hn : 0 < result.arity) :
    ∃ tuple client, result.client = .lambda [tuple] client ∧
      result.server? = some (.tuple (result.slots.map (·.term))) ∧
      s.Restores result.slots body (client.inline tuple.name (result.slots.map (·.term))) := by
  have hserver := server?_of_arity_pos hn
  obtain rfl := eq_of_split_of_arity_pos h hn
  refine ⟨s.tuple body, s.clientBody body, rfl, hserver, ?_⟩
  rw [inline_clientBody]
  exact restores_graft s body

end Splitter

def person : Param :=
  ⟨"x", .entity "Person" none [("Name", .scalar .string), ("Age", .scalar .int32)]⟩

def personName : Term := (Term.param person).property "Name" (.scalar .string)

def personAge : Term := (Term.param person).property "Age" (.scalar .int32)

/-- Two leaves of one text, a captured root, and a leaf under a part that has no text. -/
def personSummary : Term :=
  .tuple [personName, personName.converted (.nullable (.scalar .string)),
    .lambda [⟨"o", .object⟩] (.param person), .unary .negate personAge (.scalar .int32)]

theorem exists_split_of_any (d : Dialect) (use : ClientUse) (selector : Term) (check : Split → Bool)
    (h : (d.split use selector).toOption.any check = true) :
    ∃ result, d.split use selector = .ok result ∧ check result = true := by
  cases hs : d.split use selector with
  | error why => rw [hs] at h; cases h
  | ok result => exact ⟨result, rfl, by rwa [hs] at h⟩

theorem exists_split_personSummary :
    ∃ result, Dialect.verbatim.split .allowed (.lambda [person] personSummary) = .ok result ∧
      0 < result.arity := by
  obtain ⟨result, h, ha⟩ := exists_split_of_any Dialect.verbatim .allowed
    (.lambda [person] personSummary) (fun r => r.arity == 3) (by decide +kernel)
  rw [beq_iff_eq] at ha
  exact ⟨result, h, by omega⟩

namespace Splitter

theorem inline_client_restores_personSummary :
    ∃ result, Dialect.verbatim.split .allowed (.lambda [person] personSummary) = .ok result ∧
      0 < result.arity ∧ ∃ tuple client, result.client = .lambda [tuple] client ∧
        result.server? = some (.tuple (result.slots.map (·.term))) ∧
        (⟨.verbatim, .allowed, person⟩ : Splitter).Restores result.slots personSummary
          (client.inline tuple.name (result.slots.map (·.term))) := by
  obtain ⟨result, h, hn⟩ := exists_split_personSummary
  exact ⟨result, h, hn,
    inline_client_restores_body (s := ⟨.verbatim, .allowed, person⟩) h hn⟩

end Splitter
end RemoteQuery
