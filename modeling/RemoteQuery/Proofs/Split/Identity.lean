import RemoteQuery.Proofs.Split.Resplit
import RemoteQuery.Proofs.Wire.Support

/-!
# Splits that the client only unwraps

When the body is a leaf, the client does no more than take it out of the tuple. No other body leaves
the client a term that looks like this: a lambda stays a lambda, and a member that was opened is taken
of what is left of its target, which is not the tuple, since the tuple's name is fresh.
-/

namespace RemoteQuery

namespace Term

theorem withChildren_eq_member {t u : Term} {cs : List Term} {m : Member}
    (h : t.withChildren cs = .member (some u) m) : ∃ v, t = .member (some v) m := by
  unfold withChildren at h
  split at h <;> first | exact ⟨_, h⟩ | (cases h; done) | (cases h; exact ⟨_, rfl⟩)

theorem replace_ne_member_of_lambda {t u : Term} (h : t.lambda?.isSome = true) (name : String)
    (r : Term) (m : Member) : t.replace name r ≠ .member (some u) m := by
  cases t with
  | lambda params body =>
    rw [replace_lambda]
    split <;> exact nofun
  | _ => cases h

end Term

namespace Splitter

variable {s : Splitter} {body : Term} {result : Split}

theorem eq_member_of_isIdentity {tuple : Param} {client : Term}
    (hc : result.client = .lambda [tuple] client) (h : result.isIdentity = true) :
    ∃ q m, q.name = tuple.name ∧ client = .member (some (.param q)) m := by
  unfold Split.isIdentity at h
  rw [hc] at h
  split at h
  · rename_i p target m he
    cases he
    simp only [Bool.and_eq_true] at h
    obtain ⟨q, rfl, hq⟩ := Term.isParamNamed_iff.1 h.2
    exact ⟨q, m, hq, rfl⟩
  · cases h

theorem place_of_clientBody_eq_member {q : Param} {m : Member} (hq : q.name = (s.tuple body).name)
    (h : s.clientBody body = .member (some (.param q)) m) :
    s.place body = .free ∨ ∃ text, s.place body = .leaf text := by
  rw [clientBody, remainder_eq] at h
  cases hp : s.place body with
  | free => exact Or.inl rfl
  | captured =>
    rw [hp] at h
    exact absurd h (Term.replace_ne_member_of_lambda (lambda?_of_place_captured hp) _ _ _)
  | leaf text => exact Or.inr ⟨text, rfl⟩
  | opened why =>
    rw [hp] at h
    obtain ⟨target, rfl⟩ := Term.withChildren_eq_member h
    -- the member is kept, so its target is what is left of the target of the body
    have htarget : s.remainder (s.slots (.member (some target) m)) (s.tuple (.member (some target) m))
        target = .param q := by
      simpa [Term.children, Term.withChildren] using h
    obtain rfl := eq_param_of_remainder htarget
    refine absurd ?_ (s.tuple_name_not_mem_names (.member (some (.param q)) m))
    rw [← hq]
    exact Term.names_subset_of_mem_children (t := .member (some (.param q)) m)
      (by simp [Term.children]) (Term.name_mem_names_param q)

theorem slots_of_place_leaf {text : String} (h : s.place body = .leaf text) :
    s.slots body = [⟨text, body⟩] := by
  rw [slots, leaves_eq, h]
  rfl

theorem slots_of_place_free (h : s.place body = .free) : s.slots body = [] := by
  rw [slots, leaves_eq, h]
  rfl

theorem place_eq_leaf_iff {text : String} : s.place body = .leaf text ↔
    body.mentions s.root.name = true ∧ body.lambda? = none ∧
      ∃ r, s.render body = .ok r ∧ r.text = text ∧ (s.clientUse = .allowed → r.prefersLocal = false) := by
  have hp := s.placed body
  constructor
  · intro h
    rw [h] at hp
    cases hp with
    | leaf hm hl hr hc => exact ⟨hm, hl, _, hr, rfl, hc⟩
  · rintro ⟨hm, hl, r, hr, rfl, hc⟩
    generalize s.place body = pl at hp
    cases hp with
    | free hm' =>
      rw [hm] at hm'
      cases hm'
    | captured _ hl' =>
      rw [hl] at hl'
      cases hl'
    | leaf _ _ hr' _ =>
      rw [hr] at hr'
      cases hr'
      rfl
    | faulty _ _ hr' =>
      rw [hr] at hr'
      cases hr'
    | deferred _ _ hr' ha hp' =>
      rw [hr] at hr'
      cases hr'
      rw [hc ha] at hp'
      cases hp'

theorem split_of_place_leaf {text : String} (h : s.place body = .leaf text) (ht : text ≠ rootText) :
    s.dialect.split s.clientUse (.lambda [s.root] body) =
      .ok ⟨[⟨text, body⟩], some (text ++ " as Item1"),
        .lambda [s.tuple body] ((s.slots body).item (s.tuple body) text body.ty), []⟩ := by
  have hslots := slots_of_place_leaf h
  have hreasons : s.reasons body = [] := by rw [reasons_eq, h]
  have hclient : s.clientBody body = (s.slots body).item (s.tuple body) text body.ty := by
    rw [clientBody, remainder_eq, h]
    dsimp only
    rw [Slots.itemAs, if_pos]
    simp [hslots, Slots.typeOf]
  have hroot : ¬ (List.isEmpty (s.slots body) = true ∨ (s.slots body).isBareRoot = true) := by
    simpa [hslots, Slots.isBareRoot, Slots.texts] using ht
  have htext : (s.slots body).projectionText = text ++ " as Item1" := by
    rw [hslots]
    exact String.append_assoc ..
  rw [split_eq, if_neg (by simp [hreasons]), if_neg hroot, htext, hclient, hreasons, hslots]

theorem place_of_isIdentity
    (h : s.dialect.split s.clientUse (.lambda [s.root] body) = .ok result) (hn : result.arity = 1)
    (hi : result.isIdentity = true) :
    ∃ text, s.place body = .leaf text ∧ text ≠ rootText := by
  have hpos : 0 < result.arity := by omega
  have hd := not_degenerate_of_arity_pos h hpos
  obtain rfl := eq_of_split_of_arity_pos h hpos
  obtain ⟨q, m, hq, hc⟩ := eq_member_of_isIdentity rfl hi
  rcases place_of_clientBody_eq_member hq hc with hp | ⟨text, hp⟩
  · exact absurd (Or.inl (by rw [slots_of_place_free hp]; rfl)) hd
  · refine ⟨text, hp, fun ht => hd (Or.inr ?_)⟩
    rw [slots_of_place_leaf hp, ht]
    rfl

end Splitter

namespace Dialect

/-- A split sends one value that the client only unwraps exactly when the body mentions the root, is no
lambda, and has a text of its own that the client does not claim. What is sent is then the body
itself. -/
theorem split_isIdentity_iff (d : Dialect) (use : ClientUse) (root : Param) (body : Term) :
    ((∃ result, d.split use (.lambda [root] body) = .ok result ∧ result.arity = 1 ∧
        result.isIdentity = true) ↔
      body.mentions root.name = true ∧ body.lambda? = none ∧
        ∃ r, d.render (some root.name) body = .ok r ∧ r.text ≠ "this" ∧
          (use = .allowed → r.prefersLocal = false)) ∧
    ∀ result, d.split use (.lambda [root] body) = .ok result → result.arity = 1 →
      result.isIdentity = true → ∃ text, d.text (some root.name) body = .ok text ∧
        result.server? = some (.tuple [body]) ∧ result.serverText? = some (text ++ " as Item1") := by
  let s : Splitter := ⟨d, use, root⟩
  refine ⟨⟨?_, ?_⟩, ?_⟩
  · intro hex
    obtain ⟨result, h, hn, hi⟩ := hex
    obtain ⟨text, hp, ht⟩ := s.place_of_isIdentity h hn hi
    obtain ⟨hm, hl, r, hr, rfl, hc⟩ := Splitter.place_eq_leaf_iff.1 hp
    exact ⟨hm, hl, r, hr, ht, hc⟩
  · intro hleaf
    obtain ⟨hm, hl, r, hr, ht, hc⟩ := hleaf
    have hp : s.place body = .leaf r.text := Splitter.place_eq_leaf_iff.2 ⟨hm, hl, r, hr, rfl, hc⟩
    refine ⟨_, Splitter.split_of_place_leaf hp ht, rfl, ?_⟩
    simp [Split.isIdentity, Slots.item, Splitter.slots_of_place_leaf hp, Term.isParamNamed,
      Slots.indexOf, Split.arity]
  · intro result h hn hi
    obtain ⟨text, hp, ht⟩ := s.place_of_isIdentity h hn hi
    obtain ⟨-, -, r, hr, rfl, -⟩ := Splitter.place_eq_leaf_iff.1 hp
    obtain rfl := Except.ok.inj (h.symm.trans (Splitter.split_of_place_leaf hp ht))
    exact ⟨r.text, congrArg (Except.map Rendered.text) hr, rfl, rfl⟩

def ageText : Term := .call (some personAge) ⟨"Object", "ToString", [], .scalar .string⟩ []

theorem split_isIdentity_iff_ageText :
    (∃ result, objectDialect.split .forbidden (.lambda [person] ageText) = .ok result ∧
      result.arity = 1 ∧ result.isIdentity = true ∧
      ∃ text, objectDialect.text (some person.name) ageText = .ok text ∧
        result.server? = some (.tuple [ageText]) ∧
        result.serverText? = some (text ++ " as Item1")) ∧
    ¬ ∃ result, objectDialect.split .allowed (.lambda [person] ageText) = .ok result ∧
      result.arity = 1 ∧ result.isIdentity = true := by
  have hr : objectDialect.render (some person.name) ageText = .ok ⟨"cast(age,String)", true⟩ := by decide +kernel
  have hm : ageText.mentions person.name = true := by decide +kernel
  obtain ⟨hforbidden, hsent⟩ := split_isIdentity_iff objectDialect .forbidden person ageText
  obtain ⟨result, h, hn, hi⟩ := hforbidden.2 ⟨hm, rfl, _, hr, by decide, fun ha => by cases ha⟩
  refine ⟨⟨result, h, hn, hi, hsent result h hn hi⟩, fun hallowed => ?_⟩
  obtain ⟨-, -, r, hr', -, hc⟩ := (split_isIdentity_iff objectDialect .allowed person ageText).1.1 hallowed
  rw [hr] at hr'
  cases hr'
  cases hc rfl

end Dialect
end RemoteQuery
