import RemoteQuery.Proofs.Split.Restoration

/-!
# Names in a split

Grafting renames nothing, so it could let a name escape from its binder or come under another one. It
does neither. What is grafted reads the tuple alone, whose name is fresh, and the walk enters no lambda.
So every name that is free in the client's lambda was free at the same place of the selector, the leaves
have no free names but those of the body, and nothing in the client's lambda hides the tuple.
-/

namespace RemoteQuery

namespace Term

def OfNode (P : Term → Prop) : Prop := ∀ u cs, P u → P (u.withChildren cs)

variable {P : Term → Prop} {t : Term}

theorem OfNode.every_withChildren_map (hP : OfNode P) {f : Term → Term} (ht : P t)
    (hf : ∀ c ∈ t.children, (f c).Every P) : (t.withChildren (t.children.map f)).Every P := by
  refine every_iff.2 ⟨hP t _ ht, ?_⟩
  rw [children_withChildren t (List.length_map f)]
  exact List.forall_mem_map.2 hf

theorem OfNode.every_replace (hP : OfNode P) (ht : t.Every P) {r : Term} (hr : r.Every P)
    (name : String) : (t.replace name r).Every P := by
  induction t using inductionOn with
  | step t ih =>
    obtain ⟨hself, hchildren⟩ := every_iff.1 ht
    rw [replace_eq]
    split
    · exact hr
    · split
      · exact ht
      · exact hP.every_withChildren_map hself fun c hc => ih c hc (hchildren c hc)

def KeepsTuple (tuple : Param) (u : Term) : Prop :=
  u.hides tuple.name = false ∧ ∀ q, u = .param q → q.name = tuple.name → q = tuple

theorem ofNode_keepsTuple (tuple : Param) : OfNode (KeepsTuple tuple) := fun u cs h =>
  ⟨(hides_withChildren tuple.name u cs).trans h.1, fun q hq => h.2 q (withChildren_eq_param hq)⟩

theorem every_keepsTuple_of_not_mem_names {tuple : Param} (h : tuple.name ∉ t.names) :
    t.Every (KeepsTuple tuple) := by
  induction t using inductionOn with
  | step t ih =>
    refine every_iff.2 ⟨⟨?_, ?_⟩, fun c hc => ih c hc fun hm => h (names_subset_of_mem_children hc hm)⟩
    · exact Bool.eq_false_iff.2 fun hh => h (mem_names_of_hides hh)
    · rintro q rfl hq
      exact absurd (hq ▸ name_mem_names_param q) h

end Term

namespace Slots

variable (slots : Slots) (tuple : Param) (text : String) (ty : Ty)

theorem mentions_item (name : String) :
    (slots.item tuple text ty).mentions name = (tuple.name == name) := by
  rw [item, Term.mentions_of_children name (by simp) (by simp)]
  simp [Term.children]

theorem mentions_itemAs (name : String) :
    (slots.itemAs tuple text ty).mentions name = (tuple.name == name) := by
  rw [itemAs]
  split
  · exact mentions_item slots tuple text ty name
  · rw [Term.converted, Term.mentions_of_children name (by simp) (by simp)]
    simp [Term.children, mentions_item]

theorem every_keepsTuple_item : (slots.item tuple text ty).Every (Term.KeepsTuple tuple) := by
  refine Term.every_iff.2 ⟨⟨rfl, by simp [item]⟩, fun c hc => ?_⟩
  obtain rfl : c = .param tuple := by simpa [item, Term.children] using hc
  exact Term.every_iff.2 ⟨⟨rfl, fun q hq _ => (Term.param.inj hq).symm⟩, by simp [Term.children]⟩

theorem every_keepsTuple_itemAs : (slots.itemAs tuple text ty).Every (Term.KeepsTuple tuple) := by
  rw [itemAs]
  split
  · exact every_keepsTuple_item slots tuple text ty
  · refine Term.every_iff.2 ⟨⟨rfl, by simp [Term.converted]⟩, fun c hc => ?_⟩
    obtain rfl := List.mem_singleton.1 hc
    exact every_keepsTuple_item slots tuple text _

end Slots

namespace Splitter

variable {s : Splitter} {t body : Term} {leaf : String → Ty → Term} {root : Term}

theorem every_graft_of_ofNode {P : Term → Prop} (hP : Term.OfNode P) (ht : t.Every P)
    (hl : ∀ text ty, (leaf text ty).Every P) (hr : root.Every P) :
    (s.graft leaf root t).Every P := by
  induction t using Term.inductionOn with
  | step t ih =>
    obtain ⟨hself, hchildren⟩ := Term.every_iff.1 ht
    rw [graft_eq]
    cases s.place t with
    | free => exact ht
    | captured => exact hP.every_replace ht hr _
    | leaf text => exact hl text t.ty
    | opened why => exact hP.every_withChildren_map hself fun c hc => ih c hc (hchildren c hc)

theorem freeAt_of_freeAt_graft {name : String} (hl : ∀ text ty, (leaf text ty).mentions name = false)
    (hr : root.mentions name = false) {p : List Nat} (h : (s.graft leaf root t).FreeAt name p) :
    name ≠ s.root.name ∧ t.FreeAt name p := by
  induction t using Term.inductionOn generalizing p with
  | step t ih =>
    have hpl := s.placed t
    generalize hplace : s.place t = pl at hpl
    rw [graft_eq, hplace] at h
    cases hpl with
    | free hm =>
      exact ⟨fun he => Term.not_freeAt_of_mentions_eq_false hm p (he ▸ h), h⟩
    | captured _ _ => exact Term.freeAt_of_freeAt_replace hr h
    | leaf _ _ _ _ => exact absurd h (Term.not_freeAt_of_mentions_eq_false (hl _ _) p)
    | faulty _ _ _ | deferred _ _ _ _ _ =>
      cases p with
      | nil =>
        -- a parameter is a leaf or free, so it is never opened
        obtain ⟨q, rfl, -⟩ := Term.isParamNamed_iff.1 (Term.freeAt_nil_of_withChildren h)
        rw [place_param] at hplace
        split at hplace <;> cases hplace
      | cons i p =>
        obtain ⟨hv, c, hc, hf⟩ := Term.freeAt_cons_withChildren_map.1 h
        obtain ⟨hne, hf⟩ := ih c (List.mem_of_getElem? hc) hf
        exact ⟨hne, hv, c, hc, hf⟩

theorem mentions_of_mem_slots {slot : Slot} (h : slot ∈ s.slots body) {name : String}
    (hm : slot.term.mentions name = true) : body.mentions name = true := by
  rcases isCut_or_captured_of_mem_leaves (Slots.mem_of_mem_ofList h) with
    ⟨p, hcut, he, -⟩ | ⟨rfl, p, hcap⟩
  · exact mentions_of_at? he hcut.not_underLambda hm
  · have hn : s.root.name = name := by simpa using hm
    exact (Term.mentions_iff_exists_freeAt name body).2 ⟨p, hn ▸ hcap.1⟩

theorem freeAt_of_freeAt_clientBody {name : String} (hn : name ≠ (s.tuple body).name) {p : List Nat}
    (h : (s.clientBody body).FreeAt name p) : name ≠ s.root.name ∧ body.FreeAt name p := by
  have hother : ((s.tuple body).name == name) = false := beq_eq_false_iff_ne.2 (Ne.symm hn)
  rw [clientBody, remainder_eq_graft] at h
  exact freeAt_of_freeAt_graft (fun _ _ => (Slots.mentions_itemAs ..).trans hother)
    ((Slots.mentions_item ..).trans hother) h

theorem every_keepsTuple_clientBody (s : Splitter) (body : Term) :
    (s.clientBody body).Every (Term.KeepsTuple (s.tuple body)) := by
  rw [clientBody, remainder_eq_graft]
  exact every_graft_of_ofNode (Term.ofNode_keepsTuple _)
    (Term.every_keepsTuple_of_not_mem_names (s.tuple_name_not_mem_names body))
    (Slots.every_keepsTuple_itemAs _ _) (Slots.every_keepsTuple_item _ _ _ _)

/-- No name escapes or is captured. The tuple's name occurs nowhere in the selector, and the root is not
free in the client's lambda. What is free there is free at the same place of the selector, and what is
free in a value that is sent is free in the body. Below the client's lambda no other one binds the tuple's
name, so all parameters of that name are the tuple. -/
structure Hygienic (root : Param) (body : Term) (slots : Slots) (tuple : Param) (client : Term) :
    Prop where
  fresh : tuple.name ∉ (Term.lambda [root] body).names
  replaced : (Term.lambda [tuple] client).mentions root.name = false
  free : ∀ name p, (Term.lambda [tuple] client).FreeAt name p →
    (Term.lambda [root] body).FreeAt name p
  sent : ∀ slot ∈ slots, ∀ name, slot.term.mentions name = true → body.mentions name = true
  unhidden : client.Every fun u => u.hides tuple.name = false
  bound : ∀ p q, client.at? p = some (.param q) → q.name = tuple.name →
    q = tuple ∧ client.FreeAt tuple.name p

theorem freeAt_selector_of_client {name : String} {p : List Nat}
    (h : (Term.lambda [s.tuple body] (s.clientBody body)).FreeAt name p) :
    (Term.lambda [s.root] body).FreeAt name p := by
  obtain ⟨hv, q, hq, hf⟩ := Term.freeAt_lambda_iff.1 h
  have hn : name ≠ (s.tuple body).name := by
    rintro rfl
    simp [Term.binds] at hv
  obtain ⟨hne, hf⟩ := freeAt_of_freeAt_clientBody hn hf
  exact Term.freeAt_lambda_iff.2 ⟨by simpa [Term.binds] using hne.symm, q, hq, hf⟩

theorem hygienic_clientBody (s : Splitter) (body : Term) :
    Hygienic s.root body (s.slots body) (s.tuple body) (s.clientBody body) where
  fresh := Term.freshName_not_mem_names _
  replaced := by
    refine Bool.eq_false_iff.2 fun hm => ?_
    obtain ⟨p, hp⟩ := (Term.mentions_iff_exists_freeAt _ _).1 hm
    obtain ⟨hv, -⟩ := Term.freeAt_lambda_iff.1 (freeAt_selector_of_client hp)
    simp [Term.binds] at hv
  free _ _ := freeAt_selector_of_client
  sent _ hs _ := mentions_of_mem_slots hs
  unhidden p u hu := (every_keepsTuple_clientBody s body p u hu).1
  bound p q hp hq :=
    ⟨(every_keepsTuple_clientBody s body p _ hp).2 q rfl hq,
      Term.freeAt_of_at? (fun p u hu => (every_keepsTuple_clientBody s body p u hu).1) hp hq⟩

/-- In a split with slots no name escapes from its binder and none is captured. -/
theorem no_name_escapes_split {s : Splitter} {body : Term} {result : Split}
    (h : s.dialect.split s.clientUse (.lambda [s.root] body) = .ok result) (hn : 0 < result.arity) :
    ∃ tuple client, result.client = .lambda [tuple] client ∧
      Hygienic s.root body result.slots tuple client := by
  obtain rfl := eq_of_split_of_arity_pos h hn
  exact ⟨_, _, rfl, hygienic_clientBody s body⟩

def personNames : Term :=
  .tuple [personName, .lambda [⟨"t", .object⟩] (.lambda [⟨"t0", .object⟩] (.param person)),
    .lambda [person] personAge,
    .operation .coalesce personAge (.param ⟨"y", .scalar .int32⟩)]

theorem no_name_escapes_split_personNames :
    ∃ result, Dialect.verbatim.split .allowed (.lambda [person] personNames) = .ok result ∧
      0 < result.arity ∧ ∃ tuple client, result.client = .lambda [tuple] client ∧
        Hygienic person personNames result.slots tuple client := by
  obtain ⟨result, h, ha⟩ := exists_split_of_any Dialect.verbatim .allowed
    (.lambda [person] personNames) (fun r => r.arity == 3) (by decide +kernel)
  rw [beq_iff_eq] at ha
  exact ⟨result, h, by omega, no_name_escapes_split (s := ⟨.verbatim, .allowed, person⟩) h (by omega)⟩

end Splitter
end RemoteQuery
