import RemoteQuery.Proofs.Split.FirstReads
import RemoteQuery.Proofs.Wire.RootPath

/-!
# Paths that share a slot

A split tells its leaves apart by their texts. So two paths of members are read from one slot exactly
when they are written alike: name by name where neither is the root alone, and where one is, the other
is a single member that is written as the root is.
-/

namespace RemoteQuery

namespace Naming

variable {naming : Naming} {ms ns : List String}

theorem map_apply_eq_map_apply_iff (hm : ∀ m ∈ ms, isIdentifier m = true)
    (hn : ∀ n ∈ ns, isIdentifier n = true) :
    ms.map naming.apply = ns.map naming.apply ↔ List.Forall₂ naming.Alike ms ns := by
  induction ms generalizing ns with
  | nil => simp
  | cons m ms ih =>
    cases ns with
    | nil => simp
    | cons n ns =>
      rw [List.forall_mem_cons] at hm hn
      rw [List.map_cons, List.map_cons, List.cons.injEq, List.forall₂_cons,
        apply_eq_apply_iff hm.1 hn.1, ih hm.2 hn.2]

def WritesAlike (naming : Naming) (ms ns : List String) : Prop :=
  List.Forall₂ naming.Alike ms ns ∨ (ms = [] ∧ ∃ n, ns = [n] ∧ naming.Alike "this" n) ∨
    (ns = [] ∧ ∃ m, ms = [m] ∧ naming.Alike m "this")

theorem forall₂_writtenNames_iff : List.Forall₂ naming.Alike (Dialect.writtenNames ms)
    (Dialect.writtenNames ns) ↔ naming.WritesAlike ms ns := by
  have hthis : naming.Alike "this" "this" :=
    (apply_eq_apply_iff (by decide) (by decide)).1 rfl
  cases ms with
  | nil =>
    cases ns with
    | nil => simp [Dialect.writtenNames, WritesAlike, hthis]
    | cons n ns => simp [Dialect.writtenNames, WritesAlike, and_comm]
  | cons m ms =>
    cases ns with
    | nil => simp [Dialect.writtenNames, WritesAlike, and_comm]
    | cons n ns => simp [Dialect.writtenNames, WritesAlike]

theorem dotted_eq_dotted_iff (hm : ∀ m ∈ ms, isIdentifier m = true)
    (hn : ∀ n ∈ ns, isIdentifier n = true) :
    dotted (Dialect.writtenNames (ms.map naming.apply)) =
      dotted (Dialect.writtenNames (ns.map naming.apply)) ↔ naming.WritesAlike ms ns := by
  have hthis : naming.apply "this" = "this" := by cases naming <;> decide +kernel
  have hid : ∀ {ls : List String}, (∀ l ∈ ls, isIdentifier l = true) →
      ∀ l ∈ Dialect.writtenNames ls, isIdentifier l = true := by
    intro ls hls
    cases ls with
    | nil => simpa [Dialect.writtenNames] using by decide
    | cons l ls => exact hls
  have hpoint : ∀ {ls : List String}, (∀ l ∈ ls, isIdentifier l = true) →
      ∀ l ∈ (Dialect.writtenNames ls).map naming.apply, '.' ∉ l.toList := by
    intro ls hls l hl
    obtain ⟨n, hn, rfl⟩ := List.mem_map.1 hl
    exact point_not_mem_of_isIdentifier (isIdentifier_apply (hid hls n hn))
  rw [← Dialect.map_writtenNames hthis, ← Dialect.map_writtenNames hthis,
    ← forall₂_writtenNames_iff, ← map_apply_eq_map_apply_iff (hid hm) (hid hn)]
  constructor
  · exact dotted_injective (by simpa using Dialect.writtenNames_ne_nil ms)
      (by simpa using Dialect.writtenNames_ne_nil ns) (hpoint hm) (hpoint hn)
  · exact congrArg dotted

end Naming

namespace Splitter

variable {s : Splitter} {body e : Term} {p q : List Nat}

def ReadsItem (client : Term) (tuple : Param) (p : List Nat) (i : Nat) : Prop :=
  ∃ u, client.at? p = some u ∧ u.readNames tuple.name = [Ty.itemName i]

theorem exists_reads_of_isCut (hp : s.IsCut body p) (he : body.at? p = some e) {r : Rendered}
    (hr : s.render e = .ok r) : ⟨r.text, e⟩ ∈ s.leaves body ∧
      ReadsItem (s.clientBody body) (s.tuple body) p ((s.slots body).indexOf r.text) ∧
        (s.slots body).indexOf r.text < (s.slots body).length := by
  obtain ⟨e', text, he', hl⟩ := hp.at?
  obtain rfl := Option.some.inj (he.symm.trans he')
  obtain ⟨r', hr', rfl, -⟩ := render_of_place_leaf hl
  obtain rfl := Except.ok.inj (hr.symm.trans hr')
  have hleaf := mem_leaves_of_isCut hp he hl
  obtain ⟨slot, hs⟩ := Slots.exists_slot?_ofList hleaf
  refine ⟨hleaf, ⟨(s.slots body).itemAs (s.tuple body) r.text e.ty, ?_, ?_⟩,
    Slots.indexOf_lt_of_slot? hs⟩
  · rw [clientBody, remainder_eq_graft]
    exact at?_graft_of_isCut hp he hl
  · exact Slots.readNames_itemAs ..

/-- Two cuts that are paths of unmapped members are read from one slot exactly when their paths are
written alike. -/
theorem same_slot_iff_writesAlike {result : Split}
    (h : s.dialect.split s.clientUse (.lambda [s.root] body) = .ok result) (hn : 0 < result.arity)
    (hp : s.IsCut body p) (hq : s.IsCut body q) {t u : Term} (ht : body.at? p = some t)
    (hu : body.at? q = some u) {ms ns : List String}
    (hms : s.dialect.RootPath s.root.name t ms) (hns : s.dialect.RootPath s.root.name u ns)
    (him : ∀ m ∈ ms, isIdentifier m = true) (hin : ∀ n ∈ ns, isIdentifier n = true) :
    ∃ tuple client i j, result.client = .lambda [tuple] client ∧
      ReadsItem client tuple p i ∧ i < result.arity ∧ ReadsItem client tuple q j ∧
      j < result.arity ∧ (i = j ↔ s.dialect.naming.WritesAlike ms ns) := by
  obtain rfl := eq_of_split_of_arity_pos h hn
  obtain ⟨hpl, hpr, hpi⟩ := exists_reads_of_isCut hp ht hms.render_eq
  obtain ⟨hql, hqr, hqi⟩ := exists_reads_of_isCut hq hu hns.render_eq
  refine ⟨_, _, _, _, rfl, hpr, hpi, hqr, hqi, ?_⟩
  rw [← Naming.dotted_eq_dotted_iff him hin]
  constructor
  · exact Slots.text_eq_of_indexOf_eq hpl hql
  · exact congrArg _

def constructionFault : Fault :=
  .unsupported "NewValue" "construction is only valid as a projection root"

theorem same_slot_iff_writesAlike_personSummary :
    ∃ result, Dialect.verbatim.split .allowed (.lambda [person] personSummary) = .ok result ∧
      0 < result.arity ∧ ∃ tuple client i j, result.client = .lambda [tuple] client ∧
        ReadsItem client tuple [0] i ∧ i < result.arity ∧ ReadsItem client tuple [3, 0] j ∧
        j < result.arity ∧ (i = j ↔ Naming.verbatim.WritesAlike ["Name"] ["Age"]) := by
  obtain ⟨result, h, hn⟩ := exists_split_personSummary
  have hroot : Dialect.verbatim.RootPath "x" (.param person) [] := .root rfl
  have hopened : (⟨.verbatim, .allowed, person⟩ : Splitter).place personSummary =
      .opened (some constructionFault) := by decide +kernel
  have hname : (⟨.verbatim, .allowed, person⟩ : Splitter).IsCut personSummary [0] :=
    ⟨⟨_, hopened⟩, personName, rfl, "Name", by decide +kernel⟩
  have hage : (⟨.verbatim, .allowed, person⟩ : Splitter).IsCut personSummary [3, 0] :=
    ⟨⟨_, hopened⟩, .unary .negate personAge (.scalar .int32), rfl,
      ⟨some (.unsupported "Unary" "arithmetic negation has no wire form"), by decide +kernel⟩,
      personAge, rfl, "Age", by decide +kernel⟩
  exact ⟨result, h, hn, same_slot_iff_writesAlike (s := ⟨.verbatim, .allowed, person⟩) h hn hname
    hage rfl rfl (hroot.member rfl) (hroot.member rfl) (by decide) (by decide)⟩

/-- Two cuts are paths with these names, and the client reads one item for both. -/
structure Confuses (s : Splitter) (body : Term) (p q : List Nat) (ms ns : List String) : Prop where
  cuts : s.IsCut body p ∧ s.IsCut body q
  first : ∃ t, body.at? p = some t ∧ s.dialect.RootPath s.root.name t ms
  second : ∃ u, body.at? q = some u ∧ s.dialect.RootPath s.root.name u ns
  together : ∃ result tuple client i,
    s.dialect.split s.clientUse (.lambda [s.root] body) = .ok result ∧
      result.client = .lambda [tuple] client ∧ ReadsItem client tuple p i ∧ ReadsItem client tuple q i

theorem confuses_of_render (text : String) {t u : Term} {ms ns : List String}
    (h : (s.dialect.split s.clientUse (.lambda [s.root] body)).toOption.any (0 < ·.arity) = true)
    (hp : s.IsCut body p) (hq : s.IsCut body q) (ht : body.at? p = some t)
    (hu : body.at? q = some u) (hms : s.dialect.RootPath s.root.name t ms)
    (hns : s.dialect.RootPath s.root.name u ns) (htr : s.render t = .ok (.plain text))
    (hur : s.render u = .ok (.plain text)) : s.Confuses body p q ms ns := by
  obtain ⟨result, hr, hn⟩ := exists_split_of_any _ _ _ _ h
  obtain rfl := eq_of_split_of_arity_pos hr (by simpa using hn)
  exact ⟨⟨hp, hq⟩, ⟨t, ht, hms⟩, ⟨u, hu, hns⟩, _, _, _, _, hr, rfl,
    (exists_reads_of_isCut hp ht htr).2.1, (exists_reads_of_isCut hq hu hur).2.1⟩

def personNameInLower : Term := (Term.param person).property "name" (.scalar .string)

def personThis : Term := (Term.param person).property "this" (.scalar .string)

/-- Two members that differ in the case of the first letter are read from one slot where that letter is
lowered, and a member named `this` from the slot of the root. -/
theorem different_paths_confused :
    (⟨.camelCased, .allowed, person⟩ : Splitter).Confuses
        (.tuple [personName, personNameInLower]) [0] [1] ["Name"] ["name"] ∧
      (⟨.verbatim, .allowed, person⟩ : Splitter).Confuses
        (.tuple [.param person, personThis, personName]) [0] [1] [] ["this"] := by
  constructor
  · have hopened : (⟨.camelCased, .allowed, person⟩ : Splitter).place
        (.tuple [personName, personNameInLower]) = .opened (some constructionFault) := by decide +kernel
    have hroot : Dialect.camelCased.RootPath "x" (.param person) [] := .root rfl
    exact confuses_of_render "name" (by decide +kernel)
      ⟨⟨_, hopened⟩, personName, rfl, "name", by decide +kernel⟩
      ⟨⟨_, hopened⟩, personNameInLower, rfl, "name", by decide +kernel⟩ rfl rfl (hroot.member rfl)
      (hroot.member rfl) (by decide +kernel) (by decide +kernel)
  · have hopened : (⟨.verbatim, .allowed, person⟩ : Splitter).place
        (.tuple [.param person, personThis, personName]) = .opened (some constructionFault) := by decide +kernel
    have hroot : Dialect.verbatim.RootPath "x" (.param person) [] := .root rfl
    exact confuses_of_render "this" (by decide +kernel)
      ⟨⟨_, hopened⟩, .param person, rfl, "this", by decide +kernel⟩
      ⟨⟨_, hopened⟩, personThis, rfl, "this", by decide +kernel⟩ rfl rfl hroot (hroot.member rfl) (by decide +kernel)
      (by decide +kernel)

end Splitter
end RemoteQuery
