import RemoteQuery.Proofs.Split.FirstReads
import RemoteQuery.Proofs.Wire.SingleCause

/-!
# The outcome of a split

While the client may evaluate, every selector is split. When it must not, a split fails exactly when
there is a reason to leave something to the client, and the failure lists those reasons in order. No
split fails later on: the texts by which the slots were told apart are the texts of their projection.
-/

namespace RemoteQuery.Splitter

variable {s : Splitter} {t : Term}

theorem isSingle_of_mem_obstacles {f : Fault} (h : f ∈ s.obstacles t) : f.IsSingle := by
  induction t using Term.inductionOn with
  | step t ih =>
    rw [obstacles_eq] at h
    cases hr : s.render t with
    | ok r =>
      rw [hr] at h
      cases h
    | error why =>
      simp only [hr] at h
      split at h
      · obtain ⟨c, hc, hf⟩ := List.mem_flatMap.1 h
        exact ih c hc hf
      · obtain rfl := List.mem_singleton.1 h
        exact Dialect.isSingle_of_render hr

theorem isSingle_of_place_opened {f : Fault} (h : s.place t = .opened (some f)) : f.IsSingle := by
  have hp := s.placed t
  rw [h] at hp
  cases hp with
  | faulty _ _ hr => exact Dialect.isSingle_of_render hr

theorem isSingle_of_mem_reasons {f : Fault} (h : f ∈ s.reasons t) : f.IsSingle := by
  induction t using Term.inductionOn with
  | step t ih =>
    rw [reasons_eq] at h
    cases hpl : s.place t with
    | free =>
      simp only [hpl] at h
      split at h
      · exact isSingle_of_mem_obstacles h
      · cases h
    | captured | leaf _ =>
      simp only [hpl] at h
      cases h
    | opened why =>
      simp only [hpl] at h
      split at h
      · -- nothing below is a reason, so it is the fault of the node itself
        split at h
        · cases h
        · obtain rfl := Option.mem_toList.1 h
          exact isSingle_of_place_opened hpl
      · obtain ⟨c, hc, hf⟩ := List.mem_flatMap.1 h
        exact ih c hc hf

theorem causes_ofCauses_reasons (s : Splitter) (t : Term) :
    (Fault.ofCauses (s.reasons t)).causes = s.reasons t :=
  Fault.causes_ofCauses_of_isSingle fun _ => isSingle_of_mem_reasons

theorem exists_split_of_allowed {body : Term} (h : s.clientUse = .allowed) :
    ∃ result, s.dialect.split s.clientUse (.lambda [s.root] body) = .ok result := by
  rw [split_eq, if_neg (by simp [h])]
  split
  · exact ⟨_, rfl⟩
  · exact ⟨_, rfl⟩

theorem split_eq_error_iff {body : Term} (h : s.clientUse = .forbidden) (why : Fault) :
    s.dialect.split s.clientUse (.lambda [s.root] body) = .error why ↔
      s.reasons body ≠ [] ∧ why = .ofCauses (s.reasons body) := by
  rw [split_eq]
  by_cases hr : s.reasons body = []
  · rw [if_neg (by simp [hr])]
    constructor
    · intro he
      split at he <;> cases he
    · intro hw
      exact absurd hr hw.1
  · rw [if_pos ⟨h, hr⟩]
    constructor
    · intro he
      cases he
      exact ⟨hr, rfl⟩
    · intro hw
      rw [hw.2]

/-- What is asked of the server and what is done with its answer. The server's term is a positional
construction of the leaves; their texts are distinct and make up the projection that is sent, which is
the one that the server's term has as a selector of its own. The client takes a tuple of the leaves'
types and reads all of its items, for the first time in their order. -/
structure Sends (d : Dialect) (root : Param) (result : Split) (leaves : List Term)
    (texts : List String) (tuple : Param) (client : Term) : Prop where
  server : result.server? = some (.construct none leaves (.tuple (leaves.map (·.ty))))
  length : leaves.length = result.arity
  written : leaves.map (d.text (some root.name)) = texts.map .ok
  distinct : texts.Nodup
  projection : ∃ text, result.serverText? = some text ∧
    text = ",".intercalate (texts.mapIdx fun i text => text ++ " as " ++ Ty.itemName i) ∧
    d.projection (.lambda [root] (.construct none leaves (.tuple (leaves.map (·.ty))))) = .ok text
  evaluated : result.client = .lambda [tuple] client
  typed : tuple.ty = .tuple (leaves.map (·.ty))
  read : (client.readNames tuple.name).eraseDups = (List.range result.arity).map Ty.itemName

theorem sends_clientBody (s : Splitter) {body : Term} {result : Split}
    (h : s.dialect.split s.clientUse (.lambda [s.root] body) = .ok result) (hn : 0 < result.arity) :
    Sends s.dialect s.root result ((s.slots body).map (·.term)) (s.slots body).texts (s.tuple body)
      (s.clientBody body) := by
  have hserver := server?_of_arity_pos hn
  obtain rfl := eq_of_split_of_arity_pos h hn
  have hprojection : s.dialect.projection
      (.lambda [s.root] (.tuple ((s.slots body).map (·.term)))) =
      .ok (s.slots body).projectionText := s.projectionOf_slots body
  exact {
    server := hserver
    length := List.length_map _
    written := by
      rw [Slots.texts, List.map_map, List.map_map]
      exact List.map_congr_left fun slot hs => text_of_mem_slots hs
    distinct := Slots.nodup_texts_ofList _
    projection := ⟨_, rfl, rfl, hprojection⟩
    evaluated := rfl
    typed := by rw [List.map_map]; rfl
    read := s.eraseDups_readNames_clientBody body }

/-- A split fails only where the client must not evaluate and has to, and then for exactly the reasons
that were found. A split with slots sends them as one projection, and the client reads all of them. -/
theorem split_total_and_sends (d : Dialect) (root : Param) (body : Term) :
    (∃ result, d.split .allowed (.lambda [root] body) = .ok result) ∧
    (∀ why, d.split .forbidden (.lambda [root] body) = .error why ↔
      (⟨d, .forbidden, root⟩ : Splitter).reasons body ≠ [] ∧
        why = .ofCauses ((⟨d, .forbidden, root⟩ : Splitter).reasons body)) ∧
    (Fault.ofCauses ((⟨d, .forbidden, root⟩ : Splitter).reasons body)).causes =
      (⟨d, .forbidden, root⟩ : Splitter).reasons body ∧
    ∀ use result, d.split use (.lambda [root] body) = .ok result → 0 < result.arity →
      ∃ leaves texts tuple client, Sends d root result leaves texts tuple client := by
  refine ⟨?_, ?_, ?_, ?_⟩
  · exact exists_split_of_allowed (s := ⟨d, .allowed, root⟩) rfl
  · exact split_eq_error_iff (s := ⟨d, .forbidden, root⟩) rfl
  · exact causes_ofCauses_reasons ⟨d, .forbidden, root⟩ body
  · intro use result h hn
    exact ⟨_, _, _, _, sends_clientBody ⟨d, use, root⟩ h hn⟩

theorem split_total_and_sends_personSummary :
    ∃ result, Dialect.verbatim.split .allowed (.lambda [person] personSummary) = .ok result ∧
      0 < result.arity ∧ ∃ leaves texts tuple client,
        Sends Dialect.verbatim person result leaves texts tuple client := by
  obtain ⟨result, h, hn⟩ := exists_split_personSummary
  exact ⟨result, h, hn,
    (split_total_and_sends Dialect.verbatim person personSummary).2.2.2 .allowed result h hn⟩

end RemoteQuery.Splitter
