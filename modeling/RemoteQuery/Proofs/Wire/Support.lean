import RemoteQuery.Proofs.Wire.NodeFault

/-!
# Support is decided node by node

A term has a text exactly when none of its nodes has a fault: a text of the whole shows that every node can
be written, also those that rendering rewrites or skips.
-/

namespace RemoteQuery.Dialect

variable {d : Dialect} {root : Option String} {t : Term}

theorem every_supported_of_render {root : Option String} {t : Term} {r : Rendered}
    (h : d.render root t = .ok r) : t.Every fun u => d.nodeFault? u = none := by
  obtain ⟨rule, hrule, rs, hrs, hw, -⟩ := render_eq_ok h
  have hreads := (reads_of_rule hrule).2
  have hlen : (rs.map (·.text)).length = rule.parts.length := by
    rw [List.length_map, Rule.length_of_mapM_eq_ok hrs]
  have hself : d.nodeFault? t = none := by
    cases hf : d.nodeFault? t with
    | none => rfl
    | some why =>
      rw [(write_eq_error_iff hrule hlen).2 hf] at hw
      cases hw
  have hpassed : Transparent fun u => d.nodeFault? u = none :=
    d.transparent_nodeFault? (P := (· = none)) rfl
  have hparts : ∀ u ∈ rule.parts.map (·.2), u.Every fun v => d.nodeFault? v = none := by
    intro u hu
    obtain ⟨part, hpart, rfl⟩ := List.mem_map.1 hu
    obtain ⟨s, -, hs⟩ := (Rule.mem_of_mapM_eq_ok hrs).1 part hpart
    have := nodes_lt_of_reads hreads hu
    exact every_supported_of_render hs
  exact Term.every_iff.2 ⟨hself, (every_parts hpassed hreads).1 hparts⟩
termination_by t.nodes

theorem exists_render_iff (d : Dialect) (root : Option String) (t : Term) :
    (∃ r, d.render root t = .ok r) ↔ t.Every fun u => d.nodeFault? u = none := by
  constructor
  · intro hr
    obtain ⟨r, hr⟩ := hr
    exact every_supported_of_render hr
  · intro hall
    cases hr : d.render root t with
    | ok r => exact ⟨r, rfl⟩
    | error why =>
      obtain ⟨p, u, hu, hf⟩ := exists_nodeFault?_of_render_eq_error hr
      rw [hall p u hu] at hf
      cases hf

theorem exists_render_of_mem_children {r : Rendered} (h : d.render root t = .ok r) {c : Term}
    (hc : c ∈ t.children) : ∃ r, d.render root c = .ok r :=
  (d.exists_render_iff root c).2 ((Term.every_iff.1 (every_supported_of_render h)).2 c hc)

def objectDialect : Dialect := ⟨⟨MappingTable.standardObjects⟩, .camelCase, true⟩

end RemoteQuery.Dialect
