import RemoteQuery.Proofs.Wire.Nested

/-!
# The outer pair of a predicate

A predicate is written without the pair of parentheses that encloses its whole text. The brackets of the
text are nested, however many brackets and quotes its constants have in them, so counting the round ones
finds the pair, and what is left has its brackets nested again.
-/

namespace RemoteQuery.Dialect

open Nesting

variable {d : Dialect} {t : Term} {root : Option String} {text : String}

theorem predicate_of_text (hdrops : d.dropsOuterParens = true) {p : Param}
    (h : d.text (some p.name) t = .ok text) :
    d.predicate (.lambda [p] t) = .ok (stripOuterParens text) := by
  have hbody : d.bodyText (.lambda [p] t) = .ok text := h
  rw [predicate, hbody]
  simp [hdrops, bind, Except.bind, pure, Except.pure]

theorem stripOuterParens_cases {listed : Bool} (h : WellNested listed text.toList) :
    WellNested true (stripOuterParens text).toList ∧
    ((Encloses text.toList ∧ text = "(" ++ stripOuterParens text ++ ")") ∨
      (¬ Encloses text.toList ∧ stripOuterParens text = text)) := by
  rw [stripOuterParens, String.toList_ofList]
  refine ⟨h.strip, ?_⟩
  rcases strip_cases h with ⟨he, hcs, -⟩ | ⟨he, hcs⟩
  · refine Or.inl ⟨he, String.toList_inj.1 ?_⟩
    simpa using hcs
  · refine Or.inr ⟨he, ?_⟩
    rw [hcs, String.ofList_toList]

/-- If no name has a bracket or a quote in it, the brackets of the text are nested. A predicate loses the
pair that encloses its text where there is one, and nothing else. -/
theorem text_wellNested_and_stripped (hd : d.mappings = .standard) (ht : t.InertNames true)
    (h : d.text root t = .ok text) :
    WellNested true text.toList ∧
      (d.dropsOuterParens = true → ∀ p : Param, root = some p.name → ∃ written,
        d.predicate (.lambda [p] t) = .ok written ∧ WellNested true written.toList ∧
          ((Encloses text.toList ∧ text = "(" ++ written ++ ")") ∨
            (¬ Encloses text.toList ∧ written = text))) := by
  have hstandard : d.mappings.WellNested true := hd ▸ MappingTable.wellNested_standard.weaken
  obtain ⟨r, hr, rfl⟩ := text_eq_ok.1 h
  have hnested := wellNested_render hstandard ht hr
  refine ⟨hnested, fun hdrops p hp => ?_⟩
  subst hp
  exact ⟨_, predicate_of_text hdrops h, stripOuterParens_cases hnested⟩

def awkwardText : Term :=
  .member (some (.constant (.string ")'(") (.scalar .string))) ⟨"Nullable", "HasValue", .boolean⟩

theorem text_wellNested_and_stripped_awkwardText :
    Dialect.standard.mappings = .standard ∧ awkwardText.InertNames true ∧
      Dialect.standard.text (some "x") awkwardText = .ok "(')''(' ne null)" ∧
      WellNested true "(')''(' ne null)".toList ∧ Dialect.standard.dropsOuterParens = true ∧
      ∃ written, Dialect.standard.predicate (.lambda [⟨"x", .object⟩] awkwardText) = .ok written ∧
        WellNested true written.toList ∧
        ((Encloses "(')''(' ne null)".toList ∧ "(')''(' ne null)" = "(" ++ written ++ ")") ∨
          (¬ Encloses "(')''(' ne null)".toList ∧ written = "(')''(' ne null)")) := by
  have hmappings : Dialect.standard.mappings = .standard := by simp only [Dialect.standard]
  have hdrops : Dialect.standard.dropsOuterParens = true := rfl
  have hnames : awkwardText.InertNames true := by
    have hname : InertName true "HasValue" := inertName_of_isIdentifier (by decide)
    refine Term.every_iff.2 ⟨?_, fun c hc => ?_⟩
    · simpa [awkwardText, Term.spelledNames] using hname
    · obtain rfl := List.mem_singleton.1 hc
      exact Term.every_iff.2 ⟨nofun, nofun⟩
  have htext : Dialect.standard.text (some "x") awkwardText = .ok "(')''(' ne null)" := by
    decide +kernel
  obtain ⟨hnested, hpredicate⟩ := text_wellNested_and_stripped hmappings hnames htext
  exact ⟨hmappings, hnames, htext, hnested, hdrops, hpredicate hdrops ⟨"x", .object⟩ rfl⟩

end RemoteQuery.Dialect
