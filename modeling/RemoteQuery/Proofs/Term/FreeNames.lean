import RemoteQuery.Proofs.Term.Inlining
import RemoteQuery.Proofs.Term.Renaming
import RemoteQuery.Term.Build

/-!
# Free names after a substitution

Three walks know about names: one asks whether a name is free, one substitutes for it and one collects all
names. They agree. Substituting for a name that is not free changes nothing; else the free names of the
replacement come in where the name was, if no lambda captures them. A name that is not collected is neither
bound nor free, so it can stand in for another one and be replaced afterwards.
-/

namespace RemoteQuery.Term

variable {t r : Term} {name other fresh : String}

theorem replace_of_mentions_eq_false (h : t.mentions name = false) (r : Term) :
    t.replace name r = t := by
  induction t using inductionOn with
  | step t ih =>
    have hparam := mt (fun hp => (mentions_iff name t).2 (Or.inl hp)) (Bool.eq_false_iff.1 h)
    rw [replace_eq, if_neg hparam]
    split
    · rfl
    · rename_i hh
      exact withChildren_map_eq_self t fun c hc =>
        ih c hc (mentions_eq_false_of_mem_children h (Bool.eq_false_iff.2 hh) hc)

theorem mentions_eq_false_of_hides (h : t.hides name = true) : t.mentions name = false := by
  cases t with
  | lambda params body =>
    have hbinds : binds params name = true := h
    simp [hbinds]
  | _ => cases h

/-- No lambda of the term binds a name that is free in the other one. -/
def BindsNoneOf (t r : Term) : Prop := t.Every fun u => ∀ name, r.mentions name = true → u.hides name = false

theorem bindsNoneOf_of_not_mem_names (h : ∀ name, r.mentions name = true → name ∉ t.names) :
    t.BindsNoneOf r := by
  induction t using inductionOn with
  | step t ih =>
    refine every_iff.2 ⟨fun name hm => hides_eq_false_of_not_mem_names (h name hm), fun c hc => ?_⟩
    exact ih c hc fun name hm hn => h name hm (names_subset_of_mem_children hc hn)

theorem mentions_replace_iff (hbinds : t.BindsNoneOf r) :
    (t.replace name r).mentions other = true ↔
      other ≠ name ∧ t.mentions other = true ∨ t.mentions name = true ∧ r.mentions other = true := by
  induction t using inductionOn with
  | step t ih =>
    obtain ⟨hself, hchildren⟩ := every_iff.1 hbinds
    rw [replace_eq]
    split
    · rename_i hp
      obtain ⟨q, rfl, rfl⟩ := isParamNamed_iff.1 hp
      simpa using fun (hne : other ≠ q.name) he => absurd he.symm hne
    · rename_i hp
      split
      · rename_i hh
        have hbound := mentions_eq_false_of_hides hh
        simpa [hbound] using fun hm (he : other = name) => Bool.eq_false_iff.1 hbound (he ▸ hm)
      · rename_i hh
        have hname : t.hides name = false := Bool.eq_false_iff.2 hh
        have hbelow : (∃ c ∈ t.children, (c.replace name r).mentions other = true) ↔
            other ≠ name ∧ (∃ c ∈ t.children, c.mentions other = true) ∨
              (∃ c ∈ t.children, c.mentions name = true) ∧ r.mentions other = true := by
          constructor
          · rintro ⟨c, hc, hm⟩
            rcases (ih c hc (hchildren c hc)).1 hm with ⟨hne, hm⟩ | ⟨hm, hr⟩
            · exact Or.inl ⟨hne, c, hc, hm⟩
            · exact Or.inr ⟨⟨c, hc, hm⟩, hr⟩
          · rintro (⟨hne, c, hc, hm⟩ | ⟨⟨c, hc, hm⟩, hr⟩)
            · exact ⟨c, hc, (ih c hc (hchildren c hc)).2 (Or.inl ⟨hne, hm⟩)⟩
            · exact ⟨c, hc, (ih c hc (hchildren c hc)).2 (Or.inr ⟨hm, hr⟩)⟩
        rw [mentions_withChildren_map_iff, hbelow, mentions_iff other t, mentions_iff name t]
        constructor
        · rintro (hparam | ⟨hother, ⟨hne, hm⟩ | ⟨hm, hr⟩⟩)
          · exact Or.inl ⟨fun he => hp (he ▸ hparam), Or.inl hparam⟩
          · exact Or.inl ⟨hne, Or.inr ⟨hother, hm⟩⟩
          · exact Or.inr ⟨Or.inr ⟨hname, hm⟩, hr⟩
        · rintro (⟨hne, hparam | ⟨hother, hm⟩⟩ | ⟨hparam | ⟨-, hm⟩, hr⟩)
          · exact Or.inl hparam
          · exact Or.inr ⟨hother, Or.inl ⟨hne, hm⟩⟩
          · exact absurd hparam hp
          · -- nothing that comes with the replacement is captured at this node
            exact Or.inr ⟨hself other hr, Or.inr ⟨hm, hr⟩⟩

theorem replace_withChildren {cs : List Term} (hlen : cs.length = t.children.length)
    (hp : t.isParamNamed name = false) (hh : t.hides name = false) (r : Term) :
    (t.withChildren cs).replace name r = t.withChildren (cs.map fun c => c.replace name r) := by
  rw [replace_eq, isParamNamed_withChildren, hides_withChildren, hp, hh, children_withChildren t hlen]
  exact withChildren_withChildren t hlen ((List.length_map _).trans hlen)

theorem replace_replace (h : fresh ∉ t.names) (name : String) (u r : Term) :
    (t.replace name u).replace fresh r = t.replace name (u.replace fresh r) := by
  induction t using inductionOn with
  | step t ih =>
    rw [replace_eq t name, replace_eq t name]
    split
    · rfl
    · split
      · exact replace_of_mentions_eq_false (mentions_eq_false_of_not_mem_names h) r
      · rw [replace_withChildren (List.length_map _) (isParamNamed_eq_false_of_not_mem_names h)
          (hides_eq_false_of_not_mem_names h), List.map_map]
        refine congrArg t.withChildren (List.map_congr_left fun c hc => ?_)
        exact ih c hc fun hm => h (names_subset_of_mem_children hc hm)

theorem replace_replace_of_not_mem_names (h : fresh ∉ t.names) (name : String) (ty : Ty) (r : Term) :
    (t.replace name (.param ⟨fresh, ty⟩)).replace fresh r = t.replace name r := by
  rw [replace_replace h, replace_param, if_pos (beq_self_eq_true fresh)]

theorem mem_eraseReps_loop {a b : String} {l found : List String} :
    a ∈ List.eraseRepsBy.loop (· == ·) b l found ↔ a = b ∨ a ∈ l ∨ a ∈ found := by
  induction l generalizing b found with
  | nil => simp [List.eraseRepsBy.loop, or_comm]
  | cons c l ih =>
    rw [List.eraseRepsBy.loop]
    split
    · rename_i he
      obtain rfl : b = c := beq_iff_eq.1 he
      simp [ih, or_assoc]
    · simp [ih, or_assoc, or_left_comm]

theorem mem_eraseReps {a : String} {l : List String} : a ∈ l.eraseReps ↔ a ∈ l := by
  cases l with
  | nil => rfl
  | cons b l => exact mem_eraseReps_loop.trans (by simp)

theorem mem_sortedNames : name ∈ t.sortedNames ↔ name ∈ t.names := by
  rw [sortedNames, mem_eraseReps, List.mem_mergeSort]

/-- Substitution is exact. It changes nothing where the name is not free; where no lambda captures a name of
the replacement, the free names after it are those before it without the name, and those of the replacement
if the name was free; and it can go through any name that is not collected. -/
theorem substitution_exact (t r : Term) (name : String) :
    (t.mentions name = false → t.replace name r = t) ∧
    (t.BindsNoneOf r → ∀ other, (t.replace name r).mentions other = true ↔
      other ≠ name ∧ t.mentions other = true ∨ t.mentions name = true ∧ r.mentions other = true) ∧
    ∀ fresh ty, fresh ∉ t.sortedNames →
      (t.replace name (.param ⟨fresh, ty⟩)).replace fresh r = t.replace name r := by
  refine ⟨fun h => replace_of_mentions_eq_false h r, fun h other => mentions_replace_iff h, ?_⟩
  intro fresh ty h
  exact replace_replace_of_not_mem_names (mt mem_sortedNames.2 h) name ty r

def outerAndInner : Term :=
  .arrayOf [.lambda [⟨"o", .object⟩] (.operation .equal (.parameter "x" .object) (.parameter "o" .object)),
    inner] .object
where
  inner : Term := .lambda [⟨"x", .object⟩] (.parameter "x" .object)

def firstItem : Term := (Term.parameter "t" .object).property "Item1" .object

theorem substitution_exact_outerAndInner :
    (outerAndInner.inner.mentions "x" = false ∧
      outerAndInner.inner.replace "x" firstItem = outerAndInner.inner) ∧
    (outerAndInner.BindsNoneOf firstItem ∧
      ∀ other, (outerAndInner.replace "x" firstItem).mentions other = true ↔
        other ≠ "x" ∧ outerAndInner.mentions other = true ∨
          outerAndInner.mentions "x" = true ∧ firstItem.mentions other = true) ∧
    "y" ∉ outerAndInner.sortedNames ∧
      (outerAndInner.replace "x" (.param ⟨"y", .object⟩)).replace "y" firstItem =
        outerAndInner.replace "x" firstItem := by
  have hhidden : outerAndInner.inner.mentions "x" = false := by simp [outerAndInner.inner, binds]
  have hnames : outerAndInner.names = ["o", "x", "o", "x", "x"] := by decide +kernel
  have hbinds : outerAndInner.BindsNoneOf firstItem := by
    refine bindsNoneOf_of_not_mem_names fun name hm => ?_
    obtain rfl : "t" = name := by simpa [firstItem, property, parameter, mentions_of_children, children] using hm
    rw [hnames]
    decide
  have hfresh : "y" ∉ outerAndInner.sortedNames := by
    rw [mem_sortedNames, hnames]
    decide
  obtain ⟨-, hfree, hthrough⟩ := substitution_exact outerAndInner firstItem "x"
  exact ⟨⟨hhidden, (substitution_exact outerAndInner.inner firstItem "x").1 hhidden⟩,
    ⟨hbinds, hfree hbinds⟩, hfresh, hthrough "y" .object hfresh⟩

end RemoteQuery.Term
