import RemoteQuery.Proofs.Term.Context
import RemoteQuery.Proofs.Text.Apart
import RemoteQuery.Proofs.Wire.RootPath

/-!
# Exchanging what a hole holds

Two terms of the same type are put into the hole of a context. The nodes on the way are written by the
same rules, and each puts the text of what is below it into the same places of its own text. So a
relation between the texts of the two that holds on in such places, and through negation, relates the
texts of the whole.
-/

namespace RemoteQuery

/-- A relation that holds on when the same text is put around both, and when both are negated. -/
structure Stable (ρ : String → String → Prop) : Prop where
  woven : ∀ {pieces : List (Option (List Char))} {s t : String}, none ∈ pieces → ρ s t →
    ρ (String.ofList (weave pieces s.toList)) (String.ofList (weave pieces t.toList))
  negated : ∀ {s t : String}, ρ s t →
    ρ ("not (" ++ stripOuterParens s ++ ")") ("not (" ++ stripOuterParens t ++ ")")

theorem stable_true : Stable fun _ _ => True where
  woven _ _ := trivial
  negated _ := trivial

theorem stable_eq : Stable Eq where
  woven := by
    rintro pieces s t - rfl
    rfl
  negated := by
    rintro s t rfl
    rfl

theorem stable_apart : Stable fun s t => Brackets.Apart s.toList t.toList where
  woven := by
    intro pieces s t hn h
    rw [String.toList_ofList, String.toList_ofList]
    exact h.weave hn
  negated := by
    intro s t h
    have hne := h.strip_ne
    have hnot : ∀ u : String, ("not (" ++ stripOuterParens u ++ ")").toList =
        'n' :: ("ot (".toList ++ (Brackets.strip u.toList ++ [')'])) := by
      intro u
      simp [stripOuterParens]
    rw [hnot, hnot]
    apply Brackets.apart_of_head (by decide)
    intro he
    rw [List.append_cancel_left_eq, List.append_cancel_right_eq] at he
    exact hne he

variable {ρ : String → String → Prop}

theorem Stable.around (hρ : Stable ρ) {s t : String} (h : ρ s t) (pre post : String) :
    ρ (pre ++ s ++ post) (pre ++ t ++ post) := by
  have hw : ∀ u : String, String.ofList
      (weave [some pre.toList, none, some post.toList] u.toList) = pre ++ u ++ post := by
    intro u
    rw [← String.toList_inj]
    simp [weave]
  rw [← hw, ← hw]
  exact hρ.woven (by simp) h

theorem Stable.append (hρ : Stable ρ) {s t : String} (h : ρ s t) (post : String) :
    ρ (s ++ post) (t ++ post) := by
  have ha := hρ.around h "" post
  rwa [String.empty_append, String.empty_append] at ha

theorem Stable.prepend (hρ : Stable ρ) {s t : String} (h : ρ s t) (pre : String) :
    ρ (pre ++ s) (pre ++ t) := by
  have ha := hρ.around h pre ""
  rwa [String.append_empty, String.append_empty] at ha

theorem Stable.followed (hρ : Stable ρ) {s t : String} (h : ρ s t) (pre sep next post : String) :
    ρ (pre ++ s ++ sep ++ next ++ post) (pre ++ t ++ sep ++ next ++ post) :=
  hρ.append (hρ.append (hρ.append (hρ.prepend h pre) sep) next) post

namespace Template

variable {template : String} {before after : List String}

theorem getElem?_append_cons_of_ne {k : Nat} (h : k ≠ before.length) (s t : String) :
    (before ++ s :: after)[k]? = (before ++ t :: after)[k]? := by
  rcases Nat.lt_or_gt_of_ne h with hl | hl
  · rw [List.getElem?_append_left hl, List.getElem?_append_left hl]
  · obtain ⟨j, hj⟩ : ∃ j, k - before.length = j + 1 := ⟨k - before.length - 1, by omega⟩
    rw [List.getElem?_append_right (by omega), List.getElem?_append_right (by omega), hj,
      List.getElem?_cons_succ, List.getElem?_cons_succ]

theorem exists_weave_of_fillSegments {segs : List Segment} {s : String} {w : List Char}
    (h : fillSegments template (before ++ s :: after) segs = .ok w) :
    ∃ pieces, (Segment.argument before.length ∈ segs → none ∈ pieces) ∧
      ∀ t, fillSegments template (before ++ t :: after) segs = .ok (weave pieces t.toList) := by
  induction segs generalizing w with
  | nil => exact ⟨[], by simp, fun _ => rfl⟩
  | cons seg segs ih =>
    cases seg with
    | text c =>
      rw [fillSegments] at h
      cases hs : fillSegments template (before ++ s :: after) segs with
      | error fault => rw [hs] at h; cases h
      | ok rest =>
        obtain ⟨pieces, hn, hw⟩ := ih hs
        refine ⟨some [c] :: pieces, by simpa using hn, fun t => ?_⟩
        rw [fillSegments, hw, weave_cons]
        rfl
    | argument k =>
      rw [fillSegments] at h
      cases hk : (before ++ s :: after)[k]? with
      | none => rw [hk] at h; cases h
      | some arg =>
        rw [hk] at h
        dsimp only at h
        cases hs : fillSegments template (before ++ s :: after) segs with
        | error fault => rw [hs] at h; cases h
        | ok rest =>
          obtain ⟨pieces, hn, hw⟩ := ih hs
          by_cases hb : k = before.length
          · subst hb
            refine ⟨none :: pieces, by simp, fun t => ?_⟩
            rw [fillSegments, List.getElem?_append_right (Nat.le_refl _), Nat.sub_self,
              List.getElem?_cons_zero, hw, weave_cons]
            rfl
          · refine ⟨some arg.toList :: pieces, ?_, fun t => ?_⟩
            · intro hm
              rcases List.mem_cons.1 hm with he | hm
              · exact absurd (Segment.argument.inj he).symm hb
              · exact List.mem_cons_of_mem _ (hn hm)
            · rw [fillSegments, getElem?_append_cons_of_ne hb t s, hk, hw, weave_cons]
              rfl
    | broken position =>
      rw [fillSegments] at h
      cases h

end Template

def Mapping.Writes (m : Mapping) (index : Nat) : Prop :=
  .argument index ∈ Template.segments m.template

theorem Stable.filled (hρ : Stable ρ) {m : Mapping} {before after : List String}
    (hm : m.Writes before.length) {s t w : String} (h : ρ s t)
    (hs : m.fill (before ++ s :: after) = .ok w) :
    ∃ w', m.fill (before ++ t :: after) = .ok w' ∧ ρ w w' := by
  rw [Mapping.fill, Template.fill] at hs
  cases hc : Template.fillSegments m.template (before ++ s :: after)
      (Template.segments m.template) with
  | error fault => rw [hc] at hs; cases hs
  | ok cs =>
    obtain ⟨pieces, hn, hw⟩ := Template.exists_weave_of_fillSegments hc
    rw [hw] at hs
    cases hs
    refine ⟨_, ?_, hρ.woven (hn hm) h⟩
    rw [Mapping.fill, Template.fill, hw]
    rfl

namespace Rule

variable {α β : Type} {f g : α → Except Fault β}

theorem mapM_append_cons_eq_ok {before after : List α} {a : α} {rs : List β}
    (h : (before ++ a :: after).mapM f = .ok rs) :
    ∃ bs r as, rs = bs ++ r :: as ∧ bs.length = before.length ∧ f a = .ok r ∧
      ∀ b s, f b = .ok s → (before ++ b :: after).mapM f = .ok (bs ++ s :: as) := by
  rw [List.mapM_append] at h
  cases hb : before.mapM f with
  | error fault => simp [hb, bind, Except.bind] at h
  | ok bs =>
    rw [hb] at h
    cases hc : (a :: after).mapM f with
    | error fault => simp [hc, bind, Except.bind] at h
    | ok cs =>
      obtain ⟨r, as, ha, hl, rfl⟩ := mapM_cons_eq_ok hc
      obtain rfl : bs ++ r :: as = rs := by
        simpa [hc, bind, Except.bind, pure, Except.pure] using h
      refine ⟨bs, r, as, rfl, length_of_mapM_eq_ok hb, ha, fun b s hs => ?_⟩
      rw [List.mapM_append, hb, List.mapM_cons, hs, hl]
      rfl

def Carries (ρ : String → String → Prop) (render : Option String → Term → Except Fault Rendered)
    (root : Option String) (t u : Term) : Prop :=
  ∀ r, render root t = .ok r → ∃ s, render root u = .ok s ∧ ρ r.text s.text

def Follows (ρ : String → String → Prop) (render : Option String → Term → Except Fault Rendered)
    (rule rule' : Rule) : Prop :=
  ∀ r, rule.run render = .ok r → ∃ s, rule'.run render = .ok s ∧ ρ r.text s.text

variable {render : Option String → Term → Except Fault Rendered} {root : Option String} {t u v : Term}

theorem follows_of_parts {rule rule' : Rule} (before after : List (Option String × Term))
    (hp : rule.parts = before ++ (root, t) :: after)
    (hp' : rule'.parts = before ++ (root, u) :: after) (h : Carries ρ render root t u)
    (hw : ∀ bs as s s' w, bs.length = before.length → ρ s s' →
      rule.write (bs ++ s :: as) = .ok w → ∃ w', rule'.write (bs ++ s' :: as) = .ok w' ∧ ρ w w') :
    Follows ρ render rule rule' := by
  intro r hr
  obtain ⟨rs, hrs, hwrite, -⟩ := run_eq_ok hr
  rw [hp] at hrs
  obtain ⟨bs, q, as, rfl, hlen, hq, hback⟩ := mapM_append_cons_eq_ok hrs
  obtain ⟨q', hq', hrel⟩ := h q hq
  have hmap := hback (root, u) q' hq'
  rw [List.map_append, List.map_cons] at hwrite
  obtain ⟨w', hw', hrel'⟩ := hw _ _ _ q'.text _ (by simpa using hlen) hrel hwrite
  refine ⟨⟨w', rule'.prefersLocal || (bs ++ q' :: as).any (·.prefersLocal)⟩, ?_, hrel'⟩
  rw [run, hp', hmap]
  simp only [bind, Except.bind, List.map_append, List.map_cons, hw', pure, Except.pure]

theorem follows_one (h : Carries ρ render root t u) {f : String → String}
    (hf : ∀ s s', ρ s s' → ρ (f s) (f s')) : Follows ρ render (one root t f) (one root u f) := by
  refine follows_of_parts [] [] rfl rfl h ?_
  intro bs as s s' w hlen hst hw
  obtain rfl := List.length_eq_zero_iff.1 hlen
  cases hw
  exact ⟨_, rfl, hf s s' hst⟩

theorem follows_two_left (h : Carries ρ render root t u) {f : String → String → String}
    (hf : ∀ s s' w, ρ s s' → ρ (f s w) (f s' w)) :
    Follows ρ render (two root t v f) (two root u v f) := by
  refine follows_of_parts [] [(root, v)] rfl rfl h ?_
  intro bs as s s' w hlen hst hw
  obtain rfl := List.length_eq_zero_iff.1 hlen
  cases hw
  exact ⟨_, rfl, hf s s' _ hst⟩

theorem follows_two_right (h : Carries ρ render root t u) {f : String → String → String}
    (hf : ∀ s s' w, ρ s s' → ρ (f w s) (f w s')) :
    Follows ρ render (two root v t f) (two root v u f) := by
  refine follows_of_parts [(root, v)] [] rfl rfl h ?_
  intro bs as s s' w hlen hst hw
  obtain ⟨b, rfl⟩ := List.length_eq_one_iff.1 hlen
  cases hw
  exact ⟨_, rfl, hf s s' _ hst⟩

variable {before after : List Term}

theorem parts_append_cons (root : Option String) (before after : List Term) (t : Term) :
    (before ++ t :: after).map (root, ·) =
      before.map (root, ·) ++ (root, t) :: after.map (root, ·) := by
  rw [List.map_append, List.map_cons]

theorem follows_listed (h : Carries ρ render root t u) {f : List String → String}
    (hf : ∀ bs as s s', ρ s s' → ρ (f (bs ++ s :: as)) (f (bs ++ s' :: as))) :
    Follows ρ render (listed root (before ++ t :: after) f) (listed root (before ++ u :: after) f) := by
  refine follows_of_parts _ _ (parts_append_cons ..) (parts_append_cons ..) h ?_
  intro bs as s s' w _ hst hw
  cases hw
  exact ⟨_, rfl, hf bs as s s' hst⟩

theorem follows_mapped (hρ : Stable ρ) (h : Carries ρ render root t u) {mapping : Mapping}
    (hm : mapping.Writes before.length) :
    Follows ρ render (mapped mapping root (before ++ t :: after))
      (mapped mapping root (before ++ u :: after)) := by
  refine follows_of_parts _ _ (parts_append_cons ..) (parts_append_cons ..) h ?_
  intro bs as s s' w hlen hst hw
  have hlen' : bs.length = before.length := by simpa using hlen
  have hfill : (mapping.fill (bs ++ s :: as)).mapError Fault.template = .ok w := hw
  cases hf : mapping.fill (bs ++ s :: as) with
  | error fault => rw [hf] at hfill; cases hfill
  | ok text =>
    rw [hf] at hfill
    cases hfill
    obtain ⟨w', hw', hrel⟩ := hρ.filled (hlen' ▸ hm) hst hf
    refine ⟨w', ?_, hrel⟩
    show (mapping.fill (bs ++ s' :: as)).mapError Fault.template = .ok w'
    rw [hw']
    rfl

end Rule

theorem exists_intercalate_eq (before after : List String) :
    ∃ pre post, ∀ s, ",".intercalate (before ++ s :: after) = pre ++ s ++ post := by
  have hafter : ∃ post, ∀ s, ",".intercalate (s :: after) = s ++ post := by
    cases after with
    | nil => exact ⟨"", fun s => by rw [String.intercalate_singleton, String.append_empty]⟩
    | cons t after =>
      exact ⟨"," ++ ",".intercalate (t :: after), fun s => by
        rw [String.intercalate_cons_cons, String.append_assoc]⟩
  obtain ⟨post, hpost⟩ := hafter
  cases before with
  | nil => exact ⟨"", post, fun s => by rw [List.nil_append, hpost, String.empty_append]⟩
  | cons t before =>
    refine ⟨",".intercalate (t :: before) ++ ",", post, fun s => ?_⟩
    rw [String.intercalate_append_of_ne_nil (List.cons_ne_nil t before) (List.cons_ne_nil s after),
      hpost, String.append_assoc, String.append_assoc, String.append_assoc]

theorem Stable.enumerated (hρ : Stable ρ) {s t : String} (h : ρ s t) (pre post : String)
    (before after : List String) : ρ (pre ++ ",".intercalate (before ++ s :: after) ++ post)
      (pre ++ ",".intercalate (before ++ t :: after) ++ post) := by
  obtain ⟨first, last, hs⟩ := exists_intercalate_eq before after
  rw [hs, hs]
  exact hρ.around (hρ.around h first last) pre post

end RemoteQuery
