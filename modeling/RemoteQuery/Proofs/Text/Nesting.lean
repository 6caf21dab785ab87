import Mathlib.Data.List.Basic
import RemoteQuery.Proofs.Text.Brackets

/-!
# Nesting of brackets

A scan remembers the brackets that are still open. Between single quotes every character stands for
itself. A text is well nested when each closing bracket closes the innermost open one and nothing is
open in the end. One item of a list, in addition, has no comma outside of all brackets and quotes, so
that items with commas between them can be cut apart again.
-/

namespace RemoteQuery.Nesting

inductive Kind where
  | quote
  | opening (closer : Char)
  | closing
  | comma
  | plain
deriving DecidableEq

def kind : Char → Kind
  | '\'' => .quote
  | '(' => .opening ')'
  | '[' => .opening ']'
  | ')' | ']' => .closing
  | ',' => .comma
  | _ => .plain

/-- Where a scan stands: whether between quotes, and the closing brackets that it waits for, the next one
first. -/
structure Place where
  quoted : Bool
  awaited : List Char
deriving DecidableEq

def start : Place := ⟨false, []⟩

/-- The place after one more character, unless a bracket closes nothing, or a comma stands outside where
no list may stand. -/
def step? (listed : Bool) (s : Place) (c : Char) : Option Place :=
  match s.quoted, kind c with
  | quoted, .quote => some ⟨!quoted, s.awaited⟩
  | true, _ => some s
  | false, .opening closer => some ⟨false, closer :: s.awaited⟩
  | false, .closing =>
    if s.awaited.head? = some c then some ⟨false, s.awaited.tail⟩ else none
  | false, .comma => if s.awaited = [] ∧ listed = false then none else some s
  | false, .plain => some s

def scan? (listed : Bool) (s : Place) (cs : List Char) : Option Place := cs.foldlM (step? listed) s

/-- The brackets of the text are nested; if it may not be listed, it is also one item of a list. -/
def WellNested (listed : Bool) (cs : List Char) : Prop := scan? listed start cs = some start

variable {listed listed' : Bool} {s : Place} {c : Char} {cs ds es r : List Char} {q q' : Bool}
  {p p' : List Char}

theorem scan?_cons : scan? listed s (c :: cs) = (step? listed s c).bind (scan? listed · cs) := rfl

theorem scan?_append :
    scan? listed s (cs ++ ds) = (scan? listed s cs).bind (scan? listed · ds) :=
  List.foldlM_append ..

theorem step?_within (hr : r = [] → listed = true → listed' = true)
    (h : step? listed ⟨q, p⟩ c = some ⟨q', p'⟩) :
    step? listed' ⟨q, p ++ r⟩ c = some ⟨q', p' ++ r⟩ := by
  cases q <;> cases hk : kind c <;> simp only [step?, hk] at h ⊢
  case false.closing =>
    split at h
    · rename_i hp
      obtain ⟨p₁, rfl⟩ := List.head?_eq_some_iff.1 hp
      cases h
      rw [if_pos (by simp)]
      rfl
    · cases h
  case false.comma =>
    split at h
    · cases h
    · rename_i hn
      cases h
      refine if_neg fun hn' => hn ?_
      obtain ⟨hp, rfl⟩ := List.append_eq_nil_iff.1 hn'.1
      exact ⟨hp, by cases listed <;> simp_all⟩
  all_goals
    cases h
    rfl

theorem scan?_within (hr : r = [] → listed = true → listed' = true)
    (h : scan? listed ⟨q, p⟩ cs = some ⟨q', p'⟩) :
    scan? listed' ⟨q, p ++ r⟩ cs = some ⟨q', p' ++ r⟩ := by
  induction cs generalizing q p with
  | nil =>
    cases h
    rfl
  | cons c cs ih =>
    rw [scan?_cons, Option.bind_eq_some_iff] at h
    obtain ⟨⟨q₁, p₁⟩, hc, hcs⟩ := h
    rw [scan?_cons, step?_within hr hc]
    exact ih hcs

theorem WellNested.weaken (h : WellNested listed cs) : WellNested true cs :=
  scan?_within (r := []) (fun _ _ => rfl) h

theorem wellNested_nil : WellNested listed [] := rfl

theorem WellNested.append (hc : WellNested listed cs) (hd : WellNested listed ds) :
    WellNested listed (cs ++ ds) := by
  rw [WellNested, scan?_append, hc]
  exact hd

theorem WellNested.scan?_eq (h : WellNested listed cs) (hp : p = [] → listed = true → listed' = true) :
    scan? listed' ⟨false, p⟩ cs = some ⟨false, p⟩ :=
  scan?_within hp h

theorem WellNested.bracketed {closer opener : Char} (ho : kind opener = .opening closer)
    (hc : kind closer = .closing) (h : WellNested listed' cs) :
    WellNested listed (opener :: (cs ++ [closer])) := by
  have hopen : step? listed start opener = some ⟨false, [closer]⟩ := by simp [step?, start, ho]
  have hclose : step? listed ⟨false, [closer]⟩ closer = some start := by simp [step?, start, hc]
  rw [WellNested, scan?_cons, hopen, Option.bind_some, scan?_append, h.scan?_eq (p := [closer]) nofun,
    Option.bind_some, scan?_cons, hclose]
  rfl

theorem WellNested.parenthesised (h : WellNested listed' cs) :
    WellNested listed ('(' :: (cs ++ [')'])) :=
  h.bracketed rfl rfl

theorem WellNested.squared (h : WellNested listed' cs) : WellNested listed ('[' :: (cs ++ [']'])) :=
  h.bracketed rfl rfl

def isInert (listed : Bool) (c : Char) : Bool := kind c = .plain || listed && kind c = .comma

theorem isInert_iff : isInert listed c = true ↔
    c ≠ '\'' ∧ c ≠ '(' ∧ c ≠ '[' ∧ c ≠ ')' ∧ c ≠ ']' ∧ (listed = false → c ≠ ',') := by
  unfold isInert kind
  split <;> simp_all

theorem step?_of_isInert (h : isInert listed' c = true) (hp : listed' = true → listed = false → p ≠ []) :
    step? listed ⟨false, p⟩ c = some ⟨false, p⟩ := by
  rw [isInert, Bool.or_eq_true, Bool.and_eq_true, decide_eq_true_iff, decide_eq_true_iff] at h
  rw [step?]
  rcases h with hk | ⟨hl, hk⟩
  · rw [hk]
  · rw [hk]
    exact if_neg fun hn => hp hl hn.2 hn.1

theorem wellNested_of_isInert (h : ∀ c ∈ cs, isInert listed c = true) : WellNested listed cs := by
  induction cs with
  | nil => rfl
  | cons c cs ih =>
    have hc := h c List.mem_cons_self
    rw [WellNested, scan?_cons, start, step?_of_isInert hc fun h h' => absurd (h.symm.trans h') nofun]
    exact ih fun b hb => h b (List.mem_cons_of_mem c hb)

theorem wellNested_of_all (cs : List Char) (h : cs.all (isInert listed) = true) :
    WellNested listed cs :=
  wellNested_of_isInert (List.all_eq_true.1 h)

theorem step?_between (hc : c ≠ '\'') : step? listed ⟨true, p⟩ c = some ⟨true, p⟩ := by
  have hk : kind c ≠ .quote := by
    unfold kind
    split <;> simp_all
  cases hkind : kind c <;> simp_all [step?]

theorem scan?_quoted_body (cs rest : List Char) :
    scan? listed ⟨true, p⟩ (Quoted.body cs ++ '\'' :: rest) = scan? listed ⟨false, p⟩ rest := by
  induction cs with
  | nil => rfl
  | cons c cs ih =>
    by_cases hc : c = '\''
    · subst hc
      exact ih
    · rw [Quoted.body_cons_of_ne hc, List.cons_append, scan?_cons, step?_between hc]
      exact ih

theorem wellNested_quoted (cs : List Char) : WellNested listed (Quoted.chars cs) :=
  scan?_quoted_body cs []

theorem wellNested_quoted_of_not_mem (h : '\'' ∉ cs) : WellNested listed ('\'' :: (cs ++ ['\''])) := by
  have hchars : WellNested listed (Quoted.chars cs) := wellNested_quoted cs
  rwa [Quoted.chars, Quoted.body_of_not_mem h] at hchars

theorem wellNested_intercalate {css : List (List Char)} (h : ∀ cs ∈ css, WellNested true cs) :
    WellNested true ([','].intercalate css) := by
  induction css with
  | nil => rfl
  | cons cs css ih =>
    obtain ⟨hcs, hrest⟩ := List.forall_mem_cons.1 h
    cases css with
    | nil => rwa [List.intercalate_singleton]
    | cons ds css =>
      rw [List.intercalate_cons_cons]
      exact (hcs.append (wellNested_of_all _ rfl)).append (ih hrest)

theorem not_wellNested_append_comma (h : WellNested false cs) (rest : List Char) :
    ¬ WellNested false (cs ++ ',' :: rest) := by
  rw [WellNested, scan?_append, h]
  exact nofun

theorem item_append_inj (hc : WellNested false cs) (hd : WellNested false ds) {s : List Char}
    (hr : ∀ c ∈ r.head?, c = ',') (hs : ∀ c ∈ s.head?, c = ',') (h : cs ++ r = ds ++ s) :
    cs = ds ∧ r = s := by
  -- what the longer item has more would begin with the comma after the shorter one
  have hnil : ∀ {cs tail rest : List Char}, WellNested false cs → WellNested false (cs ++ tail) →
      (∀ c ∈ (tail ++ rest).head?, c = ',') → tail = [] := by
    intro cs tail rest hcs htail hhead
    cases tail with
    | nil => rfl
    | cons c tail =>
      obtain rfl := hhead c rfl
      exact absurd htail (not_wellNested_append_comma hcs tail)
  rcases List.append_eq_append_iff.1 h with ⟨tail, rfl, rfl⟩ | ⟨tail, rfl, rfl⟩
  · obtain rfl := hnil hc hd hr
    simp
  · obtain rfl := hnil hd hc hs
    simp

theorem intercalate_cons (cs : List Char) (css : List (List Char)) :
    [','].intercalate (cs :: css) = cs ++ css.flatMap (',' :: ·) := by
  induction css generalizing cs with
  | nil => simp
  | cons ds css ih => rw [List.intercalate_cons_cons, ih, List.flatMap_cons, List.append_assoc]; rfl

theorem comma_of_mem_head?_flatMap (css : List (List Char)) :
    ∀ c ∈ (css.flatMap (',' :: ·)).head?, c = ',' := by
  cases css <;> simp

theorem flatMap_inj {css dss : List (List Char)} (hc : ∀ cs ∈ css, WellNested false cs)
    (hd : ∀ ds ∈ dss, WellNested false ds)
    (h : css.flatMap (',' :: ·) = dss.flatMap (',' :: ·)) : css = dss := by
  induction css generalizing dss with
  | nil =>
    cases dss with
    | nil => rfl
    | cons ds dss => cases h
  | cons cs css ih =>
    cases dss with
    | nil => cases h
    | cons ds dss =>
      obtain ⟨hcs, hcss⟩ := List.forall_mem_cons.1 hc
      obtain ⟨hds, hdss⟩ := List.forall_mem_cons.1 hd
      obtain ⟨rfl, hrest⟩ := item_append_inj hcs hds (comma_of_mem_head?_flatMap css)
        (comma_of_mem_head?_flatMap dss) (List.cons.inj h).2
      rw [ih hcss hdss hrest]

theorem intercalate_inj {css dss : List (List Char)} (hc : ∀ cs ∈ css, WellNested false cs ∧ cs ≠ [])
    (hd : ∀ ds ∈ dss, WellNested false ds ∧ ds ≠ [])
    (h : [','].intercalate css = [','].intercalate dss) : css = dss := by
  have hempty : ∀ {cs css}, cs ≠ [] → [','].intercalate (cs :: css) ≠ [] := by
    intro cs css hcs he
    rw [intercalate_cons] at he
    exact hcs (List.append_eq_nil_iff.1 he).1
  cases css with
  | nil =>
    cases dss with
    | nil => rfl
    | cons ds dss => exact absurd h.symm (hempty (hd ds List.mem_cons_self).2)
  | cons cs css =>
    cases dss with
    | nil => exact absurd h (hempty (hc cs List.mem_cons_self).2)
    | cons ds dss =>
      -- after a comma on both sides, this is the case of further items
      rw [intercalate_cons, intercalate_cons] at h
      exact flatMap_inj (fun cs hm => (hc cs hm).1) (fun ds hm => (hd ds hm).1)
        (congrArg (',' :: ·) h)

end RemoteQuery.Nesting
