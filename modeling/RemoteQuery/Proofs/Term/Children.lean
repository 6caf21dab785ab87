import RemoteQuery.Term.Build

/-!
# Mapping the children

Each kind of node says for itself how its children are mapped. This agrees with the one view of all
kinds: the children are visited from left to right, the optional target first and the rows one after
another, and what is found for them is put in their place. A function that keeps a state and may fail is
called on the children in this order up to its first failure, and on nothing else. Nodes that differ in
their children only are alike.
-/

namespace RemoteQuery.Term

/-- Nodes of one kind that have everything but the children in common, and as many of these in every
place. -/
inductive Alike : Term → Term → Prop
  | binary (op : BinaryOp) (l r l' r' : Term) (ty : Ty) : Alike (.binary op l r ty) (.binary op l' r' ty)
  | unary (op : UnaryOp) (t t' : Term) (ty : Ty) : Alike (.unary op t ty) (.unary op t' ty)
  | member (t t' : Term) (m : Member) : Alike (.member (some t) m) (.member (some t') m)
  | staticMember (m : Member) : Alike (.member none m) (.member none m)
  | constant (value : Literal) (ty : Ty) : Alike (.constant value ty) (.constant value ty)
  | call (t t' : Term) (m : Method) {args args' : List Term} (h : args.length = args'.length) :
      Alike (.call (some t) m args) (.call (some t') m args')
  | staticCall (m : Method) {args args' : List Term} (h : args.length = args'.length) :
      Alike (.call none m args) (.call none m args')
  | typeTest (t t' : Term) (tested : Ty) : Alike (.typeTest t tested) (.typeTest t' tested)
  | lambda (params : List Param) (t t' : Term) : Alike (.lambda params t) (.lambda params t')
  | conditional (a b c a' b' c' : Term) (ty : Ty) :
      Alike (.conditional a b c ty) (.conditional a' b' c' ty)
  | param (p : Param) : Alike (.param p) (.param p)
  | array {ts ts' : List Term} (h : ts.length = ts'.length) (ty : Ty) : Alike (.array ts ty) (.array ts' ty)
  | construct (names : Option (List String)) {ts ts' : List Term} (h : ts.length = ts'.length) (ty : Ty) :
      Alike (.construct names ts ty) (.construct names ts' ty)
  | listInit {rows rows' : List (List Term)} (h : rows.map List.length = rows'.map List.length) (ty : Ty) :
      Alike (.listInit rows ty) (.listInit rows' ty)

theorem map_length_regroup {α β : Type} (rows : List (List α)) (bs : List β)
    (h : bs.length = rows.flatten.length) :
    rows.map List.length = (regroup rows bs).map List.length := by
  induction rows generalizing bs with
  | nil => rfl
  | cons row rows ih =>
    rw [List.flatten_cons, List.length_append] at h
    rw [regroup, List.map_cons, List.map_cons, ← ih _ (by rw [List.length_drop]; omega),
      List.length_take, Nat.min_eq_left (by omega)]

theorem alike_withChildren (t : Term) {cs : List Term} (h : cs.length = t.children.length) :
    Alike t (t.withChildren cs) := by
  cases t with
  | binary op l r ty => match cs, h with | [_, _], _ => exact .binary ..
  | unary op o ty => match cs, h with | [_], _ => exact .unary ..
  | member target m => cases target with
    | none => exact .staticMember m
    | some t => match cs, h with | [_], _ => exact .member ..
  | constant v ty => exact .constant v ty
  | call target m args => cases target with
    | none => exact .staticCall m h.symm
    | some t => match cs, h with | _ :: _, h => exact .call _ _ m (Nat.succ.inj h).symm
  | typeTest t ty => match cs, h with | [_], _ => exact .typeTest ..
  | lambda ps b => match cs, h with | [_], _ => exact .lambda ..
  | conditional a b c ty => match cs, h with | [_, _, _], _ => exact .conditional ..
  | param p => exact .param p
  | array es ty => exact .array h.symm ty
  | construct ns as ty => exact .construct ns h.symm ty
  | listInit rows ty => exact .listInit (map_length_regroup rows cs h) ty

section View

variable {m : Type → Type} [Monad m] [LawfulMonad m]

theorem mapM_bind_length {α β γ : Type} (f : α → m β) (l : List α) (k : Nat → List β → m γ) :
    (l.mapM f >>= fun bs => k l.length bs) = l.mapM f >>= fun bs => k bs.length bs := by
  -- A continuation may take the number of results from the list itself.
  induction l generalizing k with
  | nil => simp
  | cons a l ih =>
    simp only [List.mapM_cons, bind_assoc, pure_bind, List.length_cons]
    exact congrArg (f a >>= ·) (funext fun b => ih fun n bs => k (n + 1) (b :: bs))

theorem mapM_regroup (f : Term → m Term) (rows : List (List Term)) :
    (rows.mapM fun row => row.mapM f) = regroup rows <$> rows.flatten.mapM f := by
  induction rows with
  | nil => simp [regroup]
  | cons row rows ih =>
    -- the first row of a regrouping is cut off by its length, which is that of its results
    have hcut := mapM_bind_length f row fun n bs => do
      let rest ← rows.flatten.mapM f
      pure ((bs ++ rest).take n :: regroup rows ((bs ++ rest).drop n))
    simp only [List.mapM_cons, List.flatten_cons, List.mapM_append, ih, map_eq_pure_bind, bind_assoc,
      pure_bind, regroup]
    simpa using hcut.symm

theorem mapChildrenM_eq (f : Term → m Term) (t : Term) :
    t.mapChildrenM f = t.withChildren <$> t.children.mapM f := by
  cases t with
  | member target m => cases target <;> simp [mapChildrenM, children, withChildren]
  | call target m args =>
    cases target with
    | none =>
      simp only [mapChildrenM, children, Option.mapM_none, pure_bind, bind_pure_comp]
      rfl
    | some t => simp [mapChildrenM, children, withChildren]
  | array elements ty =>
    rw [mapChildrenM, bind_pure_comp]
    rfl
  | construct names args ty =>
    rw [mapChildrenM, bind_pure_comp]
    rfl
  | listInit rows ty =>
    rw [mapChildrenM, mapM_regroup, bind_pure_comp, Functor.map_map]
    rfl
  | _ => simp [mapChildrenM, children, withChildren]

theorem mapChildrenM_of_pure (f : Term → Term) (t : Term) :
    t.mapChildrenM (fun c => (pure (f c) : m Term)) = pure (t.withChildren (t.children.map f)) := by
  rw [mapChildrenM_eq, List.mapM_pure, map_pure]

theorem mapChildrenM_pure (t : Term) : t.mapChildrenM (pure : Term → m Term) = pure t := by
  refine (mapChildrenM_of_pure id t).trans ?_
  rw [List.map_id, withChildren_children]

end View

section Calls

variable {ε σ α β : Type}

def outcome (x : ExceptT ε (StateM σ) α) (s : σ) : Except ε α × σ := x.run s

theorem outcome_pure (a : α) (s : σ) : outcome (pure a : ExceptT ε (StateM σ) α) s = (.ok a, s) := rfl

theorem outcome_bind (x : ExceptT ε (StateM σ) α) (k : α → ExceptT ε (StateM σ) β) (s : σ) :
    outcome (x >>= k) s = ExceptT.bindCont k (outcome x s).1 (outcome x s).2 := rfl

theorem outcome_bind_of_ok {x : ExceptT ε (StateM σ) α} {s s' : σ} {a : α} (h : outcome x s = (.ok a, s'))
    (k : α → ExceptT ε (StateM σ) β) : outcome (x >>= k) s = outcome (k a) s' := by
  rw [outcome_bind, h]
  rfl

theorem outcome_bind_of_error {x : ExceptT ε (StateM σ) α} {s s' : σ} {e : ε}
    (h : outcome x s = (.error e, s')) (k : α → ExceptT ε (StateM σ) β) :
    outcome (x >>= k) s = (.error e, s') := by
  rw [outcome_bind, h]
  rfl

/-- Calling `f` on one term after another succeeds, gives these results and takes the first state to the
last. -/
inductive Calls (f : Term → ExceptT ε (StateM σ) Term) : σ → List Term → List Term → σ → Prop
  | nil (s : σ) : Calls f s [] [] s
  | cons {s s₁ s₂ : σ} {c d : Term} {cs ds : List Term} (hc : outcome (f c) s = (.ok d, s₁))
      (hcs : Calls f s₁ cs ds s₂) : Calls f s (c :: cs) (d :: ds) s₂

variable {f : Term → ExceptT ε (StateM σ) Term} {s s' s₁ s₂ : σ} {cs ds : List Term}

theorem Calls.length_eq (h : Calls f s cs ds s') : ds.length = cs.length := by
  induction h with
  | nil => rfl
  | cons _ _ ih => rw [List.length_cons, List.length_cons, ih]

theorem Calls.outcome_mapM (h : Calls f s cs ds s') : outcome (cs.mapM f) s = (.ok ds, s') := by
  induction h with
  | nil => rfl
  | cons hc _ ih =>
    rw [List.mapM_cons, outcome_bind_of_ok hc, outcome_bind_of_ok ih, outcome_pure]

theorem Calls.outcome_mapM_of_error (h : Calls f s cs ds s₁) {c : Term} {e : ε}
    (hc : outcome (f c) s₁ = (.error e, s₂)) (later : List Term) :
    outcome ((cs ++ c :: later).mapM f) s = (.error e, s₂) := by
  induction h with
  | nil => rw [List.nil_append, List.mapM_cons, outcome_bind_of_error hc]
  | cons hfirst _ ih =>
    rw [List.cons_append, List.mapM_cons, outcome_bind_of_ok hfirst, outcome_bind_of_error (ih hc)]

def recorded (f : Term → ExceptT ε (StateM σ) Term) (c : Term) :
    ExceptT ε (StateM (σ × List Term)) Term :=
  .mk fun before => let (result, s) := outcome (f c) before.1; (result, s, before.2 ++ [c])

theorem outcome_recorded (f : Term → ExceptT ε (StateM σ) Term) (c : Term) (s : σ) (called : List Term) :
    outcome (recorded f c) (s, called) =
      ((outcome (f c) s).1, (outcome (f c) s).2, called ++ [c]) := rfl

theorem Calls.recorded (h : Calls f s cs ds s') (called : List Term) :
    Calls (recorded f) (s, called) cs ds (s', called ++ cs) := by
  induction h generalizing called with
  | nil =>
    rw [List.append_nil]
    exact .nil _
  | @cons s s₁ s₂ c d cs ds hc _ ih =>
    have hrest := ih (called ++ [c])
    rw [List.append_assoc, List.singleton_append] at hrest
    exact .cons (by rw [outcome_recorded, hc]) hrest

theorem Calls.outcome_mapChildrenM {t : Term} (h : Calls f s t.children ds s') :
    outcome (t.mapChildrenM f) s = (.ok (t.withChildren ds), s') := by
  rw [mapChildrenM_eq, map_eq_pure_bind, outcome_bind_of_ok h.outcome_mapM, outcome_pure]

theorem Calls.outcome_mapChildrenM_of_error {t c : Term} {i : Nat} {e : ε}
    (h : Calls f s (t.children.take i) ds s₁) (hi : t.children[i]? = some c)
    (hc : outcome (f c) s₁ = (.error e, s₂)) :
    outcome (t.mapChildrenM f) s = (.error e, s₂) := by
  obtain ⟨hlt, rfl⟩ := List.getElem?_eq_some_iff.1 hi
  have hmap := h.outcome_mapM_of_error hc (t.children.drop (i + 1))
  rw [List.getElem_cons_drop, List.take_append_drop] at hmap
  rw [mapChildrenM_eq, map_eq_pure_bind, outcome_bind_of_error hmap]

/-- A function that keeps a state and may fail is called on the children from left to right and on nothing
else. If all calls succeed, the node gets their results as its children and stays alike otherwise; if one
fails, no later child is visited and its error is the error of the whole. The identity gives the node
back. -/
theorem mapChildrenM_visits (f : Term → ExceptT ε (StateM σ) Term) (t : Term) (s : σ) :
    (∀ ds s', Calls f s t.children ds s' → ∃ u, Alike t u ∧ u.children = ds ∧
      outcome (t.mapChildrenM f) s = (.ok u, s') ∧
      outcome (t.mapChildrenM (recorded f)) (s, []) = (.ok u, s', t.children)) ∧
    (∀ i ds s₁ c e s₂, Calls f s (t.children.take i) ds s₁ → t.children[i]? = some c →
      outcome (f c) s₁ = (.error e, s₂) →
      outcome (t.mapChildrenM f) s = (.error e, s₂) ∧
      outcome (t.mapChildrenM (recorded f)) (s, []) = (.error e, s₂, t.children.take (i + 1))) ∧
    outcome (t.mapChildrenM (pure : Term → ExceptT ε (StateM σ) Term)) s = (.ok t, s) := by
  refine ⟨fun ds s' h => ?_, fun i ds s₁ c e s₂ h hi hc => ?_, ?_⟩
  · have hlength := h.length_eq
    exact ⟨t.withChildren ds, alike_withChildren t hlength, children_withChildren t hlength,
      h.outcome_mapChildrenM, (h.recorded []).outcome_mapChildrenM⟩
  · have hrecorded : outcome (recorded f c) (s₁, t.children.take i) =
        (.error e, s₂, t.children.take (i + 1)) := by
      rw [outcome_recorded, hc, List.take_add_one, hi]
      rfl
    exact ⟨h.outcome_mapChildrenM_of_error hi hc,
      (h.recorded []).outcome_mapChildrenM_of_error hi hrecorded⟩
  · rw [mapChildrenM_pure, outcome_pure]

end Calls

def negatedUpTo (limit : Nat) (c : Term) : ExceptT String (StateM Nat) Term :=
  .mk fun count => (if count < limit then .ok c.negation else .error "limit", count + 1)

def flagRows : Term :=
  .listInit [[.parameter "a" .boolean], [], [.parameter "b" .boolean, .parameter "c" .boolean]] .object

theorem mapChildrenM_visits_flagRows :
    (∃ u, Alike flagRows u ∧ u.children = flagRows.children.map negation ∧
      outcome (flagRows.mapChildrenM (negatedUpTo 3)) 0 = (.ok u, 3) ∧
      outcome (flagRows.mapChildrenM (recorded (negatedUpTo 3))) (0, []) = (.ok u, 3, flagRows.children)) ∧
    outcome (flagRows.mapChildrenM (negatedUpTo 1)) 0 = (.error "limit", 2) ∧
    outcome (flagRows.mapChildrenM (recorded (negatedUpTo 1))) (0, []) =
      (.error "limit", 2, flagRows.children.take 2) := by
  have hall : Calls (negatedUpTo 3) 0 flagRows.children (flagRows.children.map negation) 3 :=
    .cons rfl (.cons rfl (.cons rfl (.nil 3)))
  have hfirst : Calls (negatedUpTo 1) 0 (flagRows.children.take 1) [negation (.parameter "a" .boolean)] 1 :=
    .cons rfl (.nil 1)
  exact ⟨(mapChildrenM_visits (negatedUpTo 3) flagRows 0).1 _ _ hall,
    (mapChildrenM_visits (negatedUpTo 1) flagRows 0).2.1 1 _ _ _ _ _ hfirst rfl rfl⟩

end RemoteQuery.Term
