import RemoteQuery.Proofs.Split.Graft
import RemoteQuery.Proofs.Split.Sending
import RemoteQuery.Proofs.Term.Children
import RemoteQuery.Proofs.Term.FreeNames
import RemoteQuery.Proofs.Term.Freshness

/-!
# The walk of a split computes its passes

From any state, the walk puts the leaves of a part into the table of slots and appends its reasons to the
causes. Slots are only ever appended, so a read made early names the right item, of the right type, also when
the walk has ended. When the reads are given the type of the whole tuple at last, they are those of the
client's remainder.
-/

namespace RemoteQuery

namespace Slots

variable {slots later : Slots} {text : String} {slot : Slot}

theorem prefix_insert (slots : Slots) (slot : Slot) : slots <+: slots.insert slot := by
  rw [insert]
  split
  · exact List.prefix_rfl
  · exact List.prefix_append _ _

theorem prefix_foldl_insert (slots : Slots) (leaves : List Slot) : slots <+: leaves.foldl insert slots := by
  induction leaves generalizing slots with
  | nil => exact List.prefix_rfl
  | cons leaf leaves ih => exact (slots.prefix_insert leaf).trans (ih _)

theorem slot?_of_prefix (h : slots <+: later) (hs : slots.slot? text = some slot) :
    later.slot? text = some slot := by
  obtain ⟨more, rfl⟩ := h
  rw [slot?] at hs
  rw [slot?, List.find?_append, hs, Option.some_or]

theorem indexOf_of_prefix (h : slots <+: later) (hs : slots.slot? text = some slot) :
    later.indexOf text = slots.indexOf text := by
  obtain ⟨more, rfl⟩ := h
  have hlt : slots.findIdx (·.text == text) < slots.length := indexOf_lt_of_slot? hs
  rw [indexOf, indexOf, List.findIdx_append, if_pos hlt]

theorem exists_slot?_insert (slots : Slots) (slot : Slot) :
    ∃ taken, (slots.insert slot).slot? slot.text = some taken := by
  rw [slot?_insert]
  exact Option.isSome_iff_exists.1 (List.find?_isSome.2 ⟨slot, by simp, by simp⟩)

end Slots

def SplitState.after (st : SplitState) (leaves : List Slot) (causes : List Fault) : SplitState :=
  ⟨leaves.foldl Slots.insert st.slots, st.causes ++ causes⟩

namespace SplitM

variable {α β : Type}

theorem run_bind (x : SplitM α) (f : α → SplitM β) (st : SplitState) :
    (x >>= f).run st = (f (x.run st).1).run (x.run st).2 := rfl

/-- From every state the computation finds these leaves and causes. It returns what `result` makes of the
table that it leaves, and of every longer one. -/
def Finds (x : SplitM α) (leaves : List Slot) (causes : List Fault) (result : Slots → α) : Prop :=
  ∀ st, (x.run st).2 = st.after leaves causes ∧
    ∀ later, (st.after leaves causes).slots <+: later → (x.run st).1 = result later

namespace Finds

variable {x : SplitM α} {leaves : List Slot} {causes : List Fault} {result : Slots → α}

theorem pure (a : α) : Finds (pure a) [] [] fun _ => a := fun st =>
  ⟨by rw [SplitState.after, List.append_nil]; rfl, fun _ _ => rfl⟩

theorem map (h : Finds x leaves causes result) (g : α → β) :
    Finds (g <$> x) leaves causes fun later => g (result later) := fun st =>
  ⟨(h st).1, fun later hl => congrArg g ((h st).2 later hl)⟩

theorem seq {y : SplitM β} {leaves' : List Slot} {causes' : List Fault} {result' : Slots → β}
    (h : Finds x leaves causes result) (h' : Finds y leaves' causes' result') {γ : Type} (g : α → β → γ) :
    Finds (do let a ← x; let b ← y; return g a b) (leaves ++ leaves') (causes ++ causes')
      fun later => g (result later) (result' later) := by
  intro st
  obtain ⟨hst, hresult⟩ := h st
  obtain ⟨hst', hresult'⟩ := h' (st.after leaves causes)
  have hafter : (st.after leaves causes).after leaves' causes' =
      st.after (leaves ++ leaves') (causes ++ causes') := by
    simp [SplitState.after]
  rw [hafter] at hst' hresult'
  rw [run_bind, run_bind, hst]
  refine ⟨hst', fun later hl => ?_⟩
  have hearly : (st.after leaves causes).slots <+: later :=
    (Slots.prefix_foldl_insert _ leaves').trans (by simpa [SplitState.after] using hl)
  rw [hresult later hearly, hresult' later hl]
  rfl

theorem mapM {f : Term → SplitM α} {leavesOf : Term → List Slot} {causesOf : Term → List Fault}
    {resultOf : Term → Slots → α} {cs : List Term}
    (h : ∀ c ∈ cs, Finds (f c) (leavesOf c) (causesOf c) (resultOf c)) :
    Finds (cs.mapM f) (cs.flatMap leavesOf) (cs.flatMap causesOf) fun later => cs.map (resultOf · later) := by
  induction cs with
  | nil => exact pure []
  | cons c cs ih =>
    obtain ⟨hc, hcs⟩ := List.forall_mem_cons.1 h
    rw [List.mapM_cons]
    exact hc.seq (ih hcs) List.cons

theorem forM {f : Term → SplitM Unit} {causesOf : Term → List Fault} {cs : List Term}
    (h : ∀ c ∈ cs, Finds (f c) [] (causesOf c) fun _ => ()) :
    Finds (forM cs f) [] (cs.flatMap causesOf) fun _ => () := by
  induction cs with
  | nil => exact pure ()
  | cons c cs ih =>
    obtain ⟨hc, hcs⟩ := List.forall_mem_cons.1 h
    exact hc.seq (ih hcs) fun _ u => u

theorem record (cause : Fault) : Finds (record cause) [] [cause] fun _ => () := fun _ =>
  ⟨rfl, fun _ _ => rfl⟩

end Finds

section Leaves

variable {text tuple : String} {leaf : Term} {ty : Ty} {st : SplitState}

theorem run_slotFor (text : String) (leaf : Term) (st : SplitState) : (slotFor text leaf).run st =
    ((st.after [⟨text, leaf⟩] []).slots.indexOf text, st.after [⟨text, leaf⟩] []) := by
  rw [SplitState.after, List.append_nil]
  rfl

theorem exists_slot?_after (text : String) (leaf : Term) (st : SplitState) :
    ∃ taken, (st.after [⟨text, leaf⟩] []).slots.slot? text = some taken :=
  st.slots.exists_slot?_insert ⟨text, leaf⟩

theorem run_leafPlaceholder {slot : Nat} {taken : Slot} (h : st.slots[slot]? = some taken) :
    (leafPlaceholder tuple slot ty).run st =
      (if taken.term.ty = ty then placeholder tuple slot ty
        else (placeholder tuple slot taken.term.ty).converted ty, st) := by
  have hread : (get : SplitM SplitState).run st = (st, st) := rfl
  simp only [leafPlaceholder, run_bind, hread, h]
  split <;> rfl

theorem finds_placeholder {α : Type} (g : Term → α) :
    Finds (do let slot ← slotFor text leaf; return g (placeholder tuple slot ty))
      [⟨text, leaf⟩] [] fun later => g (later.item ⟨tuple, .tuple []⟩ text ty) := by
  intro st
  obtain ⟨taken, htaken⟩ := exists_slot?_after text leaf st
  rw [run_bind, run_slotFor]
  refine ⟨rfl, fun later hl => ?_⟩
  simp only [Slots.item, Slots.indexOf_of_prefix hl htaken]
  rfl

theorem finds_leafPlaceholder : Finds (do let slot ← slotFor text leaf; leafPlaceholder tuple slot ty)
    [⟨text, leaf⟩] [] fun later => later.itemAs ⟨tuple, .tuple []⟩ text ty := by
  intro st
  obtain ⟨taken, htaken⟩ := exists_slot?_after text leaf st
  rw [run_bind, run_slotFor, run_leafPlaceholder (Slots.getElem?_indexOf htaken)]
  refine ⟨rfl, fun later hl => ?_⟩
  simp only [Slots.itemAs, Slots.typeOf_eq (Slots.slot?_of_prefix hl htaken), Slots.item,
    Slots.indexOf_of_prefix hl htaken]
  rfl

end Leaves

theorem run_recordOwn (st : SplitState) (leaves : List Slot) (causes : List Fault) (own : Option Fault) :
    (recordOwn st.causes.length own).run (st.after leaves causes) =
      ((), st.after leaves (if causes = [] then own.toList else causes)) := by
  -- The count is as before exactly when nothing was found in between.
  have hcount : (st.causes ++ causes).length = st.causes.length ↔ causes = [] := by simp
  cases own with
  | none =>
    split
    · rename_i hc
      rw [hc]
      rfl
    · rfl
  | some cause =>
    rw [recordOwn, run_bind]
    change StateT.run (if (st.causes ++ causes).length = st.causes.length then _ else _) _ = _
    by_cases hc : causes = []
    · rw [if_pos (hcount.2 hc), if_pos hc, hc, SplitState.after, List.append_nil]
      rfl
    · rw [if_neg (mt hcount.1 hc), if_neg hc]
      rfl

theorem Finds.recordOwn {α : Type} {x : SplitM α} {leaves : List Slot} {causes : List Fault}
    {result : Slots → α} (h : Finds x leaves causes result) (own : Option Fault) :
    Finds (do let before ← causeCount; let a ← x; SplitM.recordOwn before own; return a) leaves
      (if causes = [] then own.toList else causes) result := by
  intro st
  obtain ⟨hst, hresult⟩ := h st
  have hcount : causeCount.run st = (st.causes.length, st) := rfl
  rw [run_bind, hcount, run_bind, hst, run_bind, run_recordOwn]
  exact ⟨rfl, hresult⟩

end SplitM

namespace Splitter

open SplitM

theorem recordUnsupported_eq (s : Splitter) (t : Term) :
    s.recordUnsupported t = match s.render t with
      | .ok _ => return
      | .error cause =>
        if t.isConstruction then forM t.children s.recordUnsupported else record cause := by
  have hchildren : (forM t.children.attach fun c => s.recordUnsupported c.1) =
      forM t.children s.recordUnsupported := by
    rw [← List.forM_map, List.attach_map_subtype_val]
  have hdef := recordUnsupported.eq_def s t
  rw [hchildren] at hdef
  exact hdef

theorem finds_recordUnsupported (s : Splitter) (t : Term) :
    Finds (s.recordUnsupported t) [] (s.obstacles t) fun _ => () := by
  induction t using Term.inductionOn with
  | step t ih =>
    rw [recordUnsupported_eq, obstacles_eq]
    cases s.render t with
    | ok r => exact .pure ()
    | error cause =>
      dsimp only
      split
      · exact .forM ih
      · exact .record cause

theorem visit_eq (s : Splitter) (tuple : String) (t : Term) :
    s.visit tuple t = match s.place t with
      | .free => do
        if s.clientUse = .forbidden then s.recordUnsupported t
        return t
      | .captured => do
        let slot ← slotFor rootText (.param s.root)
        return t.replace s.root.name (placeholder tuple slot s.root.ty)
      | .leaf text => do
        let slot ← slotFor text t
        leafPlaceholder tuple slot t.ty
      | .opened why => do
        let before ← causeCount
        let rewritten ← t.mapChildrenM (s.visit tuple)
        recordOwn before (if t.isConstruction then none else why)
        return rewritten := by
  rw [visit]
  cases s.place t with
  | opened why => simp [Term.mapChildrenM_eq]
  | free | captured | leaf text => rfl

/-- From any state, what the walk finds and makes is what the passes compute. -/
theorem finds_visit (s : Splitter) (tuple : String) (t : Term) :
    Finds (s.visit tuple t) (s.leaves t) (s.reasons t) (s.remainder · ⟨tuple, .tuple []⟩ t) := by
  induction t using Term.inductionOn with
  | step t ih =>
    have hremainder := fun later => s.remainder_eq later ⟨tuple, .tuple []⟩ t
    rw [visit_eq, leaves_eq, funext hremainder]
    cases hplace : s.place t with
    | free =>
      rw [reasons_eq, hplace]
      dsimp only
      split
      · exact (s.finds_recordUnsupported t).map fun _ => t
      · exact .pure t
    | captured =>
      rw [reasons_eq, hplace]
      exact finds_placeholder _
    | leaf text =>
      rw [reasons_eq, hplace]
      exact finds_leafPlaceholder
    | opened why =>
      have hchildren := (Finds.mapM ih).map t.withChildren
      rw [← Term.mapChildrenM_eq] at hchildren
      rw [reasons_of_opened hplace]
      exact hchildren.recordOwn _

theorem run_visit (s : Splitter) (tuple : String) (t : Term) : (s.visit tuple t).run .initial =
    (s.remainder (s.slots t) ⟨tuple, .tuple []⟩ t, ⟨s.slots t, s.reasons t⟩) := by
  obtain ⟨hst, hresult⟩ := s.finds_visit tuple t .initial
  exact Prod.ext (hresult _ List.prefix_rfl) hst

section Retyping

variable {name : String} {t r : Term}

theorem replace_graft {s : Splitter} {leaf leaf' : String → Ty → Term} {root root' : Term}
    (h : name ∉ t.names) (hleaf : ∀ text ty, (leaf text ty).replace name r = leaf' text ty)
    (hroot : root.replace name r = root') :
    (s.graft leaf root t).replace name r = s.graft leaf' root' t := by
  induction t using Term.inductionOn with
  | step t ih =>
    rw [graft_eq, graft_eq]
    cases s.place t with
    | free => exact Term.replace_of_mentions_eq_false (Term.mentions_eq_false_of_not_mem_names h) r
    | captured => exact (Term.replace_replace h s.root.name root r).trans (by rw [hroot])
    | leaf text => exact hleaf text t.ty
    | opened why =>
      dsimp only
      rw [Term.replace_withChildren (List.length_map _) (Term.isParamNamed_eq_false_of_not_mem_names h)
        (Term.hides_eq_false_of_not_mem_names h), List.map_map]
      refine congrArg t.withChildren (List.map_congr_left fun c hc => ?_)
      exact ih c hc fun hm => h (Term.names_subset_of_mem_children hc hm)

theorem replace_remainder (s : Splitter) (slots : Slots) (h : name ∉ t.names) (ty ty' : Ty) :
    (s.remainder slots ⟨name, ty⟩ t).replace name (.param ⟨name, ty'⟩) =
      s.remainder slots ⟨name, ty'⟩ t := by
  -- The reads get the type of the tuple, whatever type they had.
  have hitem : ∀ text itemTy, (slots.item ⟨name, ty⟩ text itemTy).replace name (.param ⟨name, ty'⟩) =
      slots.item ⟨name, ty'⟩ text itemTy := by
    intro text itemTy
    rw [Slots.item, Term.replace_of_children (by simp) (by simp)]
    simp [Slots.item, Term.children, Term.withChildren]
  rw [remainder_eq_graft, remainder_eq_graft]
  refine replace_graft h (fun text itemTy => ?_) (hitem _ _)
  rw [Slots.itemAs, Slots.itemAs]
  split
  · exact hitem _ _
  · rw [Term.converted, Term.replace_of_children (by simp) (by simp)]
    simp [Term.children, Term.withChildren, Term.converted, hitem]

end Retyping

def tuple (s : Splitter) (body : Term) : Param :=
  ⟨(Term.lambda [s.root] body).freshName, (s.slots body).tupleType⟩

theorem tuple_name_not_mem_names (s : Splitter) (body : Term) :
    (s.tuple body).name ∉ body.names := fun h =>
  Term.freshName_not_mem_names (.lambda [s.root] body)
    (Term.names_subset_of_mem_children (by simp [Term.children]) h)

def clientBody (s : Splitter) (body : Term) : Term :=
  s.remainder (s.slots body) (s.tuple body) body

/-- What a split comes to, in terms of its passes. -/
theorem split_eq (s : Splitter) (body : Term) :
    s.dialect.split s.clientUse (.lambda [s.root] body) =
      if s.clientUse = .forbidden ∧ s.reasons body ≠ [] then .error (.ofCauses (s.reasons body))
      else if (s.slots body).isEmpty ∨ (s.slots body).isBareRoot then
        .ok ⟨.empty, none, .lambda [s.root] body, s.reasons body⟩
      else .ok ⟨s.slots body, some (s.slots body).projectionText,
        .lambda [s.tuple body] (s.clientBody body), s.reasons body⟩ := by
  have hq : (Term.lambda [s.root] body).query = .ok (s.root, body) := rfl
  have hrun : (visit ⟨s.dialect, s.clientUse, s.root⟩ (s.tuple body).name body).run .initial =
      (s.remainder (s.slots body) ⟨(s.tuple body).name, .tuple []⟩ body, ⟨s.slots body, s.reasons body⟩) :=
    s.run_visit _ body
  have hclient : (s.remainder (s.slots body) ⟨(s.tuple body).name, .tuple []⟩ body).replace
      (s.tuple body).name (.param (s.tuple body)) = s.clientBody body :=
    s.replace_remainder _ (s.tuple_name_not_mem_names body) _ _
  have htext := s.projectionOf_slots body
  rw [tuple] at hrun hclient
  simp only [Dialect.split, hq, bind, Except.bind, pure, Except.pure, throw, throwThe,
    MonadExceptOf.throw, hrun, hclient, htext]
  split
  · rfl
  · split <;> rfl

theorem eq_of_split_of_arity_pos {s : Splitter} {body : Term} {result : Split}
    (h : s.dialect.split s.clientUse (.lambda [s.root] body) = .ok result) (hn : 0 < result.arity) :
    result = ⟨s.slots body, some (s.slots body).projectionText,
      .lambda [s.tuple body] (s.clientBody body), s.reasons body⟩ := by
  rw [split_eq] at h
  split at h
  · cases h
  · split at h
    · cases h
      simp [Split.arity, Slots.empty] at hn
    · cases h
      rfl

theorem server?_of_arity_pos {result : Split} (hn : 0 < result.arity) :
    result.server? = some (.tuple (result.slots.map (·.term))) := by
  have he : result.slots ≠ [] := by
    intro he
    rw [Split.arity, he] at hn
    cases hn
  simp [Split.server?, he]

end Splitter

end RemoteQuery
