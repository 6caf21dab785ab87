import RemoteQuery.CommandLine
import RemoteQuery.Proofs.Json.Literals
import RemoteQuery.Proofs.Term.Position

/-!
# Terms survive documents

A term without floats is read back from its document, and from the text of that document. Only the sign of
zeros among its constants is lost.
-/

namespace RemoteQuery

open Json

theorem BinaryOp.ofJson?_name (op : BinaryOp) : ofJson? (.string op.name) = some op := ofName?_name op

theorem UnaryOp.ofJson?_name (op : UnaryOp) : ofJson? (.string op.name) = some op := ofName?_name op

theorem Param.ofJson?_toJson (p : Param) : ofJson? p.toJson = some p :=
  congrArg (Option.map fun f : String × Ty => (⟨f.1, f.2⟩ : Param))
    (Ty.namedOfJson?_fieldToJson (f := (p.name, p.ty)) p.ty.ofJson?_toJson)

theorem Param.plain_toJson (p : Param) : p.toJson.Plain := by
  refine .object ?_
  simp [Plain.string, p.ty.plain_toJson]

namespace Term

def Constants (P : Literal → Prop) (t : Term) : Prop :=
  t.Every fun u => ∀ value ty, u = .constant value ty → value.All P

/-- The term with no sign at the zeros among its constants. -/
def settled (t : Term) : Term :=
  match t with
  | .constant value ty => .constant value.settled ty
  | t => t.withChildren (t.children.attach.map fun c => c.1.settled)
termination_by sizeOf t
decreasing_by exact sizeOf_lt_of_mem_children c.2

theorem settled_of_ne {t : Term} (h : ∀ value ty, t ≠ .constant value ty) :
    t.settled = t.withChildren (t.children.map settled) := by
  rw [settled]
  · simp
  · exact fun value ty => h value ty

theorem settled_eq_self {t : Term} (h : t.Constants fun l => l.isSignedZero = false) : t.settled = t := by
  induction t using inductionOn with
  | step t ih =>
    obtain ⟨hself, hchildren⟩ := every_iff.1 h
    by_cases hc : ∃ value ty, t = .constant value ty
    · obtain ⟨value, ty, rfl⟩ := hc
      rw [settled, Literal.settled_eq_self (hself value ty rfl)]
    · have hmap : t.children.map settled = t.children :=
        (List.map_congr_left fun c hc => ih c hc (hchildren c hc)).trans (List.map_id' _)
      rw [settled_of_ne fun value ty he => hc ⟨value, ty, he⟩, hmap, withChildren_children]

theorem targetToJson_eq_ofOption (target : Option Term) :
    targetToJson target = .ofOption (target.map toJson) := by
  cases target <;> rfl

theorem toJson_ne_null (t : Term) : t.toJson ≠ .null := by
  cases t <;> simp [toJson, tagged]

theorem orNull?_names (names : Option (List String)) :
    (ofOption (names.map fun ns => Json.array (ns.map Json.string))).orNull? (listOf? Json.string?) =
      some names := by
  have h : (ofOption (names.map fun ns => Json.array (ns.map Json.string))).orNull? (listOf? Json.string?) =
      some (names.map fun ns => ns.map id) :=
    orNull?_ofOption fun ns _ => ⟨by simp, listOf?_array fun _ _ => rfl⟩
  rw [h]
  simp

theorem nodup_fieldsOf {tag : String} {fields : List Field} (h : fieldsOf tag = some fields) :
    (fields.map Field.name).Nodup := by
  unfold fieldsOf at h
  split at h
  all_goals first | cases h; decide | cases h

theorem decode_tagged_object {n : Nat} {tag : String} {members : List (String × Json)}
    (h : (fieldsOf tag).map (List.map Field.name) = some (members.map Prod.fst)) :
    decode (n + 1) (tagged tag (object members)) = nodeOf? (decode n) tag (members.map Prod.snd) := by
  obtain ⟨fields, hfields, hnames⟩ := Option.map_eq_some_iff.1 h
  rw [decode, tagged?_tagged]
  simp only [Option.bind_eq_bind, Option.bind_some]
  rw [hfields, Option.bind_some, record?_object hnames.symm (nodup_fieldsOf hfields), Option.bind_some]

theorem depth_lt_of_mem_children {t c : Term} (h : c ∈ t.children) : c.toJson.depth < t.toJson.depth := by
  have hfield : ∀ {tag members} name, (name, c.toJson) ∈ members →
      c.toJson.depth < (tagged tag (object members)).depth :=
    fun _ hm => depth_lt_tagged_object hm
  have htarget : ∀ {target : Option Term} {tag members}, c ∈ target →
      ("target", targetToJson target) ∈ members → c.toJson.depth < (tagged tag (object members)).depth := by
    intro target tag members hc hm
    cases Option.mem_def.1 hc
    exact hfield "target" hm
  have hlist : ∀ {cs : List Term} {tag members} name, c ∈ cs →
      (name, Json.array (listToJson cs)) ∈ members → c.toJson.depth < (tagged tag (object members)).depth := by
    intro cs tag members name hc hm
    rw [listToJson_eq_map] at hm
    exact Nat.lt_trans (depth_lt_of_mem_array (List.mem_map_of_mem hc)) (depth_lt_tagged_object hm)
  cases t with
  | binary op left right ty =>
    rw [toJson]
    simp only [children, List.mem_cons, List.not_mem_nil, or_false] at h
    rcases h with rfl | rfl
    · exact hfield "left" (by simp)
    · exact hfield "right" (by simp)
  | unary op operand ty =>
    rw [toJson]
    cases List.mem_singleton.1 h
    exact hfield "operand" (by simp)
  | member target m =>
    rw [toJson]
    exact htarget (Option.mem_toList.1 h) (by simp)
  | constant value ty => cases h
  | call target m args =>
    rw [toJson]
    rcases List.mem_append.1 h with h | h
    · exact htarget (Option.mem_toList.1 h) (by simp)
    · exact hlist "args" h (by simp)
  | typeTest target tested =>
    rw [toJson]
    cases List.mem_singleton.1 h
    exact hfield "target" (by simp)
  | lambda params body =>
    rw [toJson]
    cases List.mem_singleton.1 h
    exact hfield "body" (by simp)
  | conditional test onTrue onFalse ty =>
    rw [toJson]
    simp only [children, List.mem_cons, List.not_mem_nil, or_false] at h
    rcases h with rfl | rfl | rfl
    · exact hfield "test" (by simp)
    · exact hfield "then" (by simp)
    · exact hfield "otherwise" (by simp)
  | param p => cases h
  | array elements ty =>
    rw [children] at h
    rw [toJson]
    exact hlist "elements" h (by simp)
  | construct names args ty =>
    rw [children] at h
    rw [toJson]
    exact hlist "args" h (by simp)
  | listInit rows ty =>
    obtain ⟨row, hrow, hc⟩ := List.mem_flatten.1 h
    rw [toJson, rowsToJson_eq_map]
    exact Nat.lt_trans (depth_lt_of_mem_array (List.mem_map_of_mem hc)) (Nat.lt_trans
      (depth_lt_of_mem_array (List.mem_map.2 ⟨row, hrow, rfl⟩))
      (depth_lt_tagged_object List.mem_cons_self))

theorem decode_node {n : Nat} {t : Term}
    (hself : ∀ value ty, t = .constant value ty → value.All fun l => l.isFloat = false)
    (hread : ∀ c ∈ t.children, decode n c.toJson = some c.settled) :
    decode (n + 1) t.toJson = some t.settled := by
  have hlist : ∀ cs : List Term, (∀ c ∈ cs, c ∈ t.children) →
      (Json.array (cs.map toJson)).listOf? (decode n) = some (cs.map settled) :=
    fun cs hcs => listOf?_array fun c hc => hread c (hcs c hc)
  have htarget : ∀ target : Option Term, (∀ c ∈ target, c ∈ t.children) →
      (targetToJson target).orNull? (decode n) = some (target.map settled) := by
    intro target hcs
    rw [targetToJson_eq_ofOption]
    exact orNull?_ofOption fun c hc => ⟨c.toJson_ne_null, hread c (hcs c hc)⟩
  cases t with
  | binary op left right ty =>
    have hl := hread left (by simp [children])
    have hr := hread right (by simp [children])
    rw [toJson, decode_tagged_object rfl]
    simp [nodeOf?, hl, hr, BinaryOp.ofJson?_name, Ty.ofJson?_toJson, settled_of_ne, children, withChildren]
  | unary op operand ty =>
    have ho := hread operand (by simp [children])
    rw [toJson, decode_tagged_object rfl]
    simp [nodeOf?, ho, UnaryOp.ofJson?_name, Ty.ofJson?_toJson, settled_of_ne, children, withChildren]
  | member target m =>
    have ht := htarget target (by simp [children])
    rw [toJson, decode_tagged_object rfl]
    simp [nodeOf?, ht, Member.ofJson?_toJson, settled_of_ne, children]
    cases target <;> rfl
  | constant value ty =>
    rw [toJson, decode_tagged_object rfl, settled]
    simp [nodeOf?, Literal.ofJson?_toJson (hself value ty rfl), Ty.ofJson?_toJson]
  | call target m args =>
    have ht := htarget target (by simp +contextual [children])
    have hargs := hlist args (by simp +contextual [children])
    rw [toJson, listToJson_eq_map, decode_tagged_object rfl]
    simp [nodeOf?, ht, hargs, Method.ofJson?_toJson, settled_of_ne, children]
    cases target <;> rfl
  | typeTest target tested =>
    have ht := hread target (by simp [children])
    rw [toJson, decode_tagged_object rfl]
    simp [nodeOf?, ht, Ty.ofJson?_toJson, settled_of_ne, children, withChildren]
  | lambda params body =>
    have hb := hread body (by simp [children])
    have hparams : (Json.array (params.map Param.toJson)).listOf? Param.ofJson? = some (params.map id) :=
      listOf?_array fun p _ => p.ofJson?_toJson
    rw [toJson, decode_tagged_object rfl]
    simp [nodeOf?, hb, hparams, settled_of_ne, children, withChildren]
  | conditional test onTrue onFalse ty =>
    have ht := hread test (by simp [children])
    have hthen := hread onTrue (by simp [children])
    have helse := hread onFalse (by simp [children])
    rw [toJson, decode_tagged_object rfl]
    simp [nodeOf?, ht, hthen, helse, Ty.ofJson?_toJson, settled_of_ne, children, withChildren]
  | param p =>
    rw [toJson, Param.toJson, decode_tagged_object rfl]
    simp [nodeOf?, Json.string?, Ty.ofJson?_toJson, settled_of_ne, withChildren]
  | array elements ty =>
    have he := hlist elements (by simp [children])
    rw [toJson, listToJson_eq_map, decode_tagged_object rfl]
    simp [nodeOf?, he, Ty.ofJson?_toJson, settled_of_ne, children, withChildren]
  | construct names args ty =>
    have ha := hlist args (by simp [children])
    rw [toJson, listToJson_eq_map, decode_tagged_object rfl]
    simp [nodeOf?, ha, orNull?_names, Ty.ofJson?_toJson, settled_of_ne, children, withChildren]
  | listInit rows ty =>
    have hr : (Json.array (rows.map fun row => Json.array (row.map toJson))).listOf? (listOf? (decode n)) =
        some (rows.map (List.map settled)) :=
      listOf?_array fun row hrow => hlist row fun c hc => List.mem_flatten.2 ⟨row, hrow, hc⟩
    -- The children come in one list; the lengths of the rows say where it is to be cut.
    have hsettled : (listInit rows ty).settled = listInit (rows.map (List.map settled)) ty := by
      rw [settled_of_ne (by simp), children, withChildren, regroup_map_flatten]
    rw [toJson, rowsToJson_eq_map, decode_tagged_object rfl]
    simp [nodeOf?, hr, hsettled, Ty.ofJson?_toJson]

theorem decode_toJson {n : Nat} {t : Term} (ht : t.Constants fun l => l.isFloat = false)
    (h : t.toJson.depth < n) : decode n t.toJson = some t.settled := by
  induction n generalizing t with
  | zero => cases h
  | succ n ih =>
    obtain ⟨hself, hchildren⟩ := every_iff.1 ht
    refine decode_node hself fun c hc => ih (hchildren c hc) ?_
    exact Nat.lt_of_lt_of_le (depth_lt_of_mem_children hc) (Nat.le_of_lt_succ h)

theorem ofJson?_toJson {t : Term} (h : t.Constants fun l => l.isFloat = false) :
    ofJson? t.toJson = some t.settled :=
  decode_toJson h (Nat.lt_succ_self _)

theorem plain_names (names : Option (List String)) :
    (ofOption (names.map fun ns => Json.array (ns.map Json.string))).Plain := by
  cases names with
  | none => exact .null
  | some ns => exact plain_array_map fun n _ => .string n

mutual
theorem plain_toJson : ∀ t : Term, t.toJson.Plain
  | .binary op left right ty => by
    rw [toJson]
    refine plain_tagged (.object ?_)
    simp [Plain.string, plain_toJson left, plain_toJson right, ty.plain_toJson]
  | .unary op operand ty => by
    rw [toJson]
    refine plain_tagged (.object ?_)
    simp [Plain.string, plain_toJson operand, ty.plain_toJson]
  | .member target m => by
    rw [toJson]
    refine plain_tagged (.object ?_)
    simp [plain_targetToJson target, m.plain_toJson]
  | .constant value ty => by
    rw [toJson]
    refine plain_tagged (.object ?_)
    simp [value.plain_toJson, ty.plain_toJson]
  | .call target m args => by
    rw [toJson]
    refine plain_tagged (.object ?_)
    simp [plain_targetToJson target, m.plain_toJson, plain_listToJson args]
  | .typeTest target tested => by
    rw [toJson]
    refine plain_tagged (.object ?_)
    simp [plain_toJson target, tested.plain_toJson]
  | .lambda params body => by
    have hparams : (Json.array (params.map Param.toJson)).Plain :=
      plain_array_map fun p _ => p.plain_toJson
    rw [toJson]
    refine plain_tagged (.object ?_)
    simp [hparams, plain_toJson body]
  | .conditional test onTrue onFalse ty => by
    rw [toJson]
    refine plain_tagged (.object ?_)
    simp [plain_toJson test, plain_toJson onTrue, plain_toJson onFalse, ty.plain_toJson]
  | .param p => by
    rw [toJson]
    exact plain_tagged p.plain_toJson
  | .array elements ty => by
    rw [toJson]
    refine plain_tagged (.object ?_)
    simp [plain_listToJson elements, ty.plain_toJson]
  | .construct names args ty => by
    rw [toJson]
    refine plain_tagged (.object ?_)
    simp [plain_names, plain_listToJson args, ty.plain_toJson]
  | .listInit rows ty => by
    rw [toJson]
    refine plain_tagged (.object ?_)
    simp [plain_rowsToJson rows, ty.plain_toJson]
theorem plain_targetToJson : ∀ target : Option Term, (targetToJson target).Plain
  | none => .null
  | some t => plain_toJson t
theorem plain_listToJson : ∀ ts : List Term, (Json.array (listToJson ts)).Plain
  | [] => .array nofun
  | t :: ts => by
    cases plain_listToJson ts with
    | array each => exact .array (List.forall_mem_cons.2 ⟨plain_toJson t, each⟩)
theorem plain_rowsToJson : ∀ rows : List (List Term), (Json.array (rowsToJson rows)).Plain
  | [] => .array nofun
  | row :: rows => by
    cases plain_rowsToJson rows with
    | array each => exact .array (List.forall_mem_cons.2 ⟨plain_listToJson row, each⟩)
end

theorem read?_compact (t : Term) : Json.read? t.toJson.compact = some t.toJson :=
  Json.read?_compact t.plain_toJson

theorem ofJson?_null_field {tag name : String} {members : List (String × Json)}
    (hnull : ∀ f ∈ (fieldsOf tag).getD [], f.name = name → f.absent = some .null)
    (hname : name ∉ members.map Prod.fst) :
    ofJson? (tagged tag (object ((name, .null) :: members))) = ofJson? (tagged tag (object members)) := by
  have hdepth : (tagged tag (object ((name, .null) :: members))).depth =
      (tagged tag (object members)).depth := by
    simp [tagged, depth, depthOfMembers]
  rw [ofJson?, ofJson?, hdepth, decode, decode, tagged?_tagged, tagged?_tagged]
  dsimp only [Option.bind_eq_bind, Option.bind_some]
  cases hfields : fieldsOf tag with
  | none => rfl
  | some fields =>
    rw [hfields, Option.getD_some] at hnull
    rw [Option.bind_some, Option.bind_some, record?_object_cons hnull hname]

/-- A term without floats is read back from its document, whether or not the document has been printed. All
it loses are the signs of zeros, which count for nothing when decimals are compared. -/
theorem survives_document {t : Term} (h : t.Constants fun l => l.isFloat = false) :
    (Json.read? t.toJson.compact).bind ofJson? = some t.settled ∧ ofJson? t.toJson = some t.settled ∧
      ((t.Constants fun l => l.isSignedZero = false) → t.settled = t) := by
  refine ⟨?_, ofJson?_toJson h, settled_eq_self⟩
  rw [read?_compact, Option.bind_some, ofJson?_toJson h]

def history : Literal :=
  .sequence [.dateTime ⟨-44, 12, 31, 23, 59, 60, 5000000, rfl, rfl⟩ (.offset (-5400)), .sequence [],
    .decimal { negative := true, mantissa := 550, scale := 2 }]

def customer : Param := ⟨"c", .entity "Customer" none []⟩

def customerHistory : Term :=
  .lambda [customer] (.construct none
    [.member none ⟨"Clock", "Now", .scalar .dateTime⟩, .constant history (.sequence .object),
      .listInit [[], [.param customer]] (.sequence customer.ty)] .object)

theorem history_all {P : Literal → Prop} (hp : ∀ l, l.isFloat = false ∧ l.isSignedZero = false → P l) :
    history.All P := by
  have hleaf : ∀ l : Literal, l.items = [] → l.isFloat = false ∧ l.isSignedZero = false → l.All P :=
    fun l hl hc => .intro (hp l hc) (by simp [hl])
  refine .intro (hp _ ⟨rfl, rfl⟩) ?_
  rw [history, Literal.items, List.forall_mem_cons, List.forall_mem_cons, List.forall_mem_singleton]
  exact ⟨hleaf _ rfl ⟨rfl, rfl⟩, hleaf _ rfl ⟨rfl, rfl⟩, hleaf _ rfl ⟨rfl, rfl⟩⟩

theorem customerHistory_constants {P : Literal → Prop} (h : history.All P) : customerHistory.Constants P := by
  have hnode : ∀ t : Term, (∀ value ty, t ≠ .constant value ty) → (∀ c ∈ t.children, c.Constants P) →
      t.Constants P := fun t ht hc => every_iff.2 ⟨fun value ty he => absurd he (ht value ty), hc⟩
  have hconstant : (Term.constant history (.sequence .object)).Constants P := by
    refine every_iff.2 ⟨fun value ty he => ?_, by simp [children]⟩
    cases he
    exact h
  have hparam : (Term.param customer).Constants P := hnode _ (by simp) (by simp [children])
  have hmember : (Term.member none ⟨"Clock", "Now", .scalar .dateTime⟩).Constants P :=
    hnode _ (by simp) (by simp [children])
  have hrows : (Term.listInit [[], [.param customer]] (.sequence customer.ty)).Constants P :=
    hnode _ (by simp) (by simpa [children] using hparam)
  refine hnode _ (by simp [customerHistory]) (List.forall_mem_singleton.2 (hnode _ (by simp) ?_))
  simp [children, hconstant, hmember, hrows]

theorem survives_document_customerHistory :
    (customerHistory.Constants fun l => l.isFloat = false) ∧
      (customerHistory.Constants fun l => l.isSignedZero = false) ∧
        (Json.read? customerHistory.toJson.compact).bind ofJson? = some customerHistory := by
  have hfloat := customerHistory_constants (history_all fun _ h => h.1)
  have hzero := customerHistory_constants (history_all fun _ h => h.2)
  obtain ⟨hread, -, hsettled⟩ := survives_document hfloat
  exact ⟨hfloat, hzero, by rw [hread, hsettled hzero]⟩

end Term

/-- A file with a printed term holds that query, unless it is nested too deep. -/
theorem CommandLine.queryOf?_compact {t : Term} (h : t.Constants fun l => l.isFloat = false) :
    queryOf? t.toJson.compact = if t.toJson.depth < nestingLimit then some t.settled else none := by
  rw [queryOf?, t.read?_compact, Option.bind_eq_bind, Option.bind_some, Term.ofJson?_toJson h]

end RemoteQuery
