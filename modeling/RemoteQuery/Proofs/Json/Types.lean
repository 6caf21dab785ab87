import RemoteQuery.Json.Types
import RemoteQuery.Proofs.Json.Reader
import RemoteQuery.Proofs.Json.Record

/-!
# Types and members survive documents

The induction is on the depth that the reader of a type may go to: what is below a tag is read with one level
less, and is less deep by one level at least.
-/

namespace RemoteQuery

open Json

theorem Scalar.ofJson?_toJson (s : Scalar) : ofJson? s.toJson = some s := ofName?_name s

namespace Enumeration

theorem memberOfJson?_memberToJson (m : String × Int64) : memberOfJson? (memberToJson m) = some m := by
  simp [memberOfJson?, memberToJson, list?, string?, int64?_ofInt]

theorem ofJson?_toJson (e : Enumeration) : ofJson? e.toJson = some e := by
  have hrecord : e.toJson.record? fields = some [.string e.name, e.underlying.toJson,
      .array (e.members.map memberToJson), .bool e.isFlags] := record?_object rfl (by decide)
  have hmembers : (Json.array (e.members.map memberToJson)).listOf? memberOfJson? = some (e.members.map id) :=
    listOf?_array fun m _ => memberOfJson?_memberToJson m
  rw [ofJson?, hrecord]
  simp [string?, bool?, hmembers, Scalar.ofJson?_toJson]

end Enumeration

namespace Ty

def fieldToJson (f : String × Ty) : Json := .object [("name", .string f.1), ("ty", f.2.toJson)]

theorem fieldsToJson_eq_map (fs : List (String × Ty)) : fieldsToJson fs = fs.map fieldToJson := by
  induction fs with
  | nil => rfl
  | cons f fs ih => simp [fieldsToJson, fieldToJson, ih]

theorem depth_lt_fieldToJson (f : String × Ty) : f.2.toJson.depth < (fieldToJson f).depth :=
  depth_lt_of_mem_object (List.mem_cons_of_mem _ List.mem_cons_self)

theorem namedOfJson?_fieldToJson {read : Json → Option Ty} {f : String × Ty}
    (h : read f.2.toJson = some f.2) : namedOfJson? read (fieldToJson f) = some f := by
  have hrecord : (fieldToJson f).record? [.required "name", .required "ty"] =
      some [.string f.1, f.2.toJson] := record?_object rfl (by decide)
  rw [namedOfJson?, hrecord]
  simp [string?, h]

theorem orNull?_ofString? (s : Option String) : (ofString? s).orNull? string? = some s := by
  have h : (ofString? s).orNull? string? = some (s.map id) :=
    orNull?_ofOption fun _ _ => ⟨by simp, rfl⟩
  rw [h, Option.map_id_fun, id]

theorem decode_toJson {n : Nat} {t : Ty} (h : t.toJson.depth < n) : decode n t.toJson = some t := by
  induction n generalizing t with
  | zero => cases h
  | succ n ih =>
    have hitems : ∀ {ts : List Ty}, (array (ts.map toJson)).depth < n →
        (array (ts.map toJson)).listOf? (decode n) = some (ts.map id) := fun hd =>
      listOf?_array fun t ht => ih (Nat.lt_trans (depth_lt_of_mem_array (List.mem_map_of_mem ht)) hd)
    cases t with
    | scalar s =>
      rw [toJson, decode, if_neg (bareTag?_tagged_ne (by decide) _), tagged?_tagged]
      simp [Scalar.ofJson?_toJson]
    | enum e =>
      rw [toJson, decode, if_neg (bareTag?_tagged_ne (by decide) _), tagged?_tagged]
      simp [Enumeration.ofJson?_toJson]
    | nullable inner | sequence inner | query inner =>
      rw [toJson] at h ⊢
      rw [decode, if_neg (bareTag?_tagged_ne (by decide) _), tagged?_tagged]
      simp [ih (depth_lt_of_tagged h)]
    | entity name externalName fields =>
      rw [toJson, fieldsToJson_eq_map] at h ⊢
      have hd : (array (fields.map fieldToJson)).depth < n := Nat.lt_trans
        (depth_lt_of_mem_object (List.mem_cons_of_mem _ (List.mem_cons_of_mem _ List.mem_cons_self)))
        (depth_lt_of_tagged h)
      have hfields : (array (fields.map fieldToJson)).listOf? (namedOfJson? (decode n)) =
          some (fields.map id) := by
        refine listOf?_array fun f hf => namedOfJson?_fieldToJson (ih ?_)
        exact Nat.lt_trans (depth_lt_fieldToJson f)
          (Nat.lt_trans (depth_lt_of_mem_array (List.mem_map_of_mem hf)) hd)
      have hrecord : (Json.object [("name", .string name), ("external_name", .ofString? externalName),
          ("fields", array (fields.map fieldToJson))]).record? entityFields =
            some [.string name, .ofString? externalName, array (fields.map fieldToJson)] :=
        record?_object rfl (by decide)
      rw [decode, if_neg (bareTag?_tagged_ne (by decide) _), tagged?_tagged]
      simp only [Option.bind_eq_bind, Option.bind_some]
      rw [hrecord]
      simp [hfields, string?, orNull?_ofString?]
    | dictionary key value =>
      rw [toJson] at h ⊢
      have hd := depth_lt_of_tagged h
      have hkey := ih (Nat.lt_trans (depth_lt_of_mem_array (j := key.toJson) List.mem_cons_self) hd)
      have hvalue := ih (Nat.lt_trans (depth_lt_of_mem_array (j := value.toJson) (by simp)) hd)
      rw [decode, if_neg (bareTag?_tagged_ne (by decide) _), tagged?_tagged]
      simp [list?, hkey, hvalue]
    | tuple items =>
      rw [toJson, itemsToJson_eq_map] at h ⊢
      rw [decode, if_neg (bareTag?_tagged_ne (by decide) _), tagged?_tagged]
      simp [hitems (depth_lt_of_tagged h)]
    | function params result =>
      rw [toJson, itemsToJson_eq_map] at h ⊢
      have hd := depth_lt_of_tagged h
      have hparams := hitems (Nat.lt_trans (depth_lt_of_mem_array List.mem_cons_self) hd)
      have hresult := ih (Nat.lt_trans (depth_lt_of_mem_array (j := result.toJson) (by simp)) hd)
      rw [decode, if_neg (bareTag?_tagged_ne (by decide) _), tagged?_tagged]
      simp [list?, hparams, hresult]
    | typeLiteral => rfl

theorem ofJson?_toJson (t : Ty) : ofJson? t.toJson = some t := decode_toJson (Nat.lt_succ_self _)

end Ty

theorem Member.ofJson?_toJson (m : Member) : ofJson? m.toJson = some m := by
  have hrecord : m.toJson.record? [.required "declaring", .required "name", .required "ty"] =
      some [.string m.owner, .string m.name, m.ty.toJson] := record?_object rfl (by decide)
  rw [ofJson?, hrecord]
  simp [string?, Ty.ofJson?_toJson]

theorem Method.ofJson?_toJson (m : Method) : ofJson? m.toJson = some m := by
  have hrecord : m.toJson.record? fields = some [.string m.owner, .string m.name,
      .array (m.params.map Ty.toJson), m.result.toJson] := record?_object rfl (by decide)
  have hparams : (array (m.params.map Ty.toJson)).listOf? Ty.ofJson? = some (m.params.map id) :=
    listOf?_array fun t _ => t.ofJson?_toJson
  rw [ofJson?, hrecord]
  simp [string?, hparams, Ty.ofJson?_toJson]

theorem plain_tagged {tag : String} {body : Json} (h : body.Plain) : (tagged tag body).Plain :=
  .object (List.forall_mem_singleton.2 h)

theorem plain_array_map {α : Type} {write : α → Json} {l : List α} (h : ∀ a ∈ l, (write a).Plain) :
    (array (l.map write)).Plain :=
  .array (List.forall_mem_map.2 h)

theorem plain_ofString? (s : Option String) : (ofString? s).Plain := by
  cases s with
  | none => exact .null
  | some s => exact .string s

theorem Enumeration.plain_toJson (e : Enumeration) : e.toJson.Plain := by
  have hmembers : (array (e.members.map memberToJson)).Plain :=
    plain_array_map fun m _ => .array (by simp [Plain.string, Plain.ofInt])
  refine .object ?_
  simp [Plain.string, Plain.bool, hmembers, Scalar.toJson]

namespace Ty

mutual
theorem plain_toJson : ∀ t : Ty, t.toJson.Plain
  | .scalar s => by rw [toJson]; exact plain_tagged (.string _)
  | .enum e => by rw [toJson]; exact plain_tagged e.plain_toJson
  | .nullable t | .sequence t | .query t => by rw [toJson]; exact plain_tagged (plain_toJson t)
  | .entity name externalName fields => by
    rw [toJson]
    refine plain_tagged (.object ?_)
    simp [Plain.string, plain_ofString?, plain_fieldsToJson fields]
  | .dictionary key value => by
    rw [toJson]
    refine plain_tagged (.array ?_)
    simp [plain_toJson key, plain_toJson value]
  | .tuple items => by rw [toJson]; exact plain_tagged (plain_itemsToJson items)
  | .function params result => by
    rw [toJson]
    refine plain_tagged (.array ?_)
    simp [plain_itemsToJson params, plain_toJson result]
  | .typeLiteral => .string _
theorem plain_itemsToJson : ∀ ts : List Ty, (array (itemsToJson ts)).Plain
  | [] => .array nofun
  | t :: ts => by
    cases plain_itemsToJson ts with
    | array each => exact .array (List.forall_mem_cons.2 ⟨plain_toJson t, each⟩)
theorem plain_fieldsToJson : ∀ fs : List (String × Ty), (array (fieldsToJson fs)).Plain
  | [] => .array nofun
  | (name, t) :: fs => by
    cases plain_fieldsToJson fs with
    | array each =>
      refine .array (List.forall_mem_cons.2 ⟨.object ?_, each⟩)
      simp [Plain.string, plain_toJson t]
end

end Ty

theorem Member.plain_toJson (m : Member) : m.toJson.Plain := by
  refine .object ?_
  simp [Plain.string, m.ty.plain_toJson]

theorem Method.plain_toJson (m : Method) : m.toJson.Plain := by
  have hparams : (array (m.params.map Ty.toJson)).Plain := plain_array_map fun t _ => t.plain_toJson
  refine .object ?_
  simp [Plain.string, hparams, m.result.plain_toJson]

end RemoteQuery
