import RemoteQuery.Proofs.Wire.Swap
import RemoteQuery.Wire.Query

/-!
# Parameters of nested lambdas and members of the root

A lambda's parameter is written by its name as it is, a member of the root by its name in the
dialect's letter case, and the root alone as `this`. At any place that the root is visible from and
that is written, a parameter and a member of one type have the same text for the whole exactly when
their names are written alike, and a parameter and the root only when the parameter is named `this`.
-/

namespace RemoteQuery.Dialect

open Brackets

variable {d : Dialect} {p x : Param} {m : Member} {ρ : String → String → Prop}

theorem render_param_of_ne (h : p.name ≠ x.name) :
    d.render (some x.name) (.param p) = .ok (.plain p.name) := by
  rw [render, if_neg]
  exact fun he => h (Option.some.inj he).symm

theorem isRoot_param_of_ne (h : p.name ≠ x.name) : isRoot (some x.name) (.param p) = false := by
  simpa [isRoot, Term.isParamNamed] using h

theorem swap_member (hp : p.name ≠ x.name) (hm : d.mappings.resolve? m.signature = none)
    (hty : p.ty = m.ty) (h : ρ p.name (d.naming.apply m.name)) :
    Swap d x.name ρ (.param p) (.member (some (.param x)) m) where
  ty := by simpa [Term.ty] using hty
  first := .param p
  second := .member x m
  notRoot := isRoot_param_of_ne hp
  carries := by
    intro r hr
    rw [render_param_of_ne hp] at hr
    cases hr
    have hpath : d.RootPath x.name (.member (some (.param x)) m) [m.name] := .member (.root rfl) hm
    refine ⟨_, hpath.render_eq, ?_⟩
    simpa [writtenNames, dotted, Rendered.plain] using h
  omitted := by
    intro hr
    cases hr

theorem apart_of_ne {s t : String} (hne : s ≠ t) (hs : s ≠ "(" ++ t ++ ")")
    (ht : t ≠ "(" ++ s ++ ")") : Apart s.toList t.toList where
  ne := mt String.toList_inj.1 hne
  left he := hs (String.toList_inj.1 (by simpa [parenthesised] using he))
  right he := ht (String.toList_inj.1 (by simpa [parenthesised] using he))

theorem apart_separated (s t : String) : Apart (s ++ "." ++ t).toList t.toList where
  ne he := by
  -- What is left out before a member, in a cast and in a type test tells the parameter from the
  -- root: the separator is left out with it.
    have hlen := congrArg List.length he
    simp at hlen
    omega
  left he := by
    have hpoints := congrArg (List.count '.') he
    simp [parenthesised] at hpoints
    omega
  right he := by
    have hlen := congrArg List.length he
    simp [parenthesised] at hlen
    omega

theorem apart_listed {c : Char} (hc : c ≠ '(') (pre : List Char) (s t : String) :
    Apart (String.ofList (c :: pre) ++ s ++ "," ++ t ++ ")").toList
      (String.ofList (c :: pre) ++ t ++ ")").toList := by
  have hrest : pre ++ (s.toList ++ ',' :: (t.toList ++ [')'])) ≠ pre ++ (t.toList ++ [')']) := by
    intro he
    have hlen := congrArg List.length he
    simp at hlen
    omega
  simpa using apart_of_head hc hrest

theorem swap_root (hp : p.name ≠ x.name) (hty : p.ty = x.ty) (h : ρ p.name "this")
    (ho : ∀ name : String, ρ (p.name ++ "." ++ name) name ∧
      ρ ("cast(" ++ p.name ++ "," ++ name ++ ")") ("cast(" ++ name ++ ")") ∧
      ρ ("isof(" ++ p.name ++ "," ++ name ++ ")") ("isof(" ++ name ++ ")")) :
    Swap d x.name ρ (.param p) (.param x) where
  ty := by simpa [Term.ty] using hty
  first := .param p
  second := .param x
  notRoot := isRoot_param_of_ne hp
  carries := by
    intro r hr
    rw [render_param_of_ne hp] at hr
    cases hr
    exact ⟨.plain "this", by rw [render, if_pos rfl], h⟩
  omitted := by
    intro _ r hr
    rw [render_param_of_ne hp] at hr
    cases hr
    exact ho

theorem swap_root_apart (hp : p.name ≠ x.name) (hty : p.ty = x.ty) (hthis : p.name ≠ "this")
    (hparen : p.name ≠ "(" ++ "this" ++ ")") :
    Swap d x.name (fun s t => Apart s.toList t.toList) (.param p) (.param x) := by
  apply swap_root hp hty
  · apply apart_of_ne hthis hparen
    intro he
    have hhead := congrArg (fun s => s.toList.head?) he
    simp at hhead
  · intro name
    refine ⟨apart_separated p.name name, ?_, ?_⟩
    · exact apart_listed (by decide) "ast(".toList p.name name
    · exact apart_listed (by decide) "sof(".toList p.name name

variable {c : Context} {text : String}

theorem Swap.exists_text {root : String} {a b : Term} (hρ : Stable ρ) (h : Swap d root ρ a b)
    (hv : c.Visible root) (hs : d.Shown a c) (ht : d.text (some root) (c.fill a) = .ok text) :
    ∃ other, d.text (some root) (c.fill b) = .ok other ∧ ρ text other := by
  obtain ⟨r, hr, rfl⟩ := text_eq_ok.1 ht
  obtain ⟨s, hs, hrel⟩ := h.carries_peeled hρ c hv hs (.refl c) r hr
  exact ⟨s.text, text_eq_ok.2 ⟨s, hs, rfl⟩, hrel⟩

/-- A parameter and a member that no mapping writes, of one type, in one place that the root is
visible from and that is written: the texts of the whole are the same exactly when the name of the
parameter is the name that the member is written with. With the root in that place, they are the same
only when the parameter is named as the root is written. Neither name may be the other one in
parentheses, which a negation leaves out. -/
theorem param_text_eq_iff (hp : p.name ≠ x.name) (hv : c.Visible x.name)
    (hs : d.Shown (.param p) c) (ht : d.text (some x.name) (c.fill (.param p)) = .ok text) :
    (∀ m : Member, d.mappings.resolve? m.signature = none → p.ty = m.ty →
      p.name ≠ "(" ++ d.naming.apply m.name ++ ")" →
      d.naming.apply m.name ≠ "(" ++ p.name ++ ")" →
      ∃ other, d.text (some x.name) (c.fill (.member (some (.param x)) m)) = .ok other ∧
        (text = other ↔ p.name = d.naming.apply m.name)) ∧
    (p.ty = x.ty → p.name ≠ "(" ++ "this" ++ ")" →
      ∃ other, d.text (some x.name) (c.fill (.param x)) = .ok other ∧
        (text = other → p.name = "this")) := by
  constructor
  · intro m hm hty hopen hopen'
    by_cases hname : p.name = d.naming.apply m.name
    · have hswap : Swap d x.name Eq (.param p) _ := swap_member hp hm hty hname
      obtain ⟨other, hother, heq⟩ := hswap.exists_text stable_eq hv hs ht
      exact ⟨other, hother, iff_of_true heq hname⟩
    · have hswap : Swap d x.name (fun s t => Apart s.toList t.toList) (.param p) _ :=
        swap_member hp hm hty (apart_of_ne hname hopen hopen')
      obtain ⟨other, hother, hapart⟩ := hswap.exists_text stable_apart hv hs ht
      refine ⟨other, hother, iff_of_false ?_ hname⟩
      exact fun he => hapart.ne (congrArg String.toList he)
  · intro hty hopen
    by_cases hthis : p.name = "this"
    · have hswap : Swap d x.name (fun _ _ => True) (.param p) (.param x) :=
        swap_root hp hty trivial fun _ => ⟨trivial, trivial, trivial⟩
      obtain ⟨other, hother, -⟩ := hswap.exists_text stable_true hv hs ht
      exact ⟨other, hother, fun _ => hthis⟩
    · obtain ⟨other, hother, hapart⟩ :=
        (swap_root_apart hp hty hthis hopen).exists_text stable_apart hv hs ht
      exact ⟨other, hother, fun he => absurd (congrArg String.toList he) hapart.ne⟩

def employee : Ty := .entity "Employee" none []

def employeeRoot : Param := ⟨"x", employee⟩

def peer : Param := ⟨"peer", employee⟩

def comparedWith (p : Param) : Context := .body [p] (.left .equal .hole (.param p) .boolean)

theorem param_text_eq_iff_peer :
    camelCased.text (some "x") ((comparedWith peer).fill (.param peer)) =
        .ok "peer:(peer eq peer)" ∧
      (∃ other, camelCased.text (some "x") ((comparedWith peer).fill
          (.member (some (.param employeeRoot)) ⟨"Employee", "Manager", employee⟩)) = .ok other ∧
        ("peer:(peer eq peer)" = other ↔ "peer" = "manager")) ∧
      ∃ other, camelCased.text (some "x") ((comparedWith peer).fill (.param employeeRoot)) =
          .ok other ∧ ("peer:(peer eq peer)" = other → "peer" = "this") := by
  have ht : camelCased.text (some "x") ((comparedWith peer).fill (.param peer)) =
      .ok "peer:(peer eq peer)" := by decide +kernel
  have hv : (comparedWith peer).Visible "x" := ⟨rfl, trivial⟩
  obtain ⟨hmember, hroot⟩ := param_text_eq_iff (x := employeeRoot) (by decide) hv trivial ht
  have hname : camelCased.naming.apply "Manager" = "manager" := by decide +kernel
  refine ⟨ht, ?_, hroot rfl (by decide)⟩
  rw [← hname]
  exact hmember ⟨"Employee", "Manager", employee⟩ rfl rfl (by decide +kernel) (by decide +kernel)

/-- With the root `x`, a lambda that binds `p` has one text whether `p` or the other term is in the
hole, where neither is hidden. -/
structure Confused (d : Dialect) (x p : Param) (c : Context) (t : Term) : Prop where
  bound : p.name ≠ x.name
  visible : c.Visible x.name ∧ c.Visible p.name
  shown : d.Shown (.param p) c
  text : ∃ text, d.text (some x.name) (.lambda [p] (c.fill (.param p))) = .ok text ∧
    d.text (some x.name) (.lambda [p] (c.fill t)) = .ok text

/-- A member is confused with a parameter that has its name on the wire, and the root with a
parameter named `this`. So are a member and the root with a parameter whose name is the other one in
parentheses, below a negation, and with one of another type, where only one of the two is cast. -/
theorem params_confused :
    camelCased.Confused employeeRoot ⟨"name", .scalar .string⟩
        (.left .equal .hole (.constant (.string "Ann") (.scalar .string)) .boolean)
        (.member (some (.param employeeRoot)) ⟨"Employee", "Name", .scalar .string⟩) ∧
      camelCased.Confused employeeRoot ⟨"this", employee⟩
        (.left .equal .hole (.constant .null employee) .boolean) (.param employeeRoot) ∧
      camelCased.Confused employeeRoot ⟨"(active)", .boolean⟩ (.unary .not .hole .boolean)
        (.member (some (.param employeeRoot)) ⟨"Employee", "Active", .boolean⟩) ∧
      camelCased.Confused ⟨"x", .boolean⟩ ⟨"(this)", .boolean⟩ (.unary .not .hole .boolean)
        (.param ⟨"x", .boolean⟩) ∧
      camelCased.Confused employeeRoot ⟨"cast(age,Int32)", .scalar .int32⟩
        (.unary .convert .hole (.scalar .int32))
        (.member (some (.param employeeRoot)) ⟨"Employee", "Age", .scalar .int64⟩) ∧
      camelCased.Confused ⟨"x", .scalar .int64⟩ ⟨"cast(Int32)", .scalar .int32⟩
        (.unary .convert .hole (.scalar .int32)) (.param ⟨"x", .scalar .int64⟩) := by
  refine ⟨⟨by decide, ⟨trivial, trivial⟩, trivial, "name:(name eq 'Ann')", ?_, ?_⟩,
    ⟨by decide, ⟨trivial, trivial⟩, trivial, "this:(this eq null)", ?_, ?_⟩,
    ⟨by decide, ⟨trivial, trivial⟩, trivial, "(active):not (active)", ?_, ?_⟩,
    ⟨by decide, ⟨trivial, trivial⟩, trivial, "(this):not (this)", ?_, ?_⟩,
    ⟨by decide, ⟨trivial, trivial⟩, trivial, "cast(age,Int32):cast(age,Int32)", ?_, ?_⟩,
    ⟨by decide, ⟨trivial, trivial⟩, trivial, "cast(Int32):cast(Int32)", ?_, ?_⟩⟩
  all_goals decide +kernel

end RemoteQuery.Dialect
