import ClassLang.Proofs.Compile

/-!
# What calls and creations are bound to

In a program that an analysis has accepted, every call and every creation of an object holds a
binding: a class and a signature. The signature is offered by one class of the program and comes
from one of its members, or is that of the constructor every class starts out with
(`Program.Ok.target_of_call`, `Program.Ok.target_of_create`).

A call by any name but the constructors' denotes one method, and is written with the symbol that
stands in the head of that method (`Program.call_denotes_one_method`). Under the constructors' name
methods and constructors meet: they share the keys of a class, and the search for the one does not
exclude the other (`Program.bindings_by_kind`).
-/

namespace ClassLang

variable {earlier : List Outline} {c : ClassDecl} {s : Signature} {q : Program} {Γ : Context}
  {m : Mark} {o : Option String} {f cls : String} {args : List Expr} {b : Slot MethodBinding}
  {ob : Slot VarBinding} {tys : List Ty}

/-! ### Members behind a signature -/

namespace ClassDecl

/-- The signature is that of a constructor of the class: of one it declares, or of the one it
starts out with. -/
def Constructs (c : ClassDecl) (s : Signature) : Prop :=
  s = .ofConstructor c.name [] ∨
    ∃ r, .constructor r ∈ c.members ∧ s = .ofConstructor c.name r.paramTypes

/-- The signature is that of a method of the class. -/
def Defines (c : ClassDecl) (s : Signature) : Prop :=
  ∃ r, .method s.ret s.name r ∈ c.members ∧ r.paramTypes = s.params

theorem offers_outline_iff : c.outline.Offers s ↔ c.Constructs s ∨ c.Defines s := by
  have hdeclared : s ∈ c.outline.signatures ↔
      (∃ r, .constructor r ∈ c.members ∧ s = .ofConstructor c.name r.paramTypes) ∨ c.Defines s := by
    rw [outline, Outline.ofMembers, List.mem_filterMap]
    constructor
    · rintro ⟨m, hm, hs⟩
      cases m with
      | field => cases hs
      | method ret f r =>
        obtain rfl := Option.some.inj hs
        exact .inr ⟨r, hm, rfl⟩
      | constructor r => exact .inl ⟨r, hm, (Option.some.inj hs).symm⟩
    · rintro (⟨r, hm, rfl⟩ | ⟨r, hm, hparams⟩)
      · exact ⟨_, hm, rfl⟩
      · refine ⟨_, hm, ?_⟩
        rw [Member.signature?, hparams]
  rw [Outline.offers_iff, hdeclared, Constructs, or_assoc]
  rfl

theorem Constructs.name_eq (h : c.Constructs s) : s.name = constructorName := by
  rcases h with rfl | ⟨r, -, rfl⟩ <;> rfl

theorem Constructs.ret_eq (h : c.Constructs s) : s.ret = .cls c.name := by
  rcases h with rfl | ⟨r, -, rfl⟩ <;> rfl

/-- The keys of a class are given once, so a signature is not of both kinds. -/
theorem Formed.not_both (h : c.Formed earlier) (hcons : c.Constructs s) : ¬ c.Defines s := by
  rintro ⟨r, hm, hparams⟩
  have hkey : (Member.method s.ret s.name r).key? = some (constructorName, s.params) := by
    rw [Member.key?, hparams, hcons.name_eq]
  rcases hcons with rfl | ⟨r', hm', rfl⟩
  · exact absurd (Option.some.inj hkey) (h.initial _ hm)
  · have := Member.eq_of_key h.apart hm hm' hkey rfl
    cases this

end ClassDecl

/-! ### Definitions are unique -/

/-- In a list whose elements are pairwise related, if no two with `p` are, only one has `p`. -/
theorem filter_eq_singleton {α : Type} {R : α → α → Prop} {p : α → Bool} {a : α} {l : List α}
    (hl : l.Pairwise R) (hp : ∀ x y, p x = true → p y = true → ¬ R x y) (ha : a ∈ l)
    (hpa : p a = true) : l.filter p = [a] := by
  have hfilter := hl.filter p
  have hall : ∀ x ∈ l.filter p, p x = true := fun x hx => (List.mem_filter.mp hx).2
  have hmem : a ∈ l.filter p := List.mem_filter.mpr ⟨ha, hpa⟩
  match hf : l.filter p with
  | [] =>
    rw [hf] at hmem
    cases hmem
  | [x] =>
    rw [hf, List.mem_singleton] at hmem
    rw [hmem]
  | x :: y :: rest =>
    rw [hf] at hfilter hall
    have hxy : R x y := (List.pairwise_cons.mp hfilter).1 y (List.mem_cons_self ..)
    exact absurd hxy (hp x y (hall x (by simp)) (hall y (by simp)))

/-- The member is a method of that name with those parameter types. -/
def Member.isMethodOf (name : String) (params : List Ty) : Member → Bool
  | .method _ f r => f == name && r.paramTypes == params
  | _ => false

theorem Member.key?_of_isMethodOf {m : Member} {name : String} {params : List Ty}
    (h : m.isMethodOf name params = true) : m.key? = some (name, params) := by
  cases m with
  | method ret f r =>
    simp only [isMethodOf, Bool.and_eq_true, beq_iff_eq] at h
    rw [key?, h.1, h.2]
  | field => cases h
  | constructor => cases h

theorem ClassDecl.Formed.filter_methods (h : c.Formed earlier) {r : Routine}
    (hm : .method s.ret s.name r ∈ c.members) (hparams : r.paramTypes = s.params) :
    c.members.filter (Member.isMethodOf s.name s.params) = [.method s.ret s.name r] := by
  refine filter_eq_singleton h.apart (fun x y hx hy hxy => ?_) hm ?_
  · exact hxy.2 _ (Member.key?_of_isMethodOf hx) (Member.key?_of_isMethodOf hy)
  · simp [Member.isMethodOf, hparams]

theorem Program.filter_classes (hq : Hierarchy q.outlines) (hc : c ∈ q.classes) :
    q.classes.filter (fun d => d.name = c.name) = [c] := by
  have hnames : q.classes.Pairwise fun d e => d.name ≠ e.name := by
    have := hq.names
    rwa [Program.outlines, List.map_map, List.nodup_iff_pairwise_ne, List.pairwise_map] at this
  refine filter_eq_singleton hnames (fun x y hx hy hxy => ?_) hc (by simp)
  exact hxy ((of_decide_eq_true hx).trans (of_decide_eq_true hy).symm)

/-! ### What the rules find -/

theorem Ty.Fits.mono {cs ds : List Outline} {σ τ : Ty} (h : σ.Fits cs τ) (hsub : cs ⊆ ds) :
    σ.Fits ds τ := by
  have hparent : Ty.ParentOf cs ≤ Ty.ParentOf ds := fun _ _ ⟨hc, hq⟩ => ⟨hsub hc, hq⟩
  exact Relation.ReflTransGen.mono hparent σ τ h

/-- The arguments hold types that fit the parameters. -/
theorem HasTypes.forall₂_fits {cs : List Outline} : ∀ {args : List Expr} {tys params : List Ty},
    HasTypes .annotated Γ args tys → List.Forall₂ (Ty.Fits cs) tys params →
    List.Forall₂ (fun a τ => ∃ σ, a.ty? = some σ ∧ σ.Fits cs τ) args params
  | [], _, _, .nil, .nil => .nil
  | _ :: _, _, _, .cons he hes, .cons hfit hfits =>
    .cons ⟨_, he.ty?_eq, hfit⟩ (HasTypes.forall₂_fits hes hfits)

/-- What a name with arguments was found to mean: a class of the program and a signature that the
class offers and the arguments fit. -/
structure Program.Target (q : Program) (name : String) (args : List Expr) (b : MethodBinding)
    (c : ClassDecl) : Prop where
  mem : c ∈ q.classes
  owner : c.name = b.owner
  offers : c.outline.Offers b.method
  name : b.method.name = name
  fits : List.Forall₂ (fun a τ => ∃ σ, a.ty? = some σ ∧ σ.Fits q.outlines τ) args b.method.params
  code : ∃ codes, Expr.codeList args = .ok codes

namespace Program.Ok

theorem target_of_candidate {d : Outline} (hpre : Γ.classes <+: q.outlines) (hd : d ∈ Γ.classes)
    (hargs : HasTypes .annotated Γ args tys) {target : MethodBinding} (ho : d.name = target.owner)
    (hcand : d.Candidate Γ.classes f tys target.method) : ∃ c, q.Target f args target c := by
  obtain ⟨c, hc, rfl⟩ := List.mem_map.mp (hpre.subset hd)
  obtain ⟨hoffers, hname, hfits⟩ := hcand
  refine ⟨c, hc, ho, hoffers, hname, hargs.forall₂_fits ?_, hargs.codeList_eq_ok⟩
  exact hfits.imp fun _ _ h => h.mono hpre.subset

/-- A call is bound to what a class of the program offers under its name. -/
theorem target_of_call (h : q.Ok .annotated) (hs : (Γ, .call m o f args b ob) ∈ q.sites) :
    ∃ target c, b = .filled target ∧ m.ty = .filled target.method.ret ∧
      q.Target f args target c := by
  obtain ⟨hpre, -, τ, hτ⟩ := h.typed_of_mem_sites hs
  cases hτ with
  | call ho hargs hcalls hm hb _ =>
    obtain ⟨d, hresolves, hd⟩ := hcalls
    obtain ⟨c, hc⟩ := target_of_candidate hpre hresolves.nearest.mem hargs hd
      hresolves.selects.candidate
    exact ⟨_, c, hb, hm, hc⟩

/-- A creation is bound to what its own class offers under the constructors' name. -/
theorem target_of_create (h : q.Ok .annotated) (hs : (Γ, .create m cls args b) ∈ q.sites) :
    ∃ target c, b = .filled target ∧ target.owner = cls ∧
      q.Target constructorName args target c := by
  obtain ⟨hpre, -, τ, hτ⟩ := h.typed_of_mem_sites hs
  cases hτ with
  | create _ hargs hcreates _ hb =>
    obtain ⟨d, hd, hname, hselects, howner⟩ := hcreates
    obtain ⟨c, hc⟩ := target_of_candidate hpre hd hargs (hname.trans howner.symm) hselects.candidate
    exact ⟨_, c, hb, howner, hc⟩

end Program.Ok

/-! ### The calls and creations of a program -/

def Expr.call? : Expr → Option (String × Slot MethodBinding)
  | .call _ _ f _ b _ => some (f, b)
  | _ => none

def Expr.creation? : Expr → Option (String × Slot MethodBinding)
  | .create _ cls _ b => some (cls, b)
  | _ => none

namespace Program

/-- The calls, by name, with what they are bound to. -/
def calls (q : Program) : List (String × Slot MethodBinding) := q.sites.filterMap (·.2.call?)

/-- The creations, by class, with what they are bound to. -/
def creations (q : Program) : List (String × Slot MethodBinding) :=
  q.sites.filterMap (·.2.creation?)

theorem exists_call (h : (f, b) ∈ q.calls) :
    ∃ Γ m o args ob, (Γ, .call m o f args b ob) ∈ q.sites := by
  obtain ⟨⟨Γ, e⟩, hs, he⟩ := List.mem_filterMap.mp h
  cases e with
  | call m o f args b ob =>
    cases he
    exact ⟨Γ, m, o, args, ob, hs⟩
  | _ => cases he

theorem exists_creation (h : (cls, b) ∈ q.creations) :
    ∃ Γ m args, (Γ, .create m cls args b) ∈ q.sites := by
  obtain ⟨⟨Γ, e⟩, hs, he⟩ := List.mem_filterMap.mp h
  cases e with
  | create m cls args b =>
    cases he
    exact ⟨Γ, m, args, hs⟩
  | _ => cases he

end Program

/-! ### Calls of methods -/

/-- A method of a class, as it is named in code. -/
def methodCode (owner : String) (s : Signature) : String := s!"$METHOD({owner}, {s.symbol})"

theorem code_call {target : MethodBinding} {codes : List String}
    (h : Expr.codeList args = .ok codes) : (Expr.call m o f args (.filled target) ob).code =
      .ok (methodCode target.owner target.method ++ "(" ++
        ", ".intercalate (calleeCode o ob :: codes) ++ ")") := by
  rw [Expr.code, h]
  simp [methodCode, applyCode, bind, Except.bind, toString, String.append_assoc]

/-- The text of a method: after an empty line its head, on a line of its own, then its body. -/
theorem write_method {ret : Ty} {r : Routine} (h : r.signature = .filled s)
    (hbody : Writes (Stmt.writeBlock r.body)) (out : Output) :
    ∃ body, Stmt.writeBlock r.body ⟨"", out.indent⟩ = .ok () ⟨body, out.indent⟩ ∧
      (Member.method ret f r).write cls out = .ok ()
        { text := out.text ++ "\n" ++ Output.indented out.indent
            [ret.code ++ " " ++ methodCode cls s ++ "(" ++ r.paramCode cls ++ ")"] ++ body
          indent := out.indent } := by
  obtain ⟨body, hbody⟩ := hbody out.indent
  have hempty := hbody ""
  rw [String.empty_append] at hempty
  have hhead : ∀ rest, " $METHOD(" ++ rest = " " ++ ("$METHOD(" ++ rest) := by
    intro rest
    rw [← String.append_assoc]
    rfl
  have hwrite : (Member.method ret f r).write cls out = Stmt.writeBlock r.body (out.newline.line
      (ret.code ++ " " ++ methodCode cls s ++ "(" ++ r.paramCode cls ++ ")")) := by
    rw [Member.write, Routine.write, h]
    simp [methodCode, toString, String.append_assoc, hhead]
  refine ⟨body, hempty, hwrite.trans ?_⟩
  exact (congrArg (Stmt.writeBlock r.body) (Output.foldl_line [_] out.newline)).trans (hbody _)

/-- **A call denotes one method.** Called by any name but the constructors', a method of one class
and one member of that class is meant; the call has its return type, its parameters take the
arguments, and the text of the call begins with the symbol that stands in the head of the text of the
method. -/
theorem Program.call_denotes_one_method {p q : Program} {t : ClassTable} (h : p.analyze = .ok t q)
    (hs : (Γ, .call m o f args b ob) ∈ q.sites) (hf : f ≠ constructorName) :
    ∃ owner s c r codes, b = .filled ⟨owner, s⟩ ∧ s.name = f ∧
      q.classes.filter (fun d => d.name = owner) = [c] ∧
      c.members.filter (Member.isMethodOf s.name s.params) = [.method s.ret s.name r] ∧
      m.ty = .filled s.ret ∧ args.length = r.params.length ∧
      List.Forall₂ (fun a param => ∃ σ, a.ty? = some σ ∧ σ.Fits q.outlines param.ty) args r.params ∧
      Expr.codeList args = .ok codes ∧
      (Expr.call m o f args b ob).code = .ok (methodCode owner s ++ "(" ++
        ", ".intercalate (calleeCode o ob :: codes) ++ ")") ∧
      ∀ out, ∃ body, Stmt.writeBlock r.body ⟨"", out.indent⟩ = .ok () ⟨body, out.indent⟩ ∧
        (Member.method s.ret s.name r).write owner out = .ok ()
          { text := out.text ++ "\n" ++ Output.indented out.indent
              [s.ret.code ++ " " ++ methodCode owner s ++ "(" ++ r.paramCode owner ++ ")"] ++ body
            indent := out.indent } := by
  obtain ⟨-, hok, -, -, hq⟩ := of_analyze_ok h
  obtain ⟨⟨owner, s⟩, c, rfl, hm, hc⟩ := hok.target_of_call hs
  obtain ⟨before, hcok⟩ := ClassDecl.AllOk.exists_ok hok hc.mem
  obtain ⟨codes, hcodes⟩ := hc.code
  -- a constructor would have given the call its name
  rcases ClassDecl.offers_outline_iff.mp hc.offers with hcons | ⟨r, hr, hparams⟩
  · exact absurd (hc.name.symm.trans hcons.name_eq) hf
  obtain rfl : c.name = owner := hc.owner
  have hfits := hc.fits
  rw [← hparams, Routine.paramTypes, List.forall₂_map_right_iff] at hfits
  obtain ⟨hsignature, hbody⟩ : r.signature = .filled s ∧ Writes (Stmt.writeBlock r.body) := by
    cases hcok.bodies _ hr with
    | method hsig hall => exact ⟨by rw [hsig, hparams], (Stmt.AllOk.writes hall).braced⟩
  exact ⟨c.name, s, c, r, codes, rfl, hc.name, filter_classes hq hc.mem,
    hcok.toFormed.filter_methods hr hparams, hm, hfits.length_eq, hfits, hcodes, code_call hcodes,
    write_method hsignature hbody⟩

/-- The last call in `overloading` denotes the method `f` of `B`; both have one symbol in the text. -/
theorem Program.overloading_call : ∃ Γ m o args ob,
    (Γ, .call m o "f" args (.filled ⟨"B", ⟨"f", [.cls "B"], .int⟩⟩) ob) ∈
        overloading.analyze.state.sites ∧ "f" ≠ constructorName ∧ m.ty = .filled .int ∧
      ∃ c r codes body, overloading.analyze.state.classes.filter (fun d => d.name = "B") = [c] ∧
        c.members.filter (Member.isMethodOf "f" [.cls "B"]) = [.method .int "f" r] ∧
        args.length = r.params.length ∧ Expr.codeList args = .ok codes ∧
        (Expr.call m o "f" args (.filled ⟨"B", ⟨"f", [.cls "B"], .int⟩⟩) ob).code = .ok
          ("$METHOD(B, f_3b14b952b4d13ef8)(" ++ ", ".intercalate (calleeCode o ob :: codes) ++ ")") ∧
        (Member.method .int "f" r).write "B" .empty = .ok ()
          ⟨"\n$TYPE(int) $METHOD(B, f_3b14b952b4d13ef8)(" ++ r.paramCode "B" ++ ")\n" ++ body, 0⟩ := by
  obtain ⟨table, h⟩ : ∃ table, overloading.analyze = .ok table overloading.analyze.state :=
    Outcome.eq_ok_of_isOk (by decide +kernel)
  obtain ⟨Γ, m, o, args, ob, hs⟩ : ∃ Γ m o args ob, (Γ, .call m o "f" args
      (.filled ⟨"B", ⟨"f", [.cls "B"], .int⟩⟩) ob) ∈ overloading.analyze.state.sites :=
    exists_call (by decide +kernel)
  have hf : "f" ≠ constructorName := by decide
  obtain ⟨_, _, c, r, codes, hb, _, hc, hmember, hm, hlen, _, hcodes, hcall, hwrite⟩ :=
    call_denotes_one_method h hs hf
  cases hb
  obtain ⟨body, -, hbody⟩ := hwrite .empty
  have hsymbol : methodCode "B" ⟨"f", [.cls "B"], .int⟩ = "$METHOD(B, f_3b14b952b4d13ef8)" := by
    decide +kernel
  rw [hsymbol] at hcall hbody
  have htext : "" ++ "\n" ++ Output.indented 0
      ["$TYPE(int)" ++ " " ++ "$METHOD(B, f_3b14b952b4d13ef8)" ++ "(" ++ r.paramCode "B" ++ ")"] =
        "\n$TYPE(int) $METHOD(B, f_3b14b952b4d13ef8)(" ++ r.paramCode "B" ++ ")\n" := by
    rw [← String.toList_inj]
    simp [Output.indented]
  refine ⟨Γ, m, o, args, ob, hs, hf, hm, c, r, codes, body, hc, hmember, hlen, hcodes, hcall, ?_⟩
  rw [← htext]
  exact hbody

/-! ### Constructors and methods -/

/-- **Methods and constructors meet under the constructors' name, and nowhere else.** A creation is
bound to a constructor of its class unless the class has a method with that name and those
parameters; a call is bound to a method of its owner unless it is by that name and means a
constructor of the owner. -/
theorem Program.bindings_by_kind {p q : Program} {t : ClassTable} (h : p.analyze = .ok t q) :
    (∀ Γ m cls args b, (Γ, .create m cls args b) ∈ q.sites →
      ∃ c s, q.classes.filter (fun d => d.name = cls) = [c] ∧ b = .filled ⟨cls, s⟩ ∧
        s.name = constructorName ∧ (c.Constructs s ∧ s.ret = .cls cls ↔ ¬ c.Defines s)) ∧
      ∀ Γ m o f args b ob, (Γ, .call m o f args b ob) ∈ q.sites →
        ∃ c s, q.classes.filter (fun d => d.name = c.name) = [c] ∧ b = .filled ⟨c.name, s⟩ ∧
          s.name = f ∧ (c.Defines s ↔ ¬ c.Constructs s) ∧
          (c.Constructs s → f = constructorName) := by
  obtain ⟨-, hok, -, -, hq⟩ := of_analyze_ok h
  have hkinds : ∀ {name args b c}, q.Target name args b c →
      (c.Constructs b.method ∨ c.Defines b.method) ∧
        ¬ (c.Constructs b.method ∧ c.Defines b.method) := by
    intro name args b c hc
    obtain ⟨before, hcok⟩ := ClassDecl.AllOk.exists_ok hok hc.mem
    exact ⟨ClassDecl.offers_outline_iff.mp hc.offers,
      fun hboth => hcok.toFormed.not_both hboth.1 hboth.2⟩
  constructor
  · intro Γ m cls args b hs
    obtain ⟨⟨owner, s⟩, c, rfl, rfl, hc⟩ := hok.target_of_create hs
    obtain rfl : c.name = owner := hc.owner
    obtain ⟨hsome, hboth⟩ := hkinds hc
    refine ⟨c, s, filter_classes hq hc.mem, rfl, hc.name, ?_, fun hmethod => ?_⟩
    · exact fun hcons hmethod => hboth ⟨hcons.1, hmethod⟩
    · have hcons := hsome.resolve_right hmethod
      exact ⟨hcons, hcons.ret_eq⟩
  · intro Γ m o f args b ob hs
    obtain ⟨⟨owner, s⟩, c, rfl, -, hc⟩ := hok.target_of_call hs
    obtain rfl : c.name = owner := hc.owner
    obtain ⟨hsome, hboth⟩ := hkinds hc
    refine ⟨c, s, filter_classes hq hc.mem, rfl, hc.name, ⟨?_, hsome.resolve_left⟩, ?_⟩
    · exact fun hmethod hcons => hboth ⟨hcons, hmethod⟩
    · exact fun hcons => hc.name.symm.trans hcons.name_eq

/-- A constructor that is called, by way of a subclass, and a method that is meant by `new`:

    class A { cons(int x) { } }
    class B extends A { void f() { cons(3); } }
    class C { bool cons(bool y) { return y; } void g() { new C(true); } } -/
def Program.meeting : Program := ⟨[
  ⟨.unknown, "A", none, [.constructor ⟨.unknown, [⟨.int, "x"⟩], [], .empty⟩]⟩,
  ⟨.unknown, "B", some "A", [
    .method .void "f" ⟨.unknown, [],
      [.eval .unknown (.call .unset none "cons" [.number .unset 3] .empty .empty)], .empty⟩]⟩,
  ⟨.unknown, "C", none, [
    .method .bool "cons" ⟨.unknown, [⟨.bool, "y"⟩],
      [.ret .unknown (some (.var .unset none "y" .empty .empty))], .empty⟩,
    .method .void "g" ⟨.unknown, [],
      [.eval .unknown (.create .unset "C" [.bool .unset true] .empty)], .empty⟩]⟩]⟩

/-- The creation and the call in `meeting` by kind. -/
theorem Program.meeting_by_kind :
    (∃ c s, meeting.analyze.state.classes.filter (fun d => d.name = "C") = [c] ∧
        s = ⟨constructorName, [.bool], .bool⟩ ∧
        (c.Constructs s ∧ s.ret = .cls "C" ↔ ¬ c.Defines s)) ∧
      ∃ c s, meeting.analyze.state.classes.filter (fun d => d.name = "A") = [c] ∧
        s = .ofConstructor "A" [.int] ∧ (c.Defines s ↔ ¬ c.Constructs s) := by
  obtain ⟨table, h⟩ : ∃ table, meeting.analyze = .ok table meeting.analyze.state :=
    Outcome.eq_ok_of_isOk (by decide +kernel)
  obtain ⟨Γ, m, args, hs⟩ : ∃ Γ m args, (Γ, .create m "C" args
      (.filled ⟨"C", ⟨constructorName, [.bool], .bool⟩⟩)) ∈ meeting.analyze.state.sites :=
    exists_creation (by decide +kernel)
  obtain ⟨Γ', m', o, args', ob, hs'⟩ : ∃ Γ m o args ob, (Γ, .call m o constructorName args
      (.filled ⟨"A", .ofConstructor "A" [.int]⟩) ob) ∈ meeting.analyze.state.sites :=
    exists_call (by decide +kernel)
  obtain ⟨c, s, hc, hb, _, hkind⟩ := (bindings_by_kind h).1 Γ m "C" args _ hs
  obtain ⟨c', s', hc', hb', _, hkind', _⟩ := (bindings_by_kind h).2 Γ' m' o _ args' _ ob hs'
  cases hb
  obtain ⟨hname, rfl⟩ : "A" = c'.name ∧ .ofConstructor "A" [.int] = s' := by simpa using hb'
  rw [← hname] at hc'
  exact ⟨⟨c, _, hc, rfl, hkind⟩, c', _, hc', rfl, hkind'⟩

/-- A call may be bound to a constructor, even to an inherited one, and a creation to a method that
returns no object. -/
theorem Program.constructor_called_and_method_created :
    ∃ table, meeting.analyze = .ok table meeting.analyze.state ∧
      (∃ Γ m o args ob, (Γ, .call m o constructorName args
          (.filled ⟨"A", .ofConstructor "A" [.int]⟩) ob) ∈ meeting.analyze.state.sites) ∧
      (∃ Γ m args, (Γ, .create m "C" args
          (.filled ⟨"C", ⟨constructorName, [.bool], .bool⟩⟩)) ∈ meeting.analyze.state.sites) ∧
      ∀ c ∈ meeting.analyze.state.classes, ¬ c.Defines (.ofConstructor "A" [.int]) ∧
        ¬ c.Constructs ⟨constructorName, [.bool], .bool⟩ := by
  obtain ⟨table, h⟩ : ∃ table, meeting.analyze = .ok table meeting.analyze.state :=
    Outcome.eq_ok_of_isOk (by decide +kernel)
  refine ⟨table, h, exists_call (by decide +kernel), exists_creation (by decide +kernel),
    fun c hc => ⟨?_, fun hcons => ?_⟩⟩
  · rintro ⟨r, hm, hparams⟩
    have hnone : (meeting.analyze.state.classes.all fun c =>
        c.members.all fun m => !m.isMethodOf constructorName [.int]) = true := by decide +kernel
    have hnot := List.all_eq_true.mp (List.all_eq_true.mp hnone c hc) _ hm
    rw [Bool.not_eq_true', Member.isMethodOf, hparams] at hnot
    simp [Signature.ofConstructor] at hnot
  · cases hcons.ret_eq

end ClassLang
